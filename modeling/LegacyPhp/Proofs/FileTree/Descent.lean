import LegacyPhp.Proofs.FileTree.Linkless
import LegacyPhp.Proofs.Path.Steps
import Mathlib.Data.List.Basic

/-!
# Going down a path

A name put at the end of a path leads one level further down from where the path leads, whatever
links are followed on the way: the names of a path are followed one after the other
(`walk_splits`), so what is behind some of them depends on the place they lead to and on how many
links are left (`locate_append`). `under` takes several names from a path; its steps show the names
(`components_under`), so different names give different paths.
-/

namespace LegacyPhp.FileTree

open Text
open List hiding splitOn

variable {t : FileTree} {here l m : Location} {name : Text} {names more : List Text}
  {path root : Path} {e : Entry}

/-! ## One name -/

/-- The names lead to a place from which any more are followed, or at the most to a file. -/
def Splits (t : FileTree) (follows : Location → List Text → Except IoFault Place) (here : Location)
    (names : List Text) : Prop :=
  (∃ l links, ∀ more, follows here (names ++ more) = walk t true links l more) ∨
    ∀ more m, follows here (names ++ more) = .ok (.occupied m) →
      more = [] ∧ ∃ c, t.entry? m = some (.file c)

theorem walkWith_splits {onLink : Location → List Text → Except IoFault Place} (links : Nat)
    (hwalk : walk t true links = walkWith t true onLink)
    (hlink : ∀ here names, Splits t onLink here names) (here : Location) (names : List Text) :
    Splits t (walkWith t true onLink) here names := by
  induction names generalizing here with
  | nil => exact .inl ⟨here, links, fun more => by rw [nil_append, hwalk]⟩
  | cons name names ih =>
    unfold Splits at *
    simp only [cons_append, walkWith]
    split
    · exact ih here
    split
    · exact ih here.dropLast
    split
    · refine .inr fun more m h => ?_
      split at h <;> cases h
    · exact ih (here ++ [name])
    · next c hentry =>
      refine .inr fun more m h => ?_
      split at h
      · next hend =>
        cases h
        exact ⟨(append_eq_nil_iff.1 (isEmpty_iff.1 hend)).2, c, hentry⟩
      · cases h
    · next target _ =>
      simp only [Bool.not_true, Bool.and_false, Bool.false_eq_true, if_false, ← append_assoc]
      exact hlink _ _

theorem walk_splits (links : Nat) (here : Location) (names : List Text) :
    Splits t (walk t true links) here names := by
  induction links generalizing here names with
  | zero => exact walkWith_splits 0 rfl (fun _ _ => .inr fun _ _ h => by cases h) here names
  | succ links ih => exact walkWith_splits (links + 1) rfl ih here names

/-- What a name at the end of a path leads to. -/
theorem locate_append (hname : Path.IsName name) (hpath : path ≠ []) :
    (∃ here links, t.locate true path = .ok here ∧ ∀ m,
      t.locate true (Path.append path name) = .ok m ↔
        walk t true links here [name] = .ok (.occupied m)) ∨
    (∀ m, t.locate true (Path.append path name) ≠ .ok m) ∧
      ∀ l, t.locate true path = .ok l → ∃ c, t.entry? l = some (.file c) := by
  have hstart : startOf t.workDir (Path.append path name) = startOf t.workDir path := by
    rw [startOf, startOf, Path.isAbsolute_append_name hname hpath]
  obtain ⟨names, trail, htrail, hsplit, hchild⟩ := Path.splitOn_append_name hname hpath
  simp only [locate_eq_ok_iff, place_eq_ok_iff, hstart, hsplit, hchild,
    Path.append_name_ne_nil hname hpath, hpath, ne_eq, not_false_eq_true, true_and]
  rcases walk_splits maxLinks (startOf t.workDir path) names with ⟨here, links, h⟩ | h
  · refine .inl ⟨here, links, ?_, fun m => by rw [h]⟩
    rw [h]
    rcases htrail with rfl | rfl <;> cases links <;> rfl
  · exact .inr ⟨fun m hm => absurd (h _ m hm).1 (by simp), fun l hl => (h _ l hl).2⟩

theorem walk_name (hname : Path.IsName name) {links : Nat}
    (hentry : t.entry? (here ++ [name]) = some e) (hlink : ∀ target, e ≠ .link target) :
    walk t true links here [name] = .ok (.occupied (here ++ [name])) := by
  cases e with
  | link target => exact absurd rfl (hlink target)
  | file | directory =>
    cases links <;> simp [walk, walkWith, hname.notIdle, hname.notUp, hentry]

/-- The path of what stands in a directory. -/
theorem locate_append_name (h : t.locate true path = .ok here)
    (hdir : t.entry? here = some .directory) (hname : Path.IsName name)
    (hentry : t.entry? (here ++ [name]) = some e) (hlink : ∀ target, e ≠ .link target) :
    t.locate true (Path.append path name) = .ok (here ++ [name]) := by
  rcases locate_append (t := t) hname (ne_nil_of_locate h) with ⟨here', links, h', hm⟩ | ⟨_, hfile⟩
  · cases h.symm.trans h'
    exact (hm _).2 (walk_name hname hentry hlink)
  · obtain ⟨c, hc⟩ := hfile here h
    rw [hdir] at hc
    cases hc

/-- Where a path leads on, a name stands, and without a link there it leads to what stands there. -/
theorem exists_of_locate_append (hname : Path.IsName name) (hpath : path ≠ [])
    (h : t.locate true (Path.append path name) = .ok m) :
    ∃ here e, t.locate true path = .ok here ∧ t.entry? (here ++ [name]) = some e ∧
      ((∀ target, e ≠ .link target) → m = here ++ [name]) := by
  rcases locate_append (t := t) hname hpath with ⟨here, links, hhere, hm⟩ | ⟨hnone, _⟩
  · have hwalk := (hm m).1 h
    cases hentry : t.entry? (here ++ [name]) with
    | some e =>
      refine ⟨here, e, hhere, hentry, fun hlink => ?_⟩
      rw [walk_name hname hentry hlink] at hwalk
      cases hwalk
      rfl
    | none => cases links <;> simp [walk, walkWith, hname.notIdle, hname.notUp, hentry] at hwalk
  · exact absurd h (hnone m)

/-! ## Many names -/

/-- The path that names lead to from another one. -/
def under (root : Path) (names : List Text) : Path := names.foldl Path.append root

theorem under_append (root : Path) (names more : List Text) :
    under root (names ++ more) = under (under root names) more := foldl_append

theorem components_under (hroot : root ≠ []) (h : ∀ n ∈ names, Path.IsName n) :
    under root names ≠ [] ∧ Path.components (under root names) =
      Path.components root ++ names.map .name := by
  induction names generalizing root with
  | nil => exact ⟨hroot, (append_nil _).symm⟩
  | cons name names ih =>
    rw [forall_mem_cons] at h
    obtain ⟨hne, hnames⟩ := ih (Path.append_name_ne_nil h.1 hroot) h.2
    refine ⟨hne, hnames.trans ?_⟩
    have hsteps : Path.steps name = [.name name] := by
      simp [Path.steps, splitOn_of_not_mem h.1.noSeparator, h.1.notIdle, Path.ofName, h.1.notUp]
    rw [Path.components_append hroot h.1.not_isAbsolute, hsteps, append_assoc]
    rfl

theorem eq_of_components_under (hroot : root ≠ []) (h : ∀ n ∈ names, Path.IsName n)
    (h' : ∀ n ∈ more, Path.IsName n)
    (heq : Path.components (under root names) = Path.components (under root more)) :
    names = more := by
  rw [(components_under hroot h).2, (components_under hroot h').2] at heq
  exact map_injective_iff.2 (fun _ _ => Component.name.inj) (append_cancel_left heq)

end LegacyPhp.FileTree

import LegacyPhp.FileTree.Access
import LegacyPhp.Proofs.Path

/-!
# Trees without links

In a tree without links a path is a list of steps: names that go down, `..` that goes up, and idle
names that go nowhere. So it still leads where it led when the files of the tree change but not its
directories, and whether links are followed makes no difference (`locate_of_directories`).
-/

namespace LegacyPhp.FileTree

open Text

/-- The locations of the entries. -/
def locations (t : FileTree) : List Location := t.entries.map (·.1)

/-- Every place is given once, and by names that paths are made of. -/
structure WellFormed (t : FileTree) : Prop where
  distinct : t.locations.Nodup
  names : ∀ l ∈ t.locations, ∀ name ∈ l, Path.IsName name

/-- No link stands anywhere in the tree. -/
def Linkless (t : FileTree) : Prop := ∀ l target, t.entry? l ≠ some (.link target)

variable {t t' : FileTree} {here l : Location} {names : List Text} {path : Path}
  {follow follow' : Bool}

theorem locate_eq_ok_iff : t.locate follow path = .ok l ↔
    t.place follow path = .ok (.occupied l) := by
  unfold locate
  split <;> simp_all

theorem place_eq_ok_iff {p : Place} : t.place follow path = .ok p ↔
    path ≠ [] ∧ walk t follow maxLinks (startOf t.workDir path) (splitOn '/' path) = .ok p := by
  unfold place
  cases path <;> simp

theorem ne_nil_of_locate (h : t.locate follow path = .ok l) : path ≠ [] :=
  (place_eq_ok_iff.1 (locate_eq_ok_iff.1 h)).1

theorem walkWith_of_directories {onLink onLink' : Location → List Text → Except IoFault Place}
    (hlinks : t.Linkless)
    (hdirs : ∀ m, t.entry? m = some .directory → t'.entry? m = some .directory)
    (hl : t'.entry? l = t.entry? l) (h : walkWith t follow onLink here names = .ok (.occupied l)) :
    walkWith t' follow' onLink' here names = .ok (.occupied l) := by
  fun_induction walkWith t follow onLink here names with
  | case1 => exact h
  | case2 here name rest hidle ih => rw [walkWith, if_pos hidle, ih h]
  | case3 here name rest hidle hup ih => rw [walkWith, if_neg hidle, if_pos hup, ih h]
  | case4 | case5 | case8 => cases h
  | case6 here name rest hidle hup hentry ih =>
    simp only [walkWith, hidle, hup, hdirs _ hentry, ih h]
    rfl
  | case7 here name rest hidle hup c hentry hrest =>
    cases h
    simp only [walkWith, hidle, hup, hl.trans hentry, hrest]
    rfl
  | case9 | case10 => rename_i hentry _; exact absurd hentry (hlinks _ _)

theorem locate_of_directories (hlinks : t.Linkless) (hwork : t'.workDir = t.workDir)
    (hdirs : ∀ m, t.entry? m = some .directory → t'.entry? m = some .directory)
    (hl : t'.entry? l = t.entry? l) (h : t.locate follow path = .ok l) :
    t'.locate follow' path = .ok l := by
  rw [locate_eq_ok_iff, place_eq_ok_iff] at h ⊢
  rw [hwork]
  exact ⟨h.1, walkWith_of_directories hlinks hdirs hl h.2⟩

theorem Linkless.of_entries {t : FileTree} (h : ∀ x ∈ t.entries, (x.2 matches .link _) = false) :
    t.Linkless := by
  intro l target hentry
  unfold entry? at hentry
  split at hentry
  · cases hentry
  · obtain ⟨before, after, hsplit, _⟩ := List.lookup_eq_some_iff.1 hentry
    cases h (l, .link target) (by simp [hsplit])

end LegacyPhp.FileTree

import LegacyPhp.Path
import LegacyPhp.Proofs.Text.Split

/-!
# The order of paths and their last names

Paths are ordered by their components, which are ordered by their kinds and then by the texts of
names; each of these orders is a lexicographic one, so they are total and transitive
(`Path.le_total`, `Path.le_trans`). `splitOn_append_name` says what a name put at the end of a path
does to its names: it follows them, or takes the place of the empty one that a trailing separator
leaves.
-/

namespace LegacyPhp

open Text

variable {a b : Path}

/-! ## Order -/

theorem transCmp_on {α β : Type} {cmp : β → β → Ordering} [Std.TransCmp cmp] (f : α → β) :
    Std.TransCmp fun a b => cmp (f a) (f b) where
  eq_swap := Std.OrientedCmp.eq_swap
  isLE_trans := Std.TransCmp.isLE_trans

theorem Text.compare_eq_compareLex :
    Text.compare = List.compareLex fun c d => Ord.compare c.toNat d.toNat := by
  funext a b
  induction a generalizing b with
  | nil => cases b <;> rfl
  | cons c a ih =>
    cases b with
    | nil => rfl
    | cons d b => rw [Text.compare, ih, List.compareLex_cons_cons]

theorem Text.transCmp_compare : Std.TransCmp Text.compare := by
  have : Std.TransCmp fun c d : Char => Ord.compare c.toNat d.toNat := transCmp_on Char.toNat
  rw [Text.compare_eq_compareLex]
  infer_instance

theorem Text.eq_of_compare {a b : Text} (h : Text.compare a b = .eq) : a = b := by
  have : Std.LawfulEqCmp fun c d : Char => Ord.compare c.toNat d.toNat :=
    { compare_self := Std.ReflCmp.compare_self
      eq_of_compare := fun h => Char.toNat_inj.1 (Std.LawfulEqCmp.eq_of_compare h) }
  rw [Text.compare_eq_compareLex] at h
  exact Std.LawfulEqCmp.eq_of_compare h

namespace Component

/-- The text of a name; other components have none. -/
def text : Component → Text
  | name n => n
  | _ => []

theorem compare_eq_compareLex :
    Component.compare = compareLex (fun a b => Ord.compare a.rank b.rank)
      (fun a b => Text.compare a.text b.text) := by
  funext a b
  cases a <;> cases b <;> rfl

theorem transCmp_compare : Std.TransCmp Component.compare := by
  have : Std.TransCmp fun a b : Component => Ord.compare a.rank b.rank := transCmp_on rank
  have : Std.TransCmp fun a b : Component => Text.compare a.text b.text :=
    @transCmp_on _ _ _ Text.transCmp_compare text
  rw [compare_eq_compareLex]
  infer_instance

theorem lawfulEqCmp_compare : Std.LawfulEqCmp Component.compare where
  compare_self := have := transCmp_compare; Std.ReflCmp.compare_self
  eq_of_compare {a b} h := by
    cases a <;> cases b <;> first | rfl | cases h | rw [Text.eq_of_compare h]

end Component

namespace Path

theorem compareComponents_eq_compareLex :
    compareComponents = List.compareLex Component.compare := by
  funext a b
  induction a generalizing b with
  | nil => cases b <;> rfl
  | cons c a ih =>
    cases b with
    | nil => rfl
    | cons d b => rw [compareComponents, ih, List.compareLex_cons_cons]

theorem transCmp_compare : Std.TransCmp Path.compare := by
  have := Component.transCmp_compare
  have : Std.TransCmp compareComponents := by
    rw [compareComponents_eq_compareLex]
    infer_instance
  exact transCmp_on components

theorem le_eq_isLE (a b : Path) : Path.le a b = (Path.compare a b).isLE := by
  unfold Path.le
  cases Path.compare a b <;> rfl

theorem le_trans (a b c : Path) (hab : Path.le a b) (hbc : Path.le b c) : Path.le a c := by
  have := transCmp_compare
  rw [le_eq_isLE] at hab hbc ⊢
  exact Std.TransCmp.isLE_trans hab hbc

theorem le_total (a b : Path) : Path.le a b || Path.le b a := by
  have := transCmp_compare
  rw [le_eq_isLE, le_eq_isLE, @Std.OrientedCmp.eq_swap _ Path.compare _ b]
  cases Path.compare a b <;> rfl

theorem compare_ne_eq_symm (h : Path.compare a b ≠ .eq) : Path.compare b a ≠ .eq := by
  have := transCmp_compare
  exact fun heq => h (Std.OrientedCmp.eq_comm.1 heq)

theorem components_eq_of_compare (h : Path.compare a b = .eq) : components a = components b := by
  have := Component.lawfulEqCmp_compare
  rw [Path.compare, compareComponents_eq_compareLex] at h
  exact Std.LawfulEqCmp.eq_of_compare h

/-! ## The last name -/

/-- A text that names one step down. -/
structure IsName (name : Text) : Prop where
  noSeparator : '/' ∉ name
  notIdle : isIdle name = false
  notUp : name ≠ ['.', '.']

instance : DecidablePred IsName := fun name =>
  decidable_of_iff ('/' ∉ name ∧ isIdle name = false ∧ name ≠ ['.', '.'])
    ⟨fun ⟨h, h', h''⟩ => ⟨h, h', h''⟩, fun h => ⟨h.noSeparator, h.notIdle, h.notUp⟩⟩

variable {path name : Text}

theorem IsName.not_isAbsolute (h : IsName name) : isAbsolute name = false := by
  unfold isAbsolute
  split
  · exact absurd List.mem_cons_self h.noSeparator
  · rfl

theorem append_name (h : IsName name) (hpath : path ≠ []) : append path name =
    if path.getLast? = some '/' then path ++ name else path ++ '/' :: name := by
  unfold append
  rw [h.not_isAbsolute, if_neg Bool.false_ne_true]
  simp [hpath]

/-- Appending a name adds one step. -/
theorem splitOn_append_name (h : IsName name) (hpath : path ≠ []) :
    ∃ names trail, (trail = [] ∨ trail = [[]]) ∧ splitOn '/' path = names ++ trail ∧
      splitOn '/' (append path name) = names ++ [name] := by
  have hsingle : splitOn '/' name = [name] := splitOn_of_not_mem h.noSeparator
  rw [append_name h hpath]
  split
  · next hlast =>
    obtain ⟨dir, rfl⟩ := List.getLast?_eq_some_iff.1 hlast
    refine ⟨splitOn '/' dir, [[]], .inr rfl, splitOn_append_sep '/' dir [], ?_⟩
    rw [List.append_assoc, List.singleton_append, splitOn_append_sep, hsingle]
  · exact ⟨_, [], .inl rfl, (List.append_nil _).symm, by rw [splitOn_append_sep, hsingle]⟩

theorem isAbsolute_append_name (h : IsName name) (hpath : path ≠ []) :
    isAbsolute (append path name) = isAbsolute path := by
  obtain ⟨c, rest, rfl⟩ := List.exists_cons_of_ne_nil hpath
  have hfirst : ∀ more : Text, isAbsolute (c :: more) = (c == '/') := by
    intro more
    by_cases hc : c = '/'
    · subst hc; rfl
    · simp [isAbsolute, hc]
  rw [append_name h hpath, hfirst rest]
  split <;> exact hfirst _

theorem append_name_ne_nil (h : IsName name) (hpath : path ≠ []) : append path name ≠ [] := by
  rw [append_name h hpath]
  split <;> exact List.append_ne_nil_of_left_ne_nil hpath _

end Path

end LegacyPhp

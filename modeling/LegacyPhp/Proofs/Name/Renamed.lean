import LegacyPhp.Name.Flat
import LegacyPhp.Options.Reader
import Mathlib.Data.List.DropRight

/-!
# Two ways to a rename table

A rename table is read from a configuration, which sets the entries as they are written, or built by
inserting them, which drops the separators in front of both names. A lookup drops them from the name
it looks for. So an entry that was read with a separator in front of its full name is never found,
and one with a separator in front of its short name is found with it. `configured_renames_agree_iff`
says for which entries both tables give the same answers, and what it takes for them to give the
same flat names.
-/

namespace LegacyPhp

open Text
open List hiding splitOn

/-- A name without the separators in front. -/
def bare (name : Text) : Text := dropLeading '\\' name

theorem bare_bare (name : Text) : bare (bare name) = bare name := dropWhile_idempotent _ _

namespace RenameTable

variable {spell : Text → Text} {pairs : List (Text × Text)} {name full short : Text}

theorem lookup_set (t : RenameTable) (full short name : Text) :
    (t.set full short).entries.lookup name =
      if name = full then some short else t.entries.lookup name := by
  unfold set
  split
  · next hname => simp [hname]
  · next hname =>
    have hne : (name == full) = false := beq_eq_false_iff_ne.2 hname
    simp only [lookup_cons, hne]
    induction t.entries with
    | nil => rfl
    | cons e entries ih =>
      obtain ⟨key, value⟩ := e
      by_cases hkey : key = full
      · simpa [lookup_cons, hkey, hne] using ih
      · simp [lookup_cons, hkey, ih]

/-- Sets the entries in turn, with both names spelt in the same way. -/
def setAll (spell : Text → Text) (pairs : List (Text × Text)) (t : RenameTable) : RenameTable :=
  pairs.foldl (fun t p => t.set (spell p.1) (spell p.2)) t

/-- The short name in the last entry for a full name. -/
def Last (spell : Text → Text) (pairs : List (Text × Text)) (full short : Text) : Prop :=
  ∃ before p after, pairs = before ++ p :: after ∧ spell p.1 = full ∧ spell p.2 = short ∧
    ∀ q ∈ after, spell q.1 ≠ full

theorem last_cons {p : Text × Text} : Last spell (p :: pairs) full short ↔
    Last spell pairs full short ∨
      (∀ q ∈ pairs, spell q.1 ≠ full) ∧ spell p.1 = full ∧ spell p.2 = short := by
  constructor
  · rintro ⟨before, q, after, heq, hfull, hshort, hafter⟩
    rcases cons_eq_append_iff.1 heq with ⟨rfl, heq⟩ | ⟨before, rfl, rfl⟩
    · cases heq
      exact .inr ⟨hafter, hfull, hshort⟩
    · exact .inl ⟨before, q, after, rfl, hfull, hshort, hafter⟩
  · rintro (⟨before, q, after, rfl, hlast⟩ | ⟨hpairs, hfull, hshort⟩)
    · exact ⟨p :: before, q, after, rfl, hlast⟩
    · exact ⟨[], p, pairs, rfl, hfull, hshort, hpairs⟩

theorem last_or_absent (spell : Text → Text) (pairs : List (Text × Text)) (full : Text) :
    (∃ short, Last spell pairs full short) ∨ ∀ q ∈ pairs, spell q.1 ≠ full := by
  induction pairs with
  | nil => exact .inr nofun
  | cons p pairs ih =>
    simp only [last_cons]
    rcases ih with ⟨short, hlast⟩ | habsent
    · exact .inl ⟨short, .inl hlast⟩
    · by_cases hp : spell p.1 = full
      · exact .inl ⟨_, .inr ⟨habsent, hp, rfl⟩⟩
      · exact .inr (forall_mem_cons.2 ⟨hp, habsent⟩)

theorem lookup_setAll (t : RenameTable) : (setAll spell pairs t).entries.lookup full = some short ↔
    Last spell pairs full short ∨
      (∀ q ∈ pairs, spell q.1 ≠ full) ∧ t.entries.lookup full = some short := by
  induction pairs generalizing t with
  | nil => simp [setAll, Last]
  | cons p pairs ih =>
    show (setAll spell pairs (t.set (spell p.1) (spell p.2))).entries.lookup full = _ ↔ _
    rw [ih, last_cons, lookup_set]
    by_cases hp : full = spell p.1
    · simp [hp]
    · simp [hp, Ne.symm hp]

/-- The table built by inserting the entries in turn. -/
def inserted (pairs : List (Text × Text)) : RenameTable :=
  pairs.foldl (fun t p => t.insert p.1 p.2) {}

theorem get?_inserted :
    (inserted pairs).get? name = some short ↔ Last bare pairs (bare name) short := by
  show (setAll bare pairs {}).entries.lookup (bare name) = _ ↔ _
  simp [lookup_setAll]

/-- An object of texts is read, and its members are set as they are. -/
theorem ofJson?_texts (pairs : List (Text × Text)) :
    ofJson? (.object (pairs.map fun p => (some p.1, .string (some p.2)))) =
      some (setAll id pairs {}) := by
  show foldlM _ _ _ = _
  generalize ({} : RenameTable) = t
  induction pairs generalizing t with
  | nil => rfl
  | cons p pairs ih => exact ih _

theorem get?_setAll_id (h : (pairs.map Prod.fst).Nodup) :
    (setAll id pairs {}).get? name = some short ↔ (bare name, short) ∈ pairs := by
  have hlast : Last id pairs (bare name) short ↔ (bare name, short) ∈ pairs := by
    constructor
    · rintro ⟨before, p, after, rfl, hfull, rfl, -⟩
      simp [← hfull]
    · intro hmem
      obtain ⟨before, after, rfl⟩ := append_of_mem hmem
      refine ⟨before, _, after, rfl, rfl, rfl, fun q hq heq => ?_⟩
      rw [map_append, map_cons] at h
      exact (nodup_cons.1 (nodup_append.1 h).2.1).1 (mem_map.2 ⟨q, hq, heq⟩)
  show (setAll id pairs {}).entries.lookup (bare name) = _ ↔ _
  simp [lookup_setAll, hlast]

/-- Two tables with the same short names for names with a separator inside, the last segment
standing in for an entry. -/
def FlatAlike (t t' : RenameTable) : Prop := ∀ name, '\\' ∈ bare name →
  (t.get? name).getD (lastSegment (bare name)) = (t'.get? name).getD (lastSegment (bare name))

theorem flatAlike_iff {t t' : RenameTable} : FlatAlike t t' ↔
    ∀ (o : ConvertOptions) (name : Text), ConvertOptions.flatten { o with renamed := t } name =
      ConvertOptions.flatten { o with renamed := t' } name := by
  have hget : ∀ t name, get? t (dropLeading '\\' name) = t.get? name := fun t name =>
    congrArg (lookup · t.entries) (bare_bare name)
  constructor
  · intro h o name
    unfold ConvertOptions.flatten
    by_cases hname : '\\' ∈ dropLeading '\\' name
    · have hsame : (t.get? name).getD (lastSegment (dropLeading '\\' name)) = _ := h name hname
      simp only [hname, not_true_eq_false, if_false, hget, hsame]
      rfl
    · simp only [hname, not_false_eq_true, if_true]
  · -- with everything protected and no prefix, the flat name is the entry or the last segment
    intro h name hname
    have hflat := h { protectedRoots := [], prefixed := false } name
    unfold bare at hname ⊢
    simpa [ConvertOptions.flatten, ConvertOptions.isProtected, ConvertOptions.withPrefix, hname,
      hget] using hflat

/-- Of entries with distinct full names, the table that is read finds those without a separator in
front, with the short name as it is written. The table in which they are inserted finds the last
entry for a name, less the separators in front of either. Both agree exactly if what the second one
finds is written among the entries, and they give the same flat names exactly if they are alike on
names with a separator inside. -/
theorem configured_renames_agree_iff (h : (pairs.map Prod.fst).Nodup) :
    ∃ table, ofJson? (.object (pairs.map fun p => (some p.1, .string (some p.2)))) = some table ∧
      (∀ name short, table.get? name = some short ↔ (bare name, short) ∈ pairs) ∧
      (∀ name short, (inserted pairs).get? name = some short ↔ Last bare pairs (bare name) short) ∧
      ((∀ name, table.get? name = (inserted pairs).get? name) ↔
        ∀ full short, Last bare pairs full short → (full, short) ∈ pairs) ∧
      ((∀ (o : ConvertOptions) (name : Text),
        ConvertOptions.flatten { o with renamed := table } name =
          ConvertOptions.flatten { o with renamed := inserted pairs } name) ↔
          FlatAlike table (inserted pairs)) := by
  refine ⟨_, ofJson?_texts pairs, fun _ _ => get?_setAll_id h, fun _ _ => get?_inserted, ?_,
    flatAlike_iff.symm⟩
  constructor
  · intro hagree full short hlast
    have hfull : bare full = full := by
      obtain ⟨-, p, -, -, rfl, -⟩ := hlast
      exact bare_bare _
    rw [← hfull] at hlast ⊢
    exact (get?_setAll_id h).1 ((hagree full).trans (get?_inserted.2 hlast))
  · intro hpairs name
    ext short
    rw [get?_setAll_id h, get?_inserted]
    refine ⟨fun hmem => ?_, hpairs _ _⟩
    -- the name has a last entry, and its short name is the one that is written
    obtain ⟨last, hlast⟩ := (last_or_absent bare pairs (bare name)).resolve_right
      fun habsent => habsent _ hmem (bare_bare name)
    have hsame := (get?_setAll_id h).2 (hpairs _ _ hlast)
    rw [(get?_setAll_id h).2 hmem] at hsame
    cases hsame
    exact hlast

/-- With a separator in front of its full name an entry is lost in a configuration. -/
theorem configured_renames_differ :
    ([("\\A\\B".toList, "C".toList)].map Prod.fst).Nodup ∧
    ∃ table, ofJson? (.object [(some "\\A\\B".toList, .string (some "C".toList))]) = some table ∧
      ¬ ∀ name, table.get? name = (inserted [("\\A\\B".toList, "C".toList)]).get? name := by
  have hdistinct : ([("\\A\\B".toList, "C".toList)].map Prod.fst).Nodup := by simp
  obtain ⟨table, hread, -, -, hagree, -⟩ := configured_renames_agree_iff hdistinct
  refine ⟨hdistinct, table, hread, fun h => ?_⟩
  have hmem := hagree.1 h "A\\B".toList "C".toList ⟨[], _, [], rfl, rfl, rfl, nofun⟩
  exact absurd hmem (by decide)

end RenameTable

end LegacyPhp

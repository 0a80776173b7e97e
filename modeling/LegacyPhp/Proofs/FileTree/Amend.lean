import LegacyPhp.Proofs.FileTree.Linkless
import Mathlib.Data.List.Basic

/-!
# One entry changed

`amend` puts something else, or nothing, where an entry stands, and leaves the other entries and
their order alone. Writing to a file and removing one are amendments (`put_eq_amend`,
`erase_eq_amend`). Amendments at different places commute as values, whatever stands there
(`amend_comm`), and an amendment of a file takes away no directory, so paths to other places still
lead there.
-/

namespace LegacyPhp.FileTree

open Text List

/-- An entry, or `e?` in its place if it stands at the location. -/
def amendEntry (l : Location) (e? : Option Entry) (entry : Location × Entry) :
    Option (Location × Entry) :=
  if entry.1 = l then e?.map (l, ·) else some entry

/-- The tree with `e?` in place of the entry at a location. -/
def amend (t : FileTree) (l : Location) (e? : Option Entry) : FileTree :=
  { t with entries := t.entries.filterMap (amendEntry l e?) }

section

variable {t : FileTree} {l m : Location} {e e' : Entry} {e? : Option Entry}
  {entries : List (Location × Entry)}

theorem amendEntry_self (l : Location) (e : Entry) (e? : Option Entry) :
    amendEntry l e? (l, e) = e?.map (l, ·) := if_pos rfl

theorem amendEntry_of_ne (h : m ≠ l) (e : Entry) (e? : Option Entry) :
    amendEntry l e? (m, e) = some (m, e) := if_neg h

/-- Amendments at different places can be made in either order. -/
theorem amend_comm (t : FileTree) (h : l ≠ m) (e? f? : Option Entry) :
    (t.amend l e?).amend m f? = (t.amend m f?).amend l e? := by
  have hentry : ∀ entry, (amendEntry l e? entry).bind (amendEntry m f?) =
      (amendEntry m f? entry).bind (amendEntry l e?) := by
    rintro ⟨k, old⟩
    by_cases hl : k = l
    · subst hl
      rw [amendEntry_self, amendEntry_of_ne h, Option.bind_some, amendEntry_self]
      cases e? with
      | none => rfl
      | some e => exact amendEntry_of_ne h e f?
    · rw [amendEntry_of_ne hl, Option.bind_some]
      by_cases hm : k = m
      · subst hm
        rw [amendEntry_self]
        cases f? with
        | none => rfl
        | some f => exact (amendEntry_of_ne hl f e?).symm
      · rw [amendEntry_of_ne hm, Option.bind_some, amendEntry_of_ne hl]
  simp only [amend, filterMap_filterMap, hentry]

/-! ## What stands where -/

theorem lookup_amend_of_ne (h : m ≠ l) :
    (entries.filterMap (amendEntry l e?)).lookup m = entries.lookup m := by
  induction entries with
  | nil => rfl
  | cons entry entries ih =>
    obtain ⟨k, old⟩ := entry
    by_cases hk : k = l
    · have hm : (m == k) = false := beq_eq_false_iff_ne.2 fun heq => h (heq.trans hk)
      subst hk
      cases e? <;> simp [amendEntry_self, lookup_cons, hm, ih]
    · simp [amendEntry_of_ne hk, lookup_cons, ih]

theorem lookup_amend_self (h : l ∈ entries.map (·.1)) :
    (entries.filterMap (amendEntry l e?)).lookup l = e? := by
  cases e? with
  | none =>
    rw [lookup_eq_none_iff]
    intro entry hentry
    obtain ⟨⟨k, old⟩, _, hk⟩ := mem_filterMap.1 hentry
    by_cases heq : k = l
    · rw [heq, amendEntry_self] at hk
      cases hk
    · rw [amendEntry_of_ne heq] at hk
      cases hk
      exact bne_iff_ne.2 fun hl => heq hl.symm
  | some e =>
    induction entries with
    | nil => cases h
    | cons entry entries ih =>
      obtain ⟨k, old⟩ := entry
      by_cases hk : k = l
      · subst hk
        simp [amendEntry_self]
      · have hl : (l == k) = false := beq_eq_false_iff_ne.2 fun hl => hk hl.symm
        have hmem : l ∈ entries.map (·.1) :=
          (mem_cons.1 h).resolve_left fun hl => hk hl.symm
        simp [amendEntry_of_ne hk, lookup_cons, hl, ih hmem]

theorem mem_locations_of_entry? (h : t.entry? l = some e) (hl : l ≠ []) : l ∈ t.locations := by
  unfold entry? at h
  rw [if_neg (by simpa using hl)] at h
  obtain ⟨before, after, hsplit, _⟩ := lookup_eq_some_iff.1 h
  rw [locations, hsplit]
  simp

theorem entry?_amend_of_ne (h : m ≠ l) : entry? (t.amend l e?) m = t.entry? m := by
  unfold entry?
  split
  · rfl
  · exact lookup_amend_of_ne h

theorem entry?_amend_self (hl : l ≠ []) (h : l ∈ t.locations) : entry? (t.amend l e?) l = e? := by
  unfold entry?
  rw [if_neg (by simpa using hl)]
  exact lookup_amend_self h

/-! ## Well-formed trees -/

theorem locations_amend_sublist (t : FileTree) (l : Location) (e? : Option Entry) :
    (t.amend l e?).locations.Sublist t.locations := by
  unfold locations amend
  induction t.entries with
  | nil => exact .slnil
  | cons entry entries ih =>
    obtain ⟨k, old⟩ := entry
    by_cases hk : k = l
    · subst hk
      cases e? with
      | none => simpa [amendEntry_self] using ih.cons k
      | some e => simpa [amendEntry_self] using ih
    · simpa [amendEntry_of_ne hk] using ih

theorem WellFormed.amend (h : t.WellFormed) (l : Location) (e? : Option Entry) :
    (t.amend l e?).WellFormed where
  distinct := h.distinct.sublist (locations_amend_sublist t l e?)
  names m hm := h.names m ((locations_amend_sublist t l e?).subset hm)

theorem Linkless.amend (h : t.Linkless) (hl : l ≠ []) (hmem : l ∈ t.locations)
    (he : ∀ target, e? ≠ some (.link target)) : (t.amend l e?).Linkless := by
  intro m target
  by_cases hm : m = l
  · rw [hm, entry?_amend_self hl hmem]
    exact he target
  · rw [entry?_amend_of_ne hm]
    exact h m target

theorem lookup_of_mem (hdistinct : (entries.map (·.1)).Nodup) (hmem : (l, e) ∈ entries) :
    entries.lookup l = some e := by
  induction entries with
  | nil => cases hmem
  | cons entry entries ih =>
    obtain ⟨k, old⟩ := entry
    rw [map_cons, nodup_cons] at hdistinct
    rcases mem_cons.1 hmem with heq | hmem
    · cases heq
      simp
    · have hk : (l == k) = false := beq_eq_false_iff_ne.2 fun heq =>
        hdistinct.1 (mem_map.2 ⟨_, hmem, heq⟩)
      simp [lookup_cons, hk, ih hdistinct.2 hmem]

theorem filterMap_amend_eq_self (h : ∀ entry ∈ entries, amendEntry l e? entry = some entry) :
    entries.filterMap (amendEntry l e?) = entries := by
  rw [filterMap_congr h, filterMap_some]

theorem amend_entry? (h : t.WellFormed) (hl : l ≠ []) (he : t.entry? l = some e) :
    t.amend l (some e) = t := by
  have hkept : ∀ entry ∈ t.entries, amendEntry l (some e) entry = some entry := by
    rintro ⟨k, old⟩ hentry
    by_cases hk : k = l
    · subst hk
      unfold entry? at he
      rw [if_neg (by simpa using hl), lookup_of_mem h.distinct hentry] at he
      cases he
      exact amendEntry_self k e _
    · exact amendEntry_of_ne hk old _
  rw [FileTree.amend, filterMap_amend_eq_self hkept]

/-- Writing where something stands. -/
theorem putEntry_eq_amend (hdistinct : (entries.map (·.1)).Nodup) (hmem : l ∈ entries.map (·.1)) :
    putEntry l e entries = entries.filterMap (amendEntry l (some e)) := by
  induction entries with
  | nil => cases hmem
  | cons entry entries ih =>
    obtain ⟨k, old⟩ := entry
    rw [map_cons, nodup_cons] at hdistinct
    by_cases hk : k = l
    · subst hk
      have hkept : ∀ entry ∈ entries, amendEntry k (some e) entry = some entry := by
        rintro ⟨m, other⟩ hentry
        exact amendEntry_of_ne (fun heq => hdistinct.1 (mem_map.2 ⟨_, hentry, heq⟩)) other _
      simp [putEntry, amendEntry_self, filterMap_amend_eq_self hkept]
    · have hmem : l ∈ entries.map (·.1) :=
        (mem_cons.1 hmem).resolve_left fun hl => hk hl.symm
      simp [putEntry, hk, amendEntry_of_ne hk, ih hdistinct.2 hmem]

theorem put_eq_amend (h : t.WellFormed) (hmem : l ∈ t.locations) (e : Entry) :
    t.put l e = t.amend l (some e) := by
  rw [put, putEntry_eq_amend h.distinct hmem]
  rfl

theorem erase_eq_amend (t : FileTree) (l : Location) : t.erase l = t.amend l none := by
  unfold erase amend
  rw [← filterMap_eq_filter]
  congr 2
  funext entry
  by_cases hl : entry.1 = l <;> simp [amendEntry, Option.guard, hl]

/-! ## Work on files -/

variable {path : Path} {c : Content} {text : Text}

theorem read_eq_ok_iff : t.read path = .ok text ↔
    ∃ l, t.locate true path = .ok l ∧ t.entry? l = some (.file (.text text)) := by
  unfold read
  cases t.locate true path with
  | error e => simp
  | ok l =>
    simp only [Except.ok.injEq, exists_eq_left']
    split <;> simp_all

theorem location_ne_nil_of_file (h : t.entry? l = some (.file c)) : l ≠ [] := by
  rintro rfl
  cases h

theorem write_eq_amend (ht : t.WellFormed) (hpath : t.locate true path = .ok l)
    (hfile : t.entry? l = some (.file c)) (text : Text) :
    t.write path text = .ok (t.amend l (some (.file (.text text)))) := by
  have hmem := mem_locations_of_entry? hfile (location_ne_nil_of_file hfile)
  rw [write, locate_eq_ok_iff.1 hpath]
  simp [hfile, put_eq_amend ht hmem]

theorem remove_eq_amend (hlinks : t.Linkless) (hpath : t.locate true path = .ok l)
    (hfile : t.entry? l = some (.file c)) : t.remove path = .ok (t.amend l none) := by
  have hlocate : t.locate false path = .ok l :=
    locate_of_directories hlinks rfl (fun _ hm => hm) rfl hpath
  rw [remove, hlocate]
  simp [hfile, erase_eq_amend]

end

end LegacyPhp.FileTree

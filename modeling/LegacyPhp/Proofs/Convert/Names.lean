import LegacyPhp.Proofs.Convert.Drift
import LegacyPhp.Proofs.Text.Split
import LegacyPhp.Name.Flat
import LegacyPhp.Text.Word

/-!
# What flattening does to names

A flat name has no separators, whatever it is made from, as long as the options bring in none. So
putting the flat name for a name with a separator takes loose characters away, and for a name
without one it changes nothing outside all namespaces.

`PlainOptions` says what is asked of the options: what they put into names are identifier
characters, and a protected root is made of words with single separators between them.
-/

namespace LegacyPhp

open Text Scan Drift List

variable {name t : Text} {c : Char} {o : ConvertOptions}

/-! ## Plain texts -/

/-- A character of a name, of its separators, or the mark between alternatives. -/
def isPlainChar (c : Char) : Bool := isIdentChar c || c == '\\' || c == '|'

/-- A text made of names, separators and marks between alternatives. -/
def Plain (t : Text) : Prop := ∀ c ∈ t, isPlainChar c

theorem Plain.of_sublist {a b : Text} (h : Plain b) (hab : a.Sublist b) : Plain a :=
  fun c hc => h c (hab.subset hc)

theorem Plain.append {a b : Text} (ha : Plain a) (hb : Plain b) : Plain (a ++ b) := by
  intro c hc
  rcases mem_append.1 hc with hc | hc
  · exact ha c hc
  · exact hb c hc

theorem Plain.of_all (h : t.all isIdentChar) : Plain t := by
  intro c hc
  simp [isPlainChar, all_eq_true.1 h c hc]

theorem not_mem_of_all (h : t.all isIdentChar) : '\\' ∉ t := by
  intro hc
  have := all_eq_true.1 h '\\' hc
  cases this

theorem isPlainChar_not_mark (h : isPlainChar c) :
    isCommentMark c = false ∧ isAddedMark c = false ∧ (isLoose c → c = '\\') := by
  simp only [isPlainChar, Bool.or_eq_true, beq_iff_eq] at h
  rcases h with (h | rfl) | rfl
  · obtain ⟨h₁, h₂, h₃⟩ := isIdentChar_not_mark h
    exact ⟨h₁, h₂, fun hc => by rw [h₃] at hc; cases hc⟩
  · exact ⟨rfl, rfl, fun _ => rfl⟩
  · exact ⟨rfl, rfl, fun hc => by cases hc⟩

namespace Plain

variable {a b : Text}

theorem commentMarks_eq (h : Plain a) : commentMarks a = 0 :=
  countP_eq_zero.2 fun c hc => by simp [(isPlainChar_not_mark (h c hc)).1]

theorem addedMarks_eq (h : Plain a) : addedMarks a = 0 :=
  countP_eq_zero.2 fun c hc => by simp [(isPlainChar_not_mark (h c hc)).2.1]

theorem looseMarks_eq (h : Plain a) (hsep : '\\' ∉ a) : looseMarks a = 0 := by
  refine countP_eq_zero.2 fun c hc hloose => ?_
  rw [(isPlainChar_not_mark (h c hc)).2.2 hloose] at hc
  exact hsep hc

theorem sheds (ha : Plain a) (hb : Plain b) (hsep : '\\' ∈ a) (hflat : '\\' ∉ b) : Sheds a b := by
  refine .inr ⟨?_, .inr ⟨?_, ?_⟩⟩
  · rw [ha.commentMarks_eq, hb.commentMarks_eq]
  · rw [ha.addedMarks_eq, hb.addedMarks_eq]
  · rw [hb.looseMarks_eq hflat]
    exact countP_pos_iff.2 ⟨'\\', hsep, rfl⟩

theorem keeps (ha : Plain a) (hb : Plain b) (hflat : '\\' ∉ b) : Keeps a b := by
  by_cases hsep : '\\' ∈ a
  · exact (ha.sheds hb hsep hflat).keeps
  · refine .inr ⟨?_, ?_, ?_⟩
    · rw [ha.commentMarks_eq, hb.commentMarks_eq]
    · rw [ha.addedMarks_eq, hb.addedMarks_eq]
    · rw [ha.looseMarks_eq hsep, hb.looseMarks_eq hflat]

end Plain

theorem isIdentChar_of_isWordChar (h : isWordChar c) : isIdentChar c := by
  unfold isWordChar at h
  unfold isIdentChar
  split at h
  · rw [h, Bool.true_or]
  · next hbig =>
    have hle : 0x80 ≤ c.toNat := Nat.le_of_not_lt hbig
    simp [hle]

/-! ## Options, scopes and flat names -/

/-- A word of a qualified name. -/
def IsNameWord (w : Text) : Prop := w ≠ [] ∧ w.all isIdentChar

/-- What the options put into names are identifier characters, and protected roots are qualified
names. -/
structure PlainOptions (o : ConvertOptions) : Prop where
  classPrefix : o.classPrefix.all isIdentChar
  targets : ∀ e ∈ o.renamed.entries, e.2.all isIdentChar
  roots : ∀ root ∈ o.protectedRoots, ∃ words : List Text,
    words ≠ [] ∧ (∀ w ∈ words, IsNameWord w) ∧ dropAround '\\' root = join ['\\'] words

theorem plainOptions_default : PlainOptions {} where
  classPrefix := by decide
  targets e he := by cases he
  roots root hroot := by
    rw [mem_singleton.1 hroot]
    refine ⟨["Nette".toList], by decide, fun w hw => ?_, by decide⟩
    rw [mem_singleton.1 hw]
    exact ⟨by decide, by decide⟩

/-- A scope whose names are plain. -/
structure Scope.Plain (s : Scope) : Prop where
  current : LegacyPhp.Plain s.current
  aliases : ∀ e ∈ s.aliases, LegacyPhp.Plain e.2

theorem Scope.plain_empty : Scope.Plain {} where
  current c hc := by cases hc
  aliases e he := by cases he

theorem lastSegment_sublist (name : Text) : (lastSegment name).Sublist name := by
  unfold lastSegment
  rw [← reverse_sublist, reverse_reverse]
  exact takeWhile_sublist _

theorem not_mem_lastSegment (name : Text) : '\\' ∉ lastSegment name := by
  intro hc
  rw [lastSegment, mem_reverse] at hc
  have hall : (name.reverse.takeWhile (· != '\\')).all (· != '\\') := all_takeWhile
  have hne := all_eq_true.1 hall _ hc
  simp at hne

theorem flatten_of_not_mem (o : ConvertOptions) (h : '\\' ∉ name) : o.flatten name = name := by
  have hdrop : dropLeading '\\' name = name := by
    cases name with
    | nil => rfl
    | cons c name =>
      have hc : ¬ c = '\\' := fun hc => h (by simp [hc])
      simp [dropLeading, hc]
  unfold ConvertOptions.flatten
  rw [hdrop, if_pos h]

/-- Flat names have no separators if the options bring in none. -/
theorem not_mem_flatten (hpre : '\\' ∉ o.classPrefix)
    (htargets : ∀ e ∈ o.renamed.entries, '\\' ∉ e.2) (name : Text) : '\\' ∉ o.flatten name := by
  unfold ConvertOptions.flatten
  simp only
  split
  · next hflat => exact hflat
  split
  · -- the short name is a target of the options or the last segment
    have hshort : '\\' ∉ (o.renamed.get? (dropLeading '\\' name)).getD
        (lastSegment (dropLeading '\\' name)) := by
      cases htarget : o.renamed.get? (dropLeading '\\' name) with
      | none => exact not_mem_lastSegment _
      | some target => exact htargets _ (mem_of_lookup htarget)
    unfold ConvertOptions.withPrefix
    split
    · simp [hpre, hshort]
    · exact hshort
  · exact not_mem_lastSegment _

/-- Flat names are plain and have no separators. -/
theorem flatten_plain (ho : PlainOptions o) (h : Plain name) :
    Plain (o.flatten name) ∧ '\\' ∉ o.flatten name := by
  have hfull : Plain (dropLeading '\\' name) := h.of_sublist (dropWhile_sublist _)
  have hlast : Plain (lastSegment (dropLeading '\\' name)) :=
    hfull.of_sublist (lastSegment_sublist _)
  refine ⟨?_, not_mem_flatten (not_mem_of_all ho.classPrefix)
    (fun e he => not_mem_of_all (ho.targets e he)) name⟩
  unfold ConvertOptions.flatten
  simp only
  split
  · exact hfull
  split
  · have hshort : Plain ((o.renamed.get? (dropLeading '\\' name)).getD
        (lastSegment (dropLeading '\\' name))) := by
      cases htarget : o.renamed.get? (dropLeading '\\' name) with
      | none => exact hlast
      | some target => exact .of_all (ho.targets _ (mem_of_lookup htarget))
    unfold ConvertOptions.withPrefix
    split
    · exact (Plain.of_all ho.classPrefix).append hshort
    · exact hshort
  · exact hlast

namespace Scope

theorem resolve?_empty (h : '\\' ∉ name) : resolve? {} name = some name := by
  unfold resolve?
  split
  · rfl
  · next hname =>
    simp only [Bool.or_eq_true, not_or] at hname
    split
    · next rooted => exact absurd mem_cons_self h
    · have hsegments : hasEmptySegment name = false := by
        rw [hasEmptySegment, splitOn_of_not_mem h]
        simpa using hname.1
      rw [hsegments]
      rfl

theorem resolve?_plain {s : Scope} (hs : s.Plain) {full : Text} (hname : LegacyPhp.Plain name)
    (h : s.resolve? name = some full) : LegacyPhp.Plain full := by
  unfold resolve? at h
  split at h
  · cases h; exact hname
  · split at h
    · next rooted =>
      split at h
      · cases h
      · cases h; exact hname.of_sublist (sublist_cons_self _ _)
    · split at h
      · cases h
      · cases h
        -- an import replaces the first segment, a namespace stands in front of the whole
        unfold qualify
        split
        · next full hfull =>
          have hplain := hs.aliases _ (mem_of_lookup hfull)
          exact hplain.append (hname.of_sublist (drop_sublist _ _))
        · split
          · exact hname
          · refine hs.current.append fun c hc => ?_
            rcases mem_cons.1 hc with rfl | hc
            · rfl
            · exact hname c hc

end Scope

end LegacyPhp

import LegacyPhp.Text.Basic

/-!
# Texts cut at a character

`splitOn` cuts a text at a character and `join` puts the parts together again. `join_splitOn` says
that nothing is lost. The other way round a part may hold the character itself, so reading back what
`join` wrote cuts every part once more (`splitOn_join`). Both rest on one equation: a cut at one
occurrence falls apart into the cuts on its two sides (`splitOn_append_sep`).
-/

namespace LegacyPhp.Text

open List hiding splitOn

variable {sep : Char} {cs part : Text}

theorem splitOn_cons (sep c : Char) (cs : Text) : ∃ part parts, splitOn sep cs = part :: parts ∧
      splitOn sep (c :: cs) = if c = sep then [] :: part :: parts else (c :: part) :: parts := by
  induction cs generalizing c with
  | nil => exact ⟨[], [], rfl, by simp [splitOn]⟩
  | cons d cs ih =>
    obtain ⟨part, parts, -, hsplit⟩ := ih d
    rw [splitOn.eq_2 sep c, hsplit]
    split
    · exact ⟨[], part :: parts, rfl, rfl⟩
    · exact ⟨d :: part, parts, rfl, rfl⟩

theorem splitOn_append_sep (sep : Char) (a b : Text) :
    splitOn sep (a ++ sep :: b) = splitOn sep a ++ splitOn sep b := by
  induction a with
  | nil => simp [splitOn]
  | cons c a ih =>
    obtain ⟨part, parts, ha, hca⟩ := splitOn_cons sep c a
    obtain ⟨part', parts', hab, hcab⟩ := splitOn_cons sep c (a ++ sep :: b)
    rw [ih, ha, cons_append] at hab
    obtain ⟨rfl, rfl⟩ := cons.inj hab
    rw [cons_append, hcab, hca]
    split <;> rfl

theorem splitOn_of_not_mem (h : sep ∉ cs) : splitOn sep cs = [cs] := by
  induction cs with
  | nil => rfl
  | cons c cs ih =>
    have hc : ¬ c = sep := fun hc => h (by simp [hc])
    have hcs : sep ∉ cs := fun hmem => h (mem_cons_of_mem c hmem)
    simp [splitOn, hc, ih hcs]

theorem splitOn_eq (sep : Char) (cs : Text) : splitOn sep cs = cs.takeWhile (· != sep) ::
      match cs.dropWhile (· != sep) with
      | [] => []
      | _ :: rest => splitOn sep rest := by
  induction cs with
  | nil => rfl
  | cons c cs ih =>
    by_cases hc : c = sep
    · simp [splitOn, hc]
    · simp [splitOn, hc, ih]

/-- No part holds the character. -/
theorem not_mem_of_mem_splitOn (h : part ∈ splitOn sep cs) : sep ∉ part := by
  induction cs generalizing part with
  | nil => simp_all [splitOn]
  | cons c cs ih =>
    obtain ⟨first, parts, hparts, hsplit⟩ := splitOn_cons sep c cs
    have hmore : ∀ p ∈ first :: parts, sep ∉ p := fun p hp => ih (hparts ▸ hp)
    rw [hsplit] at h
    split at h
    · rcases mem_cons.1 h with rfl | h
      · exact not_mem_nil
      · exact hmore part h
    · next hc =>
      rcases mem_cons.1 h with rfl | h
      · have hfirst := hmore first mem_cons_self
        simp [hfirst, Ne.symm hc]
      · exact hmore part (mem_cons_of_mem _ h)

@[simp] theorem join_singleton (sep part : Text) : join sep [part] = part := by
  simp [join, List.intercalate, List.intersperse]

theorem join_cons_cons (sep a b : Text) (parts : List Text) :
    join sep (a :: b :: parts) = a ++ (sep ++ join sep (b :: parts)) := by
  simp [join, List.intercalate, List.intersperse]

/-- The parts of a text, put together, are the text. -/
theorem join_splitOn (sep : Char) (cs : Text) : join [sep] (splitOn sep cs) = cs := by
  induction cs with
  | nil => rfl
  | cons c cs ih =>
    obtain ⟨part, parts, hparts, hsplit⟩ := splitOn_cons sep c cs
    rw [hparts] at ih
    rw [hsplit]
    split
    · next hc => rw [join_cons_cons, ih, hc]; rfl
    · rw [← ih]
      cases parts with
      | nil => simp
      | cons next parts => rw [join_cons_cons, join_cons_cons]; rfl

theorem join_cons_splitOn (sep : Char) (a cs : Text) :
    join [sep] (a :: splitOn sep cs) = a ++ sep :: cs := by
  have hjoin := join_splitOn sep cs
  rw [splitOn_eq] at hjoin ⊢
  rw [join_cons_cons, hjoin, singleton_append]

theorem splitOn_join {parts : List Text} (h : parts ≠ []) :
    splitOn sep (join [sep] parts) = parts.flatMap (splitOn sep) := by
  induction parts with
  | nil => exact absurd rfl h
  | cons a parts ih =>
    cases parts with
    | nil => simp
    | cons b parts =>
      rw [join_cons_cons, singleton_append, splitOn_append_sep, ih (cons_ne_nil b parts)]
      rfl

/-- The parts between separators hold characters of the whole. -/
theorem sublist_of_mem_splitOn (h : part ∈ splitOn sep cs) : part.Sublist cs := by
  induction cs generalizing part with
  | nil =>
    rw [splitOn, mem_singleton] at h
    subst h
    exact nil_sublist _
  | cons c cs ih =>
    obtain ⟨first, parts, hparts, hsplit⟩ := splitOn_cons sep c cs
    have hmore : ∀ p ∈ first :: parts, p.Sublist cs := fun p hp => ih (hparts ▸ hp)
    rw [hsplit] at h
    split at h
    · rcases mem_cons.1 h with rfl | h
      · exact nil_sublist _
      · exact (hmore part h).cons c
    · rcases mem_cons.1 h with rfl | h
      · exact (hmore first mem_cons_self).cons_cons c
      · exact (hmore part (mem_cons_of_mem _ h)).cons c

end LegacyPhp.Text

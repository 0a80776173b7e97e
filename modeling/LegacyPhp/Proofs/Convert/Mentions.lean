import LegacyPhp.Proofs.Convert.Names
import LegacyPhp.Qualify.Prose

/-!
# Names in comments

Outside all namespaces a comment keeps its text exactly if it is flat (`FlatProse`): every mention
is part of a longer word, or the argument of an exempt tag, or has no alternative with a separator
that resolves. Any other comment loses separators (`proseFrom_sheds`), and in whatever scope it gets
none (`proseFrom_keeps`).
-/

namespace LegacyPhp.Qualify

open Text Scan Drift
open List hiding splitOn

variable {name cs : Text} {parts : Text × Text} {m : Mention} {exempt : List Text}
  {last : Option Char}

/-! ## Single names -/

variable {o : ConvertOptions} {s : Scope}

theorem proseName_of_flat (h : '\\' ∈ name → Scope.resolve? {} name = none) :
    proseName o {} name = name := by
  by_cases hsep : '\\' ∈ name
  · simp only [proseName, h hsep]
  · simp only [proseName, Scope.resolve?_empty hsep, flatten_of_not_mem o hsep]

theorem proseName_plain (ho : PlainOptions o) (hs : s.Plain) (h : Plain name) :
    proseName o s name = name ∨ Plain (proseName o s name) ∧ '\\' ∉ proseName o s name := by
  unfold proseName
  split
  · next full hfull => exact .inr (flatten_plain ho (Scope.resolve?_plain hs h hfull))
  · exact .inl rfl

theorem proseName_keeps (ho : PlainOptions o) (hs : s.Plain) (h : Plain name) :
    Keeps name (proseName o s name) := by
  rcases proseName_plain ho hs h with heq | ⟨hplain, hflat⟩
  · rw [heq]; exact .refl _
  · exact h.keeps hplain hflat

theorem proseName_sheds (ho : PlainOptions o) (h : Plain name) : Sheds name (proseName o {} name) ∨
      proseName o {} name = name ∧ ('\\' ∈ name → Scope.resolve? {} name = none) := by
  by_cases hsep : '\\' ∈ name
  · cases hresolve : Scope.resolve? {} name with
    | none => exact .inr ⟨by simp only [proseName, hresolve], fun _ => rfl⟩
    | some full =>
      have hfull := Scope.resolve?_plain Scope.plain_empty h hresolve
      obtain ⟨hplain, hflat⟩ := flatten_plain ho hfull
      refine .inl ?_
      simp only [proseName, hresolve]
      exact h.sheds hplain hsep hflat
  · exact .inr ⟨proseName_of_flat fun hmem => absurd hmem hsep, fun hmem => absurd hmem hsep⟩

theorem join_map_keeps (sep : Text) {f : Text → Text} {parts : List Text}
    (h : ∀ part ∈ parts, Keeps part (f part)) :
    Keeps (join sep parts) (join sep (parts.map f)) := by
  induction parts with
  | nil => exact .refl _
  | cons a parts ih =>
    have ha := h a mem_cons_self
    have hrest := ih fun part hpart => h part (mem_cons_of_mem a hpart)
    cases parts with
    | nil => simpa [join, List.intercalate, List.intersperse] using ha
    | cons b parts =>
      simp only [map_cons, join_cons_cons] at hrest ⊢
      exact ha.append ((Keeps.refl sep).append hrest)

theorem join_map_sheds (sep : Text) (f : Text → Text) (q : Text → Prop) (parts : List Text)
    (h : ∀ part ∈ parts, Sheds part (f part) ∨ f part = part ∧ q part) :
    Sheds (join sep parts) (join sep (parts.map f)) ∨
      parts.map f = parts ∧ ∀ part ∈ parts, q part := by
  induction parts with
  | nil => exact .inr ⟨rfl, fun part hpart => absurd hpart not_mem_nil⟩
  | cons a parts ih =>
    have ha := h a mem_cons_self
    have hrest := ih fun part hpart => h part (mem_cons_of_mem a hpart)
    -- one part that sheds is enough, since the others keep
    have hkeeps : Keeps (join sep parts) (join sep (parts.map f)) :=
      keeps_of_sheds_or_eq (hrest.imp id fun hrest => by rw [hrest.1])
    have hq : q a → (∀ part ∈ parts, q part) → ∀ part ∈ a :: parts, q part := by
      intro hqa hqrest part hpart
      rcases mem_cons.1 hpart with rfl | hpart
      · exact hqa
      · exact hqrest part hpart
    cases parts with
    | nil =>
      rcases ha with ha | ⟨ha, hqa⟩
      · exact .inl (by simpa [join, List.intercalate, List.intersperse] using ha)
      · exact .inr ⟨by rw [map_singleton, ha], hq hqa fun part hpart => by cases hpart⟩
    | cons b parts =>
      rw [map_cons (l := b :: parts)]
      rcases ha with ha | ⟨ha, hqa⟩
      · refine .inl ?_
        simp only [map_cons, join_cons_cons] at hkeeps ⊢
        exact ha.append_keeps ((Keeps.refl sep).append hkeeps)
      · rw [ha]
        rcases hrest with hrest | ⟨hrest, hqrest⟩
        · refine .inl ?_
          simp only [map_cons, join_cons_cons] at hrest ⊢
          exact (Keeps.refl a).append_sheds ((Keeps.refl sep).append_sheds hrest)
        · exact .inr ⟨by rw [hrest], hq hqa hqrest⟩

theorem flatAlternatives_keeps (ho : PlainOptions o) (hs : s.Plain) (h : Plain name) :
    Keeps name (flatAlternatives o s name) := by
  have hparts : Keeps (join ['|'] (splitOn '|' name)) (flatAlternatives o s name) := by
    refine join_map_keeps ['|'] fun part hpart => ?_
    split
    · exact proseName_keeps ho hs (h.of_sublist (sublist_of_mem_splitOn hpart))
    · exact .refl _
  rwa [join_splitOn] at hparts

/-- An alternative that stays as it is: a constant, a flat name, or a name that does not resolve. -/
def FlatAlternative (part : Text) : Prop :=
  part.any Char.isLower → '\\' ∈ part → Scope.resolve? {} part = none

theorem flatAlternatives_of_flat (h : ∀ part ∈ splitOn '|' name, FlatAlternative part) :
    flatAlternatives o {} name = name := by
  have hparts : (splitOn '|' name).map (fun part =>
      if part.any Char.isLower then proseName o {} part else part) = splitOn '|' name := by
    refine (map_congr_left fun part hpart => ?_).trans (map_id' _)
    split
    · next hlower => exact proseName_of_flat (h part hpart hlower)
    · rfl
  rw [flatAlternatives, hparts, join_splitOn]

theorem flatAlternatives_sheds (ho : PlainOptions o) (h : Plain name) :
    Sheds name (flatAlternatives o {} name) ∨
      flatAlternatives o {} name = name ∧ ∀ part ∈ splitOn '|' name, FlatAlternative part := by
  have hparts := join_map_sheds ['|']
    (fun part => if part.any Char.isLower then proseName o {} part else part) FlatAlternative
    (splitOn '|' name) fun part hpart => by
      split
      · have hplain := h.of_sublist (sublist_of_mem_splitOn hpart)
        exact (proseName_sheds ho hplain).imp id fun hflat => ⟨hflat.1, fun _ => hflat.2⟩
      · next hlower => exact .inr ⟨rfl, fun hany => absurd hany hlower⟩
  rw [join_splitOn] at hparts
  refine hparts.imp id fun ⟨hparts, hflat⟩ => ⟨?_, hflat⟩
  rw [flatAlternatives, hparts, join_splitOn]

/-! ## Mentions -/

theorem isPlainChar_of_isMentionChar {c : Char} (h : isMentionChar c) : isPlainChar c := by
  simp only [isMentionChar, Bool.or_eq_true] at h
  simp only [isPlainChar, Bool.or_eq_true]
  rcases h with (h | h) | h
  · exact .inl (.inl (isIdentChar_of_isWordChar h))
  · exact .inl (.inr h)
  · exact .inr h

/-- The name of a mention is plain. -/
theorem mentionName_plain (h : mentionName cs = some parts) : Plain parts.1 := by
  have hmark : Plain (rootMark cs).1 := by
    unfold rootMark
    split
    · intro c hc
      rw [mem_singleton.1 hc]
      rfl
    · exact fun c hc => absurd hc not_mem_nil
  unfold mentionName at h
  split at h
  · next c rest hrest =>
    split at h
    · next hcond =>
      cases h
      rw [Bool.and_eq_true] at hcond
      refine hmark.append fun d hd => ?_
      rcases mem_cons.1 hd with rfl | hd
      · have halpha : d.isAlphanum := by
          simp [Char.isAlphanum, isAlpha_of_isUpper hcond.1]
        simp [isPlainChar, isIdentChar, halpha]
      · exact isPlainChar_of_isMentionChar (all_eq_true.1 (all_run _ _) d hd)
    · cases h
  · cases h

theorem mentionAt_plain (h : mentionAt exempt cs = some m) :
    m.written ++ m.rest = cs ∧ Plain m.name := by
  obtain ⟨happend, left, rest, hname⟩ := mentionAt_append h
  exact ⟨happend, mentionName_plain hname⟩

theorem mention_keeps (ho : PlainOptions o) (hs : s.Plain) (last : Option Char) (h : Plain m.name) :
    Keeps m.written (m.flat o s last) := by
  unfold Mention.flat
  split
  · exact .refl _
  split
  · exact .refl _
  split
  · exact .refl _
  · exact ((Keeps.refl m.tag).append (flatAlternatives_keeps ho hs h)).append (.refl _)

/-- A mention that stays as it is. -/
def FlatMention (o : ConvertOptions) (last : Option Char) (m : Mention) : Prop :=
  m.tag = [] ∧ continuesWord last ∨ o.exemptTags.any (startsWith m.tag) ∨
    ∀ part ∈ splitOn '|' m.name, FlatAlternative part

theorem flatAlternative_of_not_mem {part : Text} (h : '\\' ∉ name)
    (hpart : part ∈ splitOn '|' name) :
    FlatAlternative part := by
  intro _ hsep
  exact absurd ((sublist_of_mem_splitOn hpart).subset hsep) h

theorem mention_of_flat (h : FlatMention o last m) : m.flat o {} last = m.written := by
  unfold Mention.flat
  split
  · rfl
  next hword =>
  split
  · rfl
  next hexempt =>
  split
  · rfl
  · rcases h with ⟨htag, hlast⟩ | h | h
    · exact absurd (by rw [htag, hlast]; rfl) hword
    · exact absurd h hexempt
    · rw [flatAlternatives_of_flat h]
      rfl

theorem mention_sheds (ho : PlainOptions o) (last : Option Char) (h : Plain m.name) :
    Sheds m.written (m.flat o {} last) ∨
      m.flat o {} last = m.written ∧ FlatMention o last m := by
  unfold Mention.flat
  split
  · next hword =>
    simp only [Bool.and_eq_true, List.isEmpty_iff] at hword
    exact .inr ⟨rfl, .inl hword⟩
  split
  · next hexempt => exact .inr ⟨rfl, .inr (.inl hexempt)⟩
  split
  · next hname =>
    have hsep : '\\' ∉ m.name := by
      simp only [Bool.and_eq_true, Bool.not_eq_true', contains_eq_mem,
        decide_eq_false_iff_not] at hname
      exact hname.2
    exact .inr ⟨rfl, .inr (.inr fun part hpart => flatAlternative_of_not_mem hsep hpart)⟩
  · rcases flatAlternatives_sheds ho h with hsheds | ⟨heq, hflat⟩
    · exact .inl (((Keeps.refl m.tag).append_sheds hsheds).append_keeps (.refl _))
    · exact .inr ⟨by rw [heq]; rfl, .inr (.inr hflat)⟩

/-! ## Whole comments -/

/-- The text of a comment in which every mention stays as it is, the character before it being
`last`. -/
inductive FlatProse (o : ConvertOptions) : Option Char → Text → Prop where
  | nil {last : Option Char} (hnone : mentionAt o.exemptTags [] = none) : FlatProse o last []
  | char {last : Option Char} {c : Char} {rest : Text}
      (hnone : mentionAt o.exemptTags (c :: rest) = none) (hrest : FlatProse o (some c) rest) :
      FlatProse o last (c :: rest)
  | mention {last : Option Char} {cs : Text} {m : Mention} (hm : mentionAt o.exemptTags cs = some m)
      (hflat : FlatMention o last m) (hrest : FlatProse o m.written.getLast? m.rest) :
      FlatProse o last cs

theorem proseFrom_of_flat (h : FlatProse o last cs) : proseFrom o {} last cs = cs := by
  induction h with
  | nil hnone =>
    rw [proseFrom]
    split
    · next hm => rw [hnone] at hm; cases hm
    · rfl
  | @char last c rest hnone hrest ih =>
    rw [proseFrom]
    split
    · next hm => rw [hnone] at hm; cases hm
    · show c :: proseFrom o {} (some c) rest = c :: rest
      rw [ih]
  | mention hm hflat hrest ih =>
    rw [proseFrom]
    split
    · next hfound =>
      rw [hm] at hfound
      cases hfound
      rw [mention_of_flat hflat, ih, (mentionAt_append hm).1]
    · next hnone => rw [hm] at hnone; cases hnone

theorem proseFrom_keeps (ho : PlainOptions o) (hs : s.Plain) (last : Option Char) (cs : Text) :
    Keeps cs (proseFrom o s last cs) := by
  fun_induction proseFrom o s last cs with
  | case1 last cs m hm ih =>
    obtain ⟨happend, hplain⟩ := mentionAt_plain hm
    have hkeeps := (mention_keeps ho hs last hplain).append ih
    rwa [happend] at hkeeps
  | case2 => exact .refl _
  | case3 last c rest hnone ih => exact (Keeps.refl [c]).append ih

/-- Outside all namespaces the flat names put into a comment take separators away, or the comment
was flat. -/
theorem proseFrom_sheds (ho : PlainOptions o) (last : Option Char) (cs : Text) :
    Sheds cs (proseFrom o {} last cs) ∨
      proseFrom o {} last cs = cs ∧ FlatProse o last cs := by
  fun_induction proseFrom o {} last cs with
  | case1 last cs m hm ih =>
    obtain ⟨happend, hplain⟩ := mentionAt_plain hm
    have hkeeps : Keeps m.rest (proseFrom o {} m.written.getLast? m.rest) :=
      keeps_of_sheds_or_eq (ih.imp id And.left)
    rcases mention_sheds ho last hplain with hsheds | ⟨heq, hflat⟩
    · -- what follows the mention gets nothing back
      have hall := hsheds.append_keeps hkeeps
      rw [happend] at hall
      exact .inl hall
    · rw [heq]
      rcases ih with ih | ⟨ih, hrest⟩
      · have hall := (Keeps.refl m.written).append_sheds ih
        rw [happend] at hall
        exact .inl hall
      · exact .inr ⟨by rw [ih, happend], .mention hm hflat hrest⟩
  | case2 last hnone => exact .inr ⟨rfl, .nil hnone⟩
  | case3 last c rest hnone ih =>
    rcases ih with ih | ⟨ih, hrest⟩
    · exact .inl ((Keeps.refl [c]).append_sheds ih)
    · exact .inr ⟨by rw [ih], .char hnone hrest⟩

end LegacyPhp.Qualify

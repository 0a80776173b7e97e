import LegacyPhp.Proofs.Token.Ahead
import LegacyPhp.Proofs.Token.Shape

/-!
# The direction in which a conversion moves a text

Every pass of a conversion, where it changes a text at all, moves it the same way in one order, and
so no later pass can undo what an earlier one did. The order compares five counts of characters, the
first difference deciding:

- fewer comment marks: a comment is opened up or left out;
- more of the marks `=` and `@`: a short ternary is written out, a package line is added;
- fewer loose characters: white space, separators of names, semicolons and commas are left out;
- more of the letters `W`, `f`, `F` and of underscores: a substitute has been put for a word;
- fewer characters: a reserved word has been left out.

`Sheds` is the order on the first three counts alone, `Keeps` its reflexive form, and `Advances`
the whole order. All of them are compatible with putting texts together, which is how a pass is
followed token by token.

What passes read ahead they take without the trivia in between. `Drops` relates tokens to tokens
with some trivia left out, and `Drops.sheds` is why that is never undone.
-/

namespace LegacyPhp.Drift

open Text Scan List LegacyPhp.Stream

variable {t : Token} {ts us rest : List Token} {p : Token → Bool}

/-! ## Counts -/

/-- A mark that conversions add. -/
def isAddedMark (c : Char) : Bool := c == '=' || c == '@'

/-- A character that conversions leave out. -/
def isLoose (c : Char) : Bool := isSpace c || c == '\\' || c == ';' || c == ','

/-- A letter that substitutes bring in. -/
def isFresh (c : Char) : Bool := c == 'W' || c == 'f' || c == 'F' || c == '_'

def commentMarks (t : Text) : Nat := t.countP isCommentMark

def addedMarks (t : Text) : Nat := t.countP isAddedMark

def looseMarks (t : Text) : Nat := t.countP isLoose

def freshLetters (t : Text) : Nat := t.countP isFresh

@[simp] theorem commentMarks_append (a b : Text) :
    commentMarks (a ++ b) = commentMarks a + commentMarks b := countP_append

@[simp] theorem addedMarks_append (a b : Text) :
    addedMarks (a ++ b) = addedMarks a + addedMarks b := countP_append

@[simp] theorem looseMarks_append (a b : Text) :
    looseMarks (a ++ b) = looseMarks a + looseMarks b := countP_append

@[simp] theorem freshLetters_append (a b : Text) :
    freshLetters (a ++ b) = freshLetters a + freshLetters b := countP_append

/-! ## The order -/

/-- The text `after` is further on by the first three counts. -/
def Sheds (before after : Text) : Prop :=
  commentMarks after < commentMarks before ∨
    commentMarks after = commentMarks before ∧
      (addedMarks before < addedMarks after ∨
        addedMarks after = addedMarks before ∧ looseMarks after < looseMarks before)

/-- The first three counts are the same. -/
structure SameMarks (before after : Text) : Prop where
  comment : commentMarks after = commentMarks before
  added : addedMarks after = addedMarks before
  loose : looseMarks after = looseMarks before

/-- The text `after` is not behind by the first three counts. -/
def Keeps (before after : Text) : Prop := Sheds before after ∨ SameMarks before after

/-- The text `after` is further on. -/
def Advances (before after : Text) : Prop :=
  Sheds before after ∨
    SameMarks before after ∧
      (freshLetters before < freshLetters after ∨
        freshLetters after = freshLetters before ∧ after.length < before.length)

section order

variable {a b c a' b' : Text}

theorem keeps_iff : Keeps a b ↔ commentMarks b < commentMarks a ∨
    commentMarks b = commentMarks a ∧ (addedMarks a < addedMarks b ∨
      addedMarks b = addedMarks a ∧ looseMarks b ≤ looseMarks a) := by
  have hsame : SameMarks a b ↔ commentMarks b = commentMarks a ∧ addedMarks b = addedMarks a ∧
      looseMarks b = looseMarks a :=
  ⟨fun ⟨h₁, h₂, h₃⟩ => ⟨h₁, h₂, h₃⟩, fun ⟨h₁, h₂, h₃⟩ => ⟨h₁, h₂, h₃⟩⟩
  rw [Keeps, hsame, Sheds]
  omega

theorem SameMarks.keeps (h : SameMarks a b) : Keeps a b := .inr h

theorem Keeps.refl (a : Text) : Keeps a a := .inr ⟨rfl, rfl, rfl⟩

theorem Sheds.keeps (h : Sheds a b) : Keeps a b := .inl h

theorem Sheds.advances (h : Sheds a b) : Advances a b := .inl h

theorem advances_iff : Advances a b ↔ Sheds a b ∨ Keeps a b ∧
    (freshLetters a < freshLetters b ∨ freshLetters b = freshLetters a ∧ b.length < a.length) := by
  refine ⟨Or.imp_right (And.imp_left SameMarks.keeps), ?_⟩
  rintro (h | ⟨h | h, hletters⟩)
  · exact .inl h
  · exact .inl h
  · exact .inr ⟨h, hletters⟩

theorem keeps_of_sheds_or_eq (h : Sheds a b ∨ b = a) : Keeps a b := by
  rcases h with h | rfl
  · exact h.keeps
  · exact .refl _

theorem Sheds.trans_keeps (h : Sheds a b) (h' : Keeps b c) : Sheds a c := by
  rw [keeps_iff] at h'
  unfold Sheds at *
  omega

theorem Keeps.trans_sheds (h : Keeps a b) (h' : Sheds b c) : Sheds a c := by
  rw [keeps_iff] at h
  unfold Sheds at *
  omega

theorem Keeps.trans (h : Keeps a b) (h' : Keeps b c) : Keeps a c := by
  rw [keeps_iff] at *
  omega

theorem Sheds.append_keeps (h : Sheds a b) (h' : Keeps a' b') : Sheds (a ++ a') (b ++ b') := by
  rw [keeps_iff] at h'
  unfold Sheds at *
  simp only [commentMarks_append, addedMarks_append, looseMarks_append]
  omega

theorem Keeps.append_sheds (h : Keeps a b) (h' : Sheds a' b') : Sheds (a ++ a') (b ++ b') := by
  rw [keeps_iff] at h
  unfold Sheds at *
  simp only [commentMarks_append, addedMarks_append, looseMarks_append]
  omega

theorem Keeps.append (h : Keeps a b) (h' : Keeps a' b') : Keeps (a ++ a') (b ++ b') := by
  rw [keeps_iff] at *
  simp only [commentMarks_append, addedMarks_append, looseMarks_append]
  omega

theorem Advances.irrefl (a : Text) : ¬ Advances a a := by
  rw [advances_iff, Sheds]
  omega

theorem Advances.keeps (h : Advances a b) : Keeps a b := h.imp_right And.left

theorem Advances.trans (h : Advances a b) (h' : Advances b c) : Advances a c := by
  rcases advances_iff.1 h with hsheds | ⟨hkeeps, h⟩
  · exact .inl (hsheds.trans_keeps h'.keeps)
  · rcases advances_iff.1 h' with hsheds | ⟨hkeeps', h'⟩
    · exact .inl (hkeeps.trans_sheds hsheds)
    · exact advances_iff.2 (.inr ⟨hkeeps.trans hkeeps', by omega⟩)

theorem Advances.append_left (pre : Text) (h : Advances a b) : Advances (pre ++ a) (pre ++ b) := by
  rcases advances_iff.1 h with hsheds | ⟨hkeeps, h⟩
  · exact .inl ((Keeps.refl pre).append_sheds hsheds)
  · refine advances_iff.2 (.inr ⟨(Keeps.refl pre).append hkeeps, ?_⟩)
    simp only [freshLetters_append, length_append]
    omega

theorem Advances.append (h : Advances a b) (h' : Advances a' b' ∨ b' = a') :
    Advances (a ++ a') (b ++ b') := by
  rcases h' with h' | rfl
  · rcases advances_iff.1 h with hsheds | ⟨hkeeps, h⟩
    · exact .inl (hsheds.append_keeps h'.keeps)
    · -- the first part only gained letters or lost length, so the marks of the second decide
      rcases advances_iff.1 h' with hsheds | ⟨hkeeps', h'⟩
      · exact .inl (hkeeps.append_sheds hsheds)
      · refine advances_iff.2 (.inr ⟨hkeeps.append hkeeps', ?_⟩)
        simp only [freshLetters_append, length_append]
        omega
  · rcases advances_iff.1 h with hsheds | ⟨hkeeps, h⟩
    · exact .inl (hsheds.append_keeps (.refl _))
    · refine advances_iff.2 (.inr ⟨hkeeps.append (.refl _), ?_⟩)
      simp only [freshLetters_append, length_append]
      omega

/-- A pass that is followed by others back to the text it started from was idle. -/
theorem eq_of_cycle (h : Advances a b ∨ b = a) (h' : Advances b a ∨ a = b) : b = a := by
  rcases h with h | h
  · -- forward and forward again would lead from the text to itself
    rcases h' with h' | h'
    · exact absurd (h.trans h') (Advances.irrefl a)
    · exact h'.symm
  · exact h

theorem advances_or_eq_trans (h : Advances a b ∨ b = a) (h' : Advances b c ∨ c = b) :
    Advances a c ∨ c = a := by
  rcases h with h | rfl
  · rcases h' with h' | rfl
    · exact .inl (h.trans h')
    · exact .inl h
  · exact h'

end order

/-! ## Inert texts -/

/-- A text with nothing in it that the first three counts count. -/
structure Inert (t : Text) : Prop where
  comment : commentMarks t = 0
  added : addedMarks t = 0
  loose : looseMarks t = 0

theorem Inert.sameMarks {a b : Text} (ha : Inert a) (hb : Inert b) : SameMarks a b where
  comment := hb.comment.trans ha.comment.symm
  added := hb.added.trans ha.added.symm
  loose := hb.loose.trans ha.loose.symm

theorem Inert.append {a b : Text} (ha : Inert a) (hb : Inert b) : Inert (a ++ b) where
  comment := by rw [commentMarks_append, ha.comment, hb.comment]
  added := by rw [addedMarks_append, ha.added, hb.added]
  loose := by rw [looseMarks_append, ha.loose, hb.loose]

theorem isIdentChar_not_mark {c : Char} (h : isIdentChar c) :
    isCommentMark c = false ∧ isAddedMark c = false ∧ isLoose c = false := by
  refine ⟨?_, ?_, ?_⟩ <;> apply Bool.eq_false_iff.2 <;> intro hc
  · simp only [isCommentMark, Bool.or_eq_true, beq_iff_eq] at hc
    obtain rfl | rfl := hc <;> cases h
  · simp only [isAddedMark, Bool.or_eq_true, beq_iff_eq] at hc
    obtain rfl | rfl := hc <;> cases h
  · simp only [isLoose, isSpace, Bool.or_eq_true, beq_iff_eq] at hc
    obtain (((((((rfl | rfl) | rfl) | rfl) | rfl) | rfl) | rfl) | rfl) := hc <;> cases h

theorem inert_of_isIdentChar {t : Text} (h : t.all isIdentChar) : Inert t := by
  have hchar : ∀ c ∈ t, isIdentChar c := all_eq_true.1 h
  refine ⟨?_, ?_, ?_⟩ <;> refine countP_eq_zero.2 fun c hc => ?_
  · simp [(isIdentChar_not_mark (hchar c hc)).1]
  · simp [(isIdentChar_not_mark (hchar c hc)).2.1]
  · simp [(isIdentChar_not_mark (hchar c hc)).2.2]

/-! ## Trivia that is left out -/

/-- The second list is the first with some trivia left out. -/
inductive Drops : List Token → List Token → Prop where
  | nil : Drops [] []
  | keep (t : Token) {ts us : List Token} (h : Drops ts us) : Drops (t :: ts) (t :: us)
  | drop {t : Token} {ts us : List Token} (ht : t.isTrivia) (h : Drops ts us) :
      Drops (t :: ts) us

namespace Drops

theorem refl (ts : List Token) : Drops ts ts := by
  induction ts with
  | nil => exact .nil
  | cons t ts ih => exact .keep t ih

theorem trans {vs : List Token} (h : Drops ts us) (h' : Drops us vs) : Drops ts vs := by
  induction h generalizing vs with
  | nil => exact h'
  | keep t _ ih =>
    cases h' with
    | keep _ h' => exact .keep t (ih h')
    | drop ht h' => exact .drop ht (ih h')
  | drop ht _ ih => exact .drop ht (ih h')

/-- Left-out white space sheds loose characters, a left-out comment its mark. -/
theorem sheds_trivia (hform : t.WellFormed) (ht : t.isTrivia) : Sheds t.text [] := by
  have hcomment : t.text.any isCommentMark → Sheds t.text [] := by
    intro hany
    obtain ⟨c, hc, hmark⟩ := any_eq_true.1 hany
    exact .inl (countP_pos_iff.2 ⟨c, hc, hmark⟩)
  unfold Token.isTrivia TokenKind.isTrivia at ht
  unfold Token.WellFormed at hform
  split at ht
  · next hkind =>
    simp only [hkind] at hform
    obtain ⟨hall, hne⟩ := hform
    have hspace : ∀ c ∈ t.text, isSpace c := all_eq_true.1 hall
    have hnone : ∀ p : Char → Bool, (∀ c, isSpace c → p c = false) →
        t.text.countP p = 0 := by
      intro p hp
      exact countP_eq_zero.2 fun c hc => by simp [hp c (hspace c hc)]
    have hmarks : commentMarks t.text = 0 := hnone _ fun c hc => by
      obtain rfl | rfl | rfl | rfl | rfl := isSpace_iff.1 hc <;> rfl
    have hadded : addedMarks t.text = 0 := hnone _ fun c hc => by
      obtain rfl | rfl | rfl | rfl | rfl := isSpace_iff.1 hc <;> rfl
    obtain ⟨c, hc⟩ := exists_mem_of_ne_nil _ hne
    have hloose : 0 < looseMarks t.text :=
      countP_pos_iff.2 ⟨c, hc, by simp [isLoose, hspace c hc]⟩
    exact .inr ⟨hmarks.symm, .inr ⟨hadded.symm, hloose⟩⟩
  · next hkind =>
    simp only [hkind] at hform
    exact hcomment hform
  · next hkind =>
    simp only [hkind] at hform
    exact hcomment hform
  · cases ht

theorem sheds (h : Drops ts us) (hform : ∀ t ∈ ts, t.WellFormed) :
    Sheds (serialize ts) (serialize us) ∨ us = ts := by
  induction h with
  | nil => exact .inr rfl
  | keep t _ ih =>
    rcases ih fun u hu => hform u (mem_cons_of_mem t hu) with ih | rfl
    · exact .inl ((Keeps.refl t.text).append_sheds ih)
    · exact .inr rfl
  | @drop t ts us ht _ ih =>
    have hhead := sheds_trivia (hform t mem_cons_self) ht
    refine .inl ?_
    rw [serialize_cons, ← nil_append (serialize us)]
    rcases ih fun u hu => hform u (mem_cons_of_mem t hu) with ih | rfl
    · exact hhead.append_keeps ih.keeps
    · exact hhead.append_keeps (.refl _)

theorem keeps (h : Drops ts us) (hform : ∀ t ∈ ts, t.WellFormed) :
    Keeps (serialize ts) (serialize us) :=
  keeps_of_sheds_or_eq ((h.sheds hform).imp id (congrArg serialize))

end Drops

theorem drops_fetch (h : fetch p ts = some (t, rest)) : Drops ts (t :: rest) := by
  obtain ⟨gap, rfl, hgap, _⟩ := fetch_eq_some h
  clear h
  induction gap with
  | nil => exact .refl _
  | cons g gap ih =>
    rw [forall_mem_cons] at hgap
    exact .drop hgap.1 (ih hgap.2)

theorem drops_gather (p : Token → Bool) (ts : List Token) :
    Drops ts ((gather p ts).1 ++ (gather p ts).2) := by
  induction ts with
  | nil => exact .nil
  | cons t ts ih =>
    rw [gather_cons]
    split
    · exact .keep t ih
    split
    · next ht => exact .drop (Bool.and_eq_true_iff.1 ht).1 ih
    · exact .refl _

theorem fetch_holds (h : fetch p ts = some (t, rest)) : p t := by
  obtain ⟨_, _, _, _, hp⟩ := fetch_eq_some h
  exact hp

theorem mem_gather (h : t ∈ (gather p ts).1) : t ∈ ts ∧ p t := by
  induction ts with
  | nil => cases h
  | cons u ts ih =>
    rw [gather_cons] at h
    split at h
    · next hp =>
      rcases mem_cons.1 h with rfl | h
      · exact ⟨mem_cons_self, hp⟩
      · exact (ih h).imp_left (mem_cons_of_mem u)
    split at h
    · exact (ih h).imp_left (mem_cons_of_mem u)
    · cases h

end LegacyPhp.Drift

import LegacyPhp.Proofs.Convert.Passes
import LegacyPhp.Proofs.Token.Lexes

/-!
# The pattern of a short ternary

`shortTernaryAt` reads a short ternary off the front of a text with greedy runs. `IsShortTernary`
says what it reads without them: an opening character, a word, perhaps an argument list, the
operator. The two agree (`IsShortTernary.shortTernaryAt_eq`, `isShortTernary_of_eq`), so where
nothing is found no such parts fit. `NoneStarts` says that no short ternary starts in a stretch of
text, given what follows it.
-/

namespace LegacyPhp.Legacy

open Text Scan List

variable {cs rest word inner v : Text} {t : ShortTernary} {c : Char}

/-- Neither parenthesis. -/
def isInner (c : Char) : Bool := !(c == '(' || c == ')')

/-- The operator and what follows it. -/
def operatorThen (rest : Text) : Text := ' ' :: '?' :: ':' :: ' ' :: rest

/-- An argument list without parentheses in it, or nothing. -/
def IsArguments (args : Text) : Prop :=
  args = [] ∨ ∃ inner, args = '(' :: (inner ++ [')']) ∧ inner.all isInner

/-- The text begins with this short ternary. -/
structure IsShortTernary (cs : Text) (t : ShortTernary) (word args : Text) : Prop where
  opens : opensOperand t.before
  word_ne : word ≠ []
  word_chars : word.all isOperandChar
  arguments : IsArguments args
  operand : t.operand = word ++ args
  text : cs = t.before :: (word ++ (args ++ operatorThen t.rest))

/-! ## Characters -/

theorem isInner_of_isOperandChar (h : isOperandChar c) : isInner c := by
  simp only [isOperandChar, Bool.not_eq_true', Bool.or_eq_false_iff] at h
  simp [isInner, h.1]

theorem isBlank_of_isOperandChar (h : isOperandChar c) : isBlank c = false := by
  simp only [isOperandChar, Bool.not_eq_true', Bool.or_eq_false_iff] at h
  exact h.2

/-! ## The reader and the pattern -/

theorem argumentList_eq (h : inner.all isInner) (left : Text) :
    argumentList ('(' :: (inner ++ ')' :: left)) = some ('(' :: (inner ++ [')']), left) := by
  have hrun : run isInner (inner ++ ')' :: left) = (inner, ')' :: left) := run_append_left h rfl
  unfold isInner at hrun
  simp only [argumentList]
  rw [hrun]
  rfl

theorem argumentList_eq_some {parts : Text × Text} (h : argumentList cs = some parts) :
    ∃ inner, parts.1 = '(' :: (inner ++ [')']) ∧ inner.all isInner := by
  unfold argumentList at h
  split at h
  · next rest =>
    split at h
    · cases h
      exact ⟨_, rfl, all_run isInner rest⟩
    · cases h
  · cases h

theorem afterOperator?_operatorThen (rest : Text) :
    afterOperator? (operatorThen rest) = some rest := rfl

theorem eq_operatorThen (h : afterOperator? cs = some rest) :
    cs = operatorThen rest := after?_eq_some h

theorem IsShortTernary.shortTernaryAt_eq {args : Text} (h : IsShortTernary cs t word args) :
    shortTernaryAt cs = some t := by
  obtain ⟨before, operand, rest⟩ := t
  obtain ⟨hopens, hne, hword, hargs, hoperand, htext⟩ := h
  simp only at hopens hoperand htext
  subst hoperand htext
  have hempty : word.isEmpty = false := by simpa using hne
  rcases hargs with rfl | ⟨inner, rfl, hinner⟩
  · have hrun : run isOperandChar (word ++ operatorThen rest) = (word, operatorThen rest) :=
      run_append_left hword rfl
    have hnone : argumentList (operatorThen rest) = none := rfl
    simp [shortTernaryAt, hrun, hopens, hempty, hnone, afterOperator?_operatorThen]
  · have hrun : run isOperandChar (word ++ '(' :: (inner ++ ')' :: operatorThen rest)) =
        (word, '(' :: (inner ++ ')' :: operatorThen rest)) := run_append_left hword rfl
    simp [shortTernaryAt, hrun, hopens, hempty, argumentList_eq hinner, afterOperator?_operatorThen]

/-- The search finds nothing else. -/
theorem isShortTernary_of_eq (h : shortTernaryAt cs = some t) :
    ∃ word args, IsShortTernary cs t word args := by
  unfold shortTernaryAt at h
  split at h
  · cases h
  · next c cs =>
    have hsplit := run_append isOperandChar cs
    simp only at h
    split at h
    · next hcond =>
      simp only [Bool.and_eq_true, Bool.not_eq_true', isEmpty_eq_false_iff] at hcond
      have hchars := all_run isOperandChar cs
      rcases Option.or_eq_some_iff.1 h with hcall | ⟨_, hplain⟩
      · obtain ⟨⟨args, left⟩, hargs, hrest⟩ := Option.bind_eq_some_iff.1 hcall
        obtain ⟨rest, hoperator, rfl⟩ := Option.map_eq_some_iff.1 hrest
        refine ⟨_, args, hcond.1, hcond.2, hchars, .inr (argumentList_eq_some hargs), rfl, ?_⟩
        have hargs : args ++ left = (run isOperandChar cs).2 := argumentList_append hargs
        rw [← eq_operatorThen hoperator, hargs, hsplit]
      · obtain ⟨rest, hoperator, rfl⟩ := Option.map_eq_some_iff.1 hplain
        refine ⟨_, [], hcond.1, hcond.2, hchars, .inl rfl, (append_nil _).symm, ?_⟩
        rw [nil_append, ← eq_operatorThen hoperator, hsplit]
    · cases h

/-- A short ternary stays one with more text behind it. -/
theorem shortTernaryAt_append_right (h : shortTernaryAt cs = some t) (more : Text) :
    shortTernaryAt (cs ++ more) = some { t with rest := t.rest ++ more } := by
  obtain ⟨word, args, hopens, hne, hword, hargs, hoperand, htext⟩ := isShortTernary_of_eq h
  refine IsShortTernary.shortTernaryAt_eq ⟨hopens, hne, hword, hargs, hoperand, ?_⟩
  rw [htext]
  simp [operatorThen]

theorem shortTernaryAt_of_append {more : Text} (h : shortTernaryAt (cs ++ more) = none) :
    shortTernaryAt cs = none := by
  cases halone : shortTernaryAt cs with
  | none => rfl
  | some t =>
    rw [shortTernaryAt_append_right halone more] at h
    cases h

/-! ## Where no short ternary is read -/

theorem shortTernaryAt_nil : shortTernaryAt [] = none := rfl

theorem shortTernaryAt_run (hword : word.all isOperandChar)
    (hrest : nextIs isOperandChar rest = false) (hoperator : afterOperator? rest = none)
    (hargs : ∀ args left, argumentList rest = some (args, left) → afterOperator? left = none)
    (c : Char) : shortTernaryAt (c :: (word ++ rest)) = none := by
  have hrun := run_append_left hword hrest
  unfold shortTernaryAt
  simp only [hrun, hoperator, Option.map_none, Option.or_none]
  split
  · cases harguments : argumentList rest with
    | none => rfl
    | some parts => simp [hargs parts.1 parts.2 harguments]
  · rfl

/-- No operand reaches over nested parentheses. -/
theorem shortTernaryAt_nested (hword : word.all isOperandChar) (hinner : inner.all isInner)
    (c : Char) (rest : Text) :
    shortTernaryAt (c :: (word ++ '(' :: (inner ++ ')' :: ')' :: rest))) = none := by
  refine shortTernaryAt_run hword rfl rfl (fun args left h => ?_) c
  rw [argumentList_eq hinner] at h
  cases h
  rfl

theorem shortTernaryAt_of_not_opens (h : opensOperand c = false) (rest : Text) :
    shortTernaryAt (c :: rest) = none := by
  simp [shortTernaryAt, h]

/-- No short ternary starts in the stretch when `rest` follows it. -/
def NoneStarts : Text → Text → Prop
  | [], _ => True
  | c :: v, rest => shortTernaryAt (c :: (v ++ rest)) = none ∧ NoneStarts v rest

theorem noneStarts_append {w : Text} :
    NoneStarts (v ++ w) rest ↔ NoneStarts v (w ++ rest) ∧ NoneStarts w rest := by
  induction v with
  | nil => simp [NoneStarts]
  | cons c v ih => simp [NoneStarts, ih, and_assoc]

theorem NoneStarts.alone (h : NoneStarts v rest) : NoneStarts v [] := by
  induction v with
  | nil => trivial
  | cons c v ih =>
    refine ⟨?_, ih h.2⟩
    rw [append_nil]
    exact shortTernaryAt_of_append h.1

theorem noneStarts_iff : NoneStarts cs [] ↔ ∀ u, u <:+ cs → shortTernaryAt u = none := by
  induction cs with
  | nil => simp [NoneStarts, shortTernaryAt_nil]
  | cons c cs ih =>
    simp only [NoneStarts, append_nil, ih, suffix_cons_iff]
    constructor
    · rintro ⟨hfirst, hmore⟩ u (rfl | hu)
      · exact hfirst
      · exact hmore u hu
    · exact fun h => ⟨h _ (.inl rfl), fun u hu => h u (.inr hu)⟩

end LegacyPhp.Legacy

import LegacyPhp.Proofs.Ternary.Rounds

/-!
# Where a round writes

A round takes nothing away. At some characters it writes: behind one that opens an operand, before
the blank of an operator, before its colon. `marks` gives every character of the source with what is
written at it, so the source and the output of a round are two readings of one list (`chars_marks`,
`written_marks`). `Step` says which characters can be written at and what comes next to them. That
is all about a round that reading its output needs.
-/

namespace LegacyPhp.Legacy

open Text Scan List

variable {ms : Marked} {s s' : Place} {c : Char} {u : Text} {m : Mark}

/-- What a round does at a character. -/
inductive Mark where
  | plain
  /-- It writes the beginning of an assignment behind the character. -/
  | opens
  /-- It writes a closing parenthesis before the character. -/
  | closes
  /-- It writes the variable before the character. -/
  | splits
  deriving DecidableEq, Repr

/-- The character and what is written at it. -/
def Mark.write : Mark → Char → Text
  | plain, c => [c]
  | opens, c => c :: writtenHead
  | closes, c => [')', c]
  | splits, c => [' ', '$', 't', 'm', 'p', ' ', c]

/-- Characters with their marks. -/
abbrev Marked := List (Mark × Char)

/-- The source. -/
def chars (ms : Marked) : Text := ms.map Prod.snd

/-- The output. -/
def written (ms : Marked) : Text := ms.flatMap fun m => m.1.write m.2

/-- A stretch at which nothing is written. -/
def unmarked (cs : Text) : Marked := cs.map fun c => (.plain, c)

@[simp] theorem chars_nil : chars [] = [] := rfl

@[simp] theorem chars_cons (m : Mark) (c : Char) (ms : Marked) :
    chars ((m, c) :: ms) = c :: chars ms := rfl

@[simp] theorem chars_append (ms ns : Marked) : chars (ms ++ ns) = chars ms ++ chars ns :=
  map_append

@[simp] theorem written_nil : written [] = [] := rfl

@[simp] theorem written_cons (m : Mark) (c : Char) (ms : Marked) :
    written ((m, c) :: ms) = m.write c ++ written ms := rfl

@[simp] theorem written_append (ms ns : Marked) : written (ms ++ ns) = written ms ++ written ns :=
  flatMap_append

@[simp] theorem chars_unmarked (cs : Text) : chars (unmarked cs) = cs := by
  simp [chars, unmarked, Function.comp_def]

@[simp] theorem written_unmarked (cs : Text) : written (unmarked cs) = cs := by
  induction cs with
  | nil => rfl
  | cons c cs ih => exact congrArg (c :: ·) ih

theorem chars_eq_append {v : Text} (h : chars ms = u ++ v) :
    ∃ us vs, ms = us ++ vs ∧ chars us = u ∧ chars vs = v := map_eq_append_iff.1 h

theorem chars_eq_cons (h : chars ms = c :: u) : ∃ m ns, ms = (m, c) :: ns ∧ chars ns = u := by
  obtain ⟨⟨m, d⟩, ns, rfl, rfl, hns⟩ := map_eq_cons_iff.1 h
  exact ⟨m, ns, rfl, hns⟩

/-! ## The marks of a round -/

/-- The marks of an operator. -/
def operatorMarks : Marked := [(.closes, ' '), (.plain, '?'), (.splits, ':'), (.plain, ' ')]

/-- The characters of the text with what one round writes at them. -/
def marks (cs : Text) : Marked :=
  match _h : shortTernaryAt cs with
  | some t => (.opens, t.before) :: (unmarked t.operand ++ (operatorMarks ++ marks t.rest))
  | none =>
    match cs with
    | [] => []
    | c :: rest => (.plain, c) :: marks rest
termination_by cs.length
decreasing_by
  · exact length_shortTernaryAt (by assumption)
  · simp

theorem chars_marks (cs : Text) : chars (marks cs) = cs := by
  fun_induction marks cs with
  | case1 cs t ht ih =>
    rw [shortTernaryAt_append ht]
    simp [ih, operatorMarks]
  | case2 => rfl
  | case3 c rest _ ih => rw [chars_cons, ih]

/-- Writing out what is marked is one round. -/
theorem written_marks (cs : Text) : written (marks cs) = expandRound cs := by
  fun_induction marks cs with
  | case1 cs t ht ih =>
    rw [expandRound_of_some ht, expanded_eq]
    simp [ih, operatorMarks, Mark.write, writtenTail, writtenTest]
  | case2 => rw [expandRound_nil]; rfl
  | case3 c rest hnone ih => rw [expandRound_cons hnone, written_cons, ih]; rfl

/-! ## What comes next to a mark -/

/-- Where a character stands. -/
inductive Place where
  | behind (before : Char)
  /-- Behind the beginning of an assignment. -/
  | opened
  /-- Behind the first blank of an operator. -/
  | operator
  /-- Behind its question mark. -/
  | question
  /-- Behind its colon. -/
  | colon
  deriving DecidableEq, Repr

/-- A character with its mark in one place, and the place behind it. -/
inductive Step : Place → Mark → Char → Place → Prop
  | plain (p c : Char) : Step (.behind p) .plain c (.behind c)
  | opens (p : Char) {c : Char} (h : opensOperand c) : Step (.behind p) .opens c .opened
  | operand {c : Char} (h : isOperandChar c) : Step .opened .plain c (.behind c)
  | closes {p : Char} (h : isBlank p = false) : Step (.behind p) .closes ' ' .operator
  | question : Step .operator .plain '?' .question
  | splits : Step .question .splits ':' .colon
  | blank : Step .colon .plain ' ' (.behind ' ')

/-- Characters with their marks, one after the other. -/
inductive Steps : Place → Marked → Place → Prop
  | nil (s : Place) : Steps s [] s
  | cons {s s' s'' : Place} {m : Mark} {c : Char} {ms : Marked} (h : Step s m c s')
      (hms : Steps s' ms s'') : Steps s ((m, c) :: ms) s''

namespace Steps

theorem append_iff {ns : Marked} :
    Steps s (ms ++ ns) s' ↔ ∃ mid, Steps s ms mid ∧ Steps mid ns s' := by
  constructor
  · intro h
    induction ms generalizing s with
    | nil => exact ⟨s, .nil s, h⟩
    | cons m ms ih =>
      cases h with
      | cons h hms =>
        obtain ⟨mid, hmid, hns⟩ := ih hms
        exact ⟨mid, .cons h hmid, hns⟩
  · rintro ⟨mid, hms, hns⟩
    induction hms with
    | nil => exact hns
    | cons h _ ih => exact .cons h (ih hns)

theorem of_plain (p : Char) (cs : Text) :
    Steps (.behind p) (unmarked cs) (.behind (cs.getLastD p)) := by
  induction cs generalizing p with
  | nil => exact .nil _
  | cons c cs ih =>
    rw [getLastD_cons]
    exact .cons (.plain p c) (ih c)

end Steps

theorem IsShortTernary.operand_cons {cs : Text} {t : ShortTernary} {word args : Text}
    (h : IsShortTernary cs t word args) :
    ∃ c u, t.operand = c :: u ∧ isOperandChar c ∧ isBlank (u.getLastD c) = false := by
  obtain ⟨c, word, rfl⟩ := exists_cons_of_ne_nil h.word_ne
  have hchars := all_eq_true.1 h.word_chars
  refine ⟨c, word ++ args, h.operand, hchars c mem_cons_self, ?_⟩
  rcases h.arguments with rfl | ⟨inner, rfl, _⟩
  · rw [append_nil]
    exact isBlank_of_isOperandChar (hchars _ getLastD_mem_cons)
  · have hlast : (word ++ '(' :: (inner ++ [')'])).getLastD c = ')' := by
      simp [getLastD_eq_getLast?, getLast?_append, getLast?_cons]
    rw [hlast]
    decide

/-- The marks of a text follow the steps. -/
theorem steps_marks (cs : Text) (p : Char) : ∃ q, Steps (.behind p) (marks cs) (.behind q) := by
  fun_induction marks cs generalizing p with
  | case1 cs t ht ih =>
    obtain ⟨word, args, hparts⟩ := isShortTernary_of_eq ht
    obtain ⟨c, u, hoperand, hc, hlast⟩ := hparts.operand_cons
    obtain ⟨q, hrest⟩ := ih ' '
    refine ⟨q, .cons (.opens p hparts.opens) ?_⟩
    rw [hoperand]
    refine .cons (.operand hc) (Steps.append_iff.2 ⟨_, .of_plain c u, ?_⟩)
    exact .cons (.closes hlast) (.cons .question (.cons .splits (.cons .blank hrest)))
  | case2 => exact ⟨p, .nil _⟩
  | case3 c rest _ ih =>
    obtain ⟨q, hrest⟩ := ih c
    exact ⟨q, .cons (.plain p c) hrest⟩

/-! ## The first character of the output -/

theorem write_eq_cons (m : Mark) (c : Char) :
    ∃ d u, m.write c = d :: u ∧ (d = c ∨ m = .closes ∧ d = ')' ∨ m = .splits ∧ d = ' ') := by
  cases m with
  | plain => exact ⟨c, [], rfl, .inl rfl⟩
  | opens => exact ⟨c, writtenHead, rfl, .inl rfl⟩
  | closes => exact ⟨')', [c], rfl, .inr (.inl ⟨rfl, rfl⟩)⟩
  | splits => exact ⟨' ', _, rfl, .inr (.inr ⟨rfl, rfl⟩)⟩

/-- What is written first is the character itself, a parenthesis or a space. -/
theorem nextIs_written {p : Char → Bool} (hclose : p ')' = false) (hspace : p ' ' = false)
    (h : nextIs p (chars ms) = false) : nextIs p (written ms) = false := by
  cases ms with
  | nil => rfl
  | cons m ms =>
    obtain ⟨m, c⟩ := m
    obtain ⟨d, u, hwrite, hd⟩ := write_eq_cons m c
    rw [written_cons, hwrite]
    rcases hd with rfl | ⟨_, rfl⟩ | ⟨_, rfl⟩
    · exact h
    · exact hclose
    · exact hspace

theorem Step.mem_write (h : Step s m c s') (hm : m ≠ .plain) :
    ∀ d ∈ m.write c, d ∈ ['[', '(', ')', '=', ' ', ':', '$', 't', 'm', 'p'] := by
  cases h with
  | plain | operand | question | blank => exact absurd rfl hm
  | opens p hc =>
    simp only [opensOperand, Bool.or_eq_true, beq_iff_eq] at hc
    rcases hc with ((rfl | rfl) | rfl) | rfl <;> exact forall_mem_of_all (by decide)
  | closes | splits => exact forall_mem_of_all (by decide)

/-- A character at which nothing can be written. -/
def isInert (c : Char) : Bool := !(opensOperand c || c == ':')

theorem Step.eq_plain (h : Step s m c s') (hc : isInert c) : m = .plain := by
  cases h with
  | opens p hopens => simp [isInert, hopens] at hc
  | closes | splits => cases hc
  | _ => rfl

/-- Inert characters are never marked. -/
theorem Steps.eq_unmarked (h : Steps s ms s') (hms : (chars ms).all isInert) :
    ms = unmarked (chars ms) := by
  induction h with
  | nil => rfl
  | cons hstep _ ih =>
    rw [chars_cons, all_cons, Bool.and_eq_true] at hms
    rw [hstep.eq_plain hms.1, chars_cons]
    exact congrArg _ (ih hms.2)

theorem eq_cons_of_written {d : Char} {left : Text} (hsteps : Steps s ms s') (hd : isInert d)
    (hclose : d ≠ ')') (h : written ms = d :: left) :
    ∃ ns, ms = (.plain, d) :: ns ∧ left = written ns := by
  cases hsteps with
  | nil => cases h
  | @cons _ _ _ m c ns hstep _ =>
    obtain ⟨e, u, hwrite, he⟩ := write_eq_cons m c
    rw [written_cons, hwrite] at h
    obtain ⟨rfl, rfl⟩ := cons.inj h
    rcases he with rfl | ⟨_, rfl⟩ | ⟨_, rfl⟩
    · obtain rfl := hstep.eq_plain hd
      cases hwrite
      exact ⟨ns, rfl, rfl⟩
    · exact absurd rfl hclose
    · cases hd

end LegacyPhp.Legacy

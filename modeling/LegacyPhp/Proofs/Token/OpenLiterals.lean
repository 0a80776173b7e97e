import LegacyPhp.Proofs.Token.Literals
import Mathlib.Data.List.Induction

/-!
# Literals that are left open

A scan that meets no closing quote fails at the innermost literal that is open at the end of the
text. `openLiterals` follows the stack of open literals over a text (`literalRest_eq_error_iff`). A
literal on that stack is the one that the scan began with, or a quote of the text opened it where
the scan stood in embedded code (`StandsInCode`), and its own scan leaves it open in the same way
(`openLiterals_eq`). Code is embedded behind a brace and a `$`, so a text without these has no other
literal in it (`StandsInCode.brace_dollar`).
-/

namespace LegacyPhp

open Text Scan List

variable {l m : OpenLiteral} {above below outer : List OpenLiteral} {pos start : Nat} {c : Char}
  {cs text : Text}

/-- What one character does to a stack of open literals. -/
def openStep (pos : Nat) (c : Char) : List OpenLiteral → List OpenLiteral
  | [] => []
  | l :: outer => LiteralStep.stack l outer (l.step pos c)

/-- The literals that are open behind a text, the innermost first. -/
def openLiterals (stack : List OpenLiteral) (pos : Nat) : Text → List OpenLiteral
  | [] => stack
  | c :: cs => openLiterals (openStep pos c stack) (pos + c.utf8Size) cs

theorem openLiterals_append (stack : List OpenLiteral) (pos : Nat) (text more : Text) :
    openLiterals stack pos (text ++ more) =
      openLiterals (openLiterals stack pos text) (pos + byteLength text) more := by
  induction text generalizing stack pos with
  | nil => rfl
  | cons c cs ih => rw [cons_append, openLiterals, openLiterals, ih, byteLength_cons, Nat.add_assoc]

theorem openLiterals_concat (stack : List OpenLiteral) (pos : Nat) (text : Text) (c : Char) :
    openLiterals stack pos (text ++ [c]) =
      openStep (pos + byteLength text) c (openLiterals stack pos text) :=
  openLiterals_append stack pos text [c]

theorem openLiterals_nil (pos : Nat) (text : Text) : openLiterals [] pos text = [] := by
  induction text generalizing pos with
  | nil => rfl
  | cons c cs ih => exact ih _

/-- A scan fails at the innermost literal that is left open. -/
theorem literalRest_eq_error_iff : literalRest l outer pos cs = .error start ↔
    ∃ m around, openLiterals (l :: outer) pos cs = m :: around ∧ m.start = start := by
  induction cs generalizing l outer pos with
  | nil => simp [literalRest, openLiterals]
  | cons c cs ih =>
    simp only [literalRest, openLiterals, openStep]
    cases l.step pos c with
    | stay next => exact map_eq_error.trans ih
    | nest new => exact map_eq_error.trans ih
    | close =>
      cases outer with
      | nil => simp [LiteralStep.stack, openLiterals_nil]
      | cons next outer => exact map_eq_error.trans ih

/-! ## Where the open literals were opened -/

/-- Between the braces of embedded code. -/
def OpenLiteral.inCode : OpenLiteral → Bool
  | .interpolated _ (.code _) _ => true
  | _ => false

/-- Behind the text the innermost open literal is in its code. -/
def StandsInCode (l : OpenLiteral) (pos : Nat) (text : Text) : Prop :=
  ∃ m outer, openLiterals [l] pos text = m :: outer ∧ OpenLiteral.inCode m

/-- Only a quote in embedded code opens another literal. -/
theorem step_eq_nest {new : OpenLiteral} (h : l.step pos c = .nest new) :
    new = opened c pos ∧ (c = '\'' ∨ c = '"') ∧ OpenLiteral.inCode l := by
  unfold OpenLiteral.step at h
  repeat' split at h
  all_goals try cases h
  · next hc => exact ⟨by rw [eq_of_beq hc]; rfl, .inl (eq_of_beq hc), rfl⟩
  · next hc => exact ⟨by rw [eq_of_beq hc]; rfl, .inr (eq_of_beq hc), rfl⟩

theorem openStep_append {stack : List OpenLiteral} (hne : stack ≠ []) :
    openStep pos c (stack ++ below) = openStep pos c stack ++ below := by
  cases stack with
  | nil => exact absurd rfl hne
  | cons l outer =>
    simp only [cons_append, openStep]
    cases l.step pos c <;> rfl

/-- A literal on the stack behind a character was opened by it, or it was there before and so were
the literals in it. -/
theorem openStep_eq (h : openStep pos c outer = above ++ m :: below) :
    (∃ l around, outer = l :: around ∧ l.step pos c = .nest m ∧ above = [] ∧ below = outer) ∨
      ∃ above' m', outer = above' ++ m' :: below ∧ m'.start = m.start ∧
        openStep pos c (above' ++ [m']) = above ++ [m] := by
  cases outer with
  | nil => simp [openStep] at h
  | cons l around =>
    -- the literals below are not touched, so what is left of the stack tells the one that was there
    have hsame : ∀ above' m', l :: around = above' ++ m' :: below → m'.start = m.start →
        ∃ above' m', l :: around = above' ++ m' :: below ∧ m'.start = m.start ∧
          openStep pos c (above' ++ [m']) = above ++ [m] := by
      intro above' m' hsplit hstart
      rw [hsplit, append_cons, openStep_append (by simp), append_cons above] at h
      exact ⟨above', m', hsplit, hstart, append_cancel_right h⟩
    have hstack := h
    simp only [openStep] at hstack
    cases hstep : l.step pos c with
    | stay next =>
      rw [hstep] at hstack
      rcases cons_eq_append_iff.1 hstack with ⟨_, hm⟩ | ⟨above', _, hrest⟩
      · obtain ⟨rfl, rfl⟩ := cons.inj hm
        have hminds := mindsQuote_step pos c l
        rw [hstep] at hminds
        exact .inr (hsame [] l rfl hminds.2.symm)
      · exact .inr (hsame (l :: above') m (congrArg _ hrest) rfl)
    | nest new =>
      rw [hstep] at hstack
      rcases cons_eq_append_iff.1 hstack with ⟨hnil, hm⟩ | ⟨above', _, hrest⟩
      · obtain ⟨rfl, rfl⟩ := cons.inj hm
        exact .inl ⟨l, around, rfl, hstep, hnil, rfl⟩
      · exact .inr (hsame above' m hrest rfl)
    | close =>
      rw [hstep] at hstack
      exact .inr (hsame (l :: above) m (congrArg _ hstack) rfl)

/-- A literal that is open behind a text is the one that was open before it, or a quote in embedded
code opened it and its own scan leaves it open, with the same literals in it. -/
theorem openLiterals_eq (h : openLiterals [l] pos text = above ++ m :: below) :
    m.start = l.start ∨
      ∃ before quote rest, text = before ++ quote :: rest ∧ m.start = pos + byteLength before ∧
        (quote = '\'' ∨ quote = '"') ∧ StandsInCode l pos before ∧
        openLiterals [opened quote m.start] (m.start + quote.utf8Size) rest = above ++ [m] := by
  induction text using reverseRecOn generalizing above m below with
  | nil =>
    rcases cons_eq_append_iff.1 h with ⟨_, hm⟩ | ⟨_, _, hnil⟩
    · exact .inl (congrArg _ (cons.inj hm).1)
    · simp at hnil
  | append_singleton text c ih =>
    rw [openLiterals_concat] at h
    rcases openStep_eq h with
      ⟨l', around, hopen, hnest, rfl, rfl⟩ | ⟨above', m', hopen, hstart, hstep⟩
    · obtain ⟨rfl, hquote, hcode⟩ := step_eq_nest hnest
      have hpos := start_opened c (pos + byteLength text)
      exact .inr ⟨text, c, [], rfl, hpos, hquote, ⟨l', around, hopen, hcode⟩, by rw [hpos]; rfl⟩
    · rw [← hstart]
      refine (ih hopen).imp_right ?_
      rintro ⟨before, quote, rest, rfl, hm, hquote, hcode, hrest⟩
      refine ⟨before, quote, rest ++ [c], by simp, hm, hquote, hcode, ?_⟩
      rw [openLiterals_concat, hrest, ← hstep, hm]
      congr 1
      simp
      omega

/-- What of a brace and a `$` has been read. -/
def OpenLiteral.pending : OpenLiteral → Text
  | .interpolated _ .brace _ => ['\x7b']
  | _ => []

/-- Outside code a literal is closed, or it stays outside code, or a `$` behind a brace begins code.
-/
theorem step_outside (pos : Nat) (c : Char) (hl : OpenLiteral.inCode l = false) :
    l.step pos c = .close ∨ ∃ next, l.step pos c = .stay next ∧
      (OpenLiteral.inCode next = false ∧
          OpenLiteral.pending next <:+ OpenLiteral.pending l ++ [c] ∨
        OpenLiteral.pending l ++ [c] = ['\x7b', '$']) := by
  unfold OpenLiteral.step OpenLiteral.pending
  grind [OpenLiteral.inCode]

/-- Code stands behind a brace and a `$`. -/
theorem StandsInCode.brace_dollar (h : StandsInCode l pos text)
    (hl : OpenLiteral.inCode l = false) : ['\x7b', '$'] <:+: OpenLiteral.pending l ++ text := by
  obtain ⟨m, outer, h, hm⟩ := h
  induction text generalizing l pos with
  | nil =>
    rw [← (cons.inj h).1, hl] at hm
    cases hm
  | cons c cs ih =>
    rw [openLiterals, openStep] at h
    rw [append_cons]
    rcases step_outside pos c hl with hclose | ⟨next, hstay, ⟨hnext, hpending⟩ | hcode⟩
    · rw [hclose, LiteralStep.stack, openLiterals_nil] at h
      cases h
    · rw [hstay] at h
      obtain ⟨front, hfront⟩ := hpending
      exact (ih hnext h).trans ⟨front, [], by simp [← hfront]⟩
    · exact ⟨[], cs, by rw [hcode]; rfl⟩

/-- A scan that fails names the literal that it began with, or one that a quote in its code opens.
That one's own scan fails at its start too, so there is none in it that is left open. -/
theorem literalRest_eq_error (h : literalRest l [] pos cs = .error start) : start = l.start ∨
    ∃ before quote rest, cs = before ++ quote :: rest ∧ start = pos + byteLength before ∧
      (quote = '\'' ∨ quote = '"') ∧ StandsInCode l pos before ∧
      literalRest (opened quote start) [] (start + quote.utf8Size) rest = .error start := by
  obtain ⟨m, around, hopen, rfl⟩ := literalRest_eq_error_iff.1 h
  rw [← nil_append (m :: around)] at hopen
  refine (openLiterals_eq hopen).imp_right ?_
  rintro ⟨before, quote, rest, hcs, hstart, hquote, hcode, hrest⟩
  exact ⟨before, quote, rest, hcs, hstart, hquote, hcode,
    literalRest_eq_error_iff.2 ⟨m, [], hrest, rfl⟩⟩

end LegacyPhp

import LegacyPhp.Closure.Lifted
import LegacyPhp.Proofs.Lossless

/-!
# The parameters that are forwarded

A parameter list is read by one scan with three notes: how many brackets are open, whether a
reference mark was seen, and whether the variable of the parameter was. The list is made of
parameters with commas between them (`CommaList`, `Parameter`), and trivia anywhere. The lemmas say
what the scan does with each part of a parameter: hints are passed over, the mark is noted, the
variable is taken, and a default brings the scan back to where it was whatever stands in it
(`forwardedArgs_value`). So the scan takes one variable from each parameter and starts anew behind
each comma, which is `forwardedArgsOf_parameters`.
-/

namespace LegacyPhp.Closure

open Text List

/-! ## Parameter lists -/

/-- Items with a comma between two of them. -/
inductive CommaList {α : Type} (tokens : α → List Token) : List α → List Token → Prop
  | nil : CommaList tokens [] []
  | single (x : α) : CommaList tokens [x] (tokens x)
  | cons (x : α) {comma : Token} {y : α} {xs : List α} {ts : List Token}
      (hcomma : comma.isPunct ",") (hrest : CommaList tokens (y :: xs) ts) :
      CommaList tokens (x :: y :: xs) (tokens x ++ comma :: ts)

/-- The number of open brackets behind tokens, from the number in front of them. There is none if a
bracket closes that is not open. -/
def bracketDepth : Nat → List Token → Option Nat
  | depth, [] => some depth
  | depth, t :: ts =>
    if t.isOpening then bracketDepth (depth + 1) ts
    else if t.isClosing then if depth == 0 then none else bracketDepth (depth - 1) ts
    else bracketDepth depth ts

/-- The brackets are balanced, from `depth` open ones on, and every comma stands in a bracket. -/
structure Nested (depth : Nat) (ts : List Token) : Prop where
  balanced : bracketDepth depth ts = some 0
  commas : ∀ i (h : i < ts.length), ts[i].isPunct "," →
    bracketDepth depth (ts.take i) ≠ some 0

instance (depth : Nat) (ts : List Token) : Decidable (Nested depth ts) :=
  decidable_of_iff (bracketDepth depth ts = some 0 ∧ ∀ i (h : i < ts.length),
      ts[i].isPunct "," → bracketDepth depth (ts.take i) ≠ some 0)
    ⟨fun h => ⟨h.1, h.2⟩, fun h => ⟨h.balanced, h.commas⟩⟩

/-- A variable without trivia, with a reference mark or not. -/
structure Binding where
  reference : Option Token
  name : Token
  reference_fits : ∀ t ∈ reference, t.isPunct "&"
  name_fits : name.kind = .variable

/-- The tokens of the variable. -/
def Binding.tokens (v : Binding) : List Token := v.reference.toList ++ [v.name]

/-- The variable as it is written, with `&` if it is taken by reference. -/
def Binding.text (v : Binding) : Text :=
  (if v.reference.isSome then ['&'] else []) ++ v.name.text

/-- A parameter without its trivia: a variable, with a hint before it and a default behind it, both
of them optional. -/
structure Parameter extends Binding where
  /-- A name or the word `array`. -/
  hint : List Token
  /-- The equals sign and the value. -/
  default : Option (Token × List Token)
  hint_fits : (∀ t ∈ hint, t.isNamePart) ∨ ∃ t, hint = [t] ∧ t.isKeyword .arrayKw
  default_fits : ∀ d ∈ default, d.1.isPunct "=" ∧ Nested 0 d.2

namespace Parameter

/-- The tokens of the default. -/
def defaultTokens (p : Parameter) : List Token := (p.default.map fun d => d.1 :: d.2).getD []

/-- The tokens of the parameter. -/
def tokens (p : Parameter) : List Token := p.hint ++ p.toBinding.tokens ++ p.defaultTokens

end Parameter

/-! ## The scan -/

section

variable {depth : Nat} {byRef named : Bool} {t : Token} {ts : List Token}

/-- A token that the scan passes over. -/
def isIdle (t : Token) : Bool :=
  !t.isOpening && !t.isClosing && !t.isPunct "," && !t.isPunct "&" && t.kind != .variable

theorem forwardedArgs_idle (ht : isIdle t) :
    forwardedArgs depth byRef named (t :: ts) = forwardedArgs depth byRef named ts := by
  simp only [isIdle, Bool.and_eq_true, Bool.not_eq_true', bne_iff_ne] at ht
  obtain ⟨⟨⟨⟨hopen, hclose⟩, hcomma⟩, hmark⟩, hkind⟩ := ht
  simp [forwardedArgs, hopen, hclose, hcomma, hmark, hkind]

theorem isIdle_of_kind (hmark : t.kind ≠ .punctuation) (hvariable : t.kind ≠ .variable) :
    isIdle t := by
  simp [isIdle, Token.isOpening, Token.isClosing, Token.isPunct, hmark, hvariable]

theorem isIdle_of_isPunct {mark : String} (ht : t.isPunct mark)
    (hmark : ∀ offset, isIdle ⟨.punctuation, mark.toList, offset⟩) : isIdle t := by
  obtain ⟨kind, text, offset⟩ := t
  simp only [Token.isPunct, Bool.and_eq_true, beq_iff_eq] at ht
  obtain ⟨rfl, rfl⟩ := ht
  exact hmark offset

theorem isIdle_of_isTrivia (ht : t.isTrivia) : isIdle t := by
  refine isIdle_of_kind (fun hkind => ?_) fun hkind => ?_ <;>
    · rw [Token.isTrivia, hkind] at ht
      cases ht

theorem forwardedArgs_filter (depth : Nat) (byRef named : Bool) (ts : List Token) :
    forwardedArgs depth byRef named (ts.filter (!·.isTrivia)) =
      forwardedArgs depth byRef named ts := by
  induction ts generalizing depth byRef named with
  | nil => rfl
  | cons t ts ih =>
    cases ht : t.isTrivia with
    | true => rw [filter_cons_of_neg (by simp [ht]), ih,
        forwardedArgs_idle (isIdle_of_isTrivia ht)]
    | false =>
      rw [filter_cons_of_pos (by simp [ht])]
      simp only [forwardedArgs, ih]

theorem forwardedArgs_append_idle {us : List Token} (hus : ∀ u ∈ us, isIdle u) :
    forwardedArgs depth byRef named (us ++ ts) = forwardedArgs depth byRef named ts := by
  induction us with
  | nil => rfl
  | cons u us ih =>
    rw [forall_mem_cons] at hus
    rw [cons_append, forwardedArgs_idle hus.1, ih hus.2]

theorem Nested.tail {depth' : Nat} (h : Nested depth (t :: ts))
    (hstep : ∀ us, bracketDepth depth (t :: us) = bracketDepth depth' us) : Nested depth' ts where
  balanced := (hstep ts).symm.trans h.balanced
  commas i hi hcomma := by
    rw [← hstep]
    exact h.commas (i + 1) (Nat.succ_lt_succ hi) hcomma

/-- Behind the variable nothing is taken up to the next comma outside all brackets, so a value
changes nothing. The induction is on the value, and the depth goes along with its brackets. -/
theorem forwardedArgs_value {value : List Token} (h : Nested depth value) :
    forwardedArgs depth byRef true (value ++ ts) = forwardedArgs 0 byRef true ts := by
  induction value generalizing depth with
  | nil =>
    have hdepth : depth = 0 := Option.some.inj h.balanced
    rw [hdepth, nil_append]
  | cons t value ih =>
    rw [cons_append, forwardedArgs]
    cases hopen : t.isOpening with
    | true =>
      rw [if_pos rfl]
      exact ih (h.tail fun us => by rw [bracketDepth, if_pos hopen])
    | false =>
      rw [if_neg Bool.false_ne_true]
      cases hclose : t.isClosing with
      | true =>
        rw [if_pos rfl]
        cases depth with
        | zero =>
          have hnone := h.balanced
          rw [bracketDepth, hopen, hclose] at hnone
          cases hnone
        | succ depth =>
          exact ih (h.tail fun us => by rw [bracketDepth, hopen, hclose]; rfl)
      | false =>
        have htail := ih (h.tail fun us => by rw [bracketDepth, hopen, hclose]; rfl)
        -- a comma is inside some bracket
        have hcomma : (depth == 0 && t.isPunct ",") = false := by
          refine Bool.eq_false_iff.2 fun hcomma => ?_
          rw [Bool.and_eq_true, beq_iff_eq] at hcomma
          exact h.commas 0 (Nat.succ_pos _) hcomma.2 (congrArg some hcomma.1)
        rw [if_neg Bool.false_ne_true, hcomma]
        simpa using htail

theorem forwardedArgs_comma (ht : t.isPunct ",") :
    forwardedArgs 0 byRef named (t :: ts) = forwardedArgs 0 false false ts := by
  have hkind : t.kind = .punctuation ∧ t.text = [','] := by
    simpa [Token.isPunct] using ht
  simp [forwardedArgs, Token.isOpening, Token.isClosing, Token.isPunct, hkind]

theorem forwardedArgs_reference (ht : t.isPunct "&") :
    forwardedArgs 0 byRef false (t :: ts) = forwardedArgs 0 true false ts := by
  have hkind : t.kind = .punctuation ∧ t.text = ['&'] := by
    simpa [Token.isPunct] using ht
  simp [forwardedArgs, Token.isOpening, Token.isClosing, Token.isPunct, hkind]

theorem forwardedArgs_variable (ht : t.kind = .variable) : forwardedArgs 0 byRef false (t :: ts) =
      ((if byRef then ['&'] else []) ++ t.text) :: forwardedArgs 0 byRef true ts := by
  simp [forwardedArgs, Token.isOpening, Token.isClosing, Token.isPunct, ht]

end

namespace Parameter

theorem isIdle_hint (p : Parameter) : ∀ t ∈ p.hint, isIdle t := by
  intro t ht
  rcases p.hint_fits with hname | ⟨word, hword, hkind⟩
  · rcases Bool.or_eq_true_iff.1 (hname t ht) with hkind | hmark
    · have hkind := eq_of_beq hkind
      exact isIdle_of_kind (by simp [hkind]) (by simp [hkind])
    · exact isIdle_of_isPunct hmark fun _ => rfl
  · rw [hword] at ht
    obtain rfl := mem_singleton.1 ht
    have hkind : t.kind = .keyword .arrayKw := eq_of_beq hkind
    exact isIdle_of_kind (by simp [hkind]) (by simp [hkind])

/-- One parameter gives its variable, and nothing more is taken before the next comma. -/
theorem forwardedArgs_eq (p : Parameter) (ts : List Token) :
    forwardedArgs 0 false false (p.tokens ++ ts) =
      p.text :: forwardedArgs 0 p.reference.isSome true ts := by
  have hdefault : ∀ byRef, forwardedArgs 0 byRef true (p.defaultTokens ++ ts) =
      forwardedArgs 0 byRef true ts := by
    intro byRef
    unfold defaultTokens
    cases hdefault : p.default with
    | none => rfl
    | some d =>
      obtain ⟨hsign, hvalue⟩ := p.default_fits d hdefault
      exact (forwardedArgs_idle (isIdle_of_isPunct hsign fun _ => rfl)).trans
        (forwardedArgs_value hvalue)
  have hname : ∀ byRef, forwardedArgs 0 byRef false (p.name :: (p.defaultTokens ++ ts)) =
      ((if byRef then ['&'] else []) ++ p.name.text) :: forwardedArgs 0 byRef true ts :=
    fun byRef => by rw [forwardedArgs_variable p.name_fits, hdefault]
  rw [tokens, append_assoc, append_assoc, forwardedArgs_append_idle p.isIdle_hint]
  unfold Binding.tokens Binding.text
  cases href : p.reference with
  | none => exact hname false
  | some mark => exact (forwardedArgs_reference (p.reference_fits mark href)).trans (hname true)

end Parameter

theorem forwardedArgs_commaList {ps : List Parameter} {ts : List Token}
    (h : CommaList Parameter.tokens ps ts) : forwardedArgs 0 false false ts = ps.map (·.text) := by
  induction h with
  | nil => rfl
  | single p =>
    have hone := p.forwardedArgs_eq []
    rw [append_nil] at hone
    rw [hone]
    rfl
  | cons p hcomma _ ih =>
    rw [p.forwardedArgs_eq, forwardedArgs_comma hcomma, ih]
    rfl

/-- The arguments that are forwarded for a parameter list: the variables of the parameters in order,
each with `&` if and only if it is taken by reference, whatever the hints and the defaults are and
whatever trivia stand between the tokens. -/
theorem forwardedArgsOf_parameters {ps : List Parameter} {ts : List Token}
    (h : CommaList Parameter.tokens ps (ts.filter (!·.isTrivia))) :
    forwardedArgsOf ts = join ", ".toList (ps.map (·.text)) := by
  rw [forwardedArgsOf, ← forwardedArgs_filter, forwardedArgs_commaList h]

/-- A hint, a reference and a default with a comma, a reference and variables of its own. -/
def fullParameter : Parameter where
  reference := some ⟨.punctuation, ['&'], 21⟩
  name := ⟨.variable, ['$', 'f'], 23⟩
  hint := [⟨.identifier, ['A'], 6⟩, ⟨.punctuation, ['\\'], 7⟩, ⟨.identifier, ['B'], 8⟩]
  default := some (⟨.punctuation, ['='], 26⟩,
    [⟨.keyword .arrayKw, "array".toList, 28⟩, ⟨.punctuation, ['('], 33⟩, ⟨.number, ['1'], 34⟩,
      ⟨.punctuation, [','], 35⟩, ⟨.punctuation, ['&'], 37⟩, ⟨.variable, ['$', 'g'], 38⟩,
      ⟨.punctuation, [')'], 40⟩, ⟨.punctuation, ['+'], 42⟩, ⟨.variable, ['$', 'h'], 44⟩])
  reference_fits := by decide
  name_fits := rfl
  hint_fits := .inl (by decide)
  default_fits := by decide

/-- A variable and nothing else. -/
def bareParameter : Parameter where
  reference := none
  name := ⟨.variable, ['$', 'i'], 48⟩
  hint := []
  default := none
  reference_fits := by decide
  name_fits := rfl
  hint_fits := .inl (by decide)
  default_fits := by decide

theorem forwardedArgsOf_parameters_full :
    ∃ tag ts, lexemes "<?php A\\B /* , $x */ & $f = array(1, &$g) + $h, $i".toList =
        .ok (tag :: ts) ∧
      CommaList Parameter.tokens [fullParameter, bareParameter] (ts.filter (!·.isTrivia)) ∧
      forwardedArgsOf ts = "&$f, $i".toList := by
  have hchecked :
      (lexemes "<?php A\\B /* , $x */ & $f = array(1, &$g) + $h, $i".toList).toOption.any
        (fun read => read.tail.filter (!·.isTrivia) == fullParameter.tokens ++
          ⟨.punctuation, [','], 46⟩ :: bareParameter.tokens) := by
    decide +kernel
  obtain ⟨read, hread, hts⟩ := (Option.any_eq_true _ _).1 hchecked
  cases read with
  | nil => cases hts
  | cons tag ts =>
    have hlist : CommaList Parameter.tokens [fullParameter, bareParameter]
        (ts.filter (!·.isTrivia)) := by
      rw [show ts.filter (!·.isTrivia) = _ from eq_of_beq hts]
      exact .cons fullParameter (by decide) (.single bareParameter)
    refine ⟨tag, ts, eq_ok_of_toOption hread, hlist, ?_⟩
    rw [forwardedArgsOf_parameters hlist]
    decide

end LegacyPhp.Closure

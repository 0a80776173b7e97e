import LegacyPhp.Proofs.Convert.Layout
import Mathlib.Data.List.Nodup

/-!
# What closure extraction touches

A unit is cut at its closure literals into the stretches between them (`Cut`; `cut` computes it). A
`Literal` is what `lift` reads: the parts of the literal in the order in which they stand, with the
trivia in front of each mark, so that its tokens are a contiguous range of the unit's
(`literal_of_partsAt`). The closure that is lifted out of it depends on its parts and on its number
alone (`lift_eq_ok_iff`).

`liftAll_eq_cut` follows the pass along the cut: each literal becomes the call of its closure and
every other token is copied. The helper class goes behind the first open tag, and
`lexemes_throughOpenTag` shows that no literal stands before it.
-/

namespace LegacyPhp.Stream

variable {ts : List Token} {stop p : Token → Bool} {t : Token}

/-- Trivia and then one token that satisfies `p`. -/
def Marked (p : Token → Bool) (ts : List Token) : Prop :=
  ∃ gap t, ts = gap ++ [t] ∧ (∀ g ∈ gap, g.isTrivia) ∧ p t

/-- A mark that may be left out. -/
def OptionalMark (p : Token → Bool) (ts : List Token) : Prop := ts = [] ∨ Marked p ts

/-- Outside all brackets no token satisfies `stop`, and no bracket is closed that was not opened. -/
def Enclosed (stop : Token → Bool) (ts : List Token) : Prop := upTo stop 0 ts = (ts, [])

theorem marked_of_fetch {rest : List Token} (h : fetch p ts = some (t, rest)) :
    ∃ taken, ts = taken ++ rest ∧ Marked p taken := by
  obtain ⟨gap, rfl, hgap, _, hp⟩ := fetch_eq_some h
  exact ⟨gap ++ [t], by simp, gap, t, rfl, hgap, hp⟩

theorem dropIf_split (p : Token → Bool) (ts : List Token) :
    ∃ taken, ts = taken ++ dropIf p ts ∧ OptionalMark p taken ∧
      (fetch p ts).isSome = !taken.isEmpty := by
  unfold dropIf
  split
  · next t rest hfetch =>
    obtain ⟨taken, hts, hmarked⟩ := marked_of_fetch hfetch
    obtain ⟨gap, u, htaken, _, _⟩ := id hmarked
    exact ⟨taken, hts, .inr hmarked, by simp [hfetch, htaken]⟩
  · next hfetch => exact ⟨[], rfl, .inl rfl, by rw [hfetch]; rfl⟩

theorem dropIf_split_of_isNext (h : isNext p ts) :
    ∃ taken, ts = taken ++ dropIf p ts ∧ Marked p taken := by
  obtain ⟨taken, hts, hmark, hsome⟩ := dropIf_split p ts
  refine ⟨taken, hts, hmark.resolve_left fun hempty => ?_⟩
  rw [isSome_fetch, h, hempty] at hsome
  cases hsome

theorem fetch_closing (p : Token → Bool) (ht : t.isClosing) (rest : List Token) :
    fetch p (t :: rest) = if p t then some (t, rest) else none := by
  have htrivia : t.isTrivia = false := by
    simp only [Token.isClosing, Bool.or_eq_true] at ht
    rcases ht with (ht | ht) | ht <;> exact Token.not_isTrivia_of_isPunct ht
  rw [fetch_cons, htrivia, if_neg Bool.false_ne_true]

theorem upTo_rest (hstop : ∀ t, stop t → t.isClosing) (depth : Nat) (ts : List Token) :
    ∀ t ∈ (upTo stop depth ts).2.head?, t.isClosing := by
  intro t ht
  induction ts generalizing depth with
  | nil => cases ht
  | cons u ts ih =>
    simp only [upTo] at ht
    split at ht
    · next hu =>
      cases ht
      rcases Bool.or_eq_true_iff.1 (Bool.and_eq_true_iff.1 hu).2 with h | h
      · exact hstop t h
      · exact h
    · exact ih _ ht

theorem upTo_rest_of_not_fetched (hstop : ∀ t, stop t → t.isClosing)
    (h : (fetch stop (upTo stop 0 ts).2).isSome = false) :
    ∀ t ∈ (upTo stop 0 ts).2.head?, t.isClosing ∧ stop t = false := by
  intro t ht
  have hclosing := upTo_rest hstop 0 ts t ht
  obtain ⟨rest, hrest⟩ := List.head?_eq_some_iff.1 ht
  rw [hrest, fetch_closing _ hclosing] at h
  refine ⟨hclosing, Bool.eq_false_iff.2 fun hp => ?_⟩
  simp [hp] at h

theorem dropIf_split_upTo {q : Token → Bool} (hstop : ∀ t, stop t → t.isClosing)
    (hq : ∀ t, t.isClosing → q t = false)
    (h : (fetch q (dropIf stop (upTo stop 0 ts).2)).isSome) :
    ∃ taken, (upTo stop 0 ts).2 = taken ++ dropIf stop (upTo stop 0 ts).2 ∧ Marked stop taken := by
  obtain ⟨taken, hsplit, hmark, hsome⟩ := dropIf_split stop (upTo stop 0 ts).2
  refine ⟨taken, hsplit, hmark.resolve_left fun hempty => ?_⟩
  rw [hempty, List.nil_append] at hsplit
  rw [← hsplit] at h
  cases hrest : (upTo stop 0 ts).2 with
  | nil => rw [hrest] at h; cases h
  | cons t rest =>
    have hclosing : t.isClosing := upTo_rest hstop 0 ts t (by rw [hrest]; rfl)
    rw [hrest, fetch_closing q hclosing, hq t hclosing] at h
    cases h

theorem upTo_upTo (stop : Token → Bool) (depth : Nat) (ts : List Token) :
    upTo stop depth (upTo stop depth ts).1 = ((upTo stop depth ts).1, []) := by
  induction ts generalizing depth with
  | nil => rfl
  | cons t ts ih =>
    by_cases hstop : (depth == 0 && (stop t || t.isClosing))
    · simp [upTo, hstop]
    · simp only [upTo, hstop, if_false, Bool.false_eq_true]
      rw [ih]

theorem enclosed_upTo (stop : Token → Bool) (ts : List Token) :
    Enclosed stop (upTo stop 0 ts).1 := upTo_upTo stop 0 ts

end LegacyPhp.Stream

namespace LegacyPhp.Closure

open Text LegacyPhp.Stream List

variable {u : Source} {r : Result} {stem source : Text} {ts rest before : List Token} {index : Nat}
  {inCode : Bool} {tag : Token}

/-! ## The parts of a literal -/

/-- A `use` clause. Each mark stands with the trivia before it. -/
structure Clause where
  keyword : List Token
  opening : List Token
  list : List Token
  closing : List Token
  keyword_marked : Marked (·.isKeyword .useKw) keyword
  opening_marked : OptionalMark (·.isPunct "(") opening
  list_enclosed : Enclosed (·.isPunct ")") list
  closing_marked : Marked (·.isPunct ")") closing

/-- The tokens of the clause. -/
def Clause.tokens (c : Clause) : List Token := c.keyword ++ c.opening ++ c.list ++ c.closing

/-- The tokens of a clause that may be left out. -/
def clauseTokens (clause : Option Clause) : List Token := (clause.map Clause.tokens).getD []

/-- The variables that a clause captures. -/
def clauseCaptures (clause : Option Clause) : List Text :=
  (clause.map fun c => splitCaptures (serialize c.list)).getD []

/-- A closure literal. Each mark stands with the trivia before it. -/
structure Literal where
  keyword : Token
  /-- The `&` of a closure that returns by reference. -/
  reference : List Token
  opening : List Token
  params : List Token
  closing : List Token
  clause : Option Clause
  bodyOpening : List Token
  body : List Token
  bodyClosing : List Token
  reference_marked : OptionalMark (·.isPunct "&") reference
  opening_marked : Marked (·.isPunct "(") opening
  params_enclosed : Enclosed (·.isPunct ")") params
  closing_marked : Marked (·.isPunct ")") closing
  bodyOpening_marked : Marked (·.isPunct "\x7b") bodyOpening
  body_enclosed : Enclosed (·.isPunct "\x7d") body
  body_plain : first? body = none
  bodyClosing_marked : OptionalMark (·.isPunct "\x7d") bodyClosing

namespace Literal

/-- The tokens behind the keyword. -/
def tail (l : Literal) : List Token :=
  l.reference ++ l.opening ++ l.params ++ l.closing ++ clauseTokens l.clause ++ l.bodyOpening ++
    l.body ++ l.bodyClosing

/-- The tokens of the literal. -/
def tokens (l : Literal) : List Token := l.keyword :: l.tail

/-- The closure that is lifted out of the literal. -/
def closure (name : Text) (l : Literal) : LiftedClosure where
  name := name
  byRef := !l.reference.isEmpty
  captures := clauseCaptures l.clause
  params := serialize l.params
  args := forwardedArgsOf l.params
  body := ['{'] ++ serialize l.body ++ ['}']

end Literal

theorem isKeyword_of_isClosing {t : Token} (h : t.isClosing) (word : Keyword) :
    t.isKeyword word = false := by
  simp only [Token.isClosing, Token.isPunct, Bool.or_eq_true, Bool.and_eq_true, beq_iff_eq] at h
  have hkind : t.kind = .punctuation := by rcases h with (h | h) | h <;> exact h.1
  simp [Token.isKeyword, hkind]

theorem isPunct_of_isClosing {t : Token} (h : t.isClosing) : t.isPunct "\x7b" = false := by
  refine Bool.eq_false_iff.2 fun hopen => ?_
  simp [Token.isClosing, Token.isPunct, text_of_isPunct hopen] at h

theorem isClosing_of_isPunct_paren (t : Token) (h : t.isPunct ")") : t.isClosing := by
  simp [Token.isClosing, h]

/-- In front of a body stands a `use` clause or nothing. -/
theorem captures_split (h : (fetch (·.isPunct "\x7b") (captures ts).2).isSome) :
    ∃ clause, ts = clauseTokens clause ++ (captures ts).2 ∧
      (captures ts).1 = clauseCaptures clause := by
  unfold captures at h ⊢
  split at h
  · exact ⟨none, rfl, rfl⟩
  · next t left hfetch =>
    obtain ⟨keyword, hts, hkeyword⟩ := marked_of_fetch hfetch
    obtain ⟨opening, hleft, hopening, _⟩ := dropIf_split (·.isPunct "(") left
    have hlist := upTo_append (·.isPunct ")") 0 (dropIf (·.isPunct "(") left)
    obtain ⟨closing, hend, hclosing⟩ :=
      dropIf_split_upTo isClosing_of_isPunct_paren (fun _ => isPunct_of_isClosing) h
    refine ⟨some ⟨keyword, opening, _, closing, hkeyword, hopening, enclosed_upTo _ _, hclosing⟩,
      ?_, rfl⟩
    simp only [clauseTokens, Option.map_some, Option.getD_some, Clause.tokens, append_assoc]
    rw [← hend, hlist, ← hleft, ← hts]

theorem dropIf_split_params {ts : List Token}
    (h : (fetch (·.isPunct "\x7b")
      (captures (dropIf (·.isPunct ")") (upTo (·.isPunct ")") 0 ts).2)).2).isSome) :
    ∃ closing, (upTo (·.isPunct ")") 0 ts).2 =
        closing ++ dropIf (·.isPunct ")") (upTo (·.isPunct ")") 0 ts).2 ∧
      Marked (·.isPunct ")") closing := by
  unfold captures at h
  split at h
  · exact dropIf_split_upTo isClosing_of_isPunct_paren (fun _ => isPunct_of_isClosing) h
  · next hfetch =>
    exact dropIf_split_upTo isClosing_of_isPunct_paren
      (fun _ hclosing => isKeyword_of_isClosing hclosing .useKw) (by rw [hfetch]; rfl)

/-- A closure starts where an opening parenthesis comes next, behind the `&` if there is one. -/
theorem isNext_of_startsAfter (h : startsAfter ts) :
    isNext (·.isPunct "(") (dropIf (·.isPunct "&") ts) := by
  unfold startsAfter at h
  rcases Bool.or_eq_true_iff.1 h with hparen | hamp
  · -- the next token is the parenthesis, so there is no `&` to drop
    have hnone : fetch (·.isPunct "&") ts = none := by
      refine fetch_eq_none (isNext_eq_false hparen fun t ht => ?_)
      have htext : t.text = "(".toList := text_of_isPunct ht
      simp [Token.isPunct, htext]
    rw [dropIf, hnone]
    exact hparen
  · cases hfetch : fetch (·.isPunct "&") ts with
    | none =>
      rw [hfetch] at hamp
      cases hamp
    | some entry =>
      rw [hfetch] at hamp
      rw [dropIf, hfetch]
      exact hamp

/-- The brace that ends a body is left out only where another bracket is closed or nothing
follows. -/
def Literal.EndsBefore (l : Literal) (rest : List Token) : Prop :=
  l.bodyClosing = [] → ∀ t ∈ rest.head?, t.isClosing ∧ t.isPunct "\x7d" = false

/-- What is lifted out of a closure literal. -/
structure Parts where
  /-- Whether the closure returns by reference. -/
  byRef : Bool
  params : List Token
  captures : List Text
  body : List Token
  deriving DecidableEq

/-- The closure with these parts. -/
def Parts.closure (name : Text) (p : Parts) : LiftedClosure where
  name := name
  byRef := p.byRef
  captures := p.captures
  params := serialize p.params
  args := forwardedArgsOf p.params
  body := ['{'] ++ serialize p.body ++ ['}']

/-- The parts of the literal behind whose keyword the tokens stand, and the tokens after it. -/
def partsAt (ts : List Token) : Option (Parts × List Token) :=
  let params := upTo (·.isPunct ")") 0 (dropIf (·.isPunct "(") (dropIf (·.isPunct "&") ts))
  let captured := captures (dropIf (·.isPunct ")") params.2)
  (fetch (·.isPunct "\x7b") captured.2).map fun (_, rest) =>
    let inner := upTo (·.isPunct "\x7d") 0 rest
    (⟨(fetch (·.isPunct "&") ts).isSome, params.1, captured.1, inner.1⟩,
      dropIf (·.isPunct "\x7d") inner.2)

/-- `lift` returns the closure of the parts, if no closure starts in the body. -/
theorem lift_eq_ok_iff {name : Text} {keyword : Token} {r : Lift} :
    lift u name keyword ts = .ok r ↔
      ∃ p, partsAt ts = some (p, r.rest) ∧ first? p.body = none ∧ r.closure = p.closure name := by
  unfold lift partsAt
  simp only
  split
  · next hfetch => simp [hfetch]
  · next hfetch =>
    split
    · next hnested => simp [hfetch, hnested]
    · next hplain =>
      constructor
      · intro h
        cases h
        exact ⟨_, by rw [hfetch]; rfl, hplain, rfl⟩
      · rintro ⟨p, hp, _, hclosure⟩
        rw [hfetch] at hp
        obtain ⟨closure, rest⟩ := r
        cases hp
        cases hclosure
        rfl

namespace Literal

/-- The parts of a literal. -/
def parts (l : Literal) : Parts := ⟨!l.reference.isEmpty, l.params, clauseCaptures l.clause, l.body⟩

end Literal

/-- The parts are read off a literal. -/
theorem literal_of_partsAt (keyword : Token) {p : Parts} (hstarts : startsAfter ts)
    (h : partsAt ts = some (p, rest)) (hplain : first? p.body = none) :
    ∃ l : Literal, l.keyword = keyword ∧ ts = l.tail ++ rest ∧ l.EndsBefore rest ∧
      l.parts = p := by
  obtain ⟨reference, hts, hreference, hbyRef⟩ := dropIf_split (·.isPunct "&") ts
  obtain ⟨opening, hopen, hopening⟩ := dropIf_split_of_isNext (isNext_of_startsAfter hstarts)
  unfold partsAt at h
  simp only at h
  generalize dropIf (·.isPunct "(") (dropIf (·.isPunct "&") ts) = inside at h hopen
  have hparams := upTo_append (·.isPunct ")") 0 inside
  obtain ⟨⟨t, left⟩, hfetch, hparts⟩ := Option.map_eq_some_iff.1 h
  obtain ⟨rfl, rfl⟩ := Prod.mk.inj hparts
  obtain ⟨closing, hclose, hclosing⟩ := dropIf_split_params (by rw [hfetch]; rfl)
  obtain ⟨clause, hheader, hcaptures⟩ := captures_split (by rw [hfetch]; rfl)
  obtain ⟨bodyOpening, hbrace, hbodyOpening⟩ := marked_of_fetch hfetch
  have hbody := upTo_append (·.isPunct "\x7d") 0 left
  obtain ⟨bodyClosing, hend, hbodyClosing, hsome⟩ := dropIf_split (·.isPunct "\x7d")
    (upTo (·.isPunct "\x7d") 0 left).2
  refine ⟨⟨keyword, reference, opening, _, closing, clause, bodyOpening, _, bodyClosing,
    hreference, hopening, enclosed_upTo _ inside, hclosing, hbodyOpening, enclosed_upTo _ left,
    hplain, hbodyClosing⟩, rfl, ?_, ?_, ?_⟩
  · simp only [Literal.tail, append_assoc]
    rw [← hend, hbody, ← hbrace, ← hheader, ← hclose, hparams, ← hopen, ← hts]
  · intro hempty t ht
    replace hempty : bodyClosing = [] := hempty
    rw [hempty, nil_append] at hend
    rw [hempty] at hsome
    have hstop : ∀ t : Token, t.isPunct "\x7d" → t.isClosing := fun t h => by
      simp [Token.isClosing, h]
    exact upTo_rest_of_not_fetched hstop hsome t (hend ▸ ht)
  · simp only [Literal.parts, ← hbyRef, hcaptures]

/-! ## The pass along the cut -/

/-- Tokens cut at their closure literals: the tokens before the first literal, and each literal with
those that follow it. -/
inductive Cut : List Token → List Token → List (Literal × List Token) → Prop
  | nil : Cut [] [] []
  | token {t : Token} {rest first : List Token} {parts : List (Literal × List Token)}
      (hplain : startsAt t rest = false) (hrest : Cut rest first parts) :
      Cut (t :: rest) (t :: first) parts
  | literal {l : Literal} {rest first : List Token} {parts : List (Literal × List Token)}
      (hstarts : startsAt l.keyword (l.tail ++ rest)) (hends : l.EndsBefore rest)
      (hrest : Cut rest first parts) : Cut (l.tokens ++ rest) [] ((l, first) :: parts)

/-- The closures of the literals, the first of them with the number `index`. -/
def closuresOf (stem : Text) (index : Nat) : List (Literal × List Token) → List LiftedClosure
  | [] => []
  | (l, _) :: parts =>
    l.closure (ClosureTable.nameAt stem index) :: closuresOf stem (index + 1) parts

/-- The literals replaced by calls. -/
def replaced (helper stem : Text) (index : Nat) : List (Literal × List Token) → Text
  | [] => []
  | (l, stretch) :: parts =>
    (l.closure (ClosureTable.nameAt stem index)).call helper ++ serialize stretch ++
      replaced helper stem (index + 1) parts

/-- The tokens outside the literals. -/
def outside (first : List Token) (parts : List (Literal × List Token)) : List Token :=
  first ++ parts.flatMap Prod.snd

namespace Cut

variable {first : List Token} {parts : List (Literal × List Token)}

theorem serialize_eq (h : Cut ts first parts) :
    serialize ts =
      serialize first ++ parts.flatMap fun p => serialize p.1.tokens ++ serialize p.2 := by
  induction h with
  | nil => rfl
  | token _ _ ih => rw [serialize_cons, serialize_cons, ih, append_assoc]
  | literal _ _ _ ih =>
    rw [serialize_append, ih, flatMap_cons, serialize_nil, nil_append, append_assoc]

theorem parts_of_nil (h : Cut [] first parts) : parts = [] := by
  generalize hts : ([] : List Token) = ts at h
  cases h with
  | nil => rfl
  | token | literal => cases hts

theorem append_left (hbefore : ∀ t ∈ before, t.isKeyword .functionKw = false)
    (h : Cut ts first parts) : Cut (before ++ ts) (before ++ first) parts := by
  induction before with
  | nil => exact h
  | cons t before ih =>
    have hplain : startsAt t (before ++ ts) = false := by
      rw [startsAt, hbefore t mem_cons_self, Bool.false_and]
    exact .token hplain (ih fun u hu => hbefore u (mem_cons_of_mem t hu))

end Cut

theorem length_partsAt {p : Parts} (h : partsAt ts = some (p, rest)) : rest.length ≤ ts.length := by
  unfold partsAt at h
  obtain ⟨⟨t, left⟩, hfetch, hparts⟩ := Option.map_eq_some_iff.1 h
  obtain ⟨_, rfl⟩ := Prod.mk.inj hparts
  exact ((suffix_dropIf _ _).trans ((suffix_upTo _ _ _).trans (suffix_body hfetch))).length_le

/-- The tokens before the first literal, and the parts of each literal with the tokens that follow
it. -/
def cut (ts : List Token) : List Token × List (Parts × List Token) :=
  match ts with
  | [] => ([], [])
  | t :: rest =>
    if startsAt t rest then
      match _h : partsAt rest with
      | none => (t :: rest, [])
      | some (p, left) => ([], (p, (cut left).1) :: (cut left).2)
    else (t :: (cut rest).1, (cut rest).2)
termination_by ts.length
decreasing_by
  · exact Nat.lt_succ_of_le (length_partsAt (by assumption))
  · exact Nat.lt_succ_self _

/-- The parts of the literals of a cut. -/
def partsOf (literals : List (Literal × List Token)) : List (Parts × List Token) :=
  literals.map fun q => (q.1.parts, q.2)

/-- The pass follows the cut. -/
theorem liftAll_eq_cut (h : liftAll u stem index inCode ts = .ok r) :
    ∃ literals, Cut ts (cut ts).1 literals ∧ partsOf literals = (cut ts).2 ∧
      r.closures = closuresOf stem index literals ∧
      r.text = serialize (cut ts).1 ++ replaced u.helper stem index literals ∧
      r.inCode = (outside (cut ts).1 literals).foldl inCodeAfter inCode := by
  fun_induction liftAll u stem index inCode ts generalizing r with
  | case1 =>
    cases h
    rw [cut]
    exact ⟨[], .nil, rfl, rfl, rfl, rfl⟩
  | case2 => cases h
  | case3 index inCode t rest hstarts l hlift ih =>
    obtain ⟨more, hmore, rfl⟩ := map_eq_ok h
    obtain ⟨literals, hcut, hparts, hclosures, htext, hcode⟩ := ih hmore
    have hafter : startsAfter rest := (Bool.and_eq_true_iff.1 hstarts).2
    obtain ⟨p, hp, hplain, hclosure⟩ := lift_eq_ok_iff.1 hlift
    obtain ⟨lit, rfl, rfl, hends, rfl⟩ := literal_of_partsAt t hafter hp hplain
    have hthis : cut (lit.keyword :: (lit.tail ++ l.rest)) =
        ([], (lit.parts, (cut l.rest).1) :: (cut l.rest).2) := by
      rw [cut, if_pos hstarts]
      split
      · next hnone => rw [hp] at hnone; cases hnone
      · next hsome => rw [hp] at hsome; cases hsome; rfl
    rw [hthis]
    refine ⟨(lit, (cut l.rest).1) :: literals, .literal hstarts hends hcut, ?_, ?_, ?_, hcode⟩
    · rw [← hparts]
      rfl
    · rw [closuresOf, hclosure, hclosures]
      rfl
    · rw [replaced, hclosure, htext, serialize_nil, nil_append, append_assoc]
      rfl
  | case4 index inCode t rest hplain ih =>
    obtain ⟨more, hmore, rfl⟩ := map_eq_ok h
    obtain ⟨literals, hcut, hparts, hclosures, htext, hcode⟩ := ih hmore
    rw [cut, if_neg hplain]
    refine ⟨literals, .token (Bool.not_eq_true _ ▸ hplain) hcut, hparts, hclosures, ?_, hcode⟩
    rw [htext, serialize_cons, append_assoc]

theorem liftAll_cut (h : liftAll u stem index inCode ts = .ok r) :
    ∃ first parts, Cut ts first parts ∧ r.closures = closuresOf stem index parts ∧
      r.text = serialize first ++ replaced u.helper stem index parts ∧
      r.inCode = (outside first parts).foldl inCodeAfter inCode := by
  obtain ⟨literals, hcut, _, hrest⟩ := liftAll_eq_cut h
  exact ⟨(cut ts).1, literals, hcut, hrest⟩

/-! ## Names and calls -/

theorem map_name_closuresOf (stem : Text) (index : Nat) (parts : List (Literal × List Token)) :
    (closuresOf stem index parts).map LiftedClosure.name =
      (List.range' index parts.length).map (ClosureTable.nameAt stem) := by
  induction parts generalizing index with
  | nil => rfl
  | cons p parts ih =>
    rw [closuresOf, map_cons, ih, length_cons, range'_succ, map_cons]
    rfl

theorem nameAt_injective (stem : Text) : Function.Injective (ClosureTable.nameAt stem) := by
  intro i j h
  have hdigits : Nat.toDigits 10 i = Nat.toDigits 10 j :=
    (cons.inj (append_cancel_left h)).2
  have hread := congrArg (fun digits => Nat.ofDigitChars 10 digits 0) hdigits
  simpa using hread

theorem name_infix_call (helper : Text) (c : LiftedClosure) :
    ['\''] ++ c.name ++ ['\''] <:+: c.call helper := by
  refine ⟨helper ++ "::create(".toList, ", array(".toList ++
    join ", ".toList (c.captures.map LiftedClosure.captureEntry) ++ [')'] ++
    c.ownParams.flatMap (fun own =>
      ", '".toList ++ singleQuoted own ++ "', '".toList ++ c.args ++ ['\'']) ++ [')'], ?_⟩
  simp [LiftedClosure.call]

/-! ## The tags of a unit -/

/-- An open or a close tag. -/
def isTag (t : Token) : Bool := t.kind == .openTag || t.kind == .closeTag

/-- Whether the last tag among the tokens is a close tag. -/
def endsClosed (ts : List Token) : Bool :=
  (ts.filter isTag).getLast?.any (·.kind == .closeTag)

/-- The last tag decides whether code follows. -/
theorem foldl_inCodeAfter (inCode : Bool) (ts : List Token) :
    ts.foldl inCodeAfter inCode =
      ((ts.filter isTag).getLast?.map (·.kind == .openTag)).getD inCode := by
  induction ts generalizing inCode with
  | nil => rfl
  | cons t ts ih =>
    rw [foldl_cons, ih]
    by_cases htag : isTag t
    · rw [filter_cons_of_pos htag, getLast?_cons]
      have hafter : inCodeAfter inCode t = (t.kind == .openTag) := by
        unfold inCodeAfter
        rcases Bool.or_eq_true_iff.1 htag with hopen | hclose
        · rw [if_pos hopen, hopen]
        · simp [eq_of_beq hclose]
      cases (ts.filter isTag).getLast? with
      | none => simp [hafter]
      | some last => simp
    · rw [filter_cons_of_neg htag]
      have hafter : inCodeAfter inCode t = inCode := by
        unfold isTag at htag
        simp only [Bool.or_eq_true, not_or, Bool.not_eq_true] at htag
        simp [inCodeAfter, htag]
      rw [hafter]

/-- Behind an open tag the text ends in code unless the last tag closes. -/
theorem foldl_inCodeAfter_append {after : List Token} (htag : tag.kind = .openTag) :
    (!after.foldl inCodeAfter true) = endsClosed (before ++ tag :: after) := by
  have hfold : after.foldl inCodeAfter true =
      (before ++ tag :: after).foldl inCodeAfter true := by
    rw [foldl_append, foldl_cons]
    simp [inCodeAfter, htag]
  rw [hfold, foldl_inCodeAfter, endsClosed]
  cases hlast : ((before ++ tag :: after).filter isTag).getLast? with
  | none =>
    rw [getLast?_eq_none_iff, filter_eq_nil_iff] at hlast
    exact absurd (by simp [isTag, htag]) (hlast tag (by simp))
  | some last =>
    have hmem : last ∈ (before ++ tag :: after).filter isTag := mem_of_getLast? hlast
    rcases Bool.or_eq_true_iff.1 (mem_filter.1 hmem).2 with hopen | hclose
    · simp [eq_of_beq hopen]
    · simp [eq_of_beq hclose]

/-- The text of a unit with closures, given its cut behind the first open tag. -/
theorem assemble_of_cut (helper : Text) (html : List Token) {code : List Token}
    {parts : List (Literal × List Token)} (htag : tag.kind = .openTag) (hparts : parts ≠ [])
    (hclosures : r.closures = closuresOf stem 0 parts)
    (htext : r.text = serialize code ++ replaced helper stem 0 parts)
    (hcode : r.inCode = (outside code parts).foldl inCodeAfter true) :
    assemble helper (serialize (html ++ [tag])) r =
      serialize html ++ tag.text ++ closureHelperSource helper ++ ['\n'] ++ serialize code ++
        replaced helper stem 0 parts ++
        (if endsClosed (outside (html ++ [tag] ++ code) parts) then "<?php\n".toList else []) ++
        (r.closures.flatMap fun c => "\n\n".toList ++ c.declaration) ++ ['\n'] := by
  have hsome : r.closures.isEmpty = false := by
    cases parts with
    | nil => exact absurd rfl hparts
    | cons p parts => rw [hclosures]; rfl
  have houtside : outside (html ++ [tag] ++ code) parts = html ++ tag :: outside code parts := by
    simp [outside]
  rw [assemble, hsome, htext, houtside, ← foldl_inCodeAfter_append htag, ← hcode, declarations]
  cases r.inCode <;> simp

/-- Only text stands before the first open tag, and without an open tag there is nothing else. -/
theorem lexemes_throughOpenTag {tokens : List Token} (h : lexemes source = .ok tokens) :
    (throughOpenTag tokens).2 = [] ∧ (∀ t ∈ tokens, t.kind = .inlineHtml) ∨
      ∃ html tag, (throughOpenTag tokens).1 = html ++ [tag] ∧ tag.kind = .openTag ∧
        ∀ t ∈ html, t.kind = .inlineHtml := by
  unfold lexemes at h
  cases source with
  | nil =>
    rw [lexFrom] at h
    cases h
    exact .inl ⟨rfl, by simp⟩
  | cons c rest =>
    rw [lexFrom] at h
    split at h
    · cases h
    · cases h
      exact .inl ⟨rfl, by simp⟩
    · next t _ =>
      obtain ⟨more, _, rfl⟩ := map_eq_ok h
      refine .inr ?_
      by_cases hempty : t.html.isEmpty
      · rw [if_pos hempty]
        exact ⟨[], _, rfl, rfl, by simp⟩
      · rw [if_neg hempty]
        exact ⟨[_], _, rfl, rfl, by simp⟩

theorem not_functionKw_throughOpenTag {tokens : List Token} (h : lexemes source = .ok tokens) :
    ∀ t ∈ (throughOpenTag tokens).1, t.isKeyword .functionKw = false := by
  intro t ht
  rcases lexemes_throughOpenTag h with ⟨_, hhtml⟩ | ⟨html, tag, hhead, htag, hhtml⟩
  · have hmem : t ∈ tokens := by
      rw [← throughOpenTag_append tokens]
      exact mem_append_left _ ht
    simp [Token.isKeyword, hhtml t hmem]
  · rw [hhead] at ht
    rcases mem_append.1 ht with ht | ht
    · simp [Token.isKeyword, hhtml t ht]
    · rw [mem_singleton.1 ht]
      simp [Token.isKeyword, htag]

end LegacyPhp.Closure

namespace LegacyPhp

open Closure Text

/-- Extraction touches closure literals only. The source is cut at its literals; a unit without any
is returned as it is. Otherwise each literal becomes the call of its closure, the helper class and a
line break follow the first open tag, and the declarations stand at the end, behind a new open tag
if the last tag outside the literals closes. The closures are numbered in the order of the literals,
and no two have the same name. -/
theorem extractClosures_cut {path : Path} {helper source : Text} {e : Extraction}
    (h : extractClosures path helper source = .ok e) :
    ∃ tokens first parts, lexemes source = .ok tokens ∧ Cut tokens first parts ∧
      source = serialize first ++ (parts.flatMap fun p => serialize p.1.tokens ++ serialize p.2) ∧
      e.table = ⟨ClosureTable.stemOf path, closuresOf (ClosureTable.stemOf path) 0 parts⟩ ∧
      e.table.entries.map LiftedClosure.name =
        (List.range parts.length).map (ClosureTable.nameAt (ClosureTable.stemOf path)) ∧
      (e.table.entries.map LiftedClosure.name).Nodup ∧
      (∀ c ∈ e.table.entries, ['\''] ++ c.name ++ ['\''] <:+: c.call helper) ∧
      (parts = [] → e.text = source) ∧
      (parts ≠ [] → ∃ html tag code, first = html ++ tag :: code ∧ tag.kind = .openTag ∧
        (∀ t ∈ html, t.kind = .inlineHtml) ∧
        e.text = serialize html ++ tag.text ++ closureHelperSource helper ++ ['\n'] ++
          serialize code ++ replaced helper (ClosureTable.stemOf path) 0 parts ++
          (if endsClosed (outside first parts) then "<?php\n".toList else []) ++
          (e.table.entries.flatMap fun c => "\n\n".toList ++ c.declaration) ++ ['\n']) := by
  obtain ⟨tokens, r, hlex, hr, rfl⟩ := extractClosures_eq_ok h
  obtain ⟨code, parts, hcut, hclosures, htext, hcode⟩ := liftAll_cut hr
  have hwhole := hcut.append_left (not_functionKw_throughOpenTag hlex)
  rw [throughOpenTag_append] at hwhole
  have hnames := map_name_closuresOf (ClosureTable.stemOf path) 0 parts
  rw [← List.range_eq_range', ← hclosures] at hnames
  have hsource := (lexemes_tiles hlex).serialize_eq
  refine ⟨tokens, _, parts, hlex, hwhole, hsource ▸ hwhole.serialize_eq, ?_, hnames, ?_,
    fun c _ => name_infix_call helper c, ?_, ?_⟩
  · rw [← hclosures]
  · show (r.closures.map LiftedClosure.name).Nodup
    rw [hnames]
    exact List.Nodup.map (nameAt_injective _) List.nodup_range
  · intro hparts
    rw [hparts] at hclosures htext hwhole
    show assemble helper _ r = source
    rw [assemble, hclosures, htext, ← hsource, hwhole.serialize_eq]
    simp [closuresOf, replaced]
  · intro hparts
    rcases lexemes_throughOpenTag hlex with ⟨hnone, _⟩ | ⟨html, tag, hhead, htag, hhtml⟩
    · exact absurd (Cut.parts_of_nil (hnone ▸ hcut)) hparts
    · refine ⟨html, tag, code, by rw [hhead, List.append_assoc]; rfl, htag, hhtml, ?_⟩
      have htagged := assemble_of_cut helper html htag hparts hclosures htext hcode
      rw [hhead]
      exact htagged

/-- A page whose last tag closes, with one closure that returns by reference and captures one
variable, and one that does neither. -/
def closurePage : Text :=
  "a<?php f(function & ($x) use (&$y) \x7b return $x; \x7d);?>b".toList ++
    "<?php $g = function () \x7b\x7d ?>".toList

/-- The page with its closures lifted. -/
def closurePageLifted : Text :=
  "a<?php ".toList ++ closureHelperSource "H".toList ++
    "\nf(H::create('_lc_079e4624_0', array('y' => &$y), '$x', '$x'));?>b<?php ".toList ++
    "$g = H::create('_lc_079e4624_1', array()) ?><?php\n".toList ++
    "\n\nfunction &_lc_079e4624_0(&$y, $x) \x7b return $x; \x7d".toList ++
    "\n\nfunction _lc_079e4624_1() \x7b\x7d\n".toList

theorem extractClosures_closurePage :
    (extractClosures "p.php".toList "H".toList closurePage).toOption.map
      (fun e => (e.text, e.table.entries.length)) = some (closurePageLifted, 2) := by
  decide +kernel

theorem extractClosures_cut_page :
    ∃ e tokens first parts, extractClosures "p.php".toList "H".toList closurePage = .ok e ∧
      e.text = closurePageLifted ∧ Cut tokens first parts ∧ parts.length = 2 ∧
      (e.table.entries.map LiftedClosure.name).Nodup := by
  obtain ⟨e, he, hpair⟩ := Option.map_eq_some_iff.1 extractClosures_closurePage
  obtain ⟨htext, hlength⟩ := Prod.mk.inj hpair
  have hok := eq_ok_of_toOption he
  obtain ⟨tokens, first, parts, _, hcut, _, _, hnames, hnodup, _⟩ := extractClosures_cut hok
  have hcount := congrArg List.length hnames
  rw [List.length_map, List.length_map, List.length_range, hlength] at hcount
  exact ⟨e, tokens, first, parts, hok, htext, hcut, hcount.symm, hnodup⟩

end LegacyPhp

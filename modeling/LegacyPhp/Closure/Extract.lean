import LegacyPhp.Closure.Helper
import LegacyPhp.Closure.Lifted
import LegacyPhp.Failure

/-!
# Closure extraction

`extractClosures` moves every closure literal of a unit out of line. Each literal is replaced by the
call of the helper class; if there is any, the source of that class follows the first open tag and
the named functions stand at the end of the unit. A closure inside the body of another has no legacy
form and fails the unit.
-/

namespace LegacyPhp.Closure

open Text

/-- The unit whose closures are lifted. -/
structure Source where
  path : Path
  text : Text
  /-- The name of the helper class. -/
  helper : Text

/-- Whether a closure starts, the tokens being what follows the keyword `function`
(`starts_closure`). -/
def startsAfter (ts : List Token) : Bool :=
  Stream.isNext (·.isPunct "(") ts ||
    match Stream.fetch (·.isPunct "&") ts with
    | some (_, rest) => Stream.isNext (·.isPunct "(") rest
    | none => false

/-- Whether the token `t` with `rest` after it starts a closure. -/
def startsAt (t : Token) (rest : List Token) : Bool :=
  t.isKeyword .functionKw && startsAfter rest

/-- The first keyword among the tokens that starts a closure. -/
def first? : List Token → Option Token
  | [] => none
  | t :: rest => if startsAt t rest then some t else first? rest

/-- The variables of the `use` clause, if there is one. -/
def captures (ts : List Token) : List Text × List Token :=
  match Stream.fetch (·.isKeyword .useKw) ts with
  | none => ([], ts)
  | some (_, rest) =>
    let inner := Stream.upTo (·.isPunct ")") 0 (Stream.dropIf (·.isPunct "(") rest)
    (splitCaptures (serialize inner.1), Stream.dropIf (·.isPunct ")") inner.2)

/-- A lifted closure and the tokens after its literal. -/
structure Lift where
  closure : LiftedClosure
  rest : List Token

/-- Reads the closure literal at the token `keyword`; the tokens are what follows it. -/
def lift (u : Source) (name : Text) (keyword : Token) (ts : List Token) : Except Failure Lift :=
  let byRef := (Stream.fetch (·.isPunct "&") ts).isSome
  let params := Stream.upTo (·.isPunct ")") 0
    (Stream.dropIf (·.isPunct "(") (Stream.dropIf (·.isPunct "&") ts))
  let captured := captures (Stream.dropIf (·.isPunct ")") params.2)
  match Stream.fetch (·.isPunct "\x7b") captured.2 with
  | none =>
    .error (.structural u.path (.closureWithoutBody (excerpt u.text keyword.offset)))
  | some (_, rest) =>
    let inner := Stream.upTo (·.isPunct "\x7d") 0 rest
    match first? inner.1 with
    | some nested =>
      .error (.unsupported u.path .nestedClosure (excerpt u.text nested.offset))
    | none =>
      .ok {
        closure := {
          name, byRef
          captures := captured.1
          params := serialize params.1
          args := forwardedArgsOf params.1
          body := ['{'] ++ serialize inner.1 ++ ['}'] }
        rest := Stream.dropIf (·.isPunct "\x7d") inner.2 }

section

open LegacyPhp.Stream List

variable {u : Source} {ts rest : List Token}

theorem suffix_captures (ts : List Token) : (captures ts).2 <:+ ts := by
  unfold captures
  split
  · exact suffix_refl _
  · next hfetch =>
    exact (suffix_dropIf _ _).trans ((suffix_upTo _ _ _).trans
      ((suffix_dropIf _ _).trans (suffix_fetch hfetch)))

theorem suffix_body {brace : Token}
    (h : Stream.fetch (·.isPunct "\x7b") (captures (Stream.dropIf (·.isPunct ")")
      (Stream.upTo (·.isPunct ")") 0 (Stream.dropIf (·.isPunct "(")
        (Stream.dropIf (·.isPunct "&") ts))).2)).2 = some (brace, rest)) : rest <:+ ts :=
  (suffix_fetch h).trans ((suffix_captures _).trans ((suffix_dropIf _ _).trans
    ((suffix_upTo _ _ _).trans ((suffix_dropIf _ _).trans (suffix_dropIf _ _)))))

theorem suffix_lift {name : Text} {keyword : Token} {l : Lift}
    (h : lift u name keyword ts = .ok l) :
    l.rest <:+ ts := by
  unfold lift at h
  simp only at h
  split at h
  · cases h
  · next hbody =>
    split at h
    · cases h
    · cases h
      exact (suffix_dropIf _ _).trans ((suffix_upTo _ _ _).trans (suffix_body hbody))

end

/-- Tokens with their closures lifted. -/
structure Result where
  text : Text
  closures : List LiftedClosure
  /-- Whether the text ends in a code block. -/
  inCode : Bool

/-- Whether the text after a token is code, if it was before it. -/
def inCodeAfter (inCode : Bool) (t : Token) : Bool :=
  if t.kind == .openTag then true else if t.kind == .closeTag then false else inCode

/-- Lifts the closures of the tokens, the first of them getting the number `index`. -/
def liftAll (u : Source) (stem : Text) (index : Nat) (inCode : Bool) (ts : List Token) :
    Except Failure Result :=
  match ts with
  | [] => .ok ⟨[], [], inCode⟩
  | t :: rest =>
    if startsAt t rest then
      match _h : lift u (ClosureTable.nameAt stem index) t rest with
      | .error e => .error e
      | .ok l =>
        (liftAll u stem (index + 1) inCode l.rest).map fun r =>
          ⟨l.closure.call u.helper ++ r.text, l.closure :: r.closures, r.inCode⟩
    else
      (liftAll u stem index (inCodeAfter inCode t) rest).map fun r =>
        ⟨t.text ++ r.text, r.closures, r.inCode⟩
termination_by ts.length
decreasing_by
  · exact Nat.lt_succ_of_le (suffix_lift (by assumption)).length_le
  · exact Nat.lt_succ_self _

/-- The tokens through the first open tag, and the others. -/
def throughOpenTag : List Token → List Token × List Token
  | [] => ([], [])
  | t :: ts =>
    if t.kind == .openTag then ([t], ts)
    else
      let more := throughOpenTag ts
      (t :: more.1, more.2)

/-- The named functions at the end of a unit. -/
def declarations (closures : List LiftedClosure) : Text :=
  closures.flatMap fun c => "\n\n".toList ++ c.declaration

/-- The unit, given its text through the first open tag and the rest with its closures lifted. -/
def assemble (helper head : Text) (r : Result) : Text :=
  if r.closures.isEmpty then head ++ r.text
  else
    head ++ closureHelperSource helper ++ ['\n'] ++ r.text ++
      (if r.inCode then [] else "<?php\n".toList) ++ declarations r.closures ++ ['\n']

end LegacyPhp.Closure

namespace LegacyPhp

/-- A unit without closures, and those that were lifted out of it. -/
structure Extraction where
  text : Text
  table : ClosureTable
  deriving DecidableEq, Repr

/-- Lifts every closure of a unit. -/
def extractClosures (path : Path) (helper source : Text) : Except Failure Extraction := do
  let tokens ← lexemesOf path source
  let stem := ClosureTable.stemOf path
  let parts := Closure.throughOpenTag tokens
  let result ← Closure.liftAll ⟨path, source, helper⟩ stem 0 true parts.2
  return ⟨Closure.assemble helper (serialize parts.1) result, { stem, entries := result.closures }⟩

end LegacyPhp

import LegacyPhp.Token.Basic

/-!
# Reading tokens ahead

A pass over the tokens of a unit holds the list of those it has not consumed. The functions below
read from the front of such a list and return what is left. Some kinds of tokens are skipped on the
way to the next one that counts; `skip` says which, and for the passes it is the trivia.

What is left is always a suffix of the list, so a pass that consumes at least one token in each
round ends.
-/

namespace LegacyPhp.Stream

/-- The next token that is not skipped. -/
def peekBy (skip : Token → Bool) (ts : List Token) : Option Token := (ts.dropWhile skip).head?

/-- The next token that is not skipped, if it satisfies `p`, with what follows it. -/
def fetchBy (skip p : Token → Bool) (ts : List Token) : Option (Token × List Token) :=
  match ts.dropWhile skip with
  | t :: rest => if p t then some (t, rest) else none
  | [] => none

/-- Tokens that satisfy `p`, as long as nothing but skipped tokens stands between them
(`fetch_all`). Skipped tokens after the last of them are left. -/
def gatherBy (skip p : Token → Bool) : List Token → List Token × List Token
  | [] => ([], [])
  | t :: ts =>
    if p t then
      let more := gatherBy skip p ts
      (t :: more.1, more.2)
    else if skip t then
      let more := gatherBy skip p ts
      if more.1.isEmpty then ([], t :: ts) else more
    else ([], t :: ts)

/-- Tokens up to the first one outside all brackets that satisfies `stop` or closes a bracket that
was not opened (`fetch_until`). `depth` counts the brackets that are open. -/
def upTo (stop : Token → Bool) (depth : Nat) : List Token → List Token × List Token
  | [] => ([], [])
  | t :: ts =>
    if depth == 0 && (stop t || t.isClosing) then ([], t :: ts)
    else
      let depth := if t.isOpening then depth + 1 else if t.isClosing then depth - 1 else depth
      let more := upTo stop depth ts
      (t :: more.1, more.2)

/-- The next token that is not trivia. -/
def peek : List Token → Option Token := peekBy Token.isTrivia

/-- Whether the next token that is not trivia satisfies `p`. -/
def isNext (p : Token → Bool) (ts : List Token) : Bool := (peek ts).any p

/-- The next token that is not trivia, if it satisfies `p`, with what follows it. -/
def fetch (p : Token → Bool) : List Token → Option (Token × List Token) := fetchBy Token.isTrivia p

/-- What is left when the next token that is not trivia is consumed if it satisfies `p`. -/
def dropIf (p : Token → Bool) (ts : List Token) : List Token :=
  match fetch p ts with
  | some (_, rest) => rest
  | none => ts

/-- Tokens that satisfy `p`, trivia between them left out. -/
def gather (p : Token → Bool) : List Token → List Token × List Token := gatherBy Token.isTrivia p

/-- A qualified name: the segments and separators that come next, trivia between them left out. -/
def name (ts : List Token) : Text × List Token :=
  (serialize (gather Token.isNamePart ts).1, (gather Token.isNamePart ts).2)

/-! ## What is left -/

open List

variable {p : Token → Bool} {ts rest : List Token} {t : Token}

theorem suffix_cons_fetch (h : fetch p ts = some (t, rest)) : t :: rest <:+ ts := by
  have hsuffix : ts.dropWhile Token.isTrivia <:+ ts := dropWhile_suffix _
  unfold fetch fetchBy at h
  split at h
  · next u r hd =>
    split at h
    · cases h; rwa [hd] at hsuffix
    · cases h
  · cases h

theorem suffix_fetch (h : fetch p ts = some (t, rest)) : rest <:+ ts :=
  (suffix_cons t rest).trans (suffix_cons_fetch h)

theorem length_fetch (h : fetch p ts = some (t, rest)) : rest.length < ts.length :=
  (suffix_cons_fetch h).length_le

theorem suffix_dropIf (p : Token → Bool) (ts : List Token) : dropIf p ts <:+ ts := by
  unfold dropIf
  split
  · next h => exact suffix_fetch h
  · exact suffix_refl _

theorem suffix_gather (p : Token → Bool) (ts : List Token) : (gather p ts).2 <:+ ts := by
  unfold gather
  induction ts with
  | nil => exact suffix_refl _
  | cons t ts ih =>
    simp only [gatherBy]
    split
    · exact ih.trans (suffix_cons t ts)
    · split
      · split
        · exact suffix_refl _
        · exact ih.trans (suffix_cons t ts)
      · exact suffix_refl _

theorem upTo_append (stop : Token → Bool) (depth : Nat) (ts : List Token) :
    (upTo stop depth ts).1 ++ (upTo stop depth ts).2 = ts := by
  induction ts generalizing depth with
  | nil => rfl
  | cons t ts ih =>
    simp only [upTo]
    split
    · rfl
    · simp [ih]

theorem suffix_upTo (stop : Token → Bool) (depth : Nat) (ts : List Token) :
    (upTo stop depth ts).2 <:+ ts := ⟨_, upTo_append stop depth ts⟩

end LegacyPhp.Stream

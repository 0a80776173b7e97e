import LegacyPhp.Token.Scan

/-!
# Short ternaries

`a ?: b` is written out as `($tmp=a) ? $tmp : b`. The left operand is a stretch without blanks and
parentheses behind `[`, `(`, `=` or a space, and may end in one argument list that has no
parentheses in it. One round replaces all that do not overlap, from the left; rounds are repeated
until nothing changes, but not more than `maxRounds` times.
-/

namespace LegacyPhp.Legacy

open Text Scan

variable {cs : Text} {t : ShortTernary}

/-- The characters that may stand before the left operand. -/
def opensOperand (c : Char) : Bool := c == '[' || c == '(' || c == '=' || c == ' '

/-- A character of the left operand outside its argument list. -/
def isOperandChar (c : Char) : Bool := !(c == '(' || c == ')' || isBlank c)

/-- An argument list without parentheses in it. -/
def argumentList : Text → Option (Text × Text)
  | '(' :: rest =>
    match (run (fun c => !(c == '(' || c == ')')) rest).2 with
    | ')' :: left => some ('(' :: (run (fun c => !(c == '(' || c == ')')) rest).1 ++ [')'], left)
    | _ => none
  | _ => none

/-- A short ternary up to its right operand. -/
structure ShortTernary where
  /-- The character before the left operand. -/
  before : Char
  operand : Text
  rest : Text
  deriving Repr

/-- What follows the operator. -/
def afterOperator? (cs : Text) : Option Text := after? " ?: ".toList cs

/-- The short ternary that the text begins with. -/
def shortTernaryAt : Text → Option ShortTernary
  | [] => none
  | c :: cs =>
    let word := run isOperandChar cs
    if opensOperand c && !word.1.isEmpty then
      let withArguments := (argumentList word.2).bind fun (args, left) =>
        (afterOperator? left).map fun rest => ⟨c, word.1 ++ args, rest⟩
      withArguments.or ((afterOperator? word.2).map fun rest => ⟨c, word.1, rest⟩)
    else none

/-- The form that is written out. -/
def ShortTernary.expanded (t : ShortTernary) : Text :=
  t.before :: "($tmp=".toList ++ t.operand ++ ") ? $tmp : ".toList

theorem argumentList_append {parts : Text × Text} (h : argumentList cs = some parts) :
    parts.1 ++ parts.2 = cs := by
  unfold argumentList at h
  split at h
  · next rest =>
    split at h
    · next left hleft =>
      cases h
      have happend := run_append (fun c => !(c == '(' || c == ')')) rest
      rw [hleft] at happend
      simp only [List.cons_append, List.append_assoc, List.nil_append]
      rw [happend]
    · cases h
  · cases h

theorem shortTernaryAt_append (h : shortTernaryAt cs = some t) :
    cs = (t.before :: t.operand ++ " ?: ".toList) ++ t.rest := by
  unfold shortTernaryAt at h
  split at h
  · cases h
  · next c cs =>
    have hword := run_append isOperandChar cs
    simp only at h
    split at h
    · rcases Option.or_eq_some_iff.1 h with hcall | ⟨_, hplain⟩
      · obtain ⟨⟨args, left⟩, hargs, hrest⟩ := Option.bind_eq_some_iff.1 hcall
        obtain ⟨rest, hoperator, rfl⟩ := Option.map_eq_some_iff.1 hrest
        have hargs : args ++ left = (run isOperandChar cs).2 := argumentList_append hargs
        have hleft : left = " ?: ".toList ++ rest := after?_eq_some hoperator
        rw [← hargs, hleft] at hword
        simp only [List.cons_append, List.append_assoc]
        rw [hword]
      · obtain ⟨rest, hrest, rfl⟩ := Option.map_eq_some_iff.1 hplain
        have hleft : (run isOperandChar cs).2 = " ?: ".toList ++ rest := after?_eq_some hrest
        rw [hleft] at hword
        simp only [List.cons_append, List.append_assoc]
        rw [hword]
    · cases h

theorem length_shortTernaryAt (h : shortTernaryAt cs = some t) : t.rest.length < cs.length := by
  rw [shortTernaryAt_append h]
  simp only [List.length_append, List.length_cons]
  omega

/-- One round. -/
def expandRound (cs : Text) : Text :=
  match _h : shortTernaryAt cs with
  | some t => t.expanded ++ expandRound t.rest
  | none =>
    match cs with
    | [] => []
    | c :: rest => c :: expandRound rest
termination_by cs.length
decreasing_by
  · exact length_shortTernaryAt (by assumption)
  · simp

/-- Repeats rounds until nothing changes. -/
def expandRounds : Nat → Text → Text
  | 0, cs => cs
  | n + 1, cs =>
    let next := expandRound cs
    if next == cs then cs else expandRounds n next

/-- The greatest number of rounds. -/
def maxRounds : Nat := 64

/-- Writes the short ternaries of a text out (`expand_short_ternary`). -/
def expandShortTernaries (source : Text) : Text := expandRounds maxRounds source

end LegacyPhp.Legacy

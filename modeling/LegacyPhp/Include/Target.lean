import LegacyPhp.Include.Literal
import LegacyPhp.Path
import LegacyPhp.Token.Lexer

/-!
# Targets of inclusion directives

The file that `include` and its kin name, where it can be told without running code: a sum of quoted
literals, `__DIR__`, `__FILE__`, `dirname(…)` and parentheses. The value is read off the tokens from
left to right. `operand` waits for a summand and `operator` for what may follow one; brackets that
are open form a stack, each with the sum that stood before it.
-/

namespace LegacyPhp.Include

open Text

/-- A bracket that is open, with the sum before it. -/
inductive Frame where
  | group (before : Text)
  | dirname (before : Text)
  deriving DecidableEq, Repr

/-- The sum after the bracket closes, `inner` being the value between the brackets. -/
def Frame.close (inner : Text) : Frame → Text
  | group before => before ++ inner
  | dirname before => before ++ Path.directory inner

mutual

/-- Reads a summand after the sum `sum`. -/
def operand (file : Path) (stack : List Frame) (sum : Text) : List Token → Option Text
  | [] => none
  | t :: ts =>
    if t.kind == .stringLiteral then
      match literalValue? t.text with
      | some v => operator file stack (sum ++ v) ts
      | none => none
    else if t.isPunct "(" then operand file (.group sum :: stack) [] ts
    else if t.kind == .identifier then
      if sameWord t.text "__DIR__".toList then
        operator file stack (sum ++ Path.directory file) ts
      else if sameWord t.text "__FILE__".toList then operator file stack (sum ++ file) ts
      else if sameWord t.text "dirname".toList then
        match ts with
        | [] => none
        | b :: ts => if b.isPunct "(" then operand file (.dirname sum :: stack) [] ts else none
      else none
    else none

/-- Reads what follows a summand; the end is allowed when no bracket is open. -/
def operator (file : Path) (stack : List Frame) (sum : Text) : List Token → Option Text
  | [] => if stack.isEmpty then some sum else none
  | t :: ts =>
    if t.isPunct "." then operand file stack sum ts
    else if t.isPunct ")" then
      match stack with
      | [] => none
      | frame :: stack => operator file stack (frame.close sum) ts
    else none

end

/-- The tokens of an expression that count. -/
def isExpressionToken (t : Token) : Bool :=
  !(t.isTrivia || t.kind == .openTag || t.kind == .endOfInput)

/-- The value of an expression in a file. -/
def value? (file : Path) (tokens : List Token) : Option Text :=
  operand file [] [] (tokens.filter isExpressionToken)

/-- The path that a value names: relative ones start at the directory of the file. -/
def targetOf (file : Path) (value : Text) : Option Path :=
  if value.isEmpty then none else some (Path.append (Path.directory file) value)

/-- The target of an inclusion directive with the given expression in a file (`evaluate`); `none`
when it cannot be told. -/
def target? (expression : Text) (file : Path) : Except Scan.SplitCharacter (Option Path) :=
  match tokenize ("<?php ".toList ++ expression) with
  | .ok tokens => .ok ((value? file tokens).bind (targetOf file))
  | .error (.fault ..) => .ok none
  | .error .splitCharacter => .error .splitCharacter

end LegacyPhp.Include

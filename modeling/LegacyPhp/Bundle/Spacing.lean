import LegacyPhp.Text.Blank

/-!
# Spacing between tokens

White space and comments between two tokens are left out. Where that would join two words, a line
break is put between them, and where it would make two marks read as another one, a space.
-/

namespace LegacyPhp.Bundle

open Text

/-- The characters next to which a space is not needed to keep words apart. -/
def separators : Text := "!\"#$&'()*+,-./:;<=>?@[\\]^\x60\x7b|\x7d".toList

/-- Whether a character keeps words apart; the ends of the text do. -/
def isSeparator : Option Char → Bool
  | some c => isBlank c || separators.contains c
  | none => true

/-- The characters that may not come right after a given one. -/
def fusingAfter : Char → Text
  | '+' => ['+', '=']
  | '-' => ['-', '=', '>']
  | '&' => ['&', '=']
  | '|' => ['|', '=']
  | '<' => ['<', '=', '>']
  | '>' => ['>', '=']
  | '=' => ['=', '>']
  | '!' => ['=']
  | '.' => ['.', '=']
  | '*' => ['*', '=', '/']
  | '/' => ['/', '*', '=']
  | '%' => ['=']
  | '^' => ['=']
  | ':' => [':']
  | '?' => ['>']
  | _ => []

/-- Whether two characters would read as one mark or one number. -/
def wouldFuse : Option Char → Option Char → Bool
  | some a, some b =>
    (a == '.' && b.isDigit) || (b == '.' && a.isDigit) || (fusingAfter a).contains b
  | _, _ => false

/-- What is put between a text that ends in `last` and one that starts with `first`. -/
def gap (last first : Option Char) : Text :=
  if !isSeparator last && !isSeparator first then ['\n']
  else if wouldFuse last first then [' ']
  else []

end LegacyPhp.Bundle

import LegacyPhp.Text.Basic

/-!
# Blank characters

Two classes of white space are in play. The language's own scanner knows five ASCII characters,
`isSpace`; everything that trims or splits prose uses the Unicode property White_Space, `isBlank`,
which is larger: it also holds the vertical tab and the spaces beyond ASCII.
-/

namespace LegacyPhp.Text

/-- White space of the scanner: space, tab, line feed, form feed and carriage return. -/
def isSpace (c : Char) : Bool :=
  c == ' ' || c == '\t' || c == '\n' || c == '\x0c' || c == '\r'

/-- The Unicode property White_Space. -/
def isBlank (c : Char) : Bool :=
  let n := c.toNat
  (9 ≤ n && n ≤ 13) || n == 0x20 || n == 0x85 || n == 0xA0 || n == 0x1680 ||
    (0x2000 ≤ n && n ≤ 0x200A) || n == 0x2028 || n == 0x2029 || n == 0x202F || n == 0x205F ||
    n == 0x3000

/-- Every space of the scanner is blank. -/
theorem isSpace_iff {c : Char} :
    isSpace c ↔ c = ' ' ∨ c = '\t' ∨ c = '\n' ∨ c = '\x0c' ∨ c = '\r' := by
  simp [isSpace, or_assoc]

theorem isBlank_of_isSpace {c : Char} (h : isSpace c) : isBlank c := by
  obtain rfl | rfl | rfl | rfl | rfl := isSpace_iff.1 h <;> decide

/-- Drops the blanks at the end. -/
def trimEnd (cs : Text) : Text := dropEndWhile isBlank cs

/-- Drops the blanks at both ends. -/
def trim (cs : Text) : Text := trimEnd (cs.dropWhile isBlank)

/-- The maximal stretches without blanks, the first of them continuing `word`. -/
def wordsFrom (word : Text) : Text → List Text
  | [] => if word.isEmpty then [] else [word]
  | c :: cs =>
    if isBlank c then
      if word.isEmpty then wordsFrom [] cs else word :: wordsFrom [] cs
    else wordsFrom (word ++ [c]) cs

/-- The maximal stretches without blanks. -/
def words (cs : Text) : List Text := wordsFrom [] cs

/-- How many bytes an excerpt shows on either side of the place it is about. -/
def excerptRadius : Nat := 24

/-- One line of the text around a byte offset: whole characters, blanks squeezed to single
spaces. -/
def excerpt (source : Text) (offset : Nat) : Text :=
  join [' '] (words (dropBytesDown (offset - excerptRadius)
    (takeBytesUp (offset + excerptRadius) source)))

end LegacyPhp.Text

import LegacyPhp.Text.Basic

/-!
# Touch-ups of the converted text

The namespace that a unit was in is kept as a `@package` line at the end of its documentation
comments, and long runs of line breaks are cut to four.
-/

namespace LegacyPhp.Legacy

open Text

/-- Puts `line` for ` */` at the start of every line. `lineStart` says whether the text stands
there. -/
def replaceDocEnds (line : Text) (lineStart : Bool) : Text → Text
  | [] => []
  | ' ' :: '*' :: '/' :: rest =>
    if lineStart then line ++ replaceDocEnds line false rest
    else ' ' :: '*' :: '/' :: replaceDocEnds line false rest
  | c :: rest => c :: replaceDocEnds line (c == '\n') rest

/-- Adds a package line to the documentation comments of a unit that was in a namespace, unless the
unit names a package already. -/
def annotatePackage (lastNamespace source : Text) : Text :=
  if lastNamespace.isEmpty || hasInfix source "@package".toList then source
  else
    replaceDocEnds (" * @package ".toList ++ lastNamespace ++ "\n */".toList) true source

/-- The longest run of line breaks that is kept. -/
def maxBreaks : Nat := 4

/-- Cuts runs of `\r\n`; `count` is the number of them right before the text. -/
def cutCrLf (count : Nat) : Text → Text
  | [] => []
  | '\r' :: '\n' :: rest =>
    if count < maxBreaks then '\r' :: '\n' :: cutCrLf (count + 1) rest else cutCrLf count rest
  | c :: rest => c :: cutCrLf 0 rest

/-- Cuts runs of `\n`; `count` is the number of them right before the text. -/
def cutLf (count : Nat) : Text → Text
  | [] => []
  | c :: rest =>
    if c == '\n' then
      if count < maxBreaks then c :: cutLf (count + 1) rest else cutLf count rest
    else c :: cutLf 0 rest

/-- Cuts long runs of line breaks (`consolidate_blank_lines`). -/
def cutBlankLines (source : Text) : Text := cutLf 0 (cutCrLf 0 source)

end LegacyPhp.Legacy

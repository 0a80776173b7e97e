import LegacyPhp.Options.Basic
import LegacyPhp.Text.Blank

/-!
# The finished file

A header line, line breaks of one kind, no blanks at the ends of lines, and none around the whole.
-/

namespace LegacyPhp.Bundle

open Text

/-- The header line. -/
def header (o : BundleOptions) : Text :=
  "<?php //".toList ++ o.headerMarker ++ ['='] ++ o.rootNamespace ++ ['\n']

/-- The raw text behind the header line. -/
def withHeader (o : BundleOptions) (raw : Text) : Text :=
  match after? "<?php".toList raw with
  | some rest => header o ++ rest
  | none => header o ++ "?>".toList ++ raw

/-- Drops the spaces and tabs before line breaks; `blanks` are those right before the text, in
reverse. -/
def dropTrailingBlanks (blanks : Text) : Text → Text
  | [] => blanks.reverse
  | c :: rest =>
    if c == ' ' || c == '\t' then dropTrailingBlanks (c :: blanks) rest
    else if c == '\n' then c :: dropTrailingBlanks [] rest
    else blanks.reverse ++ c :: dropTrailingBlanks [] rest

/-- The finished file made of the raw text (`finalize_output`). -/
def finalize (o : BundleOptions) (raw : Text) : Text :=
  trim (dropTrailingBlanks [] (replaceAll ['\r', '\n'] ['\n'] (withHeader o raw)))

end LegacyPhp.Bundle

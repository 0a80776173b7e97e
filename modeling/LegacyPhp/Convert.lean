import LegacyPhp.Closure.Extract
import LegacyPhp.Legacy.Layout
import LegacyPhp.Legacy.Substitution
import LegacyPhp.Legacy.Ternary
import LegacyPhp.Legacy.Version
import LegacyPhp.Qualify.Basic

/-!
# Conversion of a unit

`convert` takes the text of one unit to the dialect that the options ask for. For the native dialect
the unit only has to have tokens, and its long runs of line breaks are cut. For the legacy dialect a
unit for newer targets is dropped; any other goes through version marks, substitutions, short
ternaries, qualification and closure extraction, in this order.

Here and elsewhere, a name in brackets such as `rewrite_source` is the program's own name for what
is defined.
-/

namespace LegacyPhp

/-- What becomes of a unit. -/
inductive Outcome where
  /-- The new text and the number of closures lifted out of it. -/
  | converted (text : Text) (lifted : Nat)
  /-- The unit is of no use on the target. -/
  | dropped
  deriving DecidableEq, Repr

/-- The text after all literal substitutions, in order. -/
def applyReplacements (rs : List Replacement) (source : Text) : Text :=
  rs.foldl (fun text r => Text.replaceAll r.old r.new text) source

/-- The native dialect. -/
def convertNative (path : Path) (source : Text) : Except Failure Outcome :=
  (lexemesOf path source).map fun _ => .converted (Legacy.cutBlankLines source) 0

/-- The legacy dialect, for a unit that is not dropped. -/
def convertLegacy (o : ConvertOptions) (path : Path) (source : Text) : Except Failure Outcome := do
  let activated ← Legacy.activateVersionMarks path o.legacyMarker source
  let substituted ← Legacy.substituteConstructs path activated
  let flat ← qualify o path (Legacy.expandShortTernaries substituted)
  let extraction ← extractClosures path o.closureHelper flat.text
  let text :=
    if o.annotatePackage then Legacy.annotatePackage flat.lastNamespace extraction.text
    else extraction.text
  return .converted (Legacy.cutBlankLines text) extraction.table.entries.length

/-- Converts the unit at a path (`rewrite_source`). -/
def convert (o : ConvertOptions) (path : Path) (source : Text) : Except Failure Outcome :=
  let text := applyReplacements o.replacements source
  match o.dialect with
  | .native => convertNative path text
  | .legacy =>
    if Legacy.isNewerOnly o.newerOnlyVersions text then .ok .dropped
    else convertLegacy o path text

end LegacyPhp

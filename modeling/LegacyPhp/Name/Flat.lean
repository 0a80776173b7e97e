import LegacyPhp.Name.Scope
import LegacyPhp.Options.Basic

/-!
# Flat class names

The legacy target has no namespaces, so a class is known by a short name. Under a protected root it
is the entry of the rename table or the last segment, with the class prefix in front of a capital,
unless the name follows the convention for interfaces. Elsewhere it is the last segment. A name
without a separator is flat already and stays as it is, so flattening twice changes nothing.
-/

namespace LegacyPhp

open Text

/-- Whether a short name takes the class prefix: it starts with a capital, and is not an `I` before
another capital. -/
def takesPrefix : Text → Bool
  | 'I' :: second :: _ => !second.isUpper
  | first :: _ => first.isUpper
  | [] => false

namespace ConvertOptions

/-- The short name with the class prefix if it takes one. -/
def withPrefix (o : ConvertOptions) (short : Text) : Text :=
  if o.prefixed && takesPrefix short then o.classPrefix ++ short else short

/-- The flat form of a full name. -/
def flatten (o : ConvertOptions) (name : Text) : Text :=
  let full := dropLeading '\\' name
  if '\\' ∉ full then full
  else if o.isProtected full then o.withPrefix ((o.renamed.get? full).getD (lastSegment full))
  else lastSegment full

end ConvertOptions

end LegacyPhp

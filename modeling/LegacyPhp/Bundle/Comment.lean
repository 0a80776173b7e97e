import LegacyPhp.Options.Basic
import LegacyPhp.Text.Word
import LegacyPhp.Token.Scan

/-!
# Documentation comments that stay

A documentation comment stays in a bundle if it has an annotation that is read at run time: one of
the configured ones, or, with none configured, any that starts with a capital.
-/

namespace LegacyPhp.Bundle

open Text Scan

/-- Whether an annotation with a capital stands behind a space. -/
def hasCapitalAnnotation : Text → Bool
  | [] => false
  | c :: rest =>
    (match c, rest with
      | ' ', '@' :: d :: _ => d.isUpper
      | _, _ => false) || hasCapitalAnnotation rest

/-- Whether the annotation `@name` occurs with nothing after it that continues its name. -/
def hasAnnotation (name : Text) (doc : Text) : Bool :=
  match _h : breakOn? ('@' :: name) doc with
  | none => false
  | some (_, rest) =>
    if nextIs (fun c => isAlphanumeric c || c == '_') rest then hasAnnotation name rest else true
termination_by doc.length
decreasing_by exact length_of_breakOn? (List.cons_ne_nil _ _) (by assumption)

/-- Whether a documentation comment stays. -/
def isRetained (o : BundleOptions) (doc : Text) : Bool :=
  if o.retainedAnnotations.isEmpty then hasCapitalAnnotation doc
  else o.retainedAnnotations.any fun name => hasAnnotation (dropLeading '@' name) doc

end LegacyPhp.Bundle

import LegacyPhp.Json.Reader
import LegacyPhp.Options.Basic

/-!
# Reading options

A configuration is a JSON value. A record is an object with its fields by name, or an array with its
fields in order. Fields that are left out take their defaults, unknown names are passed over, and a
known name may be given once. `null` is no value of any field.
-/

namespace LegacyPhp

namespace JsonValue

/-- A string that is a text. -/
def text? : JsonValue → Option Text
  | string (some t) => some t
  | _ => none

/-- A truth value. -/
def bool? : JsonValue → Option Bool
  | bool b => some b
  | _ => none

/-- An array of values that are all read by `item?`. -/
def list? {α : Type} (item? : JsonValue → Option α) : JsonValue → Option (List α)
  | array items => items.mapM item?
  | _ => none

/-- The value of a field among the members of an object. The outer `none` says that the field is
given twice. -/
def member (members : List (Option Text × JsonValue)) (name : String) :
    Option (Option JsonValue) :=
  match members.filter fun m => m.1 == some name.toList with
  | [] => some none
  | [m] => some (some m.2)
  | _ => none

/-- The fields of a record, in the order of their names. -/
def fields? (names : List String) : JsonValue → Option (List (Option JsonValue))
  | object members =>
    if members.any fun m => m.1.isNone then none else names.mapM (member members)
  | array items =>
    if items.length ≤ names.length then
      some (items.map some ++ List.replicate (names.length - items.length) none)
    else none
  | _ => none

/-- A field that may be left out. -/
def orElse {α : Type} (read? : JsonValue → Option α) (default : α) :
    Option JsonValue → Option α
  | none => some default
  | some v => read? v

end JsonValue

open LegacyPhp.JsonValue

/-- The dialect of a name. -/
def Dialect.ofName? (name : Text) : Option Dialect :=
  if name = "legacy".toList then some .legacy
  else if name = "native".toList then some .native
  else none

/-- A dialect: its name, or an object with the name as its only key and `null` as its value. -/
def Dialect.ofJson? : JsonValue → Option Dialect
  | .string (some name) => ofName? name
  | .object [(some name, .null)] => ofName? name
  | _ => none

/-- A rename table; keys and values are taken as they are, and the last of equal keys wins. -/
def RenameTable.ofJson? : JsonValue → Option RenameTable
  | .object members =>
    members.foldlM (fun t m => do return t.set (← m.1) (← m.2.text?)) {}
  | _ => none

/-- A replacement, both fields of which are needed. -/
def Replacement.ofJson? (v : JsonValue) : Option Replacement := do
  match ← v.fields? ["from", "to"] with
  | [some old, some new] => return ⟨← old.text?, ← new.text?⟩
  | _ => none

/-- Options of a conversion. -/
def ConvertOptions.ofJson? (v : JsonValue) : Option ConvertOptions := do
  let d : ConvertOptions := {}
  match ← v.fields? ["dialect", "prefixed", "prefix", "protectedRoots", "renamed", "replacements",
      "newerOnlyVersions", "legacyMarker", "exemptTags", "closureShim", "annotatePackage"] with
  | [dialect, prefixed, classPrefix, roots, renamed, replacements, versions, marker, tags, helper,
      annotate] =>
    return {
      dialect := ← orElse Dialect.ofJson? d.dialect dialect
      prefixed := ← orElse bool? d.prefixed prefixed
      classPrefix := ← orElse text? d.classPrefix classPrefix
      protectedRoots := ← orElse (list? text?) d.protectedRoots roots
      renamed := ← orElse RenameTable.ofJson? d.renamed renamed
      replacements := ← orElse (list? Replacement.ofJson?) d.replacements replacements
      newerOnlyVersions := ← orElse (list? text?) d.newerOnlyVersions versions
      legacyMarker := ← orElse text? d.legacyMarker marker
      exemptTags := ← orElse (list? text?) d.exemptTags tags
      closureHelper := ← orElse text? d.closureHelper helper
      annotatePackage := ← orElse bool? d.annotatePackage annotate }
  | _ => none

/-- Options of a bundle. -/
def BundleOptions.ofJson? (v : JsonValue) : Option BundleOptions := do
  let d : BundleOptions := {}
  match ← v.fields? ["useNamespaces", "headerMarker", "rootNamespace", "retainedAnnotations",
      "optionalBases", "loaderClass", "skipFiles"] with
  | [useNamespaces, marker, root, annotations, bases, loader, skip] =>
    return {
      useNamespaces := ← orElse bool? d.useNamespaces useNamespaces
      headerMarker := ← orElse text? d.headerMarker marker
      rootNamespace := ← orElse text? d.rootNamespace root
      retainedAnnotations := ← orElse (list? text?) d.retainedAnnotations annotations
      optionalBases := ← orElse (list? text?) d.optionalBases bases
      loaderClass := ← orElse text? d.loaderClass loader
      skipFiles := ← orElse (list? text?) d.skipFiles skip }
  | _ => none

/-- A configuration. -/
def Config.ofJson? (v : JsonValue) : Option Config := do
  match ← v.fields? ["rewrite", "bundle"] with
  | [convert, bundle] =>
    return {
      convert := ← orElse ConvertOptions.ofJson? {} convert
      bundle := ← orElse BundleOptions.ofJson? {} bundle }
  | _ => none

/-- The configuration in a JSON text (`from_json`). -/
def Config.read? (json : Text) : Option Config := (JsonValue.read? json).bind Config.ofJson?

end LegacyPhp

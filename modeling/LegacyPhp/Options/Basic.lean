import LegacyPhp.Text.Basic

/-!
# Options

What a conversion and a bundle can be told. Every field has a default; a configuration is a pair of
both.
-/

namespace LegacyPhp

open Text

/-- What a conversion aims at. -/
inductive Dialect where
  /-- No namespaces and no closures: names are flattened and closures lifted. -/
  | legacy
  /-- Namespaces and closures stay as they are. -/
  | native
  deriving DecidableEq, Repr, Inhabited

/-- Full class names with the short names they get, in place of their last segment. -/
structure RenameTable where
  entries : List (Text × Text) := []
  deriving DecidableEq, Repr, Inhabited

namespace RenameTable

/-- Sets one entry; a key is written once. -/
def set (t : RenameTable) (full short : Text) : RenameTable :=
  ⟨(full, short) :: t.entries.filter (·.1 != full)⟩

/-- Sets one entry; leading separators on either side are dropped. -/
def insert (t : RenameTable) (full short : Text) : RenameTable :=
  t.set (dropLeading '\\' full) (dropLeading '\\' short)

/-- The entry of a full name, a leading separator of which is disregarded. -/
def get? (t : RenameTable) (full : Text) : Option Text := t.entries.lookup (dropLeading '\\' full)

/-- Whether there is no entry. -/
def isEmpty (t : RenameTable) : Bool := t.entries.isEmpty

end RenameTable

/-- A literal substitution in the source text. -/
structure Replacement where
  old : Text
  new : Text
  deriving DecidableEq, Repr, Inhabited

/-- What a conversion can be told. -/
structure ConvertOptions where
  dialect : Dialect := .legacy
  /-- Whether flattened names under a protected root get the class prefix. -/
  prefixed : Bool := true
  classPrefix : Text := "N".toList
  /-- Namespaces whose classes are renamed and prefixed; with none, all are. -/
  protectedRoots : List Text := ["Nette".toList]
  renamed : RenameTable := {}
  /-- Substitutions made before anything else. -/
  replacements : List Replacement := []
  /-- Versions that mark a unit as unusable on the legacy target. -/
  newerOnlyVersions : List Text := ["5.3".toList, "5.4".toList]
  /-- The version in comments that hold code for the legacy target. -/
  legacyMarker : Text := "5.2".toList
  /-- Documentation tags whose argument is never changed. -/
  exemptTags : List Text := ["@package".toList]
  /-- The class that stands behind lifted closures at run time. -/
  closureHelper : Text := "NClosureFix".toList
  /-- Whether documentation gets the namespace as its package. -/
  annotatePackage : Bool := true
  deriving DecidableEq, Repr, Inhabited

namespace ConvertOptions

/-- The legacy dialect with or without prefixes. -/
def legacy (prefixed : Bool) : ConvertOptions := { prefixed }

/-- The native dialect. -/
def native : ConvertOptions := { dialect := .native }

/-- Whether a full name lies under a root. -/
def liesUnder (full root : Text) : Bool :=
  let root := dropAround '\\' root
  sameWord (full.take root.length) root && full[root.length]? == some '\\'

/-- Whether a full name lies under a protected root. -/
def isProtected (o : ConvertOptions) (full : Text) : Bool :=
  o.protectedRoots.isEmpty || o.protectedRoots.any (liesUnder full)

end ConvertOptions

/-- What a bundle can be told. -/
structure BundleOptions where
  /-- Whether the output has `namespace` blocks. -/
  useNamespaces : Bool := true
  /-- The mark in the header line. -/
  headerMarker : Text := "netteloader".toList
  /-- The namespace in the header line. -/
  rootNamespace : Text := "Nette\\Framework".toList
  /-- Annotations that keep a documentation comment; with none, any capitalised one does. -/
  retainedAnnotations : List Text := []
  /-- Base classes that may be missing at run time. -/
  optionalBases : List Text := ["PDO".toList]
  /-- The class whose use marks the loading line of a loader. -/
  loaderClass : Text := "NetteLoader".toList
  /-- Names of files that a package leaves out. -/
  skipFiles : List Text := ["loader.php".toList, "NetteLoader.php".toList]
  deriving DecidableEq, Repr, Inhabited

/-- A bundle without `namespace` blocks. -/
def BundleOptions.legacy : BundleOptions := { useNamespaces := false }

/-- The options of both jobs. -/
structure Config where
  convert : ConvertOptions := {}
  bundle : BundleOptions := {}
  deriving DecidableEq, Repr, Inhabited

/-- The extensions of the files that a conversion looks at unless others are given. -/
def defaultExtensions : List Text := ["php".toList, "phpt".toList, "phtml".toList]

end LegacyPhp

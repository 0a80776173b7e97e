import LegacyPhp.Bundle.Artifact
import LegacyPhp.Bundle.Loader
import LegacyPhp.Bundle.Unit

/-!
# Bundles

A bundle is one file made of many units. `addFile` inlines a file, once, and with it the files that
it includes; `addContent` inlines a text. `bundleRoot` starts from one file, `bundlePackage` puts
the files of a package between the two parts of its loader.

Inlining is bounded: every unit that is inlined inside another one is a file of the tree that was
not visited before, so no chain of inclusions is longer than the number of places in the tree.
-/

namespace LegacyPhp.Bundle

open Text

/-- A base class without a leading separator, written at the token `t` with `rest` after it. -/
def baseName (t : Token) (rest : List Token) : Text :=
  if t.isPunct "\\" then ((Stream.peek rest).map Token.text).getD [] else dropLeading '\\' t.text

/-- The base class of the class declaration that starts at the token `t`. -/
def baseClass? (t : Token) (rest : List Token) : Option Text :=
  if t.isKeyword .classKw then do
    let (_, rest) ← Stream.fetch (fun _ => true) rest
    let (_, rest) ← Stream.fetch (·.isKeyword .extendsKw) rest
    let (base, rest) ← Stream.fetch (fun _ => true) rest
    return baseName base rest
  else none

/-- Puts the first class with an optional base, and all that follows it, under the condition that
the base exists. -/
def guardOptionalBase (bases : List Text) : List Token → Text
  | [] => []
  | t :: rest =>
    match (baseClass? t rest).filter bases.contains with
    | some base =>
      "if (class_exists('".toList ++ base ++ "'))\x7b ".toList ++ serialize (t :: rest) ++
        " \x7d".toList
    | none => t.text ++ guardOptionalBase bases rest

/-- The text of a unit with its optional base guarded (`wrap_optional_base`). -/
def guarded (o : BundleOptions) (path : Path) (content : Text) : Except Failure Text :=
  if o.optionalBases.isEmpty then .ok content
  else (tokenizeUnit path content).map (guardOptionalBase o.optionalBases)

/-- Whether a unit declares a namespace. -/
def declaresNamespace (tokens : List Token) : Bool := tokens.any (·.isKeyword .namespaceKw)

/-- A unit that declares no namespace is put into the global one. -/
def placeInNamespace (o : BundleOptions) (tokens : List Token) (content : Text) : Option Text :=
  if o.useNamespaces && !declaresNamespace tokens then
    (after? "<?php".toList content).map fun rest => "<?php\nnamespace;".toList ++ rest
  else none

/-- Inlines a text that came from the file `origin`. -/
def addContentWith (o : BundleOptions) (tree : FileTree) (inlineFile : Path → Bundler → Progress)
    (content : Text) (origin : Path) (b : Bundler) : Progress :=
  let unit (source : Text) : UnitContext := { options := o, tree, origin, source, inlineFile }
  match tokenizeUnit origin content with
  | .error f => (b, some f)
  | .ok tokens =>
    match placeInNamespace o tokens content with
    | none => copyUnit (unit content) tokens b
    | some source =>
      match tokenizeUnit origin source with
      | .error f => (b, some f)
      | .ok tokens => copyUnit (unit source) tokens b

/-- Inlines the file at a path, unless it was inlined before. At most `depth` files are inlined
inside one another. -/
def addFileWith (o : BundleOptions) (tree : FileTree) :
    (depth : Nat) → Path → Bundler → Progress
  | 0, _, b => (b, none)
  | depth + 1, path, b =>
    match tree.canonical path with
    | .error e => (b, some (.io path e))
    | .ok canonical =>
      if b.visited.contains canonical then (b, none)
      else
        let b := { b with visited := canonical :: b.visited }
        match tree.read canonical with
        | .error e => (b, some (.io path e))
        | .ok content =>
          match guarded o canonical content with
          | .error f => (b, some f)
          | .ok content =>
            addContentWith o tree (addFileWith o tree depth) content canonical b

/-- More than any chain of inclusions in the tree. -/
def maxDepth (tree : FileTree) : Nat := tree.places.length + 1

/-- Inlines the file at a path, unless it was inlined before. -/
def addFile (o : BundleOptions) (tree : FileTree) (path : Path) (b : Bundler) : Progress :=
  addFileWith o tree (maxDepth tree) path b

/-- Inlines a text that came from the file `origin`. -/
def addContent (o : BundleOptions) (tree : FileTree) (content : Text) (origin : Path)
    (b : Bundler) : Progress :=
  addContentWith o tree (addFile o tree) content origin b

/-- Inlines files one after the other, up to the first failure. -/
def addFiles (o : BundleOptions) (tree : FileTree) : List Path → Bundler → Progress
  | [], b => (b, none)
  | path :: paths, b =>
    match addFile o tree path b with
    | (b, none) => addFiles o tree paths b
    | failed => failed

/-- The bundle, if nothing failed. -/
def completed : Progress → Except Failure Bundler
  | (b, none) => .ok b
  | (_, some f) => .error f

/-- Whether a package leaves a file out. -/
def isSkipped (o : BundleOptions) (path : Path) : Bool :=
  match Path.fileName? path with
  | some name => o.skipFiles.contains name
  | none => false

end LegacyPhp.Bundle

namespace LegacyPhp

open LegacyPhp.Bundle

/-- The finished file of everything that can be reached from one file. -/
def bundleRoot (o : BundleOptions) (tree : FileTree) (root : Path) : Except Failure Text := do
  let b ← completed (addFile o tree root {})
  return finalize o b.finish

/-- The finished file of a package: the loader up to its loading line, the files in order, the rest
of the loader, and those closing files that exist. -/
def bundlePackage (o : BundleOptions) (tree : FileTree) (loader : Path)
    (files epilogue : List Path) : Except Failure Text := do
  let text ← (tree.read loader).mapError (.io loader)
  let (head, tail) ← splitLoader o loader text
  let canonical ← (tree.canonical loader).mapError (.io loader)
  let b ← completed (addContent o tree head canonical { visited := [canonical] })
  let b ← completed (addFiles o tree (files.filter (!isSkipped o ·)) b)
  let b ← completed (addContent o tree ("<?php ".toList ++ tail) canonical b)
  let b ← completed (addFiles o tree (epilogue.filter tree.isFile) b)
  return finalize o b.finish

end LegacyPhp

import LegacyPhp.Bundle.Spacing
import LegacyPhp.Failure
import LegacyPhp.Options.Basic

/-!
# The state of a bundle

What has been written, and what the next unit needs to know about it: the namespace block that is
open with the imports written in it, the units that have been inlined, whether the output stands
inside a code block, and the first documentation comment. The output is kept in reverse, since every
step writes at its end and looks at its last character.
-/

namespace LegacyPhp

open Text

/-- The state of a bundle. -/
structure Bundler where
  /-- The namespace block that is open; the global one has the empty name. -/
  openNamespace : Option Text := none
  /-- The imports written in the open block. -/
  imports : List Text := []
  /-- The canonical paths of the units inlined so far, the latest first. -/
  visited : List Path := []
  /-- Whether the output ends inside a code block. -/
  inCode : Bool := false
  /-- The first documentation comment. -/
  firstComment : Option Text := none
  /-- The output, its last character first. -/
  reversed : Text := []
  deriving DecidableEq, Repr

namespace Bundler

/-- The output. -/
def output (b : Bundler) : Text := b.reversed.reverse

/-- The last character of the output. -/
def last? (b : Bundler) : Option Char := b.reversed.head?

/-- Writes a text as it is. -/
def write (b : Bundler) (text : Text) : Bundler := { b with reversed := text.reverse ++ b.reversed }

@[simp] theorem output_write (b : Bundler) (text : Text) :
    (b.write text).output = b.output ++ text := by
  simp [output, write]

/-- Takes back a comma at the end of the output. -/
def dropComma (b : Bundler) : Bundler :=
  match b.reversed with
  | ',' :: rest => { b with reversed := rest }
  | _ => b

/-- Enters a code block if the output stands outside. -/
def enterCode (b : Bundler) : Bundler :=
  if b.inCode then b else { b.write "<?php ".toList with inCode := true }

/-- Writes the end of a namespace block. -/
def writeClose (b : Bundler) : Bundler := b.write ['}']

/-- Writes the start of a namespace block. -/
def writeOpen (b : Bundler) (name : Text) : Bundler :=
  b.write ("namespace ".toList ++ name ++ ['{'])

/-- Opens the block of a namespace, unless it is open already. The block before it is closed, and
its imports are gone. -/
def switchNamespace (b : Bundler) (name : Text) : Bundler :=
  if b.openNamespace == some name then b
  else
    let b := if b.openNamespace.isSome then b.writeClose else b
    { b.writeOpen name with openNamespace := some name, imports := [] }

/-- Writes an import, unless it is in the open block already. -/
def addImport (b : Bundler) (name : Text) : Bundler :=
  if b.imports.contains name then b
  else { b.write ("use\n".toList ++ name ++ [';']) with imports := b.imports ++ [name] }

/-- Returns to the namespace block and the imports that were there before a unit was inlined. -/
def restore (b before : Bundler) : Bundler :=
  if b.openNamespace == before.openNamespace then b
  else
    let b := b.enterCode
    let b := if b.openNamespace.isSome then b.writeClose else b
    let b := match before.openNamespace with
      | none => b
      | some name =>
        let b := b.writeOpen name
        if before.imports.isEmpty || name.isEmpty then b
        else b.write ("use\n".toList ++ join [','] before.imports ++ [';'])
    { b with openNamespace := before.openNamespace, imports := before.imports }

/-- Closes what is open and hands the output over. -/
def finish (b : Bundler) : Text :=
  match b.openNamespace with
  | none => b.output
  | some _ => b.enterCode.writeClose.output

end Bundler

end LegacyPhp

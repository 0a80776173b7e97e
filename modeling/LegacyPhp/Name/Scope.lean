import LegacyPhp.Text.Basic

/-!
# Class names in a scope

A unit names classes relative to the namespace it is in and to the imports made since it entered
that namespace. A `Scope` is that state, and `Scope.resolve?` turns a name as written into a full
name, without a leading separator. The only names without a resolution are those with an empty
segment.
-/

namespace LegacyPhp

open Text

/-- Names that the enclosing class gives a meaning to. -/
def isRelativeName (name : Text) : Bool :=
  sameWord name "self".toList || sameWord name "parent".toList || sameWord name "static".toList

/-- The last segment of a qualified name. -/
def lastSegment (name : Text) : Text := (name.reverse.takeWhile (· != '\\')).reverse

/-- The first segment of a qualified name. -/
def firstSegment (name : Text) : Text := name.takeWhile (· != '\\')

/-- The namespace a unit is in and the imports made in it. -/
structure Scope where
  /-- The current namespace; empty outside all of them. -/
  current : Text := []
  /-- Short names in lower case with the classes they stand for, the latest import first. -/
  aliases : List (Text × Text) := []
  deriving DecidableEq, Repr, Inhabited

namespace Scope

/-- Enters a namespace. No alias survives. -/
def enter (_ : Scope) (name : Text) : Scope := { current := dropAround '\\' name, aliases := [] }

/-- Imports a class under an alias or under its last segment. A later import of the same short name
wins. -/
def addImport (s : Scope) (name : Text) (alias? : Option Text) : Scope :=
  let full := dropLeading '\\' name
  { s with aliases := (lower (alias?.getD (lastSegment full)), full) :: s.aliases }

/-- The class that a short name was imported for. -/
def alias? (s : Scope) (short : Text) : Option Text := s.aliases.lookup (lower short)

/-- Whether a name has an empty segment. -/
def hasEmptySegment (name : Text) : Bool := (splitOn '\\' name).any List.isEmpty

/-- The full name of a name without a leading separator and without empty segments. -/
def qualify (s : Scope) (name : Text) : Text :=
  match s.alias? (firstSegment name) with
  | some full => full ++ name.drop (firstSegment name).length
  | none => if s.current.isEmpty then name else s.current ++ '\\' :: name

/-- The full name that a name stands for in the scope. -/
def resolve? (s : Scope) (name : Text) : Option Text :=
  if name.isEmpty || isRelativeName name then some name
  else
    match name with
    | '\\' :: rooted => if hasEmptySegment rooted then none else some rooted
    | name => if hasEmptySegment name then none else some (s.qualify name)

end Scope

end LegacyPhp

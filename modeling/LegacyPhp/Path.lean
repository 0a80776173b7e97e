import LegacyPhp.Text.Basic

/-!
# Paths

A path is text in which `/` separates names. Two names are idle: the empty one, which a doubled or a
trailing separator makes, and `.`, unless it opens the path. Going up (`parent?`), the last name
(`fileName?`) and the order of paths see the names and not the idle ones; what stands before the
last name stays as it was written.
-/

namespace LegacyPhp

/-- A path as it is written. -/
abbrev Path := Text

/-- One step of a path. The order of the constructors is the order of paths. -/
inductive Component where
  | root
  | here
  | up
  | name (name : Text)
  deriving DecidableEq, Repr

namespace Component

/-- The place of a component among the kinds of components. -/
def rank : Component → Nat
  | root => 0
  | here => 1
  | up => 2
  | name _ => 3

/-- Names compare as texts, other components by their kind. -/
def compare : Component → Component → Ordering
  | name a, name b => Text.compare a b
  | a, b => Ord.compare a.rank b.rank

end Component

namespace Path

open Text

/-- Whether the path starts at the root. -/
def isAbsolute : Path → Bool
  | '/' :: _ => true
  | _ => false

/-- Names that are no step: the empty one, and a dot that does not open the path. -/
def isIdle (name : Text) : Bool := name.isEmpty || name == ['.']

/-- The root or the dot that opens a path, and the rest. -/
def opening : Path → Text × Text
  | '/' :: rest => (['/'], rest)
  | ['.'] => (['.'], [])
  | '.' :: '/' :: rest => (['.'], '/' :: rest)
  | path => ([], path)

/-- Drops the idle names at the end. -/
def dropIdleEnd (names : List Text) : List Text := (names.reverse.dropWhile isIdle).reverse

/-- The names behind the opening, without the idle ones at the end. -/
def bodyNames (path : Path) : List Text := dropIdleEnd (splitOn '/' (opening path).2)

/-- The component that a name stands for. -/
def ofName (name : Text) : Component := if name == ['.', '.'] then .up else .name name

/-- The component that an opening stands for. -/
def ofOpening : Text → List Component
  | ['/'] => [.root]
  | ['.'] => [.here]
  | _ => []

/-- The steps of a path. -/
def components (path : Path) : List Component :=
  ofOpening (opening path).1 ++
    ((splitOn '/' (opening path).2).filter (!isIdle ·)).map ofName

/-- The path without its last step. The root and the empty path have none. -/
def parent? (path : Path) : Option Path :=
  match (bodyNames path).reverse with
  | [] => if (opening path).1 == ['.'] then some [] else none
  | _ :: before => some ((opening path).1 ++ join ['/'] (dropIdleEnd before.reverse))

/-- The last step, if it is a name. -/
def fileName? (path : Path) : Option Text :=
  match (components path).getLast? with
  | some (.name n) => some n
  | _ => none

/-- What follows the last dot of the last name, if something precedes that dot. -/
def extension? (path : Path) : Option Text := do
  let name ← fileName? path
  let tail := name.reverse.takeWhile (· != '.')
  match name.reverse.drop tail.length with
  | [] => none
  | [_] => none
  | _ :: _ :: _ => some tail.reverse

/-- The path `rest` taken from the directory `dir`. -/
def append (dir rest : Path) : Path :=
  if isAbsolute rest then rest
  else if dir.isEmpty || dir.getLast? == some '/' then dir ++ rest
  else dir ++ '/' :: rest

/-- The directory of a file as text; a path without one is in `.`. -/
def directory (path : Path) : Path := (parent? path).getD ['.']

/-- Lexicographic order of component lists. -/
def compareComponents : List Component → List Component → Ordering
  | [], [] => .eq
  | [], _ :: _ => .lt
  | _ :: _, [] => .gt
  | a :: as, b :: bs => (Component.compare a b).then (compareComponents as bs)

/-- Paths compare component by component. -/
def compare (a b : Path) : Ordering := compareComponents (components a) (components b)

/-- Whether `a` does not come after `b`. -/
def le (a b : Path) : Bool := compare a b != .gt

end Path

end LegacyPhp

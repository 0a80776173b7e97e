import LegacyPhp.Convert
import LegacyPhp.FileTree.Discover

/-!
# Conversion of files

`convertFile` converts one file in place: it is written if its text changes, and removed if the unit
is dropped. `convertTree` does so with every file that a search finds; the first failure ends it.
-/

namespace LegacyPhp

/-- What was done to a file. -/
inductive FileAction where
  | unchanged
  | written
  | deleted
  deriving DecidableEq, Repr

/-- Converts the file at a path (`rewrite_file`). -/
def convertFile (o : ConvertOptions) (path : Path) (t : FileTree) :
    Except Failure (FileAction × FileTree) := do
  let source ← (t.read path).mapError (.io path)
  match ← convert o path source with
  | .dropped => return (.deleted, ← (t.remove path).mapError (.io path))
  | .converted text _ =>
    if text == source then return (.unchanged, t)
    else return (.written, ← (t.write path text).mapError (.io path))

/-- Converts files one after the other. -/
def convertFiles (o : ConvertOptions) : List Path → FileTree →
    Except Failure (List (Path × FileAction) × FileTree)
  | [], t => .ok ([], t)
  | path :: paths, t => do
    let (action, t) ← convertFile o path t
    let (actions, t) ← convertFiles o paths t
    return ((path, action) :: actions, t)

/-- What was done to a tree. -/
structure TreeReport where
  written : List Path
  deleted : List Path
  /-- The number of files that stayed as they were. -/
  unchanged : Nat
  deriving DecidableEq, Repr

/-- The paths with a given action, in order. -/
def pathsWith (action : FileAction) (actions : List (Path × FileAction)) : List Path :=
  (actions.filter (·.2 == action)).map (·.1)

/-- The report on a list of actions. -/
def TreeReport.ofActions (actions : List (Path × FileAction)) : TreeReport where
  written := pathsWith .written actions
  deleted := pathsWith .deleted actions
  unchanged := (pathsWith .unchanged actions).length

/-- Converts every file that a search finds under a path (`rewrite_tree`). -/
def convertTree (o : ConvertOptions) (s : FileTree.Search) (root : Path) (t : FileTree) :
    Except Failure (TreeReport × FileTree) := do
  let paths ← t.discover s root
  let (actions, t) ← convertFiles o paths t
  return (.ofActions actions, t)

end LegacyPhp

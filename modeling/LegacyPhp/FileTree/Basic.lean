import LegacyPhp.Path

/-!
# A file tree as a value

Files, links and directories by their location, which is the list of names from the root. Work on
files is a function from trees to trees; nothing outside the tree is read or written. A tree also
has a working directory, from which relative paths start.
-/

namespace LegacyPhp

/-- The names that lead from the root to a place. -/
abbrev Location := List Text

/-- What a file holds. -/
inductive Content where
  | text (text : Text)
  /-- Bytes that are not the UTF-8 form of a text. -/
  | binary (bytes : List UInt8)
  deriving DecidableEq, Repr

/-- The content with the given bytes. -/
def Content.ofBytes (bytes : List UInt8) : Content :=
  match String.fromUTF8? ⟨bytes.toArray⟩ with
  | some s => .text s.toList
  | none => .binary bytes

/-- What stands at a place. -/
inductive Entry where
  | file (content : Content)
  /-- A symbolic link with its target as it is written. -/
  | link (target : Path)
  | directory
  deriving DecidableEq, Repr

/-- A file tree with a working directory. -/
structure FileTree where
  /-- The entries but the root, which is always a directory. -/
  entries : List (Location × Entry) := []
  workDir : Location := []
  deriving Repr

namespace FileTree

/-- What stands at a location. -/
def entry? (t : FileTree) (l : Location) : Option Entry :=
  if l.isEmpty then some .directory else t.entries.lookup l

/-- The entries with one put at a location, in place of what stood there or at the end. -/
def putEntry (l : Location) (e : Entry) : List (Location × Entry) → List (Location × Entry)
  | [] => [(l, e)]
  | (m, old) :: rest => if m == l then (l, e) :: rest else (m, old) :: putEntry l e rest

/-- The tree with an entry put at a location, in place of what stood there. -/
def put (t : FileTree) (l : Location) (e : Entry) : FileTree :=
  { t with entries := putEntry l e t.entries }

/-- The tree without the entry at a location. -/
def erase (t : FileTree) (l : Location) : FileTree :=
  { t with entries := t.entries.filter (·.1 != l) }

/-- The tree with a directory at every beginning of a location where nothing stands. -/
def putDirectories (t : FileTree) (l : Location) : FileTree :=
  (List.range (l.length + 1)).foldl (fun t n =>
    if (t.entry? (l.take n)).isSome then t else t.put (l.take n) .directory) t

/-- The tree with an entry and the directories that lead to it. -/
def putDeep (t : FileTree) (l : Location) (e : Entry) : FileTree :=
  (t.putDirectories l.dropLast).put l e

/-- The names in a directory. -/
def children (t : FileTree) (l : Location) : List Text :=
  t.entries.filterMap fun (m, _) => if m.dropLast == l then m.getLast? else none

/-- The files at or under a location, with their paths from there. -/
def filesUnder (t : FileTree) (l : Location) : List (Path × Content) :=
  t.entries.filterMap fun (m, e) =>
    match e with
    | .file c =>
      if m.take l.length == l then some (Text.join ['/'] (m.drop l.length), c) else none
    | _ => none

/-- The absolute path of a location. -/
def pathOf (l : Location) : Path := '/' :: Text.join ['/'] l

end FileTree

end LegacyPhp

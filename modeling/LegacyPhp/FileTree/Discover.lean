import LegacyPhp.FileTree.Access

/-!
# Discovery of sources

`discover` lists the files under a path whose extension is among the given ones. Links are followed;
a link that leads nowhere, or back to a directory on the way to it, fails the whole search.
Directories with an excluded name are left out, but never the one that the search starts from. The
result is in the order of paths.

The depth of the search is bounded: a link never leads to a directory that is being searched, and
between two links the search only goes down, so no branch is longer than the square of the number of
entries.
-/

namespace LegacyPhp.FileTree

open Text

/-- What a search looks for. -/
structure Search where
  extensions : List Text
  /-- Names of directories that are left out. -/
  excluded : List Text

/-- Whether a path has one of the extensions, in any case and with or without leading dots. -/
def hasExtension (extensions : List Text) (path : Path) : Bool :=
  match Path.extension? path with
  | some ext => extensions.any fun e => sameWord (dropLeading '.' e) ext
  | none => false

/-- The path, if it has one of the extensions. -/
def ifWanted (s : Search) (path : Path) : List Path :=
  if hasExtension s.extensions path then [path] else []

/-- The files in the directory at `here`, which the search knows as `path`, and below it.
`ancestors` are the directories on the way to it, itself included. -/
def search (t : FileTree) (s : Search) :
    (depth : Nat) → (ancestors : List Location) → (path : Path) → (here : Location) →
    Except Failure (List Path)
  | 0, _, _, _ => .ok []
  | depth + 1, ancestors, path, here => do
    let found ← (t.children here).mapM fun name =>
      let child := Path.append path name
      match t.entry? (here ++ [name]) with
      | none => .ok []
      | some (.file _) => .ok (ifWanted s child)
      | some .directory =>
        if s.excluded.contains name then .ok []
        else search t s depth ((here ++ [name]) :: ancestors) child (here ++ [name])
      | some (.link _) =>
        match t.locate true child with
        | .error e => .error (.io child e)
        | .ok l =>
          if t.entry? l == some .directory then
            if ancestors.contains l then .error (.io child .loop)
            else if s.excluded.contains name then .ok []
            else search t s depth (l :: ancestors) child l
          else .ok (ifWanted s child)
    return found.flatten

/-- More than the length of any branch of a search. -/
def searchDepth (t : FileTree) : Nat := (t.entries.length + 1) * (t.entries.length + 1)

/-- The files that a search finds under a path, in the order of paths (`discover_sources`). -/
def discover (t : FileTree) (s : Search) (root : Path) : Except Failure (List Path) :=
  match t.locate true root with
  | .error e => .error (.io root e)
  | .ok l =>
    if t.entry? l == some .directory then
      (t.search s t.searchDepth [l] root l).map (·.mergeSort Path.le)
    else .ok (ifWanted s root)

end LegacyPhp.FileTree

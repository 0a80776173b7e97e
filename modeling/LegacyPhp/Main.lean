import LegacyPhp.CommandLine.Run

/-!
# The program

The outer layer: it copies what a command needs from the file system into a tree, runs the command
on it, and writes the differences back. Beside the paths on the command line these are all files
under a directory that is converted, and files that turn out to be missing while a bundle is made.
-/

namespace LegacyPhp.Session

open LegacyPhp.CommandLine

/-- The place of a location in the file system. -/
def handle (l : Location) : IO.FS.DirEntry where
  root := String.ofList (FileTree.pathOf l.dropLast)
  fileName := String.ofList (l.getLast?.getD [])

/-- A path that leads nowhere. -/
def nowhere : Path := ['/', '\x00']

/-- What stands at a location of the file system. The target of a link is given without links. -/
def entryAt (l : Location) : IO (Option Entry) := do
  try
    let path := (handle l).path
    match (← path.symlinkMetadata).type with
    | .dir => return some .directory
    | .file => return some (.file (.ofBytes (← IO.FS.readBinFile path).toList))
    | .symlink =>
      if ← path.pathExists then return some (.link (← IO.FS.realPath path).toString.toList)
      else return some (.link nowhere)
    | .other => return none
  catch _ => return none

/-- Copies everything on the way that names lead from a directory. -/
partial def reveal (here : Location) (names : List Text) (t : FileTree) : IO FileTree := do
  match names with
  | [] => return t
  | name :: rest =>
    if Path.isIdle name then reveal here rest t
    else if name == ['.', '.'] then reveal here.dropLast rest t
    else
      let l := here ++ [name]
      match ← entryAt l with
      | none => return t
      | some .directory => reveal l rest (t.put l .directory)
      | some (.file content) => return t.put l (.file content)
      | some (.link target) =>
        reveal [] (Text.splitOn '/' target ++ rest) (t.put l (.link target))

/-- Copies everything on the way of a path. -/
def revealPath (path : Path) (t : FileTree) : IO FileTree :=
  reveal (FileTree.startOf t.workDir path) (Text.splitOn '/' path) t

/-- A tree and the directories that were copied whole. -/
structure Copied where
  tree : FileTree
  whole : List Location := []

/-- Copies all below a directory, behind links too, but nothing above what is being copied. -/
partial def revealBelow (l : Location) (c : Copied) : IO Copied := do
  if c.whole.contains l then return c
  let mut c := { c with whole := l :: c.whole }
  for e in ← (handle l).path.readDir do
    let child := l ++ [e.fileName.toList]
    c := { c with tree := ← reveal l [e.fileName.toList] c.tree }
    match c.tree.locate true (FileTree.pathOf child) with
    | .ok target =>
      if c.tree.entry? target == some .directory && !target.isPrefixOf l then
        c ← revealBelow target c
    | .error _ => pure ()
  return c

/-- Copies what a command needs at first. -/
def prepare (command : Command) (t : FileTree) : IO FileTree := do
  let t ← command.paths.foldlM (fun t path => revealPath path t) t
  match command with
  | .convert c =>
    match t.locate true c.dir with
    | .ok l =>
      if t.entry? l == some .directory then return (← revealBelow l { tree := t }).tree
      else return t
    | .error _ => return t
  | _ => return t

/-- The path that was missing when a command failed. -/
def missingPath? : Ending → Option Path
  | .failed (.job (.io path .notFound)) => some path
  | .failed (.job (.resolution _ target (.missingFileNear _))) => some target
  | _ => none

/-- Runs a command, again and again while a file that it misses can be copied. -/
partial def attempt (arguments : List Text) (t : FileTree) : IO (FileTree × Ending) := do
  let ending := execute arguments t
  match missingPath? ending with
  | none => return (t, ending)
  | some path =>
    if t.isFile path then return (t, ending)
    let more ← revealPath path t
    if more.isFile path then attempt arguments more else return (t, ending)

/-- The bytes of a content. -/
def bytesOf : Content → ByteArray
  | .text text => (String.ofList text).toUTF8
  | .binary bytes => ⟨bytes.toArray⟩

/-- Writes the differences between two trees. -/
def store (before after : FileTree) : IO Unit := do
  for (l, e) in after.entries do
    if before.entry? l != some e then
      let path := (handle l).path
      match e with
      | .directory => IO.FS.createDirAll path
      | .file content => IO.FS.writeBinFile path (bytesOf content)
      | .link _ => pure ()
  for (l, e) in before.entries do
    if (after.entry? l).isNone && e != .directory then IO.FS.removeFile (handle l).path

/-- Prints how a call ended, and gives the exit code. -/
def conclude (before : FileTree) : Ending → IO UInt32
  | .done c => do
    store before c.tree
    IO.print (String.ofList c.output)
    return 0
  | .failed f => do
    IO.eprintln (String.ofList f.report)
    return 1
  | .misused => do
    IO.eprint (String.ofList usageText)
    return 2

/-- Runs the program on the file system. -/
def run (args : List String) : IO UInt32 := do
  let arguments := args.map String.toList
  let here := (← IO.FS.realPath ".").toString.toList
  let workDir := (Text.splitOn '/' here).filter (!·.isEmpty)
  let t ← revealPath here { workDir }
  let t ← match Command.read arguments with
    | .ok command => prepare command t
    | .error _ => pure t
  let (t, ending) ← attempt arguments t
  conclude t ending

end LegacyPhp.Session

/-- The entry point. -/
def main (args : List String) : IO UInt32 := LegacyPhp.Session.run args

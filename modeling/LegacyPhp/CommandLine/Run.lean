import LegacyPhp.Bundle.Basic
import LegacyPhp.CommandLine.Command
import LegacyPhp.ConvertTree
import LegacyPhp.Options.Reader

/-!
# Running a command

A command is a function on file trees: `Command.run` gives what is printed and the tree afterwards,
or the failure. `execute` starts from the arguments.
-/

namespace LegacyPhp.CommandLine

open Text

/-- Why a command fails. -/
inductive CommandFailure where
  | job (failure : Failure)
  | cannotRead (path : Path)
  | cannotCreate (path : Path)
  | cannotWrite (path : Path)
  /-- The list of files is not a JSON array of strings. -/
  | notList (path : Path)
  | emptyList (path : Path)
  deriving DecidableEq, Repr

/-- The wording of a failure. -/
def CommandFailure.message : CommandFailure → Text
  | job failure => failure.message
  | cannotRead path => "cannot read ".toList ++ path
  | cannotCreate path => "cannot create ".toList ++ path
  | cannotWrite path => "cannot write ".toList ++ path
  | notList path => path ++ " is not a JSON array of paths".toList
  | emptyList path => path ++ " lists no files".toList

/-- What a command leaves behind. -/
structure Completion where
  output : Text := []
  tree : FileTree

/-- The configuration in a file; without one, the defaults. -/
def loadConfig (t : FileTree) : Option Path → Except CommandFailure Config
  | none => .ok {}
  | some path => do
    let json ← (t.read path).mapError fun e => .job (.io path e)
    match Config.read? json with
    | some config => return config
    | none => .error (.job (.config []))

/-- The options of a bundle, without namespace blocks if so asked. -/
def bundleOptions (config : Config) (legacy : Bool) : BundleOptions :=
  if legacy then { config.bundle with useNamespaces := false } else config.bundle

/-- Writes the output file; its directory is made if it is missing. -/
def writeOutput (t : FileTree) (path : Path) (text : Text) : Except CommandFailure FileTree := do
  let t ← match (Path.parent? path).filter (!·.isEmpty) with
    | none => pure t
    | some dir => (t.makeDirectories (dir.length + 1) dir).mapError fun _ => .cannotCreate dir
  (t.write path text).mapError fun _ => .cannotWrite path

/-- The list of files in load order. -/
def readList (t : FileTree) (path : Path) : Except CommandFailure (List Path) := do
  let json ← (t.read path).mapError fun _ => .cannotRead path
  match (JsonValue.read? json).bind (JsonValue.list? JsonValue.text?) with
  | none => .error (.notList path)
  | some [] => .error (.emptyList path)
  | some files => return files

/-- What a conversion prints. -/
def summary (r : TreeReport) : Text :=
  ofNat r.written.length ++ " written, ".toList ++ ofNat r.deleted.length ++
    " deleted, ".toList ++ ofNat r.unchanged ++ " unchanged\n".toList

namespace ConvertCommand

/-- The options of a conversion. -/
def options (c : ConvertCommand) (config : Config) : ConvertOptions :=
  { config.convert with
    dialect := if c.native then .native else config.convert.dialect
    prefixed := config.convert.prefixed && !c.plain }

/-- What a conversion looks for. -/
def search (c : ConvertCommand) : FileTree.Search where
  extensions := if c.extensions.isEmpty then defaultExtensions else c.extensions
  excluded := c.excluded

/-- Runs a conversion. -/
def run (c : ConvertCommand) (t : FileTree) : Except CommandFailure Completion := do
  let config ← loadConfig t c.config
  let (report, t) ← (convertTree (c.options config) c.search c.dir t).mapError .job
  return { output := summary report, tree := t }

end ConvertCommand

/-- Runs a bundle of one file. -/
def BundleCommand.run (c : BundleCommand) (t : FileTree) : Except CommandFailure Completion := do
  let config ← loadConfig t c.config
  let text ← (bundleRoot (bundleOptions config c.legacy) t c.root).mapError .job
  return { tree := ← writeOutput t c.output text }

/-- Runs a bundle of a package. -/
def PackageCommand.run (c : PackageCommand) (t : FileTree) :
    Except CommandFailure Completion := do
  let config ← loadConfig t c.config
  let files ← readList t c.files
  let inPackage := Path.append c.dir
  let text ← (bundlePackage (bundleOptions config c.legacy) t (inPackage "loader.php".toList)
    (files.map inPackage) (c.epilogue.map inPackage)).mapError .job
  return { tree := ← writeOutput t c.output text }

/-- The name and the version of the program. -/
def versionLine : Text := "downlevel 0.1.0\n".toList

/-- How the program is called. -/
def usageText : Text :=
  ("Usage: downlevel convert DIR [-c CONFIG] [--native] [--no-prefix] [--ext EXT] " ++
    "[--exclude NAME]\n       downlevel bundle ROOT -o OUTPUT [-c CONFIG] [--legacy]\n" ++
    "       downlevel package DIR -o OUTPUT --files LIST [--epilogue FILE] [-c CONFIG] " ++
    "[--legacy]\n").toList

/-- Runs a command. -/
def Command.run (t : FileTree) : Command → Except CommandFailure Completion
  | convert c => c.run t
  | bundle c => c.run t
  | package c => c.run t
  | version => .ok { output := versionLine, tree := t }
  | help => .ok { output := usageText, tree := t }

/-- How a call of the program ends. -/
inductive Ending where
  | done (completion : Completion)
  | failed (failure : CommandFailure)
  /-- The arguments make no command. -/
  | misused

/-- Runs the program. -/
def execute (arguments : List Text) (t : FileTree) : Ending :=
  match Command.read arguments with
  | .error .usage => .misused
  | .error .help => .done { output := usageText, tree := t }
  | .ok command =>
    match command.run t with
    | .ok completion => .done completion
    | .error failure => .failed failure

/-- What a failure prints. -/
def CommandFailure.report (f : CommandFailure) : Text := "Error: ".toList ++ f.message

end LegacyPhp.CommandLine

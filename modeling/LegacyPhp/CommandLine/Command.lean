import LegacyPhp.CommandLine.Arguments
import LegacyPhp.Path

/-!
# Commands

What the program can be asked to do, and how it is written on the command line.
-/

namespace LegacyPhp.CommandLine

open Text

/-- Converts the sources under a directory in place. -/
structure ConvertCommand where
  dir : Path
  config : Option Path
  /-- Namespaces and closures stay. -/
  native : Bool
  /-- Flattened names get no prefix. -/
  plain : Bool
  /-- The extensions of sources; none stands for the usual ones. -/
  extensions : List Text
  /-- Names of directories that are left out. -/
  excluded : List Text
  deriving DecidableEq, Repr

/-- Bundles what can be reached from one file. -/
structure BundleCommand where
  root : Path
  output : Path
  config : Option Path
  /-- The output has no namespace blocks. -/
  legacy : Bool
  deriving DecidableEq, Repr

/-- Bundles a package around its loader. -/
structure PackageCommand where
  dir : Path
  output : Path
  /-- The file with the list of files in load order. -/
  files : Path
  /-- The files that come last, relative to the package. -/
  epilogue : List Path
  config : Option Path
  /-- The output has no namespace blocks. -/
  legacy : Bool
  deriving DecidableEq, Repr

/-- What the program is asked to do. -/
inductive Command where
  | convert (command : ConvertCommand)
  | bundle (command : BundleCommand)
  | package (command : PackageCommand)
  | version
  | help
  deriving DecidableEq, Repr

/-- The paths that a command names. -/
def Command.paths : Command → List Path
  | convert c => c.dir :: c.config.toList
  | bundle c => c.root :: c.output :: c.config.toList
  | package c =>
    c.dir :: c.output :: c.files :: c.epilogue.map (Path.append c.dir) ++ c.config.toList
  | version | help => []

/-- The option that names the configuration file. -/
def configRule : OptionRule := ⟨"config".toList, some 'c', .path⟩

/-- The option that names the output file. -/
def outputRule : OptionRule := ⟨"output".toList, some 'o', .path⟩

/-- The options of `convert`. -/
def convertRules : List OptionRule :=
  [configRule, ⟨"native".toList, none, .flag⟩, ⟨"no-prefix".toList, none, .flag⟩,
    ⟨"ext".toList, none, .texts⟩, ⟨"exclude".toList, none, .texts⟩]

/-- The options of `bundle`. -/
def bundleRules : List OptionRule := [outputRule, configRule, ⟨"legacy".toList, none, .flag⟩]

/-- The options of `package`. -/
def packageRules : List OptionRule :=
  [outputRule, ⟨"files".toList, none, .path⟩, ⟨"epilogue".toList, none, .paths⟩, configRule,
    ⟨"legacy".toList, none, .flag⟩]

/-- The files that come last in a package unless others are given. -/
def defaultEpilogue : List Path := ["Diagnostics/shortcuts.php".toList]

/-- A part that the command cannot do without. -/
def required (value : Option Text) : Except Refusal Text :=
  match value with
  | some value => .ok value
  | none => .error .usage

/-- Reads the arguments of `convert`. -/
def readConvert (arguments : List Text) : Except Refusal ConvertCommand := do
  let g ← readArguments convertRules {} arguments
  return {
    dir := ← required g.operand?
    config := g.value? "config"
    native := g.has "native"
    plain := g.has "no-prefix"
    extensions := g.values "ext"
    excluded := g.values "exclude" }

/-- Reads the arguments of `bundle`. -/
def readBundle (arguments : List Text) : Except Refusal BundleCommand := do
  let g ← readArguments bundleRules {} arguments
  return {
    root := ← required g.operand?
    output := ← required (g.value? "output")
    config := g.value? "config"
    legacy := g.has "legacy" }

/-- Reads the arguments of `package`. -/
def readPackage (arguments : List Text) : Except Refusal PackageCommand := do
  let g ← readArguments packageRules {} arguments
  return {
    dir := ← required g.operand?
    output := ← required (g.value? "output")
    files := ← required (g.value? "files")
    epilogue := if g.has "epilogue" then g.values "epilogue" else defaultEpilogue
    config := g.value? "config"
    legacy := g.has "legacy" }

/-- Whether an argument asks for something by its long name or by its letter. -/
def asksFor (name : String) (letter : Char) (argument : Text) : Bool :=
  argument == '-' :: '-' :: name.toList || ['-', letter].isPrefixOf argument

/-- The words that help can be asked about. -/
def topics : List Text := ["convert".toList, "bundle".toList, "package".toList, "help".toList]

/-- Reads the arguments of `help`: nothing, or one topic. -/
def readHelp : List Text → Except Refusal Command
  | [] => .ok .help
  | [topic] => if topics.contains topic then .ok .help else .error .usage
  | _ => .error .usage

/-- Reads a command line without the name of the program. -/
def Command.read : List Text → Except Refusal Command
  | [] => .error .usage
  | word :: rest =>
    if word = "convert".toList then (readConvert rest).map .convert
    else if word = "bundle".toList then (readBundle rest).map .bundle
    else if word = "package".toList then (readPackage rest).map .package
    else if asksFor "version" 'V' word then .ok .version
    else if word = "help".toList then readHelp rest
    else if asksFor "help" 'h' word then .ok .help
    else .error .usage

end LegacyPhp.CommandLine

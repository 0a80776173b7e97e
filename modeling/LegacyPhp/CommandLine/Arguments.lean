import LegacyPhp.Text.Basic

/-!
# Arguments of a command

A command takes one operand, a path, and options. An option has a long name and perhaps a letter;
its value follows in the same argument (`--name=value`, `-xvalue`, `-x=value`) or is the next one,
which then may not look like an option. After `--` everything is an operand. Arguments are read from
left to right, and the first that does not fit decides the refusal.
-/

namespace LegacyPhp.CommandLine

open Text

/-- What an option takes. -/
inductive Arity where
  /-- No value; given at most once. -/
  | flag
  /-- A path, which is not empty; given at most once. -/
  | path
  /-- Paths, none of them empty. -/
  | paths
  /-- Any texts. -/
  | texts
  deriving DecidableEq, Repr

/-- An option of a command. -/
structure OptionRule where
  name : Text
  letter? : Option Char := none
  arity : Arity
  deriving DecidableEq, Repr

/-- Why arguments are not read to the end. -/
inductive Refusal where
  | usage
  /-- Help is asked for. -/
  | help
  deriving DecidableEq, Repr

/-- What a command was given. -/
structure Given where
  operand? : Option Text := none
  /-- Option names with their values in order; a flag has an empty one. -/
  options : List (Text × Text) := []
  deriving DecidableEq, Repr

namespace Given

/-- The values of an option in order. -/
def values (g : Given) (name : String) : List Text :=
  (g.options.filter (·.1 == name.toList)).map (·.2)

/-- The value of an option that is given at most once. -/
def value? (g : Given) (name : String) : Option Text := (g.values name).head?

/-- Whether a flag is given. -/
def has (g : Given) (name : String) : Bool := (g.value? name).isSome

/-- Takes an operand: there is one, and it is not empty. -/
def addOperand (g : Given) (text : Text) : Except Refusal Given :=
  if g.operand?.isSome || text.isEmpty then .error .usage
  else .ok { g with operand? := some text }

/-- Takes an option with its value. -/
def addOption (g : Given) (rule : OptionRule) (value : Text) : Except Refusal Given :=
  let repeated := g.options.any (·.1 == rule.name)
  let accepted := match rule.arity with
    | .flag => !repeated
    | .path => !repeated && !value.isEmpty
    | .paths => !value.isEmpty
    | .texts => true
  if accepted then .ok { g with options := g.options ++ [(rule.name, value)] }
  else .error .usage

end Given

/-- What an argument is. -/
inductive Argument where
  | operand
  /-- An option that needs nothing more. -/
  | option (rule : OptionRule) (value : Text)
  /-- An option whose value is the next argument. -/
  | awaiting (rule : OptionRule)
  | refused (why : Refusal)
  deriving DecidableEq, Repr

/-- An option, with the value written in its argument if there is one. -/
def Argument.ofRule (rule : OptionRule) (value : Option Text) : Argument :=
  match rule.arity, value with
  | .flag, none => .option rule []
  | .flag, some _ => .refused .usage
  | _, some value => .option rule value
  | _, none => .awaiting rule

/-- The argument `--text`. -/
def longArgument (rules : List OptionRule) (text : Text) : Argument :=
  let name := text.takeWhile (· != '=')
  let value := match text.drop name.length with
    | _ :: value => some value
    | [] => none
  match rules.find? (·.name == name) with
  | some rule => .ofRule rule value
  | none => .refused (if name == "help".toList && value.isNone then .help else .usage)

/-- The argument that consists of a dash, a letter and `rest`. Every option with a letter takes a
value. -/
def shortArgument (rules : List OptionRule) (letter : Char) (rest : Text) : Argument :=
  match rules.find? (·.letter? == some letter) with
  | some rule =>
    .ofRule rule (match rest with
      | [] => none
      | '=' :: value => some value
      | value => some value)
  | none => .refused (if letter == 'h' then .help else .usage)

/-- What an argument is, in a command with the given options. -/
def classify (rules : List OptionRule) : Text → Argument
  | '-' :: '-' :: text => longArgument rules text
  | '-' :: letter :: rest => shortArgument rules letter rest
  | _ => .operand

/-- Whether a text can be the value of the option before it. -/
def isValue : Text → Bool
  | '-' :: _ :: _ => false
  | _ => true

/-- Reads the arguments of a command, after what it was given so far. -/
def readArguments (rules : List OptionRule) (g : Given) : List Text → Except Refusal Given
  | [] => .ok g
  | ['-', '-'] :: operands => operands.foldlM Given.addOperand g
  | argument :: rest =>
    match classify rules argument with
    | .refused why => .error why
    | .operand => do readArguments rules (← g.addOperand argument) rest
    | .option rule value => do readArguments rules (← g.addOption rule value) rest
    | .awaiting rule =>
      match rest with
      | [] => .error .usage
      | value :: rest =>
        if isValue value then do readArguments rules (← g.addOption rule value) rest
        else .error .usage

end LegacyPhp.CommandLine

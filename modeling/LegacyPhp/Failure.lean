import LegacyPhp.Path
import LegacyPhp.Token.Lexer

/-!
# Failures

Everything that can go wrong with a unit, a bundle, a file or a configuration, as causes. The
wording of a failure is `Failure.message`, its stable code `Failure.code`, and the unit it is about
`Failure.path?`. Most failures name their unit where they arise; a lexical one and an unresolved
name may arise before the unit is known, and `Failure.atUnit` supplies it.
-/

namespace LegacyPhp

/-- Why a file operation fails. -/
inductive IoFault where
  | notFound
  | alreadyExists
  | notDirectory
  | isDirectory
  | tooManyLinks
  | notUtf8
  /-- A link leads back to a directory that is being walked. -/
  | loop
  | other (message : Text)
  deriving DecidableEq, Repr

/-- The wording of a file fault. -/
def IoFault.message : IoFault → Text
  | notFound => "No such file or directory (os error 2)".toList
  | alreadyExists => "File exists (os error 17)".toList
  | notDirectory => "Not a directory (os error 20)".toList
  | isDirectory => "Is a directory (os error 21)".toList
  | tooManyLinks => "Too many levels of symbolic links (os error 40)".toList
  | notUtf8 => "stream did not contain valid UTF-8".toList
  | loop => "filesystem loop".toList
  | other message => message

/-- A construct that has no legacy form. -/
inductive Construct where
  | nestedClosure
  | other (name : Text)
  deriving DecidableEq, Repr

/-- The wording of a construct. -/
def Construct.message : Construct → Text
  | nestedClosure => "nested closure".toList
  | other name => name

/-- Words followed by an excerpt of the source. -/
def nearExcerpt (words : String) (excerpt : Text) : Text :=
  words.toList ++ " near \x60".toList ++ excerpt ++ ['\x60']

/-- Why a name or an included file cannot be resolved. -/
inductive ResolutionFault where
  | emptySegment
  | emptySegmentNear (excerpt : Text)
  | missingFileNear (excerpt : Text)
  | other (message : Text)
  deriving DecidableEq, Repr

/-- The wording of a resolution fault. -/
def ResolutionFault.message : ResolutionFault → Text
  | emptySegment => "empty namespace segment".toList
  | emptySegmentNear excerpt => nearExcerpt "empty namespace segment" excerpt
  | missingFileNear excerpt => nearExcerpt "included file not found" excerpt
  | other message => message

/-- What is missing or surplus in a unit. -/
inductive StructureFault where
  | closureWithoutBody (excerpt : Text)
  | loaderParts (count : Nat)
  | other (message : Text)
  deriving DecidableEq, Repr

/-- The wording of a structure fault. -/
def StructureFault.message : StructureFault → Text
  | closureWithoutBody excerpt => nearExcerpt "closure without a body" excerpt
  | loaderParts count =>
    "loader splits into ".toList ++ Text.ofNat count ++
      " parts around its loading line, expected 2".toList
  | other message => message

/-- A failure, with the unit or file it is about. -/
inductive Failure where
  | lex (path : Path) (fault : LexFault) (offset : Nat)
  | unsupported (path : Path) (construct : Construct) (context : Text)
  | resolution (path : Path) (subject : Text) (fault : ResolutionFault)
  | structural (path : Path) (fault : StructureFault)
  | io (path : Path) (fault : IoFault)
  | config (detail : Text)
  /-- An open-tag search met a `<?` whose next three bytes end inside a character. -/
  | splitCharacter
  deriving DecidableEq, Repr

namespace Failure

/-- A stable code for reports. -/
def code : Failure → String
  | lex .. => "DL-ERR-LEX-001"
  | unsupported .. => "DL-ERR-CLOSURE-001"
  | resolution .. => "DL-ERR-RESOLVE-001"
  | structural .. => "DL-ERR-STRUCTURE-001"
  | io .. => "DL-ERR-IO-001"
  | config .. => "DL-ERR-CONFIG-001"
  | splitCharacter => "DL-ERR-LEX-002"

/-- The wording of a failure. -/
def message : Failure → Text
  | lex path fault offset =>
    path ++ ": ".toList ++ fault.message ++ " at offset ".toList ++ Text.ofNat offset
  | unsupported path construct context =>
    path ++ ": unsupported construct: ".toList ++ construct.message ++ nearExcerpt "" context
  | resolution path subject fault =>
    path ++ ": cannot resolve \x60".toList ++ subject ++ "\x60: ".toList ++ fault.message
  | structural path fault => path ++ ": unexpected structure: ".toList ++ fault.message
  | io path fault => path ++ ": ".toList ++ fault.message
  | config detail => "invalid configuration: ".toList ++ detail
  | splitCharacter => "open tag cut inside a character".toList

/-- The unit or file the failure is about. -/
def path? : Failure → Option Path
  | lex path .. | unsupported path .. | resolution path .. | structural path _ | io path _ =>
    some path
  | config _ | splitCharacter => none

/-- Names the unit of a lexical failure or an unresolved name that has none. -/
def atUnit (path : Path) : Failure → Failure
  | lex [] fault offset => lex path fault offset
  | resolution [] subject fault => resolution path subject fault
  | failure => failure

/-- A lexical failure of the given unit. -/
def ofLex (path : Path) : LexFailure → Failure
  | .fault fault offset => lex path fault offset
  | .splitCharacter => splitCharacter

end Failure

/-- The tokens of a unit, failures naming it. -/
def tokenizeUnit (path : Path) (source : Text) : Except Failure (List Token) :=
  (tokenize source).mapError (Failure.ofLex path)

/-- The tokens of a unit without the mark at their end, failures naming it. -/
def lexemesOf (path : Path) (source : Text) : Except Failure (List Token) :=
  (lexemes source).mapError (Failure.ofLex path)

end LegacyPhp

import LegacyPhp.Bundle.Comment
import LegacyPhp.Bundle.State
import LegacyPhp.FileTree.Access
import LegacyPhp.Include.Target
import LegacyPhp.Token.Stream

/-!
# A unit in a bundle

The text of one unit is copied token by token into the bundle, without white space and comments.
`namespace`, `use` and the inclusion directives are collected up to the mark that ends them and take
effect then: a block is switched to, an import is written, a file is inlined in place of the
directive. What inlining a file means is a parameter here (`UnitContext.inlineFile`); the bundle
ties the knot.

A step that fails leaves the bundle as it stands at that moment.
-/

namespace LegacyPhp.Bundle

open Text

/-- A bundle after some work, with the failure that ended it. -/
abbrev Progress := Bundler × Option Failure

/-- A directive that is being collected. -/
inductive Directive where
  | enter
  | use
  /-- An inclusion directive as it is written. -/
  | inclusion (word : Text)
  deriving DecidableEq, Repr

/-- The unit being copied. -/
structure UnitContext where
  options : BundleOptions
  tree : FileTree
  /-- The file that the text came from. -/
  origin : Path
  source : Text
  /-- Inlines the file at a path. -/
  inlineFile : Path → Bundler → Progress

/-- What is known in the middle of a unit. -/
structure UnitState where
  bundler : Bundler
  /-- The braces that are open, the innermost first; `true` marks one that opened a namespace. -/
  braces : List Bool := []
  /-- White space or a comment was left out since the last token. -/
  space : Bool := false
  pending : Option Directive := none
  /-- What has been collected of the pending directive. -/
  collected : Text := []

namespace UnitState

/-- Writes a token, with a gap before it where one is needed. -/
def emit (s : UnitState) (text : Text) : UnitState :=
  let gap := if s.space then gap s.bundler.last? text.head? else []
  { s with bundler := s.bundler.write (gap ++ text), space := false }

/-- Applies a change to the bundle. -/
def change (s : UnitState) (f : Bundler → Bundler) : UnitState := { s with bundler := f s.bundler }

/-- Starts to collect a directive. -/
def collect (s : UnitState) (d : Directive) : UnitState :=
  { s with pending := some d, collected := [] }

end UnitState

/-- What comes of a token. -/
inductive Verdict where
  | next (state : UnitState)
  /-- The rest of the unit is left out. -/
  | stop (bundler : Bundler)
  | fail (bundler : Bundler) (failure : Failure)

/-- The modifiers that may stand between `public` and `function`. -/
def isFunctionModifier (t : Token) : Bool :=
  t.isKeyword .staticKw || t.isKeyword .abstractKw || t.isKeyword .finalKw

/-- Whether `public` in front of the tokens goes without saying: a function follows, perhaps behind
one more modifier. -/
def dropsPublic (ts : List Token) : Bool :=
  Stream.isNext (·.isKeyword .functionKw) ts ||
    match Stream.fetch isFunctionModifier ts with
    | some (_, rest) => Stream.isNext (·.isKeyword .functionKw) rest
    | none => false

/-- Whether a token ends a directive. -/
def endsDirective (d : Directive) (t : Token) : Bool :=
  t.kind == .closeTag || t.isPunct ";" || t.isPunct "\x7b" || t.isPunct "," ||
    (d == .use && t.isPunct "(")

/-- Puts the included unit in place of an inclusion directive, or keeps the directive when its
target cannot be told (`inline`). The token `mark` ended it. -/
def inclusion (u : UnitContext) (word expression : Text) (mark : Token) (b : Bundler) : Progress :=
  match Include.target? expression u.origin with
  | .error .splitCharacter => (b, some .splitCharacter)
  | .ok none => (b.write ([' '] ++ word ++ [' '] ++ expression ++ [';']), none)
  | .ok (some target) =>
    if u.tree.isFile target then
      match u.inlineFile target b with
      | (after, none) => (after.restore b, none)
      | failed => failed
    else
      (b, some (.resolution u.origin target
        (.missingFileNear (excerpt u.source mark.offset))))

/-- The effect of a directive that the token `t` ended. -/
def runDirective (u : UnitContext) (s : UnitState) (d : Directive) (t : Token) :
    UnitState × Option Failure :=
  let value := trim s.collected
  match d with
  | .enter =>
    let s := s.change (·.switchNamespace value)
    (if t.isPunct "\x7b" then { s with braces := true :: s.braces } else s, none)
  | .use =>
    if t.isPunct "(" then (s.change (·.write "use(".toList), none)
    else (s.change (·.addImport value), none)
  | .inclusion word =>
    match inclusion u word value t s.bundler with
    | (b, some f) => ({ s with bundler := b }, some f)
    | (b, none) =>
      ({ s with bundler := if t.kind == .closeTag then b else b.enterCode }, none)

/-- Whether nothing but blank text follows. -/
def isUnitEnd (ts : List Token) : Bool :=
  ts.all fun t =>
    t.kind == .endOfInput || (t.kind == .inlineHtml && (trim t.text).isEmpty)

/-- A token outside directives. -/
def plainToken (s : UnitState) (t : Token) (rest : List Token) : Verdict :=
  if t.kind == .openTag then
    .next ((s.change fun b => { b with inCode := true }).emit t.text)
  else if t.kind == .closeTag then
    if isUnitEnd rest then .stop s.bundler
    else .next ((s.change fun b => { b with inCode := false }).emit t.text)
  else if t.isPunct "\x7b" then .next ({ s with braces := false :: s.braces }.emit t.text)
  else if t.isPunct "\x7d" then
    match s.braces with
    | true :: braces => .next { s with braces }
    | braces => .next ({ s with braces := braces.tail }.emit t.text)
  else if t.isPunct ")" then .next ((s.change (·.dropComma)).emit t.text)
  else .next (s.emit t.text)

/-- A token that is not skipped and starts no directive. -/
def significantToken (u : UnitContext) (s : UnitState) (t : Token) (rest : List Token) : Verdict :=
  match s.pending with
  | none => plainToken s t rest
  | some d =>
    if endsDirective d t then
      match runDirective u s d t with
      | (s, some f) => .fail s.bundler f
      | (s, none) =>
        let s := { s with collected := [], pending := if t.isPunct "," then some d else none }
        if t.kind == .closeTag then plainToken s t rest else .next s
    else .next { s with collected := s.collected ++ t.text }

/-- A documentation comment: the first one is written, later ones stay if they are retained. -/
def docComment (u : UnitContext) (s : UnitState) (t : Token) (rest : List Token) : Verdict :=
  if s.bundler.firstComment.isNone then
    .next {
      s with
      bundler := { s.bundler.write (t.text ++ ['\n']) with firstComment := some t.text }
      space := true }
  else if isRetained u.options t.text then significantToken u s t rest
  else .next { s with space := true }

/-- The effect of the token `t` with `rest` after it. -/
def stepToken (u : UnitContext) (s : UnitState) (t : Token) (rest : List Token) : Verdict :=
  match t.kind with
  | .endOfInput => .stop s.bundler
  | .whitespace | .comment =>
    if s.pending.isSome then .next { s with collected := s.collected ++ [' '] }
    else .next { s with space := true }
  | .docComment => docComment u s t rest
  | .keyword .publicKw => if dropsPublic rest then .next s else significantToken u s t rest
  | .keyword .namespaceKw => .next (s.collect .enter)
  | .keyword .useKw => .next (s.collect .use)
  | .keyword k =>
    if k.isInclusion then .next (s.collect (.inclusion t.text)) else significantToken u s t rest
  | _ => significantToken u s t rest

/-- Copies tokens into the bundle. -/
def copyTokens (u : UnitContext) (s : UnitState) : List Token → Progress
  | [] => (s.bundler, none)
  | t :: rest =>
    match stepToken u s t rest with
    | .next s => copyTokens u s rest
    | .stop b => (b, none)
    | .fail b f => (b, some f)

/-- Copies all tokens of a unit into the bundle (`add_content`). Inside a code block the open tag of
the unit is left out; if the unit starts with text, the code block is left first. -/
def copyUnit (u : UnitContext) (tokens : List Token) (b : Bundler) : Progress :=
  if b.inCode then
    match tokens with
    | t :: rest =>
      if t.kind == .openTag then copyTokens u { bundler := b, space := true } rest
      else copyTokens u { bundler := { b.write "?>".toList with inCode := false } } tokens
    | [] => copyTokens u { bundler := { b.write "?>".toList with inCode := false } } []
  else copyTokens u { bundler := b } tokens

end LegacyPhp.Bundle

import LegacyPhp.Token.Stream

/-!
# A cursor over tokens

A cursor is a place in a token sequence, with the token consumed last and the kinds it skips while
it looks for the next token that counts. Skipping never drops a token: what is skipped and not
followed by a match is still there for the next call. The mark at the end of the input is never
delivered.
-/

namespace LegacyPhp

/-- What a query looks for. -/
inductive Pattern where
  | kind (kind : TokenKind)
  | punct (mark : Text)
  deriving DecidableEq, Repr

/-- Whether a token is what the pattern looks for. -/
def Pattern.matches : Pattern → Token → Bool
  | kind k, t => t.kind == k
  | punct mark, t => t.kind == .punctuation && t.text == mark

/-- Whether a token matches one of the patterns. -/
def Pattern.anyMatches (patterns : List Pattern) (t : Token) : Bool :=
  patterns.any (·.matches t)

/-- The parts of a qualified name. -/
def Pattern.name : List Pattern := [.kind .identifier, .punct ['\\']]

/-- A place in a token sequence. -/
structure Cursor where
  /-- The tokens that have not been consumed, without the mark at the end of the input. -/
  pending : List Token
  /-- How many tokens have been consumed. -/
  position : Nat := 0
  /-- The token consumed last. -/
  current : Option Token := none
  /-- The kinds that are skipped. -/
  ignored : List TokenKind
  deriving Repr

namespace Cursor

/-- The kinds skipped unless others are given. -/
def defaultIgnored : List TokenKind := [.whitespace, .comment, .docComment]

/-- A cursor at the first token that skips the given kinds. -/
def startIgnoring (ignored : List TokenKind) (tokens : List Token) : Cursor :=
  { pending := tokens.takeWhile (·.kind != .endOfInput), ignored }

/-- A cursor at the first token that skips the trivia. -/
def start (tokens : List Token) : Cursor := startIgnoring defaultIgnored tokens

/-- Whether the cursor skips a token. -/
def skips (c : Cursor) (t : Token) : Bool := c.ignored.contains t.kind

/-- The cursor after it has consumed tokens up to `rest`, the last of them being `last`. -/
def moveTo (c : Cursor) (last : Option Token) (rest : List Token) : Cursor :=
  { c with
    pending := rest
    position := c.position + (c.pending.length - rest.length)
    current := last.or c.current }

/-- Consumes exactly one token, skipped kinds included. -/
def next (c : Cursor) : Option Token × Cursor :=
  match c.pending with
  | [] => (none, c)
  | t :: rest => (some t, c.moveTo (some t) rest)

/-- Whether the token consumed last matches. -/
def isCurrent (patterns : List Pattern) (c : Cursor) : Bool :=
  c.current.any (Pattern.anyMatches patterns)

/-- The next token that counts. -/
def peek (c : Cursor) : Option Token := Stream.peekBy c.skips c.pending

/-- Whether the next token that counts matches. -/
def isNext (patterns : List Pattern) (c : Cursor) : Bool :=
  c.peek.any (Pattern.anyMatches patterns)

/-- Consumes the next token that counts if it matches, and nothing otherwise. -/
def fetch (patterns : List Pattern) (c : Cursor) : Option Token × Cursor :=
  match Stream.fetchBy c.skips (Pattern.anyMatches patterns) c.pending with
  | some (t, rest) => (some t, c.moveTo (some t) rest)
  | none => (none, c)

/-- Consumes the tokens that match, as long as nothing but skipped tokens stands between them. -/
def fetchAll (patterns : List Pattern) (c : Cursor) : List Token × Cursor :=
  let (taken, rest) := Stream.gatherBy c.skips (Pattern.anyMatches patterns) c.pending
  (taken, c.moveTo taken.getLast? rest)

/-- Consumes tokens up to the first one outside all brackets that matches or closes a bracket that
was not opened. -/
def fetchUntil (patterns : List Pattern) (c : Cursor) : List Token × Cursor :=
  let (taken, rest) := Stream.upTo (Pattern.anyMatches patterns) 0 c.pending
  (taken, c.moveTo taken.getLast? rest)

end Cursor

end LegacyPhp

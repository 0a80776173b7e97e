import LegacyPhp.Text.Blank
import LegacyPhp.Token.Keyword

/-!
# Tokens

A token is a kind, the stretch of source it covers, and the byte offset at which that stretch
starts. Text outside the code blocks, white space and comments are tokens too, so that writing the
tokens one after the other gives the source back.
-/

namespace LegacyPhp

/-- The kinds of tokens. -/
inductive TokenKind where
  /-- Text outside the code blocks. -/
  | inlineHtml
  | openTag
  | closeTag
  | identifier
  | keyword (word : Keyword)
  | variable
  | number
  | stringLiteral
  | comment
  | docComment
  | whitespace
  | punctuation
  | endOfInput
  deriving DecidableEq, Repr, Inhabited

/-- White space and comments carry no meaning. -/
def TokenKind.isTrivia : TokenKind → Bool
  | whitespace | comment | docComment => true
  | _ => false

/-- A stretch of source with its kind and its byte offset. -/
structure Token where
  kind : TokenKind
  text : Text
  offset : Nat
  deriving DecidableEq, Repr, Inhabited

namespace Token

/-- White space or a comment. -/
def isTrivia (t : Token) : Bool := t.kind.isTrivia

/-- The given reserved word. -/
def isKeyword (t : Token) (word : Keyword) : Bool := t.kind == .keyword word

/-- The given punctuation mark or operator. -/
def isPunct (t : Token) (mark : String) : Bool :=
  t.kind == .punctuation && t.text == mark.toList

/-- One of the three opening brackets. -/
def isOpening (t : Token) : Bool := t.isPunct "(" || t.isPunct "[" || t.isPunct "\x7b"

/-- One of the three closing brackets. -/
def isClosing (t : Token) : Bool := t.isPunct ")" || t.isPunct "]" || t.isPunct "\x7d"

/-- A segment of a qualified name or the separator between two. -/
def isNamePart (t : Token) : Bool := t.kind == .identifier || t.isPunct "\\"

end Token

/-- The texts of a token sequence, one after the other. -/
def serialize (tokens : List Token) : Text := tokens.flatMap Token.text

@[simp] theorem serialize_nil : serialize [] = [] := rfl

@[simp] theorem serialize_cons (t : Token) (ts : List Token) :
    serialize (t :: ts) = t.text ++ serialize ts := rfl

@[simp] theorem serialize_append (a b : List Token) :
    serialize (a ++ b) = serialize a ++ serialize b := by
  simp [serialize]

end LegacyPhp

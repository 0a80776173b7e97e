import LegacyPhp.Json.Value

/-!
# Reading JSON

`JsonValue.read?` reads a whole text: one value with white space around it and nothing else. The
recursion is bounded by the length of the text, since every value and every separator takes at least
one character.
-/

namespace LegacyPhp.JsonValue

open Text

/-- White space of JSON. -/
def isJsonSpace (c : Char) : Bool := c == ' ' || c == '\n' || c == '\t' || c == '\r'

/-- The text without leading white space. -/
def skipSpace (cs : Text) : Text := cs.dropWhile isJsonSpace

/-- The value of a hexadecimal digit. -/
def hexDigit? (c : Char) : Option Nat :=
  if c.isDigit then some (c.toNat - '0'.toNat)
  else if 'a' ≤ c ∧ c ≤ 'f' then some (c.toNat - 'a'.toNat + 10)
  else if 'A' ≤ c ∧ c ≤ 'F' then some (c.toNat - 'A'.toNat + 10)
  else none

/-- A piece of a string: a character, or a 16-bit unit that was written as an escape. -/
inductive Piece where
  | char (c : Char)
  | unit (n : Nat)
  deriving Repr

/-- The character that a one-letter escape stands for. -/
def escape? : Char → Option Char
  | '"' => some '"'
  | '\\' => some '\\'
  | '/' => some '/'
  | 'b' => some '\x08'
  | 'f' => some '\x0c'
  | 'n' => some '\n'
  | 'r' => some '\r'
  | 't' => some '\t'
  | _ => none

/-- The pieces of a string after its opening quote, and what follows its closing quote. -/
def pieces : Text → Option (List Piece × Text)
  | [] => none
  | '"' :: rest => some ([], rest)
  | '\\' :: 'u' :: a :: b :: c :: d :: rest => do
    let unit := (((← hexDigit? a) * 16 + (← hexDigit? b)) * 16 + (← hexDigit? c)) * 16
      + (← hexDigit? d)
    let (more, rest) ← pieces rest
    return (.unit unit :: more, rest)
  | '\\' :: e :: rest => do
    let c ← escape? e
    let (more, rest) ← pieces rest
    return (.char c :: more, rest)
  | c :: rest => do
    if c == '\\' || c.toNat < 0x20 then none
    let (more, rest) ← pieces rest
    return (.char c :: more, rest)

/-- The text that pieces spell. A high surrogate needs a low one right after it, and neither stands
alone. -/
def spell : List Piece → Option Text
  | [] => some []
  | .char c :: rest => (spell rest).map (c :: ·)
  | .unit n :: .unit m :: rest =>
    if 0xD800 ≤ n ∧ n < 0xDC00 then
      if 0xDC00 ≤ m ∧ m < 0xE000 then
        (spell rest).map (Char.ofNat (0x10000 + (n - 0xD800) * 0x400 + (m - 0xDC00)) :: ·)
      else none
    else if 0xDC00 ≤ n ∧ n < 0xE000 then none
    else (spell (.unit m :: rest)).map (Char.ofNat n :: ·)
  | .unit n :: rest =>
    if 0xD800 ≤ n ∧ n < 0xE000 then none else (spell rest).map (Char.ofNat n :: ·)

/-- A string after its opening quote. -/
def readString (cs : Text) : Option (Option Text × Text) := do
  let (ps, rest) ← pieces cs
  return (spell ps, rest)

/-- One or more digits; what follows them. -/
def skipDigits : Text → Option Text
  | c :: rest => if c.isDigit then some (rest.dropWhile Char.isDigit) else none
  | [] => none

/-- The fraction of a number, if it has one; what follows it. -/
def skipFraction : Text → Option Text
  | '.' :: rest => skipDigits rest
  | cs => some cs

/-- The exponent of a number, if it has one; what follows it. -/
def skipExponent : Text → Option Text
  | c :: rest =>
    if c == 'e' || c == 'E' then
      match rest with
      | '+' :: rest => skipDigits rest
      | '-' :: rest => skipDigits rest
      | rest => skipDigits rest
    else some (c :: rest)
  | [] => some []

/-- A number without its sign; what follows it. A leading zero is the only digit before the
point. -/
def skipNumber : Text → Option Text
  | '0' :: rest => (skipFraction rest).bind skipExponent
  | cs => ((skipDigits cs).bind skipFraction).bind skipExponent

mutual

/-- The value that the text begins with. -/
def value : Nat → Text → Option (JsonValue × Text)
  | 0, _ => none
  | fuel + 1, cs =>
    match skipSpace cs with
    | 'n' :: 'u' :: 'l' :: 'l' :: rest => some (.null, rest)
    | 't' :: 'r' :: 'u' :: 'e' :: rest => some (.bool true, rest)
    | 'f' :: 'a' :: 'l' :: 's' :: 'e' :: rest => some (.bool false, rest)
    | '"' :: rest => (readString rest).map fun (s, rest) => (.string s, rest)
    | '[' :: rest =>
      match skipSpace rest with
      | ']' :: rest => some (.array [], rest)
      | rest => (items fuel rest).map fun (vs, rest) => (.array vs, rest)
    | '{' :: rest =>
      match skipSpace rest with
      | '}' :: rest => some (.object [], rest)
      | rest => (members fuel rest).map fun (ms, rest) => (.object ms, rest)
    | '-' :: rest => (skipNumber rest).map fun rest => (.number, rest)
    | rest => (skipNumber rest).map fun rest => (.number, rest)

/-- The items of an array through its closing bracket. -/
def items : Nat → Text → Option (List JsonValue × Text)
  | 0, _ => none
  | fuel + 1, cs => do
    let (v, rest) ← value fuel cs
    match skipSpace rest with
    | ']' :: rest => return ([v], rest)
    | ',' :: rest =>
      let (vs, rest) ← items fuel rest
      return (v :: vs, rest)
    | _ => none

/-- The members of an object through its closing brace. -/
def members : Nat → Text → Option (List (Option Text × JsonValue) × Text)
  | 0, _ => none
  | fuel + 1, cs =>
    match skipSpace cs with
    | '"' :: rest => do
      let (key, rest) ← readString rest
      match skipSpace rest with
      | ':' :: rest =>
        let (v, rest) ← value fuel rest
        match skipSpace rest with
        | '}' :: rest => return ([(key, v)], rest)
        | ',' :: rest =>
          let (ms, rest) ← members fuel rest
          return ((key, v) :: ms, rest)
        | _ => none
      | _ => none
    | _ => none

end

/-- The value of a whole text. -/
def read? (cs : Text) : Option JsonValue := do
  let (v, rest) ← value (2 * cs.length + 2) cs
  if (skipSpace rest).isEmpty then return v else none

end LegacyPhp.JsonValue

import LegacyPhp.Digest.Sha256
import LegacyPhp.Path
import LegacyPhp.Token.Stream

/-!
# Lifted closures

A closure literal is moved out of line: its body becomes a named function at the end of the unit
(`declaration`), with the captured variables as its first parameters, and the literal becomes a call
of the helper class (`call`) that ties that function to the captured values. The names are made of a
hash of the unit's path and a running number, so that units bundled together do not clash.
-/

namespace LegacyPhp

open Text

/-- The body of a single-quoted literal that spells the text (`php_quote`). -/
def singleQuoted (text : Text) : Text :=
  text.flatMap fun c => if c == '\\' || c == '\'' then ['\\', c] else [c]

/-- A closure that was moved out of line. -/
structure LiftedClosure where
  name : Text
  /-- Whether the closure returns by reference. -/
  byRef : Bool
  /-- The captured variables, each with its `&` if it has one. -/
  captures : List Text
  /-- The parameter list as it is written. -/
  params : Text
  /-- The parameters as the helper forwards them. -/
  args : Text
  /-- The body with its braces. -/
  body : Text
  deriving DecidableEq, Repr, Inhabited

namespace LiftedClosure

/-- The parameter list without blanks around it, if anything is left. -/
def ownParams (c : LiftedClosure) : List Text :=
  if (trim c.params).isEmpty then [] else [trim c.params]

/-- The named function. -/
def declaration (c : LiftedClosure) : Text :=
  "function ".toList ++ (if c.byRef then ['&'] else []) ++ c.name ++ ['('] ++
    join ", ".toList (c.captures ++ c.ownParams) ++ ") ".toList ++ c.body

/-- A captured variable as an entry of an array under its name. -/
def captureEntry (capture : Text) : Text :=
  ['\''] ++ dropLeading '$' (trim (dropLeading '&' capture)) ++ "' => ".toList ++ capture

/-- The call that stands in place of the literal. -/
def call (helper : Text) (c : LiftedClosure) : Text :=
  helper ++ "::create('".toList ++ c.name ++ "', array(".toList ++
    join ", ".toList (c.captures.map captureEntry) ++ [')'] ++
    c.ownParams.flatMap (fun own =>
      ", '".toList ++ singleQuoted own ++ "', '".toList ++ c.args ++ ['\'']) ++ [')']

end LiftedClosure

/-- The variables of a parameter list, each with `&` if it is taken by reference. Defaults stand
behind the variable and do not count. -/
def forwardedArgs (depth : Nat) (byRef named : Bool) : List Token → List Text
  | [] => []
  | t :: ts =>
    if t.isOpening then forwardedArgs (depth + 1) byRef named ts
    else if t.isClosing then forwardedArgs (depth - 1) byRef named ts
    else if depth == 0 && t.isPunct "," then forwardedArgs depth false false ts
    else if depth == 0 && !named && t.isPunct "&" then forwardedArgs depth true named ts
    else if depth == 0 && !named && t.kind == .variable then
      ((if byRef then ['&'] else []) ++ t.text) :: forwardedArgs depth byRef true ts
    else forwardedArgs depth byRef named ts

/-- The arguments that the helper forwards for a parameter list. -/
def forwardedArgsOf (params : List Token) : Text :=
  join ", ".toList (forwardedArgs 0 false false params)

/-- The entries of a `use` clause: parts between commas without any blanks. -/
def splitCaptures (list : Text) : List Text :=
  ((splitOn ',' list).map fun part => part.filter (!isBlank ·)).filter (!·.isEmpty)

/-- The closures lifted out of one unit, in the order in which they stand there. -/
structure ClosureTable where
  /-- The beginning of all names. -/
  stem : Text
  entries : List LiftedClosure := []
  deriving DecidableEq, Repr

namespace ClosureTable

/-- A hexadecimal digit. -/
def hexDigit (n : Nat) : Char := "0123456789abcdef".toList.getD n '0'

/-- The first four bytes of the hash of a path, in hexadecimal. -/
def pathMark (path : Path) : Text :=
  let word := (Sha256.digest (path.flatMap String.utf8EncodeChar)).a.toNat
  [28, 24, 20, 16, 12, 8, 4, 0].map fun shift => hexDigit ((word >>> shift) % 16)

/-- The beginning of the names of a unit. -/
def stemOf (path : Path) : Text := "_lc_".toList ++ pathMark path

/-- The name with the given number. -/
def nameAt (stem : Text) (index : Nat) : Text := stem ++ '_' :: ofNat index

/-- An empty table for the unit at a path. -/
def forUnit (path : Path) : ClosureTable := { stem := stemOf path }

/-- The name of the next closure. -/
def nextName (t : ClosureTable) : Text := nameAt t.stem t.entries.length

/-- The table with one more closure. -/
def push (t : ClosureTable) (c : LiftedClosure) : ClosureTable :=
  { t with entries := t.entries ++ [c] }

/-- Whether no closure was lifted. -/
def isEmpty (t : ClosureTable) : Bool := t.entries.isEmpty

end ClosureTable

end LegacyPhp

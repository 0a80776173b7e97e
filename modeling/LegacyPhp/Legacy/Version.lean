import LegacyPhp.Failure

/-!
# Version marks

A unit can say that it is of no use on the legacy target (`isNewerOnly`). Inside a unit, a comment
`/*5.2* … */` holds code for the legacy target and is opened up, and everything between a pair of
comments `/**/` is for newer targets and is left out, with the white space after it.
-/

namespace LegacyPhp.Legacy

open Text

/-- Whether the unit is marked with one of the versions. -/
def isNewerOnly (versions : List Text) (source : Text) : Bool :=
  versions.any fun v => hasInfix source ("@phpversion ".toList ++ v)

/-- The start of a comment with code for the legacy target. -/
def markOpening (marker : Text) : Text := "/*".toList ++ marker ++ ['*']

/-- The code in a marked comment. -/
def markedCode? (opening comment : Text) : Option Text :=
  match after? opening comment with
  | some rest => if 2 ≤ rest.length then some (trim (rest.take (rest.length - 2))) else none
  | none => none

/-- A comment that starts or ends code for newer targets. -/
def isDelimiter (t : Token) : Bool := t.kind == .comment && t.text == "/**/".toList

/-- What follows the next delimiter. -/
def afterDelimiter? : List Token → Option (List Token)
  | [] => none
  | t :: ts => if isDelimiter t then some ts else afterDelimiter? ts

open List in
theorem suffix_afterDelimiter? {ts rest : List Token} (h : afterDelimiter? ts = some rest) :
    rest <:+ ts := by
  induction ts with
  | nil => cases h
  | cons t ts ih =>
    unfold afterDelimiter? at h
    split at h
    · cases h; exact suffix_cons t _
    · exact (ih h).trans (suffix_cons t ts)

/-- The text of the tokens with the code for the legacy target switched on and that for newer
targets left out. -/
def activate (opening : Text) (ts : List Token) : Text :=
  match ts with
  | [] => []
  | t :: rest =>
    match if t.kind == .comment then markedCode? opening t.text else none with
    | some code => code ++ activate opening rest
    | none =>
      match _h : if isDelimiter t then afterDelimiter? rest else none with
      | some left => activate opening (left.dropWhile (·.kind == .whitespace))
      | none => t.text ++ activate opening rest
termination_by ts.length
decreasing_by
  · exact Nat.lt_succ_self _
  · split at _h
    · exact Nat.lt_succ_of_le
        ((List.dropWhile_suffix _).trans (suffix_afterDelimiter? _h)).length_le
    · cases _h
  · exact Nat.lt_succ_self _

/-- Switches the version marks of a unit (`activate_version_markers`). -/
def activateVersionMarks (path : Path) (marker source : Text) : Except Failure Text :=
  (lexemesOf path source).map (activate (markOpening marker))

end LegacyPhp.Legacy

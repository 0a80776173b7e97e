import LegacyPhp.Text.Basic

/-!
# The values of quoted literals

What a quoted literal without interpolation denotes. In single quotes a backslash escapes itself and
the quote; in double quotes it also escapes `$`, `n` and `t`, and a `$` that is not escaped makes
the value unknown. A backslash before any other character stands for itself.
-/

namespace LegacyPhp.Include

/-- The value of the inside of a single-quoted literal. -/
def singleValue : Text → Text
  | [] => []
  | '\\' :: c :: rest =>
    if c == '\\' || c == '\'' then c :: singleValue rest
    else '\\' :: c :: singleValue rest
  | c :: rest => c :: singleValue rest

/-- The characters that an escape in double quotes stands for. -/
def doubleEscape (c : Char) : Text :=
  if c == 'n' then ['\n']
  else if c == 't' then ['\t']
  else if c == '\\' || c == '"' || c == '$' then [c]
  else ['\\', c]

/-- The value of the inside of a double-quoted literal, if nothing is interpolated. -/
def doubleValue : Text → Option Text
  | [] => some []
  | '\\' :: c :: rest => (doubleValue rest).map (doubleEscape c ++ ·)
  | c :: rest => if c == '$' then none else (doubleValue rest).map (c :: ·)

/-- The value of a literal with its quotes (`unquote`). -/
def literalValue? : Text → Option Text
  | '\'' :: rest =>
    if rest.getLast? == some '\'' then some (singleValue rest.dropLast) else none
  | '"' :: rest => if rest.getLast? == some '"' then doubleValue rest.dropLast else none
  | _ => none

end LegacyPhp.Include

import LegacyPhp.Text.Basic

/-!
# JSON values

A JSON text as a value, as far as a reader of options needs it. Numbers carry nothing, because no
option is a number. A string is `none` when it spells half of a surrogate pair: such a string is
well-formed JSON, and it may stand where nothing reads it, but it is no text.
-/

namespace LegacyPhp

/-- A JSON value. -/
inductive JsonValue where
  | null
  | bool (value : Bool)
  | number
  | string (text : Option Text)
  | array (items : List JsonValue)
  | object (members : List (Option Text × JsonValue))
  deriving Repr, Inhabited

end LegacyPhp

/-! JSON values as they stand in a text. A number keeps its digits and a string may fail to be text, because a
reader that skips a value asks no more of it than its form. -/

namespace LinkPriority.Json

/-- A number as written: sign, digits before the point, digits after it, and the exponent if one is written. -/
structure NumberText where
  negative : Bool
  whole : List Nat
  /-- The digits after the point; there is no point without digits. -/
  fraction : List Nat
  exponent : Option (Bool × List Nat)
deriving DecidableEq

/-- A JSON value. The names of an object stand in their order and may repeat. -/
inductive Value where
  | null
  | bool (value : Bool)
  | number (text : NumberText)
  /-- A string; nothing where its octets or escapes are no sequence of characters. -/
  | string (text : Option String)
  | array (items : List Value)
  | object (members : List (Option String × Value))

end LinkPriority.Json

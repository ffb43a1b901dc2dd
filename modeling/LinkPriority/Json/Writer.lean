/-! Writing JSON: strings with the escapes that the grammar asks for and no others, and objects either in one
line without blanks or with one member a line. -/

namespace LinkPriority.Json

/-- The hexadecimal digit of a number below sixteen. -/
def hexDigit (n : Nat) : Char := Nat.digitChar n

/-- A character as it stands in a string: quotes, backslashes and control characters are escaped, the latter
by a short escape if there is one. -/
def escape (c : Char) : List Char :=
  match c with
  | '"' => ['\\', '"']
  | '\\' => ['\\', '\\']
  | '\x08' => ['\\', 'b']
  | '\x0c' => ['\\', 'f']
  | '\n' => ['\\', 'n']
  | '\r' => ['\\', 'r']
  | '\t' => ['\\', 't']
  | c => if c.toNat < 0x20 then ['\\', 'u', '0', '0', hexDigit (c.toNat / 16), hexDigit (c.toNat % 16)] else [c]

def quote (s : String) : String := String.ofList ('"' :: s.toList.flatMap escape ++ ['"'])

/-- Texts with a separator between any two of them. -/
def separated (separator : String) (texts : List String) : String := String.intercalate separator texts

/-- An object in one line, of names and written values. -/
def compactObject (members : List (String × String)) : String :=
  "\x7b" ++ separated "," (members.map fun (name, value) => quote name ++ ":" ++ value) ++ "\x7d"

/-- The blanks before a line inside so many brackets. -/
def indent (depth : Nat) : String := String.ofList (List.replicate (2 * depth) ' ')

/-- The parts of a bracket one a line, inside `depth` brackets; a bracket without parts stays in its line. -/
def indentedParts (depth : Nat) (opening closing : String) (parts : List String) : String :=
  if parts.isEmpty then opening ++ closing
  else
    let lines := separated ",\n" (parts.map (indent (depth + 1) ++ ·))
    opening ++ "\n" ++ lines ++ "\n" ++ indent depth ++ closing

/-- An object with one member a line, inside `depth` brackets. -/
def indentedObject (depth : Nat) (members : List (String × String)) : String :=
  indentedParts depth "\x7b" "\x7d" (members.map fun (name, value) => quote name ++ ": " ++ value)

/-- An array with one item a line, inside `depth` brackets. -/
def indentedArray (depth : Nat) (items : List String) : String := indentedParts depth "[" "]" items

end LinkPriority.Json

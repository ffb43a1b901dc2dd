import LinkPriority.Json.Scan

/-! Reading a JSON text: a machine with a stack of open brackets takes one octet at a time. A text is one
value with blanks around it. Since reading is a fold over the octets, a text cut in two is read like the
whole; and once a value is complete with no bracket open, only blanks may follow. -/

namespace LinkPriority.Json

/-- A bracket that is open, with what it holds so far, latest first. -/
inductive Frame where
  | array (items : List Value)
  /-- An object in which the value of `name` is awaited. -/
  | object (members : List (Option String × Value)) (name : Option String)

/-- What the machine is about to read. -/
inductive Phase where
  | value
  /-- The first item of an array, or its end. -/
  | firstItem
  /-- The first name of an object, or its end. -/
  | firstName
  /-- A name, with the members before it. -/
  | name (members : List (Option String × Value))
  | colon (members : List (Option String × Value)) (name : Option String)
  /-- A comma or the end of the innermost bracket, after a value in it. -/
  | separator
  /-- Blanks after the value of the whole text. -/
  | blanks (value : Value)
  /-- The rest of a word that stands for a value. -/
  | word (rest : List Char) (value : Value)
  | string (scan : StringScan)
  /-- A name of an object, with the members before it. -/
  | nameString (members : List (Option String × Value)) (scan : StringScan)
  | number (scan : NumberScan)

/-- The open brackets, innermost first, and what comes next. -/
structure Machine where
  stack : List Frame
  phase : Phase

namespace Machine

def start : Machine := ⟨[], .value⟩

def isBlank (c : Char) : Bool := c = ' ' || c = '\t' || c = '\n' || c = '\r'

def complete (stack : List Frame) (v : Value) : Machine :=
  match stack with
  | [] => ⟨[], .blanks v⟩
  | .array items :: rest => ⟨.array (v :: items) :: rest, .separator⟩
  | .object members name :: rest => ⟨.object ((name, v) :: members) name :: rest, .separator⟩

def beginValue (stack : List Frame) (c : Char) : Option Machine :=
  match c with
  | '"' => some ⟨stack, .string {}⟩
  | '[' => some ⟨.array [] :: stack, .firstItem⟩
  | '{' => some ⟨stack, .firstName⟩
  | '-' => some ⟨stack, .number { phase := .sign, negative := true }⟩
  | 't' => some ⟨stack, .word ['r', 'u', 'e'] (.bool true)⟩
  | 'f' => some ⟨stack, .word ['a', 'l', 's', 'e'] (.bool false)⟩
  | 'n' => some ⟨stack, .word ['u', 'l', 'l'] .null⟩
  | c => (digit? c).map fun d => ⟨stack, .number (NumberScan.firstDigit { phase := .zero } d)⟩

def between (m : Machine) (c : Char) : Option Machine :=
  if isBlank c then some m
  else match m.phase, m.stack, c with
    | .value, stack, c => beginValue stack c
    | .firstItem, .array _ :: rest, ']' => some (complete rest (.array []))
    | .firstItem, stack, c => beginValue stack c
    | .firstName, stack, '}' => some (complete stack (.object []))
    | .firstName, stack, '"' => some ⟨stack, .nameString [] {}⟩
    | .name members, stack, '"' => some ⟨stack, .nameString members {}⟩
    | .colon members name, stack, ':' => some ⟨.object members name :: stack, .value⟩
    | .separator, .array items :: rest, ',' => some ⟨.array items :: rest, .value⟩
    | .separator, .array items :: rest, ']' => some (complete rest (.array items.reverse))
    | .separator, .object members _ :: rest, ',' => some ⟨rest, .name members⟩
    | .separator, .object members _ :: rest, '}' => some (complete rest (.object members.reverse))
    | _, _, _ => none

/-- The machine after one more octet; nothing if the text is refused. -/
def step (m : Machine) (octet : UInt8) : Option Machine :=
  match m.phase with
  | .string scan =>
    match scan.step octet with
    | .more scan => some { m with phase := .string scan }
    | .done text => some (complete m.stack (.string text))
    | .refused => none
  | .nameString members scan =>
    match scan.step octet with
    | .more scan => some { m with phase := .nameString members scan }
    | .done text => some { m with phase := .colon members text }
    | .refused => none
  | .number scan =>
    match scan.step octet with
    | .more scan => some { m with phase := .number scan }
    | .done text => (complete m.stack (.number text)).between (symbol octet)
    | .refused => none
  | .word rest v =>
    match rest with
    | [] => none
    | c :: rest =>
      if symbol octet = c then
        some (if rest.isEmpty then complete m.stack v else { m with phase := .word rest v })
      else none
  | _ => m.between (symbol octet)

def run (m : Machine) (octets : List UInt8) : Option Machine := octets.foldlM step m

/-- The value of the whole text, if it may end here. -/
def result (m : Machine) : Option Value :=
  match m.phase, m.stack with
  | .blanks v, _ => some v
  | .number scan, [] => if scan.isComplete then some (.number scan.result) else none
  | _, _ => none

/-- Reading two parts one after the other is reading them together. -/
theorem run_append (m : Machine) (xs ys : List UInt8) : m.run (xs ++ ys) = (m.run xs).bind (·.run ys) :=
  List.foldlM_append

end Machine

/-- The value that a text stands for, if it is well formed. -/
def Value.read? (octets : List UInt8) : Option Value := (Machine.start.run octets).bind Machine.result

end LinkPriority.Json

import LinkPriority.Json.Value

/-! Strings and numbers, one octet at a time. The form of both is checked strictly: no control character and
no unknown escape in a string, no leading zero and no missing digit in a number. Whether a string is text,
that is valid UTF-8 with paired surrogates, is only noted. -/

namespace LinkPriority.Json

/-- The character whose code is an octet; beyond the ASCII ones none has a meaning in the grammar. -/
def symbol (octet : UInt8) : Char := Char.ofNat octet.toNat

def hexDigit? (c : Char) : Option Nat :=
  if '0' ≤ c ∧ c ≤ '9' then some (c.toNat - '0'.toNat)
  else if 'a' ≤ c ∧ c ≤ 'f' then some (c.toNat - 'a'.toNat + 10)
  else if 'A' ≤ c ∧ c ≤ 'F' then some (c.toNat - 'A'.toNat + 10)
  else none

def digit? (c : Char) : Option Nat := if '0' ≤ c ∧ c ≤ '9' then some (c.toNat - '0'.toNat) else none

/-- What taking one more octet comes to; an octet that cannot stand there refuses the text. -/
inductive Progress (scan result : Type) where
  | more (next : scan)
  | done (value : result)
  | refused

/-! ### Strings -/

/-- Where in a string the reader stands. -/
inductive StringPhase where
  | plain
  | escape
  /-- In a code escape, with so many digits owed. -/
  | code (owed value : Nat)
  | high (value : Nat)
  /-- After the code of a high surrogate and a backslash. -/
  | highEscape (value : Nat)
  /-- In the code escape after that of a high surrogate. -/
  | lowCode (high owed value : Nat)
  /-- In a character of several octets, with so many owed; its code is at least `least`. -/
  | tail (owed value least : Nat)
deriving DecidableEq

/-- A string begun: where the reader stands, and its characters so far, latest first, unless it is not text. -/
structure StringScan where
  phase : StringPhase := .plain
  text : Option (List Char) := some []
deriving DecidableEq

namespace StringScan

/-- Adds the character of a code; a code that is no character's leaves no text. -/
def add (s : StringScan) (code : Nat) : StringScan :=
  ⟨.plain, if code.isValidChar then s.text.map (Char.ofNat code :: ·) else none⟩

def spoil (s : StringScan) (phase : StringPhase) : StringScan := { s with phase, text := none }

def result (s : StringScan) : Option String := s.text.map fun cs => String.ofList cs.reverse

def plainStep (s : StringScan) (octet : UInt8) : Progress StringScan (Option String) :=
  if symbol octet = '"' then .done s.result
  else if symbol octet = '\\' then .more { s with phase := .escape }
  else if octet < 0x20 then .refused
  else if octet < 0x80 then .more (s.add octet.toNat)
  else if 0xc2 ≤ octet ∧ octet ≤ 0xdf then .more { s with phase := .tail 1 (octet.toNat - 0xc0) 0x80 }
  else if 0xe0 ≤ octet ∧ octet ≤ 0xef then .more { s with phase := .tail 2 (octet.toNat - 0xe0) 0x800 }
  else if 0xf0 ≤ octet ∧ octet ≤ 0xf4 then .more { s with phase := .tail 3 (octet.toNat - 0xf0) 0x10000 }
  else .more (s.spoil .plain)

def escapeStep (s : StringScan) (octet : UInt8) : Progress StringScan (Option String) :=
  match symbol octet with
  | '"' => .more (s.add 0x22)
  | '\\' => .more (s.add 0x5c)
  | '/' => .more (s.add 0x2f)
  | 'b' => .more (s.add 0x08)
  | 'f' => .more (s.add 0x0c)
  | 'n' => .more (s.add 0x0a)
  | 'r' => .more (s.add 0x0d)
  | 't' => .more (s.add 0x09)
  | 'u' => .more { s with phase := .code 4 0 }
  | _ => .refused

/-- The code of a high surrogate, which has to be followed by that of a low one. -/
def isHighSurrogate (code : Nat) : Bool := 0xd800 ≤ code && code ≤ 0xdbff

def isLowSurrogate (code : Nat) : Bool := 0xdc00 ≤ code && code ≤ 0xdfff

/-- The code of a character from its two surrogates. -/
def joinSurrogates (high low : Nat) : Nat := 0x10000 + (high - 0xd800) * 0x400 + (low - 0xdc00)

/-- The string after one more octet, or the string read where the octet ends it. -/
def step (s : StringScan) (octet : UInt8) : Progress StringScan (Option String) :=
  match s.phase with
  | .plain => s.plainStep octet
  | .escape => s.escapeStep octet
  | .code owed value =>
    match hexDigit? (symbol octet) with
    | none => .refused
    | some d =>
      let value := 16 * value + d
      if 1 < owed then .more { s with phase := .code (owed - 1) value }
      else if isHighSurrogate value then .more { s with phase := .high value }
      else .more (s.add value)
  | .high value =>
    if symbol octet = '\\' then .more { s with phase := .highEscape value } else (s.spoil .plain).plainStep octet
  | .highEscape value =>
    if symbol octet = 'u' then .more { s with phase := .lowCode value 4 0 } else (s.spoil .escape).escapeStep octet
  | .lowCode high owed value =>
    match hexDigit? (symbol octet) with
    | none => .refused
    | some d =>
      let value := 16 * value + d
      if 1 < owed then .more { s with phase := .lowCode high (owed - 1) value }
      else if isLowSurrogate value then .more (s.add (joinSurrogates high value))
      else .more (s.spoil .plain)
  | .tail owed value least =>
    if 0x80 ≤ octet ∧ octet < 0xc0 then
      let value := 64 * value + (octet.toNat - 0x80)
      if 1 < owed then .more { s with phase := .tail (owed - 1) value least }
      else if least ≤ value then .more (s.add value)
      else .more (s.spoil .plain)
    else (s.spoil .plain).plainStep octet

end StringScan

/-! ### Numbers -/

/-- Where in a number the reader stands. -/
inductive NumberPhase where
  | sign
  | zero
  | whole
  | point
  | fraction
  | mark
  | markSign
  | exponent
deriving DecidableEq

/-- A number begun; all digits stand latest first. -/
structure NumberScan where
  phase : NumberPhase
  negative : Bool := false
  whole : List Nat := []
  fraction : List Nat := []
  exponentNegative : Bool := false
  exponent : List Nat := []
deriving DecidableEq

namespace NumberScan

/-- Whether a number may end where the reader stands. -/
def isComplete (s : NumberScan) : Bool :=
  match s.phase with
  | .zero | .whole | .fraction | .exponent => true
  | .sign | .point | .mark | .markSign => false

def result (s : NumberScan) : NumberText :=
  ⟨s.negative, s.whole.reverse, s.fraction.reverse,
    if s.exponent.isEmpty then none else some (s.exponentNegative, s.exponent.reverse)⟩

def firstDigit (s : NumberScan) (d : Nat) : NumberScan :=
  { s with phase := if d = 0 then .zero else .whole, whole := [d] }

/-- A symbol that no longer belongs to the number. -/
def finish (s : NumberScan) : Progress NumberScan NumberText :=
  if s.isComplete then .done s.result else .refused

/-- A symbol after which the number may continue with the letter of an exponent, or be over. -/
def markOrFinish (s : NumberScan) (c : Char) : Progress NumberScan NumberText :=
  if c = 'e' ∨ c = 'E' then .more { s with phase := .mark } else s.finish

/-- A symbol after which the number may continue with a point or an exponent, or be over. -/
def pointOrFinish (s : NumberScan) (c : Char) : Progress NumberScan NumberText :=
  if c = '.' then .more { s with phase := .point } else s.markOrFinish c

/-- The number after one more octet, or the number read where the octet does not belong to it. -/
def step (s : NumberScan) (octet : UInt8) : Progress NumberScan NumberText :=
  let c := symbol octet
  match s.phase, digit? c with
  | .sign, some d => .more (s.firstDigit d)
  | .zero, some _ => .refused
  | .whole, some d => .more { s with whole := d :: s.whole }
  | .point, some d => .more { s with phase := .fraction, fraction := [d] }
  | .fraction, some d => .more { s with fraction := d :: s.fraction }
  | .mark, some d => .more { s with phase := .exponent, exponent := [d] }
  | .markSign, some d => .more { s with phase := .exponent, exponent := [d] }
  | .exponent, some d => .more { s with exponent := d :: s.exponent }
  | .zero, none => s.pointOrFinish c
  | .whole, none => s.pointOrFinish c
  | .fraction, none => s.markOrFinish c
  | .mark, none =>
    if c = '+' then .more { s with phase := .markSign }
    else if c = '-' then .more { s with phase := .markSign, exponentNegative := true }
    else .refused
  | _, none => s.finish

end NumberScan

end LinkPriority.Json

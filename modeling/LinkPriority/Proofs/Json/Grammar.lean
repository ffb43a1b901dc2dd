import Mathlib.Tactic.Common
import LinkPriority.Json.Scan
import LinkPriority.Json.Writer

/-! The grammar of JSON texts, RFC 8259, as a relation between a value and the characters that it is written with. It
leaves a writer all freedom there is: blanks around every token, any character of a string as itself or escaped, both
cases of hexadecimal digits, and every way to write a number. The octets of a text are its characters in UTF-8. A
quoted text is one way to write it. -/

namespace LinkPriority.Json

/-- The octets of some characters. -/
def utf8 (cs : List Char) : List UInt8 := cs.flatMap String.utf8EncodeChar

/-- Blanks, any number of them. -/
def IsBlanks (cs : List Char) : Prop := ∀ c ∈ cs, c ∈ [' ', '\t', '\n', '\r']

/-! ### Strings -/

/-- What stands at one place of a string: a character, or a code unit of UTF-16 as a code escape gives it. -/
inductive StringPart where
  | char (c : Char)
  | unit (code : Nat)

/-- The letters that may follow a backslash, with the characters they stand for. -/
def shortEscapes : List (Char × Char) :=
  [('"', '"'), ('\\', '\\'), ('/', '/'), ('b', Char.ofNat 8), ('f', Char.ofNat 12), ('n', '\n'), ('r', '\r'),
    ('t', '\t')]

/-- The characters with which a place of a string may be written. -/
inductive StringPart.Written : StringPart → List Char → Prop where
  | plain {c : Char} (hprintable : 0x20 ≤ c.toNat) (hquote : c ≠ '"') (hslash : c ≠ '\\') : Written (.char c) [c]
  | short {letter c : Char} (h : (letter, c) ∈ shortEscapes) : Written (.char c) ['\\', letter]
  | code {c₁ c₂ c₃ c₄ : Char} {d₁ d₂ d₃ d₄ : Nat} (h₁ : hexDigit? c₁ = some d₁) (h₂ : hexDigit? c₂ = some d₂)
    (h₃ : hexDigit? c₃ = some d₃) (h₄ : hexDigit? c₄ = some d₄) :
    Written (.unit (16 * (16 * (16 * d₁ + d₂) + d₃) + d₄)) ['\\', 'u', c₁, c₂, c₃, c₄]

inductive PartsWritten : List StringPart → List Char → Prop where
  | nil : PartsWritten [] []
  | cons {part : StringPart} {parts : List StringPart} {cs ds : List Char} (h : part.Written cs)
    (hrest : PartsWritten parts ds) : PartsWritten (part :: parts) (cs ++ ds)

/-- The characters that the places of a string make up after the unit of a high surrogate, if one waits for that of a
low one; nothing where a surrogate has no partner. -/
def charactersOf : (high : Option Nat) → List StringPart → Option (List Char)
  | none, [] => some []
  | some _, [] => none
  | none, .char c :: parts => (charactersOf none parts).map (c :: ·)
  | some _, .char _ :: _ => none
  | none, .unit code :: parts =>
    if StringScan.isHighSurrogate code then charactersOf (some code) parts
    else if StringScan.isLowSurrogate code then none
    else (charactersOf none parts).map (Char.ofNat code :: ·)
  | some high, .unit code :: parts =>
    if StringScan.isLowSurrogate code then
      (charactersOf none parts).map (Char.ofNat (StringScan.joinSurrogates high code) :: ·)
    else none

/-- A string in quotation marks, with its text if it is one. -/
inductive StringWritten : Option String → List Char → Prop where
  | quoted {parts : List StringPart} {cs : List Char} (h : PartsWritten parts cs) :
    StringWritten ((charactersOf none parts).map String.ofList) ('"' :: (cs ++ ['"']))

/-! ### Quoted texts -/

theorem hexDigit?_hexDigit {n : Nat} (h : n < 16) : hexDigit? (hexDigit n) = some n := by
  have hall : ∀ n < 16, hexDigit? (hexDigit n) = some n := by decide +kernel
  exact hall n h

/-- A control character may be written by its code. -/
theorem written_control {c : Char} (h : c.toNat < 0x20) :
    (StringPart.unit c.toNat).Written ['\\', 'u', '0', '0', hexDigit (c.toNat / 16), hexDigit (c.toNat % 16)] := by
  have hzero : hexDigit? '0' = some 0 := by decide
  have hwritten := StringPart.Written.code hzero hzero (hexDigit?_hexDigit (n := c.toNat / 16) (by omega))
    (hexDigit?_hexDigit (n := c.toNat % 16) (by omega))
  have hcode : 16 * (16 * (16 * 0 + 0) + c.toNat / 16) + c.toNat % 16 = c.toNat := by omega
  rwa [hcode] at hwritten

theorem exists_written_escape (c : Char) : ∃ part : StringPart, part.Written (escape c) ∧
    ∀ parts, charactersOf none (part :: parts) = (charactersOf none parts).map (c :: ·) := by
  have hchar : ∀ {cs}, (StringPart.char c).Written cs → ∃ part : StringPart, part.Written cs ∧
      ∀ parts, charactersOf none (part :: parts) = (charactersOf none parts).map (c :: ·) :=
    fun h => ⟨_, h, fun _ => rfl⟩
  rw [escape.eq_def]
  split
  all_goals try exact hchar (.short (by decide))
  next hquote hslash _ _ _ _ _ =>
  split_ifs with hcontrol
  · refine ⟨.unit c.toNat, written_control hcontrol, fun parts => ?_⟩
    have hhigh : ¬StringScan.isHighSurrogate c.toNat := by simp [StringScan.isHighSurrogate]; omega
    have hlow : ¬StringScan.isLowSurrogate c.toNat := by simp [StringScan.isLowSurrogate]; omega
    rw [charactersOf, if_neg hhigh, if_neg hlow, Char.ofNat_toNat]
  · exact hchar (.plain (Nat.not_lt.1 hcontrol) hquote hslash)

/-- A quoted text is written as the grammar has it. -/
theorem stringWritten_quote (s : String) : StringWritten (some s) (quote s).toList := by
  have hparts : ∀ cs : List Char, ∃ parts, PartsWritten parts (cs.flatMap escape) ∧
      charactersOf none parts = some cs := by
    intro cs
    induction cs with
    | nil => exact ⟨[], .nil, rfl⟩
    | cons c cs ih =>
      obtain ⟨part, hpart, hcharacter⟩ := exists_written_escape c
      obtain ⟨parts, hparts, hcharacters⟩ := ih
      exact ⟨part :: parts, .cons hpart hparts, by rw [hcharacter, hcharacters, Option.map_some]⟩
  obtain ⟨parts, hwritten, hcharacters⟩ := hparts s.toList
  have h := StringWritten.quoted hwritten
  rw [hcharacters, Option.map_some, String.ofList_toList] at h
  rwa [quote, String.toList_ofList, List.cons_append]

/-! ### Numbers -/

/-- One or more digits. -/
def IsDigits (ds : List Nat) : Prop := ds ≠ [] ∧ ∀ d ∈ ds, d < 10

def digitChars (ds : List Nat) : List Char := ds.map Nat.digitChar

inductive FractionWritten : List Nat → List Char → Prop where
  | none : FractionWritten [] []
  | digits {ds : List Nat} (h : IsDigits ds) : FractionWritten ds ('.' :: digitChars ds)

inductive ExponentWritten : Option (Bool × List Nat) → List Char → Prop where
  | none : ExponentWritten none []
  | digits {mark : Char} {negative : Bool} {sign : List Char} {ds : List Nat} (hmark : mark = 'e' ∨ mark = 'E')
    (hsign : (negative, sign) ∈ [(false, []), (false, ['+']), (true, ['-'])]) (h : IsDigits ds) :
    ExponentWritten (some (negative, ds)) (mark :: (sign ++ digitChars ds))

/-- The sign, the digits before the point without a leading zero, those after it and the exponent. -/
inductive NumberWritten : NumberText → List Char → Prop where
  | parts {negative : Bool} {whole fraction : List Nat} {exponent : Option (Bool × List Nat)} {sign fs es : List Char}
    (hsign : (negative, sign) ∈ [(false, []), (true, ['-'])]) (hwhole : IsDigits whole)
    (hzero : whole.head? = some 0 → whole = [0]) (hfraction : FractionWritten fraction fs)
    (hexponent : ExponentWritten exponent es) :
    NumberWritten ⟨negative, whole, fraction, exponent⟩ (sign ++ digitChars whole ++ fs ++ es)

/-! ### Values -/

/-- What stands in a text: a value; a value with the blanks around it; such values between commas; a name with its
value; such members between commas. -/
inductive Phrase where
  | value (v : Value)
  | item (v : Value)
  | items (vs : List Value)
  | member (name : Option String) (v : Value)
  | members (ms : List (Option String × Value))

/-- The characters with which a phrase may be written. -/
inductive Written : Phrase → List Char → Prop where
  | null : Written (.value .null) ['n', 'u', 'l', 'l']
  | yes : Written (.value (.bool true)) ['t', 'r', 'u', 'e']
  | no : Written (.value (.bool false)) ['f', 'a', 'l', 's', 'e']
  | number {text : NumberText} {cs : List Char} (h : NumberWritten text cs) : Written (.value (.number text)) cs
  | string {text : Option String} {cs : List Char} (h : StringWritten text cs) : Written (.value (.string text)) cs
  | emptyArray {bs : List Char} (hbs : IsBlanks bs) : Written (.value (.array [])) ('[' :: (bs ++ [']']))
  | array {vs : List Value} {cs : List Char} (h : Written (.items vs) cs) :
    Written (.value (.array vs)) ('[' :: (cs ++ [']']))
  | emptyObject {bs : List Char} (hbs : IsBlanks bs) : Written (.value (.object [])) ('\x7b' :: (bs ++ ['\x7d']))
  | object {ms : List (Option String × Value)} {cs : List Char} (h : Written (.members ms) cs) :
    Written (.value (.object ms)) ('\x7b' :: (cs ++ ['\x7d']))
  | item {v : Value} {before cs after : List Char} (hbefore : IsBlanks before) (h : Written (.value v) cs)
    (hafter : IsBlanks after) : Written (.item v) (before ++ cs ++ after)
  | lastItem {v : Value} {cs : List Char} (h : Written (.item v) cs) : Written (.items [v]) cs
  | moreItems {v : Value} {vs : List Value} {cs ds : List Char} (h : Written (.item v) cs)
    (hrest : Written (.items vs) ds) : Written (.items (v :: vs)) (cs ++ ',' :: ds)
  | member {name : Option String} {v : Value} {before ns after cs : List Char} (hbefore : IsBlanks before)
    (hname : StringWritten name ns) (hafter : IsBlanks after) (h : Written (.item v) cs) :
    Written (.member name v) (before ++ ns ++ after ++ ':' :: cs)
  | lastMember {name : Option String} {v : Value} {cs : List Char} (h : Written (.member name v) cs) :
    Written (.members [(name, v)]) cs
  | moreMembers {name : Option String} {v : Value} {ms : List (Option String × Value)} {cs ds : List Char}
    (h : Written (.member name v) cs) (hrest : Written (.members ms) ds) :
    Written (.members ((name, v) :: ms)) (cs ++ ',' :: ds)

/-- The octets are a text of the value: the value with blanks around it, in UTF-8. -/
def Value.IsText (v : Value) (octets : List UInt8) : Prop := ∃ cs, Written (.item v) cs ∧ octets = utf8 cs

end LinkPriority.Json

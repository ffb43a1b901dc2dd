import Mathlib.Tactic.Common
import LinkPriority.Json.Reader
import LinkPriority.Proofs.Json.Grammar

/-! Strings that are written by the grammar are read. A scan advances over octets that all leave it unfinished; over
each place of a string it advances to the state between two places, and what is read together with what is to come
stays the same text. So at the closing quotation mark the text is that of all places. -/

namespace LinkPriority.Json

/-! ### Octets of characters -/

theorem utf8_append (cs ds : List Char) : utf8 (cs ++ ds) = utf8 cs ++ utf8 ds := List.flatMap_append

theorem utf8_cons (c : Char) (cs : List Char) : utf8 (c :: cs) = String.utf8EncodeChar c ++ utf8 cs :=
  List.flatMap_cons

theorem toNat_lt (c : Char) : c.toNat < 0x110000 := by
  rcases c.valid with h | h
  · exact Nat.lt_trans h (by decide)
  · exact h.2

/-- The one octet of an ASCII character. -/
def octetOf (c : Char) : UInt8 := UInt8.ofNat c.toNat

section Ascii

variable {c : Char} (h : c.toNat < 0x80)
include h

theorem toNat_octetOf : (octetOf c).toNat = c.toNat := UInt8.toNat_ofNat_of_lt' (Nat.lt_trans h (by decide))

theorem symbol_octetOf : symbol (octetOf c) = c := by rw [symbol, toNat_octetOf h, Char.ofNat_toNat]

theorem utf8EncodeChar_of_ascii : String.utf8EncodeChar c = [octetOf c] := by
  have hle : c.val.toNat ≤ 127 := Nat.le_of_lt_succ h
  simp only [String.utf8EncodeChar, hle, if_true]
  rfl

theorem utf8_cons_of_ascii (cs : List Char) : utf8 (c :: cs) = octetOf c :: utf8 cs := by
  rw [utf8_cons, utf8EncodeChar_of_ascii h, List.singleton_append]

end Ascii

/-! An octet beyond the ASCII ones has no ASCII symbol, and such octets are all that other characters begin with. -/

theorem le_ofNat {n : Nat} (hlow : 0x80 ≤ n) (hhigh : n < 0x100) : 0x80 ≤ UInt8.ofNat n := by
  rw [UInt8.le_iff_toNat_le, UInt8.toNat_ofNat_of_lt' hhigh]
  exact hlow

theorem le_toNat_symbol {octet : UInt8} (h : 0x80 ≤ octet) : 0x80 ≤ (symbol octet).toNat := by
  have hall : ∀ n < 256, 0x80 ≤ n → 0x80 ≤ (Char.ofNat n).toNat := by decide +kernel
  exact hall _ octet.toNat_lt h

theorem symbol_ne_of_le {octet : UInt8} (h : 0x80 ≤ octet) {c : Char} (hc : c.toNat < 0x80) : symbol octet ≠ c :=
  fun heq => absurd (heq ▸ le_toNat_symbol h) (Nat.not_le.2 hc)

theorem exists_utf8EncodeChar (c : Char) : ∃ octet octets, String.utf8EncodeChar c = octet :: octets ∧
    ((symbol octet).toNat < 0x80 → symbol octet = c) := by
  by_cases hascii : c.toNat < 0x80
  · exact ⟨octetOf c, [], utf8EncodeChar_of_ascii hascii, fun _ => symbol_octetOf hascii⟩
  have hnat : c.val.toNat = c.toNat := rfl
  simp only [String.utf8EncodeChar, hnat]
  rw [if_neg (by omega)]
  split_ifs
  all_goals exact ⟨_, _, rfl, fun h => absurd h (Nat.not_lt.2 (le_toNat_symbol (le_ofNat (by omega) (by omega))))⟩

/-! ### Advancing -/

section Advances

variable {σ ρ : Type}

/-- Octets lead from one scan to another, and each of them leaves it unfinished. -/
inductive Advances (step : σ → UInt8 → Progress σ ρ) : σ → List UInt8 → σ → Prop where
  | refl (s : σ) : Advances step s [] s
  | cons {s t u : σ} {octet : UInt8} {octets : List UInt8} (h : step s octet = .more t)
    (hrest : Advances step t octets u) : Advances step s (octet :: octets) u

variable {step : σ → UInt8 → Progress σ ρ} {s t u : σ} {xs ys : List UInt8}

theorem Advances.append (h : Advances step s xs t) (hrest : Advances step t ys u) :
    Advances step s (xs ++ ys) u := by
  induction h with
  | refl => exact hrest
  | cons hstep _ ih => exact .cons hstep (ih hrest)

theorem Advances.of_step_eq {octet : UInt8} (hstep : step s octet = step t octet)
    (h : Advances step t (octet :: xs) u) : Advances step s (octet :: xs) u := by
  cases h with
  | cons h hrest => exact .cons (hstep.trans h) hrest

theorem Advances.ascii {c : Char} {cs : List Char} (hc : c.toNat < 0x80) (h : step s (octetOf c) = .more t)
    (hrest : Advances step t (utf8 cs) u) : Advances step s (utf8 (c :: cs)) u := by
  rw [utf8_cons_of_ascii hc]
  exact .cons h hrest

/-- A machine that passes its octets on to a scan goes along with it. -/
theorem Advances.run (h : Advances step s xs t) (wrap : σ → Machine)
    (hwrap : ∀ s octet t, step s octet = .more t → (wrap s).step octet = some (wrap t)) :
    (wrap s).run xs = some (wrap t) := by
  induction h with
  | refl => rfl
  | cons hstep _ ih =>
    rw [Machine.run, List.foldlM_cons, hwrap _ _ _ hstep]
    exact ih

end Advances

namespace StringScan

variable {text : Option (List Char)}

/-! ### Characters as themselves -/

theorem add_toNat (phase : StringPhase) (c : Char) :
    add ⟨phase, text⟩ c.toNat = ⟨.plain, text.map (c :: ·)⟩ := by
  have hvalid : c.toNat.isValidChar := c.valid
  rw [add, if_pos hvalid, Char.ofNat_toNat]

theorem plainStep_of_le {s : StringScan} {n : Nat} (hlow : 0x80 ≤ n) (hhigh : n < 0x100) :
    s.plainStep (UInt8.ofNat n) =
      if 0xc2 ≤ n ∧ n ≤ 0xdf then .more { s with phase := .tail 1 (n - 0xc0) 0x80 }
      else if 0xe0 ≤ n ∧ n ≤ 0xef then .more { s with phase := .tail 2 (n - 0xe0) 0x800 }
      else if 0xf0 ≤ n ∧ n ≤ 0xf4 then .more { s with phase := .tail 3 (n - 0xf0) 0x10000 }
      else .more (s.spoil .plain) := by
  have hnat : (UInt8.ofNat n).toNat = n := UInt8.toNat_ofNat_of_lt' hhigh
  have hle : 0x80 ≤ UInt8.ofNat n := le_ofNat hlow hhigh
  have hcontrol : ¬UInt8.ofNat n < 0x20 := by
    rw [UInt8.lt_iff_toNat_lt, hnat]
    exact Nat.not_lt.2 (Nat.le_trans (by decide) hlow)
  have hascii : ¬UInt8.ofNat n < 0x80 := UInt8.not_lt.2 hle
  rw [plainStep, if_neg (symbol_ne_of_le hle (by decide)), if_neg (symbol_ne_of_le hle (by decide)),
    if_neg hcontrol, if_neg hascii]
  simp only [UInt8.le_iff_toNat_le, hnat]
  rfl

theorem step_tail {owed value least n : Nat} (h : n < 64) :
    step ⟨.tail owed value least, text⟩ (UInt8.ofNat (n + 128)) =
      if 1 < owed then .more ⟨.tail (owed - 1) (64 * value + n) least, text⟩
      else if least ≤ 64 * value + n then .more (add ⟨.tail owed value least, text⟩ (64 * value + n))
      else .more (spoil ⟨.tail owed value least, text⟩ .plain) := by
  have hnat : (UInt8.ofNat (n + 128)).toNat = n + 128 :=
    UInt8.toNat_ofNat_of_lt' (Nat.lt_trans (Nat.add_lt_add_right h 128) (by decide))
  have hrange : 0x80 ≤ UInt8.ofNat (n + 128) ∧ UInt8.ofNat (n + 128) < 0xc0 := by
    rw [UInt8.le_iff_toNat_le, UInt8.lt_iff_toNat_lt, hnat]
    exact ⟨Nat.le_add_left .., Nat.add_lt_add_right h 128⟩
  simp only [step, if_pos hrange, hnat, Nat.add_sub_cancel]

section Octets

variable {n : Nat}

theorem step_lead_of_two (hlow : 2 ≤ n) (hhigh : n < 32) :
    step ⟨.plain, text⟩ (UInt8.ofNat (n + 192)) = .more ⟨.tail 1 n 0x80, text⟩ := by
  rw [step, plainStep_of_le (by omega) (by omega), if_pos (by omega), Nat.add_sub_cancel]

theorem step_lead_of_three (hhigh : n < 16) :
    step ⟨.plain, text⟩ (UInt8.ofNat (n + 224)) = .more ⟨.tail 2 n 0x800, text⟩ := by
  rw [step, plainStep_of_le (by omega) (by omega), if_neg (by omega), if_pos (by omega), Nat.add_sub_cancel]

theorem step_lead_of_four (hhigh : n ≤ 4) :
    step ⟨.plain, text⟩ (UInt8.ofNat (n + 240)) = .more ⟨.tail 3 n 0x10000, text⟩ := by
  rw [step, plainStep_of_le (by omega) (by omega), if_neg (by omega), if_neg (by omega), if_pos (by omega),
    Nat.add_sub_cancel]

theorem step_tail_of_lt {owed value least : Nat} (h : n < 64) (howed : 1 < owed) :
    step ⟨.tail owed value least, text⟩ (UInt8.ofNat (n + 128)) =
      .more ⟨.tail (owed - 1) (64 * value + n) least, text⟩ := by
  rw [step_tail h, if_pos howed]

theorem step_tail_last {value least : Nat} {c : Char} (h : n < 64) (hcode : 64 * value + n = c.toNat)
    (hleast : least ≤ c.toNat) :
    step ⟨.tail 1 value least, text⟩ (UInt8.ofNat (n + 128)) = .more ⟨.plain, text.map (c :: ·)⟩ := by
  rw [step_tail h, if_neg (by decide), hcode, if_pos hleast, add_toNat]

end Octets

/-- A character that may stand for itself is added to the text. -/
theorem advances_utf8EncodeChar {c : Char} (hprintable : 0x20 ≤ c.toNat) (hquote : c ≠ '"') (hslash : c ≠ '\\') :
    Advances step ⟨.plain, text⟩ (String.utf8EncodeChar c) ⟨.plain, text.map (c :: ·)⟩ := by
  have hlast := toNat_lt c
  by_cases hascii : c.toNat < 0x80
  · have hnat := toNat_octetOf hascii
    have hcontrol : ¬octetOf c < 0x20 := by
      rw [UInt8.lt_iff_toNat_lt, hnat]
      exact Nat.not_lt.2 hprintable
    have hlt : octetOf c < 0x80 := by
      rw [UInt8.lt_iff_toNat_lt, hnat]
      exact hascii
    rw [utf8EncodeChar_of_ascii hascii, ← add_toNat .plain]
    refine .cons ?_ (.refl _)
    rw [step, plainStep, symbol_octetOf hascii, if_neg hquote, if_neg hslash, if_neg hcontrol, if_pos hlt, hnat]
  -- each octet after the first gives six bits of the code
  have hnat : c.val.toNat = c.toNat := rfl
  simp only [String.utf8EncodeChar, hnat]
  have hsix : ∀ n, n % 64 < 64 := fun n => Nat.mod_lt n (by decide)
  rw [if_neg (by omega)]
  split_ifs with htwo hthree
  · refine .cons (step_lead_of_two (by omega) (by omega)) (.cons ?_ (.refl _))
    exact step_tail_last (hsix _) (by omega) (by omega)
  · refine .cons (step_lead_of_three (by omega)) (.cons (step_tail_of_lt (hsix _) (by decide)) (.cons ?_ (.refl _)))
    exact step_tail_last (hsix _) (by omega) (by omega)
  · refine .cons (step_lead_of_four (by omega)) (.cons (step_tail_of_lt (hsix _) (by decide))
      (.cons (step_tail_of_lt (hsix _) (by decide)) (.cons ?_ (.refl _))))
    exact step_tail_last (hsix _) (by omega) (by omega)

/-! ### The places of a string -/

/-- Where a string stands between two of its places: the unit of a high surrogate waits for that of a low one, or
not. -/
def between (high : Option Nat) (text : Option (List Char)) : StringScan :=
  match high with
  | none => ⟨.plain, text⟩
  | some unit => ⟨.high unit, text⟩

theorem step_high {unit : Nat} {octet : UInt8} (h : symbol octet ≠ '\\') :
    step ⟨.high unit, text⟩ octet = step ⟨.plain, none⟩ octet := if_neg h

theorem step_highEscape {unit : Nat} {octet : UInt8} (h : symbol octet ≠ 'u') :
    step ⟨.highEscape unit, text⟩ octet = step ⟨.escape, none⟩ octet := if_neg h

/-- The string of the characters read, latest first, and of those to come, if all of it is text. -/
def joined (read toCome : Option (List Char)) : Option String :=
  read.bind fun cs => toCome.map fun ds => String.ofList (cs.reverse ++ ds)

theorem joined_map (read toCome : Option (List Char)) (c : Char) :
    joined (read.map (c :: ·)) toCome = joined read (toCome.map (c :: ·)) := by
  cases read with
  | none => rfl
  | some cs =>
    cases toCome with
    | none => rfl
    | some ds => simp only [joined, Option.map_some, Option.bind_some, List.reverse_cons, List.append_assoc,
        List.singleton_append]

theorem joined_none (read : Option (List Char)) : joined read none = none := by cases read <;> rfl

theorem shortEscape_spec {letter c : Char} (h : (letter, c) ∈ shortEscapes) : letter.toNat < 0x80 ∧ letter ≠ 'u' ∧
    ∀ s : StringScan, s.escapeStep (octetOf letter) = .more (s.add c.toNat) := by
  simp only [shortEscapes, List.mem_cons, Prod.mk.injEq, List.not_mem_nil, or_false] at h
  rcases h with ⟨rfl, rfl⟩ | ⟨rfl, rfl⟩ | ⟨rfl, rfl⟩ | ⟨rfl, rfl⟩ | ⟨rfl, rfl⟩ | ⟨rfl, rfl⟩ | ⟨rfl, rfl⟩ | ⟨rfl, rfl⟩
  all_goals exact ⟨by decide, by decide, fun _ => rfl⟩

theorem advances_char {c : Char} {cs : List Char} (h : (StringPart.char c).Written cs) (text : Option (List Char)) :
    Advances step ⟨.plain, text⟩ (utf8 cs) ⟨.plain, text.map (c :: ·)⟩ := by
  cases h with
  | plain hprintable hquote hslash =>
    rw [utf8_cons]
    exact (advances_utf8EncodeChar hprintable hquote hslash).append (.refl _)
  | short h =>
    obtain ⟨hascii, -, hstep⟩ := shortEscape_spec h
    refine .ascii (by decide) rfl (.ascii hascii ?_ (.refl _))
    rw [step, hstep, add_toNat]

/-- After the unit of a high surrogate a character is taken as elsewhere, but there is no text any more. -/
theorem advances_char_of_high {c : Char} {cs : List Char} (h : (StringPart.char c).Written cs) (unit : Nat)
    (text : Option (List Char)) : Advances step ⟨.high unit, text⟩ (utf8 cs) ⟨.plain, none⟩ := by
  have hspoilt := advances_char h none
  cases h with
  | plain hprintable hquote hslash =>
    obtain ⟨octet, octets, hoctets, hsymbol⟩ := exists_utf8EncodeChar c
    have hne : symbol octet ≠ '\\' := fun heq => by
      have hc : symbol octet = c := hsymbol (heq ▸ by decide)
      exact hslash (hc ▸ heq)
    rw [utf8_cons, hoctets] at hspoilt ⊢
    exact hspoilt.of_step_eq (step_high hne)
  | short h =>
    obtain ⟨hascii, hletter, hstep⟩ := shortEscape_spec h
    refine .ascii (by decide) rfl (.ascii hascii ?_ (.refl _))
    rw [step_highEscape (by rwa [symbol_octetOf hascii]), step, hstep, add_toNat]
    rfl

theorem hexDigit?_spec {c : Char} {d : Nat} (h : hexDigit? c = some d) : c.toNat < 0x80 ∧ d < 16 := by
  have hle : ∀ {a b : Char}, a ≤ b → a.toNat ≤ b.toNat := fun h => UInt32.le_iff_toNat_le.1 (Char.le_def.1 h)
  rw [hexDigit?] at h
  split_ifs at h with hdigit hlower hupper
  all_goals obtain rfl := Option.some.inj h
  · have hlast : c.toNat ≤ 57 := hle hdigit.2
    exact ⟨by omega, by simp; omega⟩
  · have hlast : c.toNat ≤ 102 := hle hlower.2
    exact ⟨by omega, by simp; omega⟩
  · have hlast : c.toNat ≤ 70 := hle hupper.2
    exact ⟨by omega, by simp; omega⟩

section Digits

variable {c : Char} {owed value d : Nat} (h : hexDigit? c = some d)
include h

theorem step_code_of_lt (howed : 1 < owed) : step ⟨.code owed value, text⟩ (octetOf c) =
    .more ⟨.code (owed - 1) (16 * value + d), text⟩ := by
  simp only [step, symbol_octetOf (hexDigit?_spec h).1, h, howed, if_true]

theorem step_code_last : step ⟨.code 1 value, text⟩ (octetOf c) =
    .more (if isHighSurrogate (16 * value + d) then ⟨.high (16 * value + d), text⟩
      else add ⟨.plain, text⟩ (16 * value + d)) := by
  simp only [step, symbol_octetOf (hexDigit?_spec h).1, h, Nat.lt_irrefl, if_false]
  split_ifs <;> rfl

theorem step_lowCode_of_lt {high : Nat} (howed : 1 < owed) : step ⟨.lowCode high owed value, text⟩ (octetOf c) =
    .more ⟨.lowCode high (owed - 1) (16 * value + d), text⟩ := by
  simp only [step, symbol_octetOf (hexDigit?_spec h).1, h, howed, if_true]

theorem step_lowCode_last {high : Nat} : step ⟨.lowCode high 1 value, text⟩ (octetOf c) =
    .more (if isLowSurrogate (16 * value + d) then add ⟨.plain, text⟩ (joinSurrogates high (16 * value + d))
      else ⟨.plain, none⟩) := by
  simp only [step, symbol_octetOf (hexDigit?_spec h).1, h, Nat.lt_irrefl, if_false]
  split_ifs <;> rfl

end Digits

section Unit

variable {code : Nat} {cs : List Char} (h : (StringPart.unit code).Written cs)
include h

theorem code_lt : code < 0x10000 := by
  cases h with
  | code h₁ h₂ h₃ h₄ =>
    have := (hexDigit?_spec h₁).2
    have := (hexDigit?_spec h₂).2
    have := (hexDigit?_spec h₃).2
    have := (hexDigit?_spec h₄).2
    omega

theorem advances_unit (text : Option (List Char)) : Advances step ⟨.plain, text⟩ (utf8 cs)
    (if isHighSurrogate code then ⟨.high code, text⟩ else add ⟨.plain, text⟩ code) := by
  cases h with
  | @code c₁ c₂ c₃ c₄ d₁ d₂ d₃ d₄ h₁ h₂ h₃ h₄ =>
    have hfirst : 16 * 0 + d₁ = d₁ := by omega
    refine .ascii (by decide) rfl (.ascii (by decide) rfl ?_)
    refine .ascii (hexDigit?_spec h₁).1 (step_code_of_lt h₁ (by decide)) ?_
    refine .ascii (hexDigit?_spec h₂).1 (step_code_of_lt h₂ (by decide)) ?_
    refine .ascii (hexDigit?_spec h₃).1 (step_code_of_lt h₃ (by decide)) ?_
    rw [hfirst]
    exact .ascii (hexDigit?_spec h₄).1 (step_code_last h₄) (.refl _)

theorem advances_unit_of_high (unit : Nat) (text : Option (List Char)) :
    Advances step ⟨.high unit, text⟩ (utf8 cs)
      (if isLowSurrogate code then add ⟨.plain, text⟩ (joinSurrogates unit code) else ⟨.plain, none⟩) := by
  cases h with
  | @code c₁ c₂ c₃ c₄ d₁ d₂ d₃ d₄ h₁ h₂ h₃ h₄ =>
    have hfirst : 16 * 0 + d₁ = d₁ := by omega
    refine .ascii (by decide) rfl (.ascii (by decide) rfl ?_)
    refine .ascii (hexDigit?_spec h₁).1 (step_lowCode_of_lt h₁ (by decide)) ?_
    refine .ascii (hexDigit?_spec h₂).1 (step_lowCode_of_lt h₂ (by decide)) ?_
    refine .ascii (hexDigit?_spec h₃).1 (step_lowCode_of_lt h₃ (by decide)) ?_
    rw [hfirst]
    exact .ascii (hexDigit?_spec h₄).1 (step_lowCode_last h₄) (.refl _)

end Unit

theorem add_of_isLowSurrogate {code : Nat} (h : isLowSurrogate code) :
    add ⟨.plain, text⟩ code = ⟨.plain, none⟩ := by
  simp only [isLowSurrogate, Bool.and_eq_true, decide_eq_true_eq] at h
  have hinvalid : ¬code.isValidChar := by
    rw [Nat.isValidChar]
    omega
  rw [add, if_neg hinvalid]

theorem add_of_isValidChar {code : Nat} (h : code.isValidChar) :
    add ⟨.plain, text⟩ code = ⟨.plain, text.map (Char.ofNat code :: ·)⟩ := by
  rw [add, if_pos h]

theorem isValidChar_of_not_surrogate {code : Nat} (hlt : code < 0x10000) (hhigh : ¬isHighSurrogate code)
    (hlow : ¬isLowSurrogate code) : code.isValidChar := by
  simp only [isHighSurrogate, isLowSurrogate, Bool.and_eq_true, decide_eq_true_eq] at hhigh hlow
  rw [Nat.isValidChar]
  omega

theorem isValidChar_joinSurrogates {high low : Nat} (hhigh : isHighSurrogate high) (hlow : isLowSurrogate low) :
    (joinSurrogates high low).isValidChar := by
  simp only [isHighSurrogate, isLowSurrogate, Bool.and_eq_true, decide_eq_true_eq] at hhigh hlow
  have hcode : joinSurrogates high low = 0x10000 + (high - 0xd800) * 0x400 + (low - 0xdc00) := rfl
  generalize joinSurrogates high low = code at hcode
  exact .inr ⟨by omega, by omega⟩

/-- A place of a string leads from between two places to between two places, and what is read joined with what is to
come stays the same. -/
theorem advances_part {part : StringPart} {cs : List Char} (h : part.Written cs) {high : Option Nat}
    (hhigh : ∀ unit ∈ high, isHighSurrogate unit) (text : Option (List Char)) :
    ∃ high' text', (∀ unit ∈ high', isHighSurrogate unit) ∧
      Advances step (between high text) (utf8 cs) (between high' text') ∧
      ∀ parts, joined text (charactersOf high (part :: parts)) = joined text' (charactersOf high' parts) := by
  have hnone : ∀ unit ∈ (none : Option Nat), isHighSurrogate unit := fun _ h => nomatch h
  cases part with
  | char c =>
    cases high with
    | none => exact ⟨none, text.map (c :: ·), hnone, advances_char h text, fun parts => (joined_map ..).symm⟩
    | some unit => exact ⟨none, none, hnone, advances_char_of_high h unit text, fun parts => joined_none _⟩
  | unit code =>
    have hlt := code_lt h
    cases high with
    | none =>
      have hadvance := advances_unit h text
      by_cases hcode : isHighSurrogate code
      · rw [if_pos hcode] at hadvance
        refine ⟨some code, text, by simpa using hcode, hadvance, fun parts => ?_⟩
        rw [charactersOf, if_pos hcode]
      rw [if_neg hcode] at hadvance
      by_cases hlow : isLowSurrogate code
      · rw [add_of_isLowSurrogate hlow] at hadvance
        refine ⟨none, none, hnone, hadvance, fun parts => ?_⟩
        rw [charactersOf, if_neg hcode, if_pos hlow, joined_none]
        rfl
      · rw [add_of_isValidChar (isValidChar_of_not_surrogate hlt hcode hlow)] at hadvance
        refine ⟨none, _, hnone, hadvance, fun parts => ?_⟩
        rw [charactersOf, if_neg hcode, if_neg hlow, joined_map]
    | some unit =>
      have hadvance := advances_unit_of_high h unit text
      by_cases hlow : isLowSurrogate code
      · rw [if_pos hlow, add_of_isValidChar (isValidChar_joinSurrogates (hhigh unit rfl) hlow)] at hadvance
        refine ⟨none, _, hnone, hadvance, fun parts => ?_⟩
        rw [charactersOf, if_pos hlow, joined_map]
      · rw [if_neg hlow] at hadvance
        refine ⟨none, none, hnone, hadvance, fun parts => ?_⟩
        rw [charactersOf, if_neg hlow, joined_none]
        rfl

theorem step_quote (high : Option Nat) (text : Option (List Char)) :
    (between high text).step (octetOf '"') = .done (joined text (charactersOf high [])) := by
  cases high with
  | some unit =>
    rw [charactersOf, joined_none]
    rfl
  | none =>
    have hread : joined text (charactersOf none []) = result ⟨.plain, text⟩ := by
      cases text <;> simp [charactersOf, joined, result]
    rw [hread]
    rfl

theorem advances_parts {parts : List StringPart} {cs : List Char} (h : PartsWritten parts cs) {high : Option Nat}
    (hhigh : ∀ unit ∈ high, isHighSurrogate unit) (text : Option (List Char)) :
    ∃ s, Advances step (between high text) (utf8 cs) s ∧
      s.step (octetOf '"') = .done (joined text (charactersOf high parts)) := by
  induction h generalizing high text with
  | nil => exact ⟨_, .refl _, step_quote high text⟩
  | cons hpart _ ih =>
    obtain ⟨high', text', hhigh', hadvance, hjoined⟩ := advances_part hpart hhigh text
    obtain ⟨s, hrest, hdone⟩ := ih hhigh' text'
    rw [utf8_append, hjoined]
    exact ⟨s, hadvance.append hrest, hdone⟩

end StringScan

end LinkPriority.Json

import Mathlib.Data.String.Basic
import LinkPriority.Proofs.Json.Writing

/-! The order of ids. A character begins with an octet that says how many follow, and these give its code in groups of
six bits, the highest first. So of two characters the one with the smaller code has the smaller octet where they first
differ, and ids are ordered by their characters as by their octets. -/

namespace LinkPriority

namespace Json

/-- Where the lists first differ, the first has the smaller octet. -/
inductive DiffersBelow : List UInt8 → List UInt8 → Prop where
  | here {a b : UInt8} {xs ys : List UInt8} (h : a < b) : DiffersBelow (a :: xs) (b :: ys)
  | later {a : UInt8} {xs ys : List UInt8} (h : DiffersBelow xs ys) : DiffersBelow (a :: xs) (a :: ys)

/-- Lists that differ are ordered whatever follows them. -/
theorem DiffersBelow.append_lt {xs ys : List UInt8} (h : DiffersBelow xs ys) (us vs : List UInt8) :
    xs ++ us < ys ++ vs := by
  induction h with
  | here h => exact .rel h
  | later _ ih => exact .cons ih

/-- How many octets follow the first one of a character with code `n`. -/
def tailLength (n : Nat) : Nat := if n < 0x80 then 0 else if n < 0x800 then 1 else if n < 0x10000 then 2 else 3

/-- What a first octet adds to the bits of the code, to say how many octets follow. -/
def leadMark : Nat → Nat
  | 0 => 0
  | 1 => 0xc0
  | 2 => 0xe0
  | _ => 0xf0

/-- The first octet of a character with code `n`. -/
def lead (n : Nat) : Nat := n / 64 ^ tailLength n + leadMark (tailLength n)

/-- The lowest `k` groups of six bits of `n`, an octet for each. -/
def tailOctets (n : Nat) : Nat → List UInt8
  | 0 => []
  | k + 1 => UInt8.ofNat (n / 64 ^ k % 64 + 0x80) :: tailOctets n k

theorem utf8EncodeChar_eq (c : Char) :
    String.utf8EncodeChar c = UInt8.ofNat (lead c.toNat) :: tailOctets c.toNat (tailLength c.toNat) := by
  have hlast := toNat_lt c
  have hnat : c.val.toNat = c.toNat := rfl
  simp only [String.utf8EncodeChar, hnat, lead, tailLength, ← Nat.lt_succ_iff]
  -- the bits of a first octet need no mask: a code with more bits has more octets
  split_ifs <;> simp only [tailOctets, leadMark, Nat.pow_zero, Nat.div_one, Nat.add_zero]
  · have hbits : c.toNat / 64 % 32 = c.toNat / 64 := Nat.mod_eq_of_lt (by omega)
    rw [hbits]
    rfl
  · have hbits : c.toNat / 4096 % 16 = c.toNat / 4096 := Nat.mod_eq_of_lt (by omega)
    rw [hbits]
    rfl
  · have hbits : c.toNat / 262144 % 8 = c.toNat / 262144 := Nat.mod_eq_of_lt (by omega)
    rw [hbits]
    rfl

section Codes

variable {n m : Nat}

theorem lead_lt (h : n < 0x110000) : lead n < 0x100 := by
  unfold lead tailLength
  split_ifs <;> simp only [leadMark] <;> omega

theorem tailLength_mono (h : n ≤ m) : tailLength n ≤ tailLength m := by
  unfold tailLength
  split_ifs <;> omega

/-- More octets follow a larger first octet. -/
theorem lead_lt_of_tailLength_lt (h : tailLength n < tailLength m) : lead n < lead m := by
  unfold tailLength at h
  unfold lead tailLength
  split_ifs at h ⊢ <;> simp only [leadMark] <;> omega

/-- Of two codes that only differ in their lowest groups the smaller one has the smaller octet where these differ. -/
theorem differsBelow_tailOctets (h : n < m) {k : Nat} (hhigh : n / 64 ^ k = m / 64 ^ k) :
    DiffersBelow (tailOctets n k) (tailOctets m k) := by
  induction k with
  | zero =>
    rw [Nat.pow_zero, Nat.div_one, Nat.div_one] at hhigh
    exact absurd hhigh (Nat.ne_of_lt h)
  | succ k ih =>
    -- the highest of the groups decides, or it is the same in both and those below it decide
    rw [Nat.pow_succ, ← Nat.div_div_eq_div_mul, ← Nat.div_div_eq_div_mul] at hhigh
    rcases Nat.eq_or_lt_of_le (Nat.div_le_div_right (Nat.le_of_lt h) : n / 64 ^ k ≤ m / 64 ^ k) with heq | hlt
    · rw [tailOctets, tailOctets, heq]
      exact .later (ih heq)
    · have hoctet : ∀ q, q % 64 + 0x80 < UInt8.size := fun q =>
        Nat.add_lt_add_right (Nat.lt_trans (Nat.mod_lt q (by decide)) (by decide : 64 < 0x80)) 0x80
      exact .here ((UInt8.ofNat_lt_iff_lt (hoctet _) (hoctet _)).2 (by omega))

end Codes

theorem differsBelow_utf8EncodeChar {c d : Char} (h : c < d) :
    DiffersBelow (String.utf8EncodeChar c) (String.utf8EncodeChar d) := by
  have hlt : c.toNat < d.toNat := UInt32.lt_iff_toNat_lt.1 (Char.lt_def.1 h)
  have hlead := (UInt8.ofNat_lt_iff_lt (lead_lt (toNat_lt c)) (lead_lt (toNat_lt d))).2
  rw [utf8EncodeChar_eq, utf8EncodeChar_eq]
  rcases Nat.lt_or_eq_of_le (tailLength_mono (Nat.le_of_lt hlt)) with hlength | hlength
  · exact .here (hlead (lead_lt_of_tailLength_lt hlength))
  · rw [lead, lead, hlength] at hlead ⊢
    have hle : c.toNat / 64 ^ tailLength d.toNat ≤ d.toNat / 64 ^ tailLength d.toNat :=
      Nat.div_le_div_right (Nat.le_of_lt hlt)
    rcases Nat.lt_or_eq_of_le hle with hbits | hbits
    · exact .here (hlead (Nat.add_lt_add_right hbits _))
    · rw [hbits]
      exact .later (differsBelow_tailOctets hlt hbits)

/-- Octets keep the order of characters. -/
theorem utf8_lt_utf8 {cs ds : List Char} (h : cs < ds) : utf8 cs < utf8 ds := by
  induction h with
  | nil =>
    rw [utf8_cons, utf8EncodeChar_eq]
    exact List.nil_lt_cons _ _
  | rel h =>
    rw [utf8_cons, utf8_cons]
    exact (differsBelow_utf8EncodeChar h).append_lt _ _
  | cons _ ih =>
    rw [utf8_cons, utf8_cons]
    exact List.append_left_lt ih

end Json

/-- The octets of an id. -/
def idOctets (id : String) : List UInt8 := id.toUTF8.data.toList

/-- Ids are ordered as their octets are. -/
theorem lt_iff_idOctets_lt {a b : String} : a < b ↔ idOctets a < idOctets b := by
  have hmono : ∀ {a b : String}, a < b → idOctets a < idOctets b := fun h => by
    rw [idOctets, idOctets, Json.toList_toUTF8, Json.toList_toUTF8]
    exact Json.utf8_lt_utf8 (String.lt_iff_toList_lt.1 h)
  refine ⟨hmono, fun h => ?_⟩
  rcases lt_trichotomy a b with hlt | rfl | hgt
  · exact hlt
  · exact absurd h (List.lt_irrefl _)
  · exact absurd h (List.lt_asymm (hmono hgt))

end LinkPriority

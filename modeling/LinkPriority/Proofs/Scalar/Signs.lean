import LinkPriority.Proofs.Scalar.Rounding

/-! The signs of the machine's results. Of numbers that are not negative a sum is not negative either, and it is
positive as soon as one of them is: adding a zero changes nothing, and adding two positive numbers cannot round to
zero, only to infinity. A quotient of a number that is not negative by a positive one has no negative sign, though it
may be zero, infinite or undefined. -/

namespace LinkPriority.Binary64

open Float.Model (Format UnpackedFloat)
open Float.Model.UnpackedFloat

/-- A number above zero, infinity included. -/
def IsPositive (u : UnpackedFloat) : Prop := u = .infinity .positive ∨ ∃ m e hm, u = .finite .positive m e hm

/-- Zero or a number above it, without a negative sign. -/
def IsUnsigned (u : UnpackedFloat) : Prop := u = .zero .positive ∨ IsPositive u

variable {u v : UnpackedFloat} {s s' : Sign}

theorem isUnsigned_zero_iff : IsUnsigned (.zero s) ↔ s = .positive := by
  constructor
  · rintro (h | h | ⟨m, e, hm, h⟩) <;> cases h
    rfl
  · rintro rfl
    exact .inl rfl

/-! ### Sums and quotients -/

theorem zero_add_eq (h : IsPositive v) : UnpackedFloat.add Format.binary64 (.zero s) v = v := by
  obtain rfl | ⟨m, e, hm, rfl⟩ := h <;> rfl

theorem add_zero_eq (h : IsPositive u) : UnpackedFloat.add Format.binary64 u (.zero s) = u := by
  obtain rfl | ⟨m, e, hm, rfl⟩ := h <;> rfl

/-- Zeros add up to a zero, of positive sign if one of theirs is. -/
theorem exists_zero_add_zero (s s' : Sign) :
    ∃ t, UnpackedFloat.add Format.binary64 (.zero s) (.zero s') = .zero t ∧
      (s = .positive ∨ s' = .positive → t = .positive) := by
  cases s <;> cases s' <;> exact ⟨_, rfl, by simp⟩

/-- Two positive numbers that fit have a positive sum that fits. -/
theorem IsPositive.add (hu : IsPositive u) (hv : IsPositive v) (hfu : Fits u) (hfv : Fits v) :
    IsPositive (UnpackedFloat.add Format.binary64 u v) ∧ Fits (UnpackedFloat.add Format.binary64 u v) := by
  obtain rfl | ⟨m, e, hm, rfl⟩ := hu
  · obtain rfl | ⟨m', e', hm', rfl⟩ := hv <;> exact ⟨.inl rfl, trivial⟩
  · obtain rfl | ⟨m', e', hm', rfl⟩ := hv
    · exact ⟨.inl rfl, trivial⟩
    · have hmantissa : 0 < m <<< (e - min e e').toNat + m' <<< (e' - min e e').toNat := by
        rw [Nat.shiftLeft_eq]
        exact Nat.add_pos_left (Nat.mul_pos hm (Nat.two_pow_pos _)) _
      obtain ⟨_, _, _, hround, hfits⟩ := exists_normalize_eq .positive hmantissa (le_min hfu.2 hfv.2)
      rw [Int.natCast_add] at hround
      rw [show UnpackedFloat.add Format.binary64 (.finite .positive m e hm) (.finite .positive m' e' hm') = _ from
        hround]
      exact ⟨.inr ⟨_, _, _, rfl⟩, hfits⟩

/-- A number without negative sign over a positive one is undefined or has no negative sign either. -/
theorem IsUnsigned.div (hu : IsUnsigned u) (hv : IsPositive v) :
    (UnpackedFloat.div Format.binary64 u v = .notANumber ∨ IsUnsigned (UnpackedFloat.div Format.binary64 u v)) ∧
      Fits (UnpackedFloat.div Format.binary64 u v) := by
  obtain rfl | ⟨m', e', hm', rfl⟩ := hv
  · obtain rfl | rfl | ⟨m, e, hm, rfl⟩ := hu
    · exact ⟨.inr (.inl rfl), trivial⟩
    · exact ⟨.inl rfl, trivial⟩
    · exact ⟨.inr (.inl rfl), trivial⟩
  · obtain rfl | rfl | ⟨m, e, hm, rfl⟩ := hu
    · exact ⟨.inr (.inl rfl), trivial⟩
    · exact ⟨.inr (.inr (.inl rfl)), trivial⟩
    · refine ⟨.inr ?_, fits_roundWithAccuracy _ _ _ _⟩
      show IsUnsigned (roundWithAccuracy Format.binary64 .positive _ _ _)
      rw [roundWithAccuracy_eq]
      dsimp only
      split
      · exact .inl rfl
      · exact .inr (.inr ⟨_, _, _, rfl⟩)

theorem IsPositive.unpack_pack (hu : IsPositive u) (hfits : Fits u) :
    IsPositive (UnpackedFloat.unpack Format.binary64 (UnpackedFloat.pack Format.binary64 u)) := by
  obtain rfl | ⟨m, e, hm, rfl⟩ := hu
  · exact .inl (unpack_packedInfinity .positive)
  · exact unpack_pack_finite hfits

theorem IsUnsigned.unpack_pack (hu : IsUnsigned u) (hfits : Fits u) :
    IsUnsigned (UnpackedFloat.unpack Format.binary64 (UnpackedFloat.pack Format.binary64 u)) := by
  obtain rfl | hpositive := hu
  · exact .inl (unpack_packedZero .positive)
  · exact .inr (hpositive.unpack_pack hfits)

/-! ### The machine's numbers -/

variable {x y : Binary64}

theorem unpacked_eq (x : Binary64) : x.unpacked = UnpackedFloat.unpack Format.binary64 x.bits.toBitVec := by
  show UnpackedFloat.unpack Format.binary64 (UnpackedFloat.pack Format.binary64
    (UnpackedFloat.unpack Format.binary64 x.bits.toBitVec)) = _
  cases hunpack : UnpackedFloat.unpack Format.binary64 x.bits.toBitVec with
  | notANumber => rfl
  | infinity | zero | finite =>
    rw [← hunpack, pack_unpack (by rw [hunpack]; exact UnpackedFloat.noConfusion)]

/-- The machine's number of these parts. -/
def ofUnpacked (u : UnpackedFloat) : Binary64 := ⟨.ofBitVec (UnpackedFloat.pack Format.binary64 u)⟩

theorem unpacked_ofUnpacked (u : UnpackedFloat) : (ofUnpacked u).unpacked =
    UnpackedFloat.unpack Format.binary64 (UnpackedFloat.pack Format.binary64 u) := unpacked_eq _

theorem ofUnpacked_unpacked (h : x.unpacked ≠ .notANumber) : ofUnpacked x.unpacked = x := by
  rw [unpacked_eq] at h ⊢
  rw [ofUnpacked, pack_unpack h]

/-- Defined numbers of the same parts are the same. -/
theorem eq_of_unpacked_eq (hx : x.unpacked ≠ .notANumber) (h : x.unpacked = y.unpacked) : x = y := by
  rw [← ofUnpacked_unpacked hx, h, ofUnpacked_unpacked (h ▸ hx)]

theorem IsPositive.ne_notANumber (h : IsPositive u) : u ≠ .notANumber := by
  obtain rfl | ⟨m, e, hm, rfl⟩ := h <;> exact UnpackedFloat.noConfusion

theorem fits_unpacked (x : Binary64) : Fits x.unpacked := fits_unpack _

/-- A result is the rounded one, unless that is undefined. -/
theorem ofResult_ofModel (x y : Binary64) (u : UnpackedFloat) : ofResult x y (.ofModel (.pack u)) =
    if (ofUnpacked u).unpacked.isNaN then if x.isNaN then x else if y.isNaN then y else undefined
    else ofUnpacked u := by
  rw [unpacked_ofUnpacked]
  rfl

theorem isNaN_eq_false (h : u ≠ .notANumber) : u.isNaN = false := by
  cases u with
  | notANumber => exact absurd rfl h
  | infinity | zero | finite => rfl

theorem add_eq (h : (ofUnpacked (UnpackedFloat.add Format.binary64 x.unpacked y.unpacked)).unpacked ≠ .notANumber) :
    x + y = ofUnpacked (UnpackedFloat.add Format.binary64 x.unpacked y.unpacked) := by
  rw [show x + y = _ from ofResult_ofModel x y (UnpackedFloat.add Format.binary64 x.unpacked y.unpacked),
    isNaN_eq_false h]
  rfl

theorem unpacked_zero : (Scalar.zero : Binary64).unpacked = .zero .positive := rfl

/-- Not negative: zero of either sign or above. -/
theorem zero_le_iff : Scalar.le Scalar.zero x = true ↔ (∃ s, x.unpacked = .zero s) ∨ IsPositive x.unpacked := by
  rw [le_iff_unpacked_le, unpacked_zero]
  constructor
  · intro h
    cases hx : x.unpacked with
    | notANumber => rw [hx] at h; exact absurd h Bool.false_ne_true
    | zero s => exact .inl ⟨s, rfl⟩
    | infinity s =>
      cases s with
      | negative => rw [hx] at h; exact absurd h Bool.false_ne_true
      | positive => exact .inr (.inl rfl)
    | finite s m e hm =>
      cases s with
      | negative => rw [hx] at h; exact absurd h Bool.false_ne_true
      | positive => exact .inr (.inr ⟨m, e, hm, rfl⟩)
  · rintro (⟨s, h⟩ | h | ⟨m, e, hm, h⟩) <;> rw [h] <;> rfl

theorem le_zero_eq_false (h : IsPositive x.unpacked) : Scalar.le x Scalar.zero = false := by
  rw [← Bool.not_eq_true, le_iff_unpacked_le, unpacked_zero]
  obtain h | ⟨m, e, hm, h⟩ := h <;> rw [h] <;> exact Bool.false_ne_true

theorem isPositive_of_le_zero_eq_false (hx : Scalar.le Scalar.zero x = true) (h : Scalar.le x Scalar.zero = false) :
    IsPositive x.unpacked := by
  refine (zero_le_iff.1 hx).resolve_left ?_
  rintro ⟨s, hzero⟩
  have hle : Scalar.le x Scalar.zero = true := by
    rw [le_iff_unpacked_le, hzero]
    rfl
  rw [h] at hle
  exact Bool.false_ne_true hle

/-- A sum with the parts of a defined number is that number. -/
theorem add_eq_of_unpacked {z : Binary64} (h : UnpackedFloat.add Format.binary64 x.unpacked y.unpacked = z.unpacked)
    (hz : z.unpacked ≠ .notANumber) : x + y = z := by
  have hback := ofUnpacked_unpacked hz
  rw [add_eq (by rwa [h, hback]), h, hback]

theorem zero_add_of_isPositive (hx : x.unpacked = .zero s) (hy : IsPositive y.unpacked) : x + y = y :=
  add_eq_of_unpacked (by rw [hx, zero_add_eq hy]) hy.ne_notANumber

theorem add_zero_of_isPositive (hx : IsPositive x.unpacked) (hy : y.unpacked = .zero s) : x + y = x :=
  add_eq_of_unpacked (by rw [hy, add_zero_eq hx]) hx.ne_notANumber

theorem isPositive_add (hx : IsPositive x.unpacked) (hy : IsPositive y.unpacked) : IsPositive (x + y).unpacked := by
  obtain ⟨hpositive, hfits⟩ := hx.add hy (fits_unpacked x) (fits_unpacked y)
  have hpacked := hpositive.unpack_pack hfits
  rw [← unpacked_ofUnpacked] at hpacked
  rwa [add_eq hpacked.ne_notANumber]

/-- A sum of numbers that are not negative is positive if one of them is. -/
theorem isPositive_add_of_or (hx : Scalar.le Scalar.zero x = true) (hy : Scalar.le Scalar.zero y = true)
    (h : IsPositive x.unpacked ∨ IsPositive y.unpacked) : IsPositive (x + y).unpacked := by
  rcases h with hpositive | hpositive
  · rcases zero_le_iff.1 hy with ⟨s, hzero⟩ | hother
    · rwa [add_zero_of_isPositive hpositive hzero]
    · exact isPositive_add hpositive hother
  · rcases zero_le_iff.1 hx with ⟨s, hzero⟩ | hother
    · rwa [zero_add_of_isPositive hzero hpositive]
    · exact isPositive_add hother hpositive

theorem exists_zero_add (hx : x.unpacked = .zero s) (hy : y.unpacked = .zero s') :
    ∃ t, (x + y).unpacked = .zero t ∧ (s = .positive ∨ s' = .positive → t = .positive) := by
  obtain ⟨t, hsum, hsign⟩ := exists_zero_add_zero s s'
  have hpacked : (ofUnpacked (UnpackedFloat.add Format.binary64 x.unpacked y.unpacked)).unpacked = .zero t := by
    rw [hx, hy, hsum, unpacked_ofUnpacked]
    exact unpack_packedZero t
  refine ⟨t, ?_, hsign⟩
  rw [add_eq (by rw [hpacked]; exact UnpackedFloat.noConfusion), hpacked]

theorem exists_unpacked_add (hx : x.unpacked = .zero s) (hy : y.unpacked = .zero s') :
    ∃ t, (x + y).unpacked = .zero t :=
  (exists_zero_add hx hy).imp fun _ h => h.1

theorem isUnsigned_add (hx : Scalar.le Scalar.zero x = true) (hy : Scalar.le Scalar.zero y = true)
    (h : IsUnsigned x.unpacked ∨ IsUnsigned y.unpacked) : IsUnsigned (x + y).unpacked := by
  rcases zero_le_iff.1 hx with ⟨s, hzero⟩ | hpositive
  · rcases zero_le_iff.1 hy with ⟨s', hzero'⟩ | hpositive
    · obtain ⟨t, hsum, hsign⟩ := exists_zero_add hzero hzero'
      rw [hzero, hzero', isUnsigned_zero_iff, isUnsigned_zero_iff] at h
      rw [hsum, hsign h]
      exact .inl rfl
    · exact .inr (isPositive_add_of_or hx hy (.inr hpositive))
  · exact .inr (isPositive_add_of_or hx hy (.inl hpositive))

/-- The machine's quotients are undefined or get no negative sign. -/
theorem isUnsigned_div (hx : IsUnsigned x.unpacked) (hy : IsPositive y.unpacked) :
    (x / y).unpacked = .notANumber ∨ IsUnsigned (x / y).unpacked := by
  obtain ⟨hquotient, hfits⟩ := hx.div hy
  rw [show x / y = _ from ofResult_ofModel x y (UnpackedFloat.div Format.binary64 x.unpacked y.unpacked)]
  split
  · split
    · exact .inr hx
    · split
      · exact .inr (.inr hy)
      · exact .inl rfl
  · next hdefined =>
    refine .inr ?_
    rcases hquotient with hnone | hunsigned
    · rw [hnone] at hdefined
      exact absurd rfl hdefined
    · rw [unpacked_ofUnpacked]
      exact hunsigned.unpack_pack hfits

instance : SummingScalar Binary64 where
  zero_le_emptySum := by decide
  zero_le_add {x y} hx hy := by
    rcases zero_le_iff.1 hx with ⟨s, hzero⟩ | hpositive
    · rcases zero_le_iff.1 hy with ⟨s', hzero'⟩ | hpositive
      · exact zero_le_iff.2 (.inl (exists_unpacked_add hzero hzero'))
      · exact zero_le_iff.2 (.inr (isPositive_add_of_or hx hy (.inr hpositive)))
    · exact zero_le_iff.2 (.inr (isPositive_add_of_or hx hy (.inl hpositive)))
  add_pos {x y} hx hy hpos := le_zero_eq_false (isPositive_add_of_or hx hy
    (hpos.imp (isPositive_of_le_zero_eq_false hx) (isPositive_of_le_zero_eq_false hy)))

/-! ### Places in the order of sorting -/

/-- Negative numbers are placed from the last to the first, and the others above them. -/
theorem toNat_orderKey (x : Binary64) : x.orderKey.toNat =
    if 2 ^ 63 ≤ x.bits.toNat then 2 ^ 64 - 1 - x.bits.toNat else 2 ^ 63 + x.bits.toNat := by
  have hbits : x.bits.toNat < 2 ^ 64 := x.bits.toNat_lt
  have hnegative : x.isNegative = true ↔ 2 ^ 63 ≤ x.bits.toNat := by
    rw [isNegative, beq_iff_eq, ← UInt64.toNat_inj, UInt64.toNat_shiftRight, Nat.shiftRight_eq_div_pow]
    show x.bits.toNat / 2 ^ 63 = 1 ↔ _
    omega
  rw [orderKey]
  by_cases h : 2 ^ 63 ≤ x.bits.toNat
  · have hnot : (~~~x.bits).toNat = 2 ^ 64 - 1 - x.bits.toNat := UInt64.toNat_not x.bits
    rw [if_pos h, if_pos (hnegative.2 h), hnot]
  · have hlow : x.bits.toNat < 2 ^ 63 := Nat.lt_of_not_le h
    rw [if_neg h, if_neg (mt hnegative.1 h), UInt64.toNat_or, Nat.or_comm]
    exact (Nat.two_pow_add_eq_or_of_lt hlow 1).symm

theorem orderKey_inj (h : x.orderKey = y.orderKey) : x = y := by
  have hx : x.bits.toNat < 2 ^ 64 := x.bits.toNat_lt
  have hy : y.bits.toNat < 2 ^ 64 := y.bits.toNat_lt
  have hsame := congrArg UInt64.toNat h
  rw [toNat_orderKey, toNat_orderKey] at hsame
  refine congrArg Binary64.mk (UInt64.toNat_inj.1 ?_)
  split at hsame <;> split at hsame <;> omega

instance : LinearScalar Binary64 where
  precedes_antisymm hxy hyx := by
    simp only [Scalar.precedes, decide_eq_true_eq] at hxy hyx
    exact orderKey_inj (UInt64.le_antisymm hxy hyx)

end LinkPriority.Binary64

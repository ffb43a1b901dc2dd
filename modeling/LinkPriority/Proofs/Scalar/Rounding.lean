import Mathlib
import LinkPriority.Proofs.Scalar.Machine

/-! How the machine rounds and packs a number. The parts of a number (sign, exponent, mantissa) are packed into bits
and found again in them, so two numbers with the same parts are the same, undefined ones apart. Rounding keeps a
mantissa within 53 bits and an exponent at -1074 or above, and does not take a positive number to zero that has its
exponent there already; so packing a rounded number gives infinity or another finite number, of the same sign. -/

namespace LinkPriority.Binary64

open Float.Model (Format UnpackedFloat totalExponent)
open Float.Model.UnpackedFloat

variable {s : Sign} {m : Nat} {e : Int}

/-! ### Packing -/

theorem unpackSign_packComponents {spec : Format} {s : Sign} {exponent : BitVec spec.exponentBits}
    {mantissa : BitVec spec.mantissaBitsWithoutImplicit} :
    unpackSign (packComponents spec s exponent mantissa) = s.toBitVec := by
  ext i hi
  obtain rfl : i = 0 := by omega
  simp [unpackSign, packComponents, BitVec.getLsbD_append, BitVec.getElem_append]

theorem sign_ofBitVec_toBitVec (s : Sign) : Sign.ofBitVec s.toBitVec = s := by cases s <;> rfl

theorem sign_toBitVec_ofBitVec (b : BitVec 1) : (Sign.ofBitVec b).toBitVec = b := by
  revert b
  decide

/-- The bits are the parts, one behind the other. -/
theorem packComponents_unpack (b : BitVec Format.binary64.numBits) :
    packComponents Format.binary64 (Sign.ofBitVec (unpackSign b)) (unpackExponent b) (unpackMantissa b) = b := by
  rw [packComponents, sign_toBitVec_ofBitVec]
  refine BitVec.eq_of_getLsbD_eq fun i hi => ?_
  simp only [unpackSign, unpackExponent, unpackMantissa, BitVec.cast_eq]
  grind

/-- What a mantissa and an exponent must be for the format to have room for them, unless the exponent is too large. -/
def Fits : UnpackedFloat → Prop
  | .finite _ m e _ => m < 2 ^ 53 ∧ -1074 ≤ e
  | _ => True

theorem exponentBias_eq : Format.binary64.exponentBias = 1023 := rfl

theorem mantissaBits_eq : Format.binary64.mantissaBits = 53 := rfl

theorem targetExponent_eq (t : Int) : Format.binary64.targetExponent t = max (t - 53) (-1074) := by
  rw [Format.targetExponent, mantissaBits_eq]
  rfl

theorem toNat_append_implicit (mantissa : BitVec 52) : (1#1 ++ mantissa).toNat = 2 ^ 52 + mantissa.toNat := by
  rw [BitVec.toNat_append, ← Nat.shiftLeft_add_eq_or_of_lt mantissa.isLt]
  rfl

theorem fits_unpack (b : BitVec Format.binary64.numBits) : Fits (UnpackedFloat.unpack Format.binary64 b) := by
  simp only [UnpackedFloat.unpack, exponentBias_eq]
  have hmantissa : (unpackMantissa b).toNat < 2 ^ 52 := (unpackMantissa b).isLt
  split
  · split <;> trivial
  · split
    · split
      · trivial
      · next hexponent _ =>
        rw [hexponent]
        exact ⟨by omega, by decide⟩
    · next hexponent =>
      have hpos : 0 < (unpackExponent b).toNat :=
        Nat.pos_of_ne_zero fun hzero => hexponent (BitVec.eq_of_toNat_eq hzero)
      refine ⟨(toNat_append_implicit (unpackMantissa b)).trans_lt (by omega), ?_⟩
      show (-1074 : Int) ≤ (unpackExponent b).toNat - ((1023 : Nat) + (52 : Nat))
      omega

/-- How a finite number is packed: too large a one as infinity, any other by its exponent and the low bits of its
mantissa. -/
theorem pack_finite (hm : 0 < m) :
    UnpackedFloat.pack Format.binary64 (.finite s m e hm) =
      if 2047 ≤ (e + 1075).toNat then packedInfinity Format.binary64 s
      else if m.log2 = 52 then
        packComponents Format.binary64 s (BitVec.ofNat 11 (e + 1075).toNat) (BitVec.ofNat 52 m)
      else packComponents Format.binary64 s 0 (BitVec.ofNat 52 m) := by
  have hbiased : e + (1023 : Nat) + (52 : Nat) = e + 1075 := by omega
  have hlimit : 2 ^ 11 ≤ (e + 1075).toNat + 1 ↔ 2047 ≤ (e + 1075).toNat := by omega
  have hlog : m.log2 + 1 = 53 ↔ m.log2 = 52 := by omega
  simp only [UnpackedFloat.pack, exponentBias_eq, mantissaBits_eq, hbiased, hlimit, hlog]
  rfl

theorem pack_subnormal {mantissa : BitVec 52} (hpos : 0 < mantissa.toNat) :
    UnpackedFloat.pack Format.binary64 (.finite s mantissa.toNat (-1074) hpos) =
      packComponents Format.binary64 s 0 mantissa := by
  have hlog : mantissa.toNat.log2 < 52 := (Nat.log2_lt hpos.ne').2 mantissa.isLt
  rw [pack_finite, if_neg (by decide), if_neg hlog.ne, BitVec.ofNat_toNat, BitVec.setWidth_eq]

theorem pack_normal {exponent : BitVec 11} {mantissa : BitVec 52} (hlast : exponent ≠ -1#11)
    (hpos : 0 < (1#1 ++ mantissa).toNat) :
    UnpackedFloat.pack Format.binary64 (.finite s (1#1 ++ mantissa).toNat (exponent.toNat - 1075) hpos) =
      packComponents Format.binary64 s exponent mantissa := by
  have hmantissa : mantissa.toNat < 2 ^ 52 := mantissa.isLt
  have hexponent : exponent.toNat < 2 ^ 11 := exponent.isLt
  have hbelow : exponent.toNat ≠ 2047 := fun heq => hlast (BitVec.eq_of_toNat_eq heq)
  have hbiased : ((exponent.toNat : Int) - 1075 + 1075).toNat = exponent.toNat := by omega
  have hlog : (1#1 ++ mantissa).toNat.log2 = 52 := by
    rw [toNat_append_implicit, Nat.log2_eq_iff (by omega)]
    omega
  -- the leading bit is not packed
  have hlow : BitVec.ofNat 52 (1#1 ++ mantissa).toNat = mantissa := by
    refine BitVec.eq_of_toNat_eq ?_
    rw [BitVec.toNat_ofNat, toNat_append_implicit, Nat.add_mod_left, Nat.mod_eq_of_lt hmantissa]
  rw [pack_finite, hbiased, if_neg (by omega), if_pos hlog, hlow, BitVec.ofNat_toNat, BitVec.setWidth_eq]

/-- Bits that are defined come back when their parts are packed again. -/
theorem pack_unpack {b : BitVec Format.binary64.numBits} (h : UnpackedFloat.unpack Format.binary64 b ≠ .notANumber) :
    UnpackedFloat.pack Format.binary64 (UnpackedFloat.unpack Format.binary64 b) = b := by
  have hparts := packComponents_unpack b
  have hbias : ((1023 : Nat) + (52 : Nat) : Int) = 1075 := by omega
  simp only [UnpackedFloat.unpack, exponentBias_eq, hbias] at h ⊢
  split at h
  · next hlast =>
    split at h
    · next hnone =>
      rw [if_pos hlast, if_pos hnone]
      rw [hlast, hnone] at hparts
      exact hparts
    · exact absurd rfl h
  · next hlast =>
    rw [if_neg hlast]
    split at h
    · next hfirst =>
      rw [if_pos hfirst]
      rw [hfirst] at hparts
      split at h
      · next hnone =>
        rw [dif_pos hnone]
        rw [hnone] at hparts
        exact hparts
      · next hsome =>
        rw [dif_neg hsome, hfirst]
        exact (pack_subnormal _).trans hparts
    · next hfirst =>
      rw [if_neg hfirst]
      exact (pack_normal hlast _).trans hparts

/-! ### Unpacking what was packed -/

theorem unpack_packedZero (s : Sign) :
    UnpackedFloat.unpack Format.binary64 (packedZero Format.binary64 s) = .zero s := by
  cases s <;> rfl

theorem unpack_packedInfinity (s : Sign) :
    UnpackedFloat.unpack Format.binary64 (packedInfinity Format.binary64 s) = .infinity s := by
  cases s <;> rfl

/-- Parts that are neither those of zero nor of the last exponent are those of a finite number. -/
theorem unpack_packComponents {exponent : BitVec 11} {mantissa : BitVec 52} (hlast : exponent ≠ -1#11)
    (hsome : exponent = 0#11 → mantissa ≠ 0#52) :
    ∃ m e hm, UnpackedFloat.unpack Format.binary64 (packComponents Format.binary64 s exponent mantissa) =
      .finite s m e hm := by
  simp only [UnpackedFloat.unpack, unpackMantissa_packComponents, unpackExponent_packComponents,
    unpackSign_packComponents, sign_ofBitVec_toBitVec, if_neg hlast]
  split
  · next hfirst =>
    have hpos : 0 < mantissa.toNat := Nat.pos_of_ne_zero fun hzero => hsome hfirst (BitVec.eq_of_toNat_eq hzero)
    rw [dif_neg (hsome hfirst)]
    exact ⟨_, _, hpos, rfl⟩
  · have hpos : 0 < (1#1 ++ mantissa).toNat := by
      rw [toNat_append_implicit]
      omega
    exact ⟨_, _, hpos, rfl⟩

/-- A number that fits is packed as infinity or as a finite number, of its own sign. -/
theorem unpack_pack_finite {hm : 0 < m} (h : Fits (.finite s m e hm)) :
    let packed := UnpackedFloat.unpack Format.binary64 (UnpackedFloat.pack Format.binary64 (.finite s m e hm))
    packed = .infinity s ∨ ∃ m e hm, packed = .finite s m e hm := by
  obtain ⟨hmantissa, hexponent⟩ := h
  have hlog : m.log2 < 53 := (Nat.log2_lt hm.ne').2 hmantissa
  intro packed
  simp only [packed, pack_finite]
  split
  · exact .inl (unpack_packedInfinity s)
  · next hlimit =>
    right
    split
    · refine unpack_packComponents (fun hlast => ?_) fun hfirst => ?_
      · have hvalue := congrArg BitVec.toNat hlast
        rw [BitVec.toNat_ofNat] at hvalue
        change _ = 2047 at hvalue
        omega
      · have hvalue := congrArg BitVec.toNat hfirst
        rw [BitVec.toNat_ofNat] at hvalue
        change _ = 0 at hvalue
        omega
    · next hlow =>
      have hsmall : m < 2 ^ 52 := (Nat.log2_lt hm.ne').1 (by omega)
      refine unpack_packComponents (by decide) fun _ hnone => ?_
      have hvalue := congrArg BitVec.toNat hnone
      rw [BitVec.toNat_ofNat, Nat.mod_eq_of_lt hsmall] at hvalue
      exact hm.ne' hvalue

/-! ### Rounding -/

theorem mantissa_shiftRight (em : ExtendedMantissa) (count : Nat) :
    (em >>> count).mantissa = em.mantissa / 2 ^ count := by
  induction count with
  | zero => exact (Nat.div_one _).symm
  | succ count ih =>
    change (em >>> count).mantissa / 2 = _
    rw [ih, Nat.div_div_eq_div_mul, Nat.pow_succ]

theorem mantissa_ofMantissaAndAccuracy (m : Nat) (accuracy : Accuracy) :
    (ExtendedMantissa.ofMantissaAndAccuracy m accuracy).mantissa = m := by
  rcases accuracy with _ | _ | _ | _ <;> rfl

theorem le_roundedMantissa (em : ExtendedMantissa) : em.mantissa ≤ em.roundedMantissa := by
  rcases em with ⟨m, _ | _, _ | _⟩
  · exact Nat.le_refl m
  · exact Nat.le_refl m
  · exact Nat.le_add_right m _
  · exact Nat.le_succ m

/-- How far a mantissa is shifted on its way to the exponent that it should have. -/
def shiftAmount (m : Nat) (e : Int) : Nat := (Format.binary64.targetExponent (totalExponent m e) - e).toNat

theorem div_shiftAmount_lt (m : Nat) (e : Int) : m / 2 ^ shiftAmount m e < 2 ^ 53 := by
  rw [Nat.div_lt_iff_lt_mul (Nat.two_pow_pos _), ← Nat.pow_add]
  refine Nat.lt_log2_self.trans_le (Nat.pow_le_pow_right Nat.two_pos ?_)
  rw [shiftAmount, targetExponent_eq, totalExponent]
  omega

/-- From the least exponent up a shift keeps the leading bit. -/
theorem div_shiftAmount_pos (hm : 0 < m) (he : -1074 ≤ e) : 0 < m / 2 ^ shiftAmount m e := by
  refine Nat.div_pos ((Nat.pow_le_pow_right Nat.two_pos ?_).trans (Nat.log2_self_le hm.ne')) (Nat.two_pow_pos _)
  rw [shiftAmount, targetExponent_eq, totalExponent]
  omega

theorem le_add_shiftAmount (m : Nat) (e : Int) : -1074 ≤ e + shiftAmount m e := by
  rw [shiftAmount, targetExponent_eq]
  omega

section RoundWithAccuracy

variable (s : Sign) (m : Nat) (e : Int) (accuracy : Accuracy)

/-- The mantissa after the first shift, rounded. -/
def roundedOnce : Nat :=
  (ExtendedMantissa.ofMantissaAndAccuracy m accuracy >>> shiftAmount m e).roundedMantissa

/-- Rounding shifts twice, the second time because rounding may carry into one bit more. -/
theorem roundWithAccuracy_eq :
    roundWithAccuracy Format.binary64 s m e accuracy =
      let once := roundedOnce m e accuracy
      let exponent := e + shiftAmount m e
      if h : once / 2 ^ shiftAmount once exponent = 0 then .zero s
      else .finite s (once / 2 ^ shiftAmount once exponent) (exponent + shiftAmount once exponent)
        (Nat.pos_of_ne_zero h) := by
  simp only [roundWithAccuracy, shiftToTargetExponent, shiftToExponent, mantissa_shiftRight,
    mantissa_ofMantissaAndAccuracy]
  rfl

theorem fits_roundWithAccuracy : Fits (roundWithAccuracy Format.binary64 s m e accuracy) := by
  rw [roundWithAccuracy_eq]
  dsimp only
  split
  · trivial
  · exact ⟨div_shiftAmount_lt _ _, le_add_shiftAmount _ _⟩

variable {m e}

theorem exists_roundWithAccuracy_eq (hm : 0 < m) (he : -1074 ≤ e) :
    ∃ m' e' hm', roundWithAccuracy Format.binary64 s m e accuracy = .finite s m' e' hm' := by
  have honce : 0 < roundedOnce m e accuracy := by
    refine Nat.lt_of_lt_of_le ?_ (le_roundedMantissa _)
    rw [mantissa_shiftRight, mantissa_ofMantissaAndAccuracy]
    exact div_shiftAmount_pos hm he
  rw [roundWithAccuracy_eq]
  dsimp only
  rw [dif_neg (div_shiftAmount_pos honce (le_add_shiftAmount m e)).ne']
  exact ⟨_, _, _, rfl⟩

end RoundWithAccuracy

theorem exists_round_eq (s : Sign) (hm : 0 < m) (he : -1074 ≤ e) :
    ∃ m' e' hm', UnpackedFloat.round Format.binary64 s m e = .finite s m' e' hm' ∧
      Fits (.finite s m' e' hm') := by
  have hshifted : 0 < m <<< (e - Format.binary64.targetExponent (totalExponent m e)).toNat := by
    rw [Nat.shiftLeft_eq]
    exact Nat.mul_pos hm (Nat.two_pow_pos _)
  obtain ⟨m', e', hm', hround⟩ := exists_roundWithAccuracy_eq s .exact hshifted
    (show -1074 ≤ e - (e - Format.binary64.targetExponent (totalExponent m e)).toNat by
      rw [targetExponent_eq]
      omega)
  exact ⟨m', e', hm', hround, hround ▸ fits_roundWithAccuracy s _ _ .exact⟩

theorem exists_normalize_eq (s : Sign) (hm : 0 < m) (he : -1074 ≤ e) :
    ∃ m' e' hm', UnpackedFloat.normalize Format.binary64 (m : ℤ) e s = .finite .positive m' e' hm' ∧
      Fits (.finite .positive m' e' hm') := by
  have hpositive : compare (m : ℤ) 0 = .gt := by
    rw [compare_gt_iff_gt]
    exact Int.natCast_pos.2 hm
  rw [UnpackedFloat.normalize, hpositive]
  exact exists_round_eq .positive hm he

end LinkPriority.Binary64

import Mathlib.Data.Prod.Lex
import Mathlib.Tactic.Common
import LinkPriority.Scalar.Binary64
import LinkPriority.Proofs.Scalar.Order

/-! The numbers of the machine are ordered numbers. Two finite ones are compared by their signs and, where these are
the same, by exponent and then mantissa, both downwards below zero; so they compare as triples of integers do. What
is proved of ordered numbers therefore holds of double precision. -/

namespace LinkPriority.Binary64

open Float.Model

/-- The place of a finite number among the finite ones: sign, exponent, mantissa. Both zeros have one place. -/
def place : UnpackedFloat → ℤ ×ₗ ℤ ×ₗ ℤ
  | .finite .negative m e _ => toLex (-1, toLex (-e, -m))
  | .finite .positive m e _ => toLex (1, toLex (e, m))
  | _ => toLex (0, toLex (0, 0))

private theorem compare_toLex (s e e' m m' : ℤ) :
    compare (toLex (s, toLex (e, m))) (toLex (s, toLex (e', m'))) = (compare e e').then (compare m m') := by
  simp [Prod.Lex.compare_def, compareLex, compareOn]

private theorem compare_neg (a b : ℤ) : compare (-a) (-b) = (compare a b).swap := by
  rw [Int.compare_swap]
  simp only [Int.compare_eq_ite_lt, Int.neg_lt_neg_iff]

private theorem compare_natCast (m m' : ℕ) : compare (m : ℤ) (m' : ℤ) = compare m m' := by
  simp only [Int.compare_eq_ite_lt, Nat.compare_eq_ite_lt, Int.ofNat_lt]

/-- Finite numbers compare as their places do. -/
theorem compare_eq_place {u v : UnpackedFloat} (hu : u.isFinite = true) (hv : v.isFinite = true) :
    u.compare v = some (compare (place u) (place v)) := by
  cases u with
  | infinity | notANumber => exact absurd hu Bool.false_ne_true
  | zero s =>
    cases v with
    | infinity | notANumber => exact absurd hv Bool.false_ne_true
    | zero s' => rfl
    | finite s' m' e' h' => cases s' <;> rfl
  | finite s m e h =>
    cases v with
    | infinity | notANumber => exact absurd hv Bool.false_ne_true
    | zero s' => cases s <;> rfl
    | finite s' m' e' h' =>
      cases s <;> cases s'
      · show _ = some (compare (toLex ((-1 : ℤ), toLex (-e, -(m : ℤ)))) (toLex (-1, toLex (-e', -(m' : ℤ)))))
        rw [compare_toLex, compare_neg, compare_neg, compare_natCast, ← Ordering.swap_then]
        rfl
      · rfl
      · rfl
      · show _ = some (compare (toLex ((1 : ℤ), toLex (e, (m : ℤ)))) (toLex (1, toLex (e', (m' : ℤ)))))
        rw [compare_toLex, compare_natCast]
        rfl

theorem unpacked_le_iff {u v : UnpackedFloat} (hu : u.isFinite = true) (hv : v.isFinite = true) :
    u.le v = true ↔ place u ≤ place v := by
  rw [UnpackedFloat.le, compare_eq_place hu hv, Option.any_some, Ordering.isLE_iff_ne_gt]
  exact compare_le_iff_le

/-- A number with sign, exponent and mantissa apart, in which form it is compared. -/
def unpacked (x : Binary64) : UnpackedFloat := x.toFloat.toModel.unpack

section Order

variable {x y : Binary64}

theorem le_iff_unpacked_le : Scalar.le x y = true ↔ x.unpacked.le y.unpacked = true :=
  (decide_eq_true_iff (p := x.toFloat ≤ y.toFloat)).trans
    (decide_eq_true_iff (p := x.toFloat.toModel ≤ y.toFloat.toModel))

theorem lt_iff_unpacked_lt : Scalar.lt x y = true ↔ x.unpacked.lt y.unpacked = true :=
  (decide_eq_true_iff (p := x.toFloat < y.toFloat)).trans
    (decide_eq_true_iff (p := x.toFloat.toModel < y.toFloat.toModel))

variable (hx : Scalar.isFinite x = true) (hy : Scalar.isFinite y = true)
include hx hy

theorem le_eq_true : Scalar.le x y = true ↔ place x.unpacked ≤ place y.unpacked :=
  le_iff_unpacked_le.trans (unpacked_le_iff hx hy)

theorem lt_eq_true : Scalar.lt x y = true ↔ place x.unpacked < place y.unpacked := by
  have hcompare : x.unpacked.compare y.unpacked = _ := compare_eq_place hx hy
  rw [lt_iff_unpacked_lt, UnpackedFloat.lt, hcompare, beq_iff_eq, Option.some.injEq]
  exact compare_lt_iff_lt

end Order

instance : OrderedScalar Binary64 where
  isFinite_zero := by decide
  le_total {x y} hx hy := by
    rw [le_eq_true hx hy, le_eq_true hy hx]
    exact le_total _ _
  le_trans {x y z} hx hy hz := by
    rw [le_eq_true hx hy, le_eq_true hy hz, le_eq_true hx hz]
    exact le_trans
  lt_iff_not_le {x y} hx hy := by
    rw [le_eq_true hy hx, lt_eq_true hx hy]
    exact lt_iff_not_ge

/-- A number of the machine compares with itself as equal, or not at all if it is undefined. -/
theorem compare_self (u : UnpackedFloat) : u.compare u = some .eq ∨ u.compare u = none := by
  cases u with
  | notANumber => exact .inr rfl
  | infinity s => cases s <;> exact .inl rfl
  | zero s => exact .inl rfl
  | finite s m e h =>
    left
    rw [compare_eq_place rfl rfl, compare_eq_iff_eq.2 rfl]

instance : StrictScalar Binary64 where
  lt_irrefl x := by
    rw [← Bool.not_eq_true, lt_iff_unpacked_lt, UnpackedFloat.lt]
    rcases compare_self x.unpacked with h | h <;> rw [h] <;> decide

instance : SortedScalar Binary64 where
  precedes_total x y := by
    simp only [Scalar.precedes, decide_eq_true_eq]
    exact UInt64.le_total x.orderKey y.orderKey
  precedes_trans hxy hyz := by
    simp only [Scalar.precedes, decide_eq_true_eq] at hxy hyz ⊢
    exact UInt64.le_trans hxy hyz

instance : CountingScalar Binary64 where
  isFinite_ofNat {n} hn := by
    have hall : ∀ n < 21, Scalar.isFinite (Scalar.ofNat n : Binary64) = true := by decide +kernel
    exact hall n (by omega)
  lt_ofNat {m n} hmn hn := by
    have hall : ∀ n < 21, ∀ m < n, Scalar.lt (Scalar.ofNat m : Binary64) (Scalar.ofNat n) = true := by decide +kernel
    exact hall n (by omega) m hmn

end LinkPriority.Binary64

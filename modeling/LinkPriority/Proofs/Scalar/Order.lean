import Mathlib.Data.List.Induction
import LinkPriority.Scalar

/-! What the comparisons of numbers promise. Finite numbers are totally ordered by their numeric comparison, of
which the strict one is the strict part; two finite numbers that compare both ways are numerically equal, which
need not make them the same number, as a zero has two signs. No number at all, finite or not, is below itself, small
whole numbers are finite and in their order, the order of sorting places every number, no two in one place, and a sum of
terms that are not negative is positive if one of them is. -/

namespace LinkPriority

/-- Numbers whose finite values are totally ordered by comparison, zero among them. -/
class OrderedScalar (α : Type) [Scalar α] : Prop where
  isFinite_zero : Scalar.isFinite (Scalar.zero : α) = true
  le_total {x y : α} : Scalar.isFinite x = true → Scalar.isFinite y = true →
    Scalar.le x y = true ∨ Scalar.le y x = true
  le_trans {x y z : α} : Scalar.isFinite x = true → Scalar.isFinite y = true → Scalar.isFinite z = true →
    Scalar.le x y = true → Scalar.le y z = true → Scalar.le x z = true
  lt_iff_not_le {x y : α} : Scalar.isFinite x = true → Scalar.isFinite y = true →
    (Scalar.lt x y = true ↔ ¬Scalar.le y x = true)

/-- Numbers of which none is below itself, not even an infinite or an undefined one. -/
class StrictScalar (α : Type) [Scalar α] : Prop where
  lt_irrefl (x : α) : Scalar.lt x x = false

/-- Numbers among which the whole numbers up to 20 are finite and in their order, which is as far as random instances
count. -/
class CountingScalar (α : Type) [Scalar α] : Prop where
  isFinite_ofNat {n : Nat} : n ≤ 20 → Scalar.isFinite (Scalar.ofNat n : α) = true
  lt_ofNat {m n : Nat} : m < n → n ≤ 20 → Scalar.lt (Scalar.ofNat m : α) (Scalar.ofNat n) = true

/-- Numbers that the order of sorting places all, the infinite and the undefined ones too. -/
class SortedScalar (α : Type) [Scalar α] : Prop where
  precedes_total (x y : α) : Scalar.precedes x y = true ∨ Scalar.precedes y x = true
  precedes_trans {x y z : α} : Scalar.precedes x y = true → Scalar.precedes y z = true → Scalar.precedes x z = true

/-- Numbers of which no two have the same place in the order of sorting. -/
class LinearScalar (α : Type) [Scalar α] : Prop extends SortedScalar α where
  precedes_antisymm {x y : α} : Scalar.precedes x y = true → Scalar.precedes y x = true → x = y

/-- Numbers whose sums are not negative if no term is, and positive as soon as one of the terms is. -/
class SummingScalar (α : Type) [Scalar α] : Prop where
  zero_le_emptySum : Scalar.le Scalar.zero (Scalar.emptySum : α) = true
  zero_le_add {x y : α} : Scalar.le Scalar.zero x = true → Scalar.le Scalar.zero y = true →
    Scalar.le Scalar.zero (x + y) = true
  add_pos {x y : α} : Scalar.le Scalar.zero x = true → Scalar.le Scalar.zero y = true →
    Scalar.le x Scalar.zero = false ∨ Scalar.le y Scalar.zero = false → Scalar.le (x + y) Scalar.zero = false

namespace Scalar

/-- Numerical equality: each number is at most the other. -/
def equal {α : Type} [Scalar α] (x y : α) : Bool := le x y && le y x

/-- The strict order of sorting, from the larger number. -/
def exceeds {α : Type} [Scalar α] (x y : α) : Bool := precedes y x && !precedes x y

variable {α : Type} [Scalar α] [OrderedScalar α]

theorem le_self {x : α} (hx : isFinite x = true) : le x x = true := by
  rcases OrderedScalar.le_total hx hx with h | h <;> exact h

theorem isZero_zero : isZero (zero : α) = true := by
  have h : le (zero : α) zero = true := le_self OrderedScalar.isFinite_zero
  simp only [isZero, h, Bool.and_self]

theorem isUndefined_eq_false {x : α} (hx : isFinite x = true) : isUndefined x = false := by
  simp only [isUndefined, le_self hx, Bool.not_true]

theorem le_of_lt {x y : α} (hx : isFinite x = true) (hy : isFinite y = true) (h : lt x y = true) :
    le x y = true := by
  have hnot := (OrderedScalar.lt_iff_not_le hx hy).1 h
  exact (OrderedScalar.le_total hx hy).resolve_right hnot

theorem le_of_not_lt {x y : α} (hx : isFinite x = true) (hy : isFinite y = true) (h : ¬lt x y = true) :
    le y x = true := by
  by_cases hle : le y x = true
  · exact hle
  · exact absurd ((OrderedScalar.lt_iff_not_le hx hy).2 hle) h

section Summing

variable {β : Type} [Scalar β] [SummingScalar β] {xs : List β}

theorem zero_le_sum (h : ∀ x ∈ xs, le zero x = true) : le zero (sum xs) = true := by
  induction xs using List.reverseRecOn with
  | nil => exact SummingScalar.zero_le_emptySum
  | append_singleton xs x ih =>
    obtain ⟨hxs, hx⟩ := List.forall_mem_append.1 h
    rw [sum, List.foldl_append]
    exact SummingScalar.zero_le_add (ih hxs) (hx x (List.mem_singleton_self x))

/-- What a sum of two numbers that are not negative takes over from either, longer sums take over from any term. -/
theorem sum_of_mem {P : β → Prop}
    (hadd : ∀ {x y : β}, le zero x = true → le zero y = true → P x ∨ P y → P (x + y))
    (h : ∀ x ∈ xs, le zero x = true) {x : β} (hx : x ∈ xs) (hterm : P x) : P (sum xs) := by
  induction xs using List.reverseRecOn with
  | nil => simp at hx
  | append_singleton xs y ih =>
    obtain ⟨hxs, hy⟩ := List.forall_mem_append.1 h
    rw [sum, List.foldl_append]
    refine hadd (zero_le_sum hxs) (hy y (List.mem_singleton_self y)) ?_
    rcases List.mem_append.1 hx with hbefore | hlast
    · exact .inl (ih hxs hbefore)
    · exact .inr (List.mem_singleton.1 hlast ▸ hterm)

/-- A sum of terms that are not negative is positive if one of them is. -/
theorem sum_pos (h : ∀ x ∈ xs, le zero x = true) {x : β} (hx : x ∈ xs) (hpos : le x zero = false) :
    le (sum xs) zero = false :=
  sum_of_mem (P := fun x => le x zero = false) SummingScalar.add_pos h hx hpos

end Summing

section Counting

variable [CountingScalar α] {n : Nat} (hpos : 0 < n) (hn : n ≤ 20) {x : α} (hx : isFinite x = true)
  (hle : le (ofNat n) x = true)
include hpos hn hx hle

/-- What is at least a positive whole number is an amount. -/
theorem isAmount_of_ofNat_le : isAmount x = true := by
  have hfinite : isFinite (ofNat n : α) = true := CountingScalar.isFinite_ofNat hn
  have hbelow := le_of_lt OrderedScalar.isFinite_zero hfinite (CountingScalar.lt_ofNat hpos hn)
  rw [isAmount, hx, Bool.true_and]
  exact OrderedScalar.le_trans OrderedScalar.isFinite_zero hfinite hx hbelow hle

/-- What is at least a positive whole number is not zero. -/
theorem isZero_of_ofNat_le : isZero x = false := by
  have hfinite : isFinite (ofNat n : α) = true := CountingScalar.isFinite_ofNat hn
  refine Bool.eq_false_iff.2 fun hzero => ?_
  have habove : le x zero = true := (Bool.and_eq_true_iff.1 hzero).1
  refine (OrderedScalar.lt_iff_not_le OrderedScalar.isFinite_zero hfinite).1 (CountingScalar.lt_ofNat hpos hn) ?_
  exact OrderedScalar.le_trans hfinite hx OrderedScalar.isFinite_zero hle habove

end Counting

end Scalar

end LinkPriority

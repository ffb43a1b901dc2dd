import Mathlib.Algebra.BigOperators.Group.Finset.Basic
import Mathlib.Algebra.Field.Rat
import Mathlib.Algebra.Order.Ring.Rat
import LinkPriority.Priority
import LinkPriority.Proofs.Scalar.Order

/-! Exact numbers: the rational numbers with their own arithmetic and order. Logarithm and square root, which
leave the rational numbers, are parameters; a small demand is stated over their tangents at 1. -/

namespace LinkPriority

/-- A rational number as a number of the model, with `ln` and `sqrt` for the two functions of scores. -/
structure Exact (ln sqrt : ℚ → ℚ) where
  value : ℚ
deriving DecidableEq

namespace Exact

variable {ln sqrt : ℚ → ℚ}

instance : Scalar (Exact ln sqrt) where
  add x y := ⟨x.value + y.value⟩
  sub x y := ⟨x.value - y.value⟩
  mul x y := ⟨x.value * y.value⟩
  div x y := ⟨x.value / y.value⟩
  ofNat n := ⟨n⟩
  emptySum := ⟨0⟩
  lt x y := x.value < y.value
  le x y := x.value ≤ y.value
  isFinite _ := true
  precedes x y := x.value ≤ y.value
  ln x := ⟨ln x.value⟩
  sqrt x := ⟨sqrt x.value⟩

instance : OrderedScalar (Exact ln sqrt) where
  isFinite_zero := rfl
  le_total {x y} _ _ := by
    simp only [Scalar.le, decide_eq_true_eq]
    exact le_total x.value y.value
  le_trans {x y z} _ _ _ hxy hyz := by
    simp only [Scalar.le, decide_eq_true_eq] at hxy hyz ⊢
    exact hxy.trans hyz
  lt_iff_not_le {x y} _ _ := by
    simp only [Scalar.le, Scalar.lt, decide_eq_true_eq, not_le]

instance : StrictScalar (Exact ln sqrt) where
  lt_irrefl x := decide_eq_false (lt_irrefl x.value)

instance : SortedScalar (Exact ln sqrt) where
  precedes_total x y := by
    simp only [Scalar.precedes, decide_eq_true_eq]
    exact le_total x.value y.value
  precedes_trans hxy hyz := by
    simp only [Scalar.precedes, decide_eq_true_eq] at hxy hyz ⊢
    exact hxy.trans hyz

instance : LinearScalar (Exact ln sqrt) where
  precedes_antisymm {x y} hxy hyx := by
    simp only [Scalar.precedes, decide_eq_true_eq] at hxy hyx
    exact congrArg mk (le_antisymm hxy hyx)

instance : CountingScalar (Exact ln sqrt) where
  isFinite_ofNat _ := rfl
  lt_ofNat hmn _ := decide_eq_true (Nat.cast_lt.2 hmn)

variable {x y : Exact ln sqrt}

theorem eq_of_value_eq (h : x.value = y.value) : x = y := congrArg mk h

@[simp]
theorem value_add : (x + y).value = x.value + y.value := rfl

@[simp]
theorem value_sub : (x - y).value = x.value - y.value := rfl

@[simp]
theorem value_mul : (x * y).value = x.value * y.value := rfl

@[simp]
theorem value_div : (x / y).value = x.value / y.value := rfl

@[simp]
theorem value_ofNat (n : Nat) : (Scalar.ofNat n : Exact ln sqrt).value = n := rfl

@[simp]
theorem value_zero : (Scalar.zero : Exact ln sqrt).value = 0 := Nat.cast_zero

@[simp]
theorem value_one : (Scalar.one : Exact ln sqrt).value = 1 := Nat.cast_one

@[simp]
theorem le_eq_true : Scalar.le x y = true ↔ x.value ≤ y.value := decide_eq_true_iff

@[simp]
theorem lt_eq_true : Scalar.lt x y = true ↔ x.value < y.value := decide_eq_true_iff

instance : SummingScalar (Exact ln sqrt) where
  zero_le_emptySum := le_eq_true.2 value_zero.le
  zero_le_add {x y} hx hy := by
    rw [le_eq_true, value_zero] at hx hy ⊢
    exact add_nonneg hx hy
  add_pos {x y} hx hy hpos := by
    simp only [Bool.eq_false_iff, ne_eq, le_eq_true, value_zero, value_add, not_le] at hx hy hpos ⊢
    rcases hpos with hfirst | hsecond
    · exact add_pos_of_pos_of_nonneg hfirst hy
    · exact add_pos_of_nonneg_of_pos hx hsecond

theorem isZero_eq_true : Scalar.isZero x = true ↔ x.value = 0 := by
  rw [Scalar.isZero, Bool.and_eq_true, le_eq_true, le_eq_true, value_zero, ← le_antisymm_iff]

theorem value_sum (xs : List (Exact ln sqrt)) : (Scalar.sum xs).value = (xs.map value).sum := by
  rw [List.sum_eq_foldl, List.foldl_map]
  exact (List.foldl_hom value fun _ _ => rfl).symm

theorem value_sum_range (f : Nat → Exact ln sqrt) (n : Nat) :
    (Scalar.sum ((List.range n).map f)).value = ∑ i ∈ Finset.range n, (f i).value := by
  rw [value_sum, List.map_map]
  rfl

theorem value_foldl_mul (xs : List (Exact ln sqrt)) :
    (xs.foldl (· * ·) Scalar.one).value = (xs.map value).prod := by
  rw [List.prod_eq_foldl, List.foldl_map, ← @value_one ln sqrt]
  exact (List.foldl_hom value fun _ _ => rfl).symm

end Exact

/-- Exact numbers with the tangents at 1 for logarithm and square root. -/
abbrev Tangent : Type := Exact (fun x => x - 1) fun x => (x + 1) / 2

/-- Two jobs on one link, the first with more to send. -/
def sharedLink : Demand Tangent := ⟨⟨2, 1, #[⟨⟨1⟩, ⟨8⟩⟩, ⟨⟨1⟩, ⟨3⟩⟩]⟩⟩

/-- Three jobs that all use two links, in different orders on them. -/
def contendedLinks : Demand Tangent :=
  ⟨⟨3, 2, #[⟨⟨10⟩, ⟨30⟩⟩, ⟨⟨20⟩, ⟨10⟩⟩, ⟨⟨10⟩, ⟨80⟩⟩, ⟨⟨5⟩, ⟨10⟩⟩, ⟨⟨3⟩, ⟨20⟩⟩, ⟨⟨10⟩, ⟨30⟩⟩]⟩⟩

def contendedRanks : Priority := ⟨⟨3, 2, #[0, 2, 1, 0, 2, 1]⟩, rfl⟩

theorem validate_contendedLinks : (contendedLinks.validate : Except (ModelError Tangent) Unit) = .ok () := rfl

theorem validate_contendedRanks :
    (contendedRanks.validate contendedLinks : Except (ModelError Tangent) Unit) = .ok () := rfl

end LinkPriority

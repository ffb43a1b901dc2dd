import Mathlib.Tactic.Common
import LinkPriority.Proofs.Candidates
import LinkPriority.Random.Indices

/-! How many indices a selection has. A stream of words selects as many as it is asked for, whichever of its methods it
uses and whatever it draws: inserting adds one index for each upper end, a shuffle keeps the length, and the last method
goes on until it has them all. So no more cells are selected than a count and its extras. -/

namespace LinkPriority

/-- Selections that are as long as asked for, wherever there are enough indices to select from. -/
class SizedIndexSource (σ : Type) [IndexSource σ] : Prop where
  length_sample {length amount : Nat} (s : σ) :
    amount ≤ length → (IndexSource.sample length amount s).1.length = amount

instance {σ : Type} [IndexSource σ] [LawfulIndexSource σ] : SizedIndexSource σ :=
  ⟨LawfulIndexSource.length_sample⟩

namespace WordStream

/-- A computation on a stream, and another with its result, on what is left. -/
theorem run_bind {β γ : Type} (x : StateM WordStream β) (f : β → StateM WordStream γ) (s : WordStream) :
    (x >>= f) s = f (x s).1 (x s).2 := rfl

theorem length_insertOneByOne (short : Bool) (ends taken : List Nat) (s : WordStream) :
    (insertOneByOne short ends taken s).1.length = taken.length + ends.length := by
  induction ends generalizing taken s with
  | nil => rfl
  | cons j ends ih =>
    rw [insertOneByOne, run_bind, List.length_cons]
    cases hplace : taken.idxOf? (below32 (j + 1) s).1 with
    | none =>
      split_ifs <;> simp only [ih, List.length_append, List.length_singleton] <;> omega
    | some place =>
      obtain ⟨hlt, -⟩ := List.idxOf?_eq_some_iff.1 hplace
      have hinsert : (taken.insertIdx place j).length = taken.length + 1 := by
        rw [List.length_insertIdx, if_pos (Nat.le_of_lt hlt)]
      split_ifs <;> simp only [ih, hinsert, List.length_append, List.length_singleton] <;> omega

theorem size_shuffleBack (places : List Nat) (xs : Array Nat) (s : WordStream) :
    (shuffleBack places xs s).1.size = xs.size := by
  induction places generalizing xs s with
  | nil => rfl
  | cons i rest ih => rw [shuffleBack, run_bind, ih, Array.size_swapIfInBounds]

theorem size_shuffleFront (length : Nat) (places : List Nat) (xs : Array Nat) (s : WordStream) :
    (shuffleFront length places xs s).1.size = xs.size := by
  induction places generalizing xs s with
  | nil => rfl
  | cons i rest ih => rw [shuffleFront, run_bind, ih, Array.size_swapIfInBounds]

theorem length_drawNew (length amount : Nat) (taken : List Nat) (s : WordStream) :
    (drawNew length amount taken s).1.length = amount + taken.length := by
  induction amount generalizing taken s with
  | zero =>
    rw [Nat.zero_add]
    exact List.length_reverse
  | succ amount ih =>
    rw [drawNew, run_bind, ih, List.length_cons]
    omega

theorem length_selectByInsertion (length amount : Nat) (s : WordStream) :
    (selectByInsertion length amount s).1.length = amount := by
  have hends : ((List.range amount).map (length - amount + ·)).length = amount := by simp
  unfold selectByInsertion
  split
  · rw [length_insertOneByOne, hends, List.length_nil, Nat.zero_add]
  · rw [run_bind, run_bind]
    calc _ = _ := size_shuffleBack _ _ _
      _ = amount := by
        rw [List.size_toArray, length_insertOneByOne, hends, List.length_nil, Nat.zero_add]

theorem length_selectInPlace {length amount : Nat} (h : amount ≤ length) (s : WordStream) :
    (selectInPlace length amount s).1.length = amount := by
  unfold selectInPlace
  rw [run_bind]
  have hsize := size_shuffleFront length (List.range amount) (Array.range length) s
  rw [Array.size_range] at hsize
  show (Array.toList _).length = amount
  rw [Array.length_toList, Array.size_extract, hsize]
  omega

instance : SizedIndexSource WordStream where
  length_sample {length amount} s h := by
    show (select length amount s).1.length = amount
    unfold select
    split_ifs
    · exact length_selectInPlace h s
    · exact length_selectByInsertion length amount s
    · exact length_selectInPlace h s
    · exact length_drawNew length amount [] s

end WordStream

section Select

variable {α σ : Type} [Scalar α] [IndexSource σ] [SizedIndexSource σ] {d : Demand α} {p : Priority} {count : Nat}

theorem length_drawnCells_le (values : Grid α) (count : Nat) (choices : σ) :
    (drawnCells values count choices).length ≤ extraCount count := by
  let rest := remainingCells values (smallestCells values count)
  calc (drawnCells values count choices).length
      ≤ (IndexSource.sample rest.length (min (extraCount count) rest.length) choices).1.length :=
        List.length_filterMap_le _ _
    _ = min (extraCount count) rest.length := SizedIndexSource.length_sample choices (Nat.min_le_right _ _)
    _ ≤ extraCount count := Nat.min_le_left _ _

/-- As many cells are selected as are counted, and a few more. -/
theorem length_selectCells_le (values : Grid α) (count : Nat) (choices : σ) :
    (selectCells values count choices).1.length ≤ count + extraCount count := by
  rw [selectCells_eq, List.length_append, smallestCells_eq, List.length_take]
  exact Nat.add_le_add (Nat.min_le_left _ _) (length_drawnCells_le values count choices)

/-- No more swaps are proposed than cells are selected. -/
theorem length_le_of_selectSwaps {values : Grid α} {choices after : σ} {swaps : List Swap}
    (h : selectSwaps values d p count choices = (.ok swaps, after)) : swaps.length ≤ count + extraCount count := by
  let cells := (selectCells values count choices).1
  have hpair : pairWithPeers d p cells = .ok swaps := congrArg Prod.fst h
  obtain ⟨-, hpromote, -⟩ := of_pairWithPeers_eq_ok hpair
  have hcells : (cells.filter fun cell => 0 < p.rankAt cell).eraseDups ⊆ cells := fun cell hcell =>
    (List.mem_filter.1 (List.mem_eraseDups.1 hcell)).1
  calc swaps.length = (swaps.map Swap.promote).length := (List.length_map _).symm
    _ ≤ cells.length := by
      rw [hpromote]
      exact ((nodup_eraseDups _).subperm hcells).length_le
    _ ≤ count + extraCount count := length_selectCells_le values count choices

end Select

end LinkPriority

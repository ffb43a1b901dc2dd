/-! Where random choices come from. The search needs only random selections of indices, and the generator of
instances only uniform draws; both are written for any source, so what is proved of them holds of every stream
of choices. -/

namespace LinkPriority

/-- A source of random selections. -/
class IndexSource (σ : Type) where
  /-- Selects `amount` different indices below `length`, in the order drawn. -/
  sample : (length amount : Nat) → StateM σ (List Nat)

/-- What a selection promises wherever there are enough indices to select from. -/
class LawfulIndexSource (σ : Type) [IndexSource σ] : Prop where
  length_sample {length amount : Nat} (s : σ) :
    amount ≤ length → (IndexSource.sample length amount s).1.length = amount
  nodup_sample {length amount : Nat} (s : σ) :
    amount ≤ length → (IndexSource.sample length amount s).1.Nodup
  lt_of_mem_sample {length amount i : Nat} (s : σ) :
    amount ≤ length → i ∈ (IndexSource.sample length amount s).1 → i < length

/-- A source of uniform draws of indices, coins and numbers of type `α`. -/
class UniformSource (σ α : Type) where
  /-- An index below `range`, which is positive. -/
  below : (range : Nat) → StateM σ Nat
  coin : StateM σ Bool
  /-- A number from `low` up to but not including `high`. -/
  between : (low high : α) → StateM σ α

end LinkPriority

import LinkPriority.Priority

/-! The answer of a search, with how it was found. -/

namespace LinkPriority

/-- The best priority table of a search. -/
structure Solution (α : Type) where
  /-- The table, with rank 0 in every inactive cell. -/
  priority : Priority
  objective : α
  slowdown : List α
  /-- The mean slowdown of the table the search started from. -/
  warmStartObjective : α
  bestNode : Nat
  /-- How many swaps away from the start it is. -/
  bestDepth : Nat
  /-- How many rewards passed through its node. -/
  bestVisits : Nat
  iterations : Nat
  nodes : Nat
  evaluations : Nat
deriving DecidableEq

namespace Solution

variable {α : Type} [Scalar α]

/-- By which part of itself the mean slowdown of the start was reduced. -/
def improvement (s : Solution α) : α := Scalar.relativeGain s.warmStartObjective s.objective

/-- The slowdown of the job that is slowed most. -/
def maxSlowdown (s : Solution α) : α := Scalar.largest s.slowdown

end Solution

end LinkPriority

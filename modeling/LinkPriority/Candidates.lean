import LinkPriority.Random.Source
import LinkPriority.Sharing

/-! Which swaps are worth trying. From the predicted effects the cells with the smallest values are taken, and
a few more at random from the rest, so that a search does not only ever follow the prediction; then each cell
is paired with the job right ahead of it on its link. -/

namespace LinkPriority

variable {α : Type} [Scalar α]

/-- The cells whose value is not zero, row after row. -/
def nonzeroCells (values : Grid α) : List (Position × α) := values.entries.filter fun (_, v) => !Scalar.isZero v

/-- The `count` nonzero cells with the smallest values, the smallest first; cells with equal values keep their
order. -/
def smallestCells (values : Grid α) (count : Nat) : List Position :=
  (((nonzeroCells values).mergeSort fun a b => Scalar.precedes a.2 b.2).map Prod.fst).take count

/-- The nonzero cells that are left when some are set to zero. -/
def remainingCells (values : Grid α) (taken : List Position) : List Position :=
  (nonzeroCells (taken.foldl (fun g p => g.set p.job p.link Scalar.zero) values)).map Prod.fst

/-- How many cells are added at random to `count` others, if there are so many. -/
def extraCount (count : Nat) : Nat := count / 2 + 1

/-- Cells to promote: the `count` smallest, then a random selection from the rest. -/
def selectCells {σ : Type} [IndexSource σ] (values : Grid α) (count : Nat) : StateM σ (List Position) := do
  let smallest := smallestCells values count
  let rest := (remainingCells values smallest).toArray
  let drawn ← IndexSource.sample rest.size (min (extraCount count) rest.size)
  return smallest ++ drawn.filterMap fun i => rest[i]?

/-- The swap that promotes a cell past the active job right ahead of it; a cell at the front has none. -/
def overtake? (d : Demand α) (p : Priority) (cell : Position) : Except (ModelError α) (Option Swap) :=
  match p.rankAt cell with
  | 0 => .ok none
  | ahead + 1 =>
    match p.jobAt? d cell.link ahead with
    | some peer => .ok (some ⟨cell, ⟨peer, cell.link⟩⟩)
    | none => .error (.rankOrder cell.link (.nobodyAhead ahead cell))

/-- The swaps with one more, if there is one and it is new. -/
def addSwap (swaps : List Swap) : Option Swap → List Swap
  | none => swaps
  | some swap => if swaps.contains swap then swaps else swaps ++ [swap]

/-- The swaps of some cells in their order, each only once. -/
def pairWithPeers (d : Demand α) (p : Priority) (cells : List Position) : Except (ModelError α) (List Swap) :=
  cells.foldlM (fun swaps cell => (overtake? d p cell).map (addSwap swaps)) []

/-- The swaps worth trying on `p`: at most `count + count / 2 + 1` different ones. -/
def selectSwaps {σ : Type} [IndexSource σ] (values : Grid α) (d : Demand α) (p : Priority) (count : Nat) :
    StateM σ (Except (ModelError α) (List Swap)) :=
  return pairWithPeers d p (← selectCells values count)

end LinkPriority

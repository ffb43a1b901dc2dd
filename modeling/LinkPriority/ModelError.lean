import LinkPriority.Load
import LinkPriority.Swap
import LinkPriority.Decimal.Text

/-! Why a demand, a ranking, a swap or a run of the model is refused. Each reason carries the data it speaks
of; the wording is in one function. -/

namespace LinkPriority

/-- What is wrong with a demand table. -/
inductive DemandFault (α : Type) where
  | noJobs
  | noLinks
  | wrongSize (cells jobs links : Nat)
  | ragged (row : RaggedRow)
  | badLoad (job link : Nat) (load : Load α)
deriving DecidableEq

/-- What is wrong with a priority table as such. -/
inductive PriorityFault where
  | ragged (row : RaggedRow)
  | wrongShape (jobs links demandJobs demandLinks : Nat)
deriving DecidableEq

/-- What is wrong with the ranks on one link. -/
inductive RankFault where
  | beyond (job rank active : Nat)
  | shared (first second rank : Nat)
  | nobodyAhead (rank : Nat) (cell : Position)
deriving DecidableEq

/-- Why a swap does not exchange two neighbours. -/
inductive SwapFault where
  | differentLinks (swap : Swap)
  | outOfRange (swap : Swap)
  | notAdjacent (swap : Swap) (promoteRank demoteRank : Nat)
deriving DecidableEq

/-- An operation on words whose result may need more than one. -/
inductive Operation where
  | sum
  | product
deriving DecidableEq

/-- Why the model cannot answer. -/
inductive ModelError (α : Type) where
  | demand (fault : DemandFault α)
  /-- A result that no word holds. Nothing is refused then: the program stops. -/
  | overflow (operation : Operation)
  | priority (fault : PriorityFault)
  | rankOrder (link : Nat) (fault : RankFault)
  | swap (fault : SwapFault)
  | noEpochs
  | numeric (objective : α) (epochs : Nat)
deriving DecidableEq

open DecimalText

variable {α : Type} [DecimalText α]

def DemandFault.text : DemandFault α → String
  | noJobs => "no jobs"
  | noLinks => "no links"
  | wrongSize cells jobs links => s!"{cells} cells for a {jobs}x{links} matrix"
  | ragged row => row.text
  | badLoad job link load =>
    s!"job {job} link {link}: demand ({shortest load.compute}, {shortest load.comm}) " ++
      "must be finite and nonnegative"

def PriorityFault.text : PriorityFault → String
  | ragged row => row.text
  | wrongShape jobs links demandJobs demandLinks =>
    s!"priority is {jobs}x{links}, demand is {demandJobs}x{demandLinks}"

def RankFault.text : RankFault → String
  | beyond job rank active => s!"job {job} has rank {rank} but only {active} jobs are active"
  | shared first second rank => s!"jobs {first} and {second} share rank {rank}"
  | nobodyAhead rank cell => s!"no job holds rank {rank} ahead of {cell.text}"

def SwapFault.text : SwapFault → String
  | differentLinks swap => s!"{swap.promote.text} and {swap.demote.text} are on different links"
  | outOfRange swap => s!"{swap.text} is out of range"
  | notAdjacent swap promoteRank demoteRank =>
    s!"{swap.promote.text} has rank {promoteRank}, {swap.demote.text} has rank {demoteRank}"

def Operation.text : Operation → String
  | sum => "add"
  | product => "multiply"

def ModelError.message : ModelError α → String
  | demand fault => s!"Invalid demand: {fault.text}"
  | overflow operation => s!"attempt to {operation.text} with overflow"
  | priority fault => s!"Invalid priority: {fault.text}"
  | rankOrder link fault => s!"Rank order on link {link} is broken: {fault.text}"
  | swap fault => s!"Invalid swap action: {fault.text}"
  | noEpochs => "Epoch budget must be at least 1"
  | numeric objective epochs =>
    s!"Numeric fault during convergence: objective is {shortest objective} after {epochs} epochs"

end LinkPriority

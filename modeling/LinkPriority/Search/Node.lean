import LinkPriority.Candidates

/-! A state of the search: a priority table one swap away from its parent's, with what the model says of it
and what the search has learnt below it. The model is run at most once for a node; its answer and the swaps
selected from it are kept. -/

namespace LinkPriority

open Scalar

/-- What is kept of the model's answer for a node. -/
structure Appraisal (α : Type) where
  objective : α
  slowdown : List α
  /-- The swaps worth trying; a node with none is terminal. -/
  actions : List Swap
  epochsRun : Nat
deriving DecidableEq

/-- A node of the search tree. -/
structure Node (α : Type) where
  id : Nat
  /-- The swap that led here; the root has none. -/
  action : Option Swap
  /-- The node it led from; the root has none. -/
  parent : Option Nat
  /-- The nodes that lead from here, oldest first. -/
  children : List Nat
  depth : Nat
  visits : Nat
  value : α
  /-- How many of the best predicted swaps are tried. -/
  maxChildren : Nat
  priority : Priority
  /-- What the model says of it, once it has been asked. -/
  appraisal : Option (Appraisal α)
deriving DecidableEq

/-- What asking for a node's appraisal leaves behind. -/
structure Appraising (α σ : Type) where
  result : Except (ModelError α) (Appraisal α)
  fresh : Bool
  node : Node α
  choices : σ
  /-- The mean slowdown after each epoch of this run. -/
  objectives : List α

namespace Node

variable {α σ : Type} [Scalar α] [IndexSource σ]

def root (priority : Priority) (maxChildren : Nat) : Node α where
  id := 0
  action := none
  parent := none
  children := []
  depth := 0
  visits := 0
  value := zero
  maxChildren
  priority
  appraisal := none

/-- The child that a swap leads to, not yet appraised. -/
def child (n : Node α) (action : Swap) (id : Nat) : Except (ModelError α) (Node α) :=
  (n.priority.apply action).map fun priority =>
    { root priority n.maxChildren with id, action := some action, parent := some n.id, depth := n.depth + 1 }

/-- The mean slowdown, if the model has been asked. -/
def objective? (n : Node α) : Option α := n.appraisal.map Appraisal.objective

/-- Whether there is nothing to try from here, if the model has been asked. -/
def isTerminal? (n : Node α) : Option Bool := n.appraisal.map (·.actions.isEmpty)

/-- Asks the model unless it has been asked before. A run that fails leaves the node as it was. -/
def appraise (n : Node α) (d : Demand α) (budget : Nat) (choices : σ) : Appraising α σ :=
  match n.appraisal with
  | some known => ⟨.ok known, false, n, choices, []⟩
  | none =>
    match simulate d n.priority budget with
    | .error e => ⟨.error e, true, n, choices, []⟩
    | .ok course =>
      match course.evaluation d with
      | .error e => ⟨.error e, true, n, choices, course.objectives d⟩
      | .ok evaluation =>
        match selectSwaps evaluation.desirability d n.priority n.maxChildren choices with
        | (.error e, choices) => ⟨.error e, true, n, choices, course.objectives d⟩
        | (.ok actions, choices) =>
          let a : Appraisal α := ⟨evaluation.objective, evaluation.slowdown, actions, evaluation.epochsRun⟩
          ⟨.ok a, true, { n with appraisal := some a }, choices, course.objectives d⟩

/-- Added to a count of visits so that a node without any has a finite score. -/
def visitOffset : α := one / ofNat 1000000

/-- The mean of the rewards that passed through. -/
def meanValue (n : Node α) : α := n.value / (ofNat n.visits + visitOffset)

/-- The score of this node among the children of a node with `parentVisits`: its mean reward, and more the
less it has been visited. -/
def score (n : Node α) (parentVisits : Nat) : α :=
  n.meanValue + sqrt (ofNat 2 * ln (ofNat parentVisits + one) / (ofNat n.visits + visitOffset))

/-- The node after a reward has passed through it. -/
def record (n : Node α) (reward : α) : Node α := { n with visits := n.visits + 1, value := n.value + reward }

end Node

end LinkPriority

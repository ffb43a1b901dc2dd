import LinkPriority.Search.Solution
import LinkPriority.Decimal.Text

/-! What a search reports while it runs. An event carries the data it reports; its level says who should hear
of it, and its text is the line to show, up to the elapsed time where a line would end in one. -/

namespace LinkPriority

/-- Who should hear of an event; the later levels are for fewer listeners. -/
inductive Level where
  | error
  | warn
  | info
  | debug
  | trace
deriving DecidableEq

def Level.name : Level → String
  | error => "ERROR"
  | warn => "WARN"
  | info => "INFO"
  | debug => "DEBUG"
  | trace => "TRACE"

/-- How far down the list of levels one stands; a listener hears its own level and those before it. -/
def Level.verbosity : Level → Nat
  | error => 0
  | warn => 1
  | info => 2
  | debug => 3
  | trace => 4

/-- What a search has done so far. -/
structure Stats (α : Type) where
  iterations : Nat
  nodes : Nat
  evaluations : Nat
  /-- The best objective, once the root is appraised. -/
  bestObjective : Option α
  /-- The objective of the root, once it is appraised. -/
  rootObjective : Option α
  maxDepth : Nat
deriving DecidableEq

/-- What a search reports. -/
inductive SearchEvent (α : Type) where
  | epoch (index : Nat) (objective : α)
  | appraised (node depth : Nat) (objective : α) (candidates : Nat)
  | progress (stats : Stats α)
  | finished (solution : Solution α)
deriving DecidableEq

namespace SearchEvent

variable {α : Type}

def level : SearchEvent α → Level
  | epoch .. => .trace
  | appraised .. => .debug
  | progress .. => .info
  | finished .. => .info

open DecimalText

/-- An objective with six places; one that is still missing is infinitely large. -/
def objectiveText [DecimalText α] (objective : Option α) : String := (objective.map (fixed 6)).getD "inf"

def text [Scalar α] [DecimalText α] : SearchEvent α → String
  | epoch index objective => s!"epoch {index}: mean slowdown {fixed 6 objective}"
  | appraised node depth objective candidates =>
    s!"node {node} (depth {depth}): objective {fixed 6 objective}, {candidates} candidates"
  | progress s =>
    s!"Iter: {s.iterations} | Nodes: {s.nodes} | Evals: {s.evaluations}" ++
      s!" | Best: {objectiveText s.bestObjective} | Root: {objectiveText s.rootObjective} | Depth: {s.maxDepth}"
  | finished s =>
    s!"Search finished: objective {fixed 6 s.objective} (warm start {fixed 6 s.warmStartObjective}, " ++
      s!"{fixed 1 (Scalar.ofNat 100 * s.improvement)}% better) at depth {s.bestDepth} " ++
      s!"after {s.iterations} iterations in "

/-- Whether the line of an event ends in the time that the search took. -/
def isTimed : SearchEvent α → Bool
  | finished .. => true
  | _ => false

/-- The events of the epochs whose mean slowdowns are given. -/
def ofEpochs (objectives : List α) : List (SearchEvent α) :=
  objectives.mapIdx fun index objective => epoch index objective

end SearchEvent

/-- An outcome together with the events on the way to it, in order. -/
structure Recorded (ε β : Type) where
  outcome : β
  events : List ε

end LinkPriority

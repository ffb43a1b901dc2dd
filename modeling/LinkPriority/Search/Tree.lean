import LinkPriority.FirstBest
import LinkPriority.Search.Error
import LinkPriority.Search.Event
import LinkPriority.Search.Node
import LinkPriority.Search.Observer

/-! The search tree and its moves. The nodes live in an arena with the root at 0; a child is always younger
than its parent, so walks up the tree end, and no walk down or through the tree is longer than the arena. One
iteration descends to a leaf, adds the leaf's candidate swaps as children, and rewards the first of them, or
the leaf itself if there are none, with its objective, which goes to every node on the way back to the root.
-/

namespace LinkPriority

open Scalar

/-- A search under way. -/
structure Search (α σ ω : Type) where
  demand : Demand α
  settings : Settings
  /-- The arena; node `i` has the id `i`. -/
  nodes : Array (Node α)
  choices : σ
  observer : Observer α ω
  evaluations : Nat := 0
  iterations : Nat := 0

/-- A search and what it has reported, latest first. -/
structure Session (α σ ω : Type) where
  search : Search α σ ω
  reported : List (SearchEvent α) := []

/-- A move of a search: it changes the search and reports, and when it fails, what it did before stays done. -/
abbrev Move (α σ ω : Type) : Type → Type := EStateM (SearchError α) (Session α σ ω)

namespace Search

variable {α σ ω : Type} [Scalar α]

/-- A search from `root`, refused if the settings, the demand or the table is. -/
def start (d : Demand α) (root : Priority) (settings : Settings) (choices : σ) (observer : Observer α ω) :
    Except (SearchError α) (Search α σ ω) := do
  settings.validate
  d.validate.mapError .model
  (root.validate d).mapError .model
  return { demand := d, settings, nodes := #[.root root settings.maxChildren], choices, observer }

def node? (s : Search α σ ω) (id : Nat) : Option (Node α) := s.nodes[id]?

/-- The objective of the root, if it is appraised. -/
def rootObjective? (s : Search α σ ω) : Option α := (s.node? 0).bind Node.objective?

/-- The children of a node with their scores. -/
def scores (s : Search α σ ω) (n : Node α) : List (Nat × α) :=
  n.children.filterMap fun child => (s.node? child).map fun c => (child, c.score n.visits)

def favourite (scored : List (Nat × α)) : Option (Nat × α) :=
  firstBest (fun next best => lt best.2 next.2) scored

/-- The child of `id` with the highest score; of children with the same score the oldest. -/
def select (s : Search α σ ω) (id : Nat) : Except (SearchError α) Nat :=
  match s.node? id with
  | none => .error (.internal (.noSuchNode id))
  | some n =>
    match favourite (s.scores n) with
    | none => .error (.internal (.childless id))
    | some (child, _) => .ok child

/-- Passes a reward through a node and all nodes above it. -/
def reward (nodes : Array (Node α)) (id : Nat) (amount : α) : Array (Node α) :=
  let parent := nodes[id]?.bind Node.parent
  let nodes := nodes.modify id fun n => n.record amount
  match parent with
  | none => nodes
  | some p => if p < id then reward nodes p amount else nodes
termination_by id

/-- The search after a reward passed from `id` up to the root. -/
def backpropagate (s : Search α σ ω) (id : Nat) (amount : α) : Search α σ ω :=
  { s with nodes := reward s.nodes id amount }

/-- The ids reached from a stack of ids, each before its children and these in the order of their age; at most
`count`. -/
def walk (s : Search α σ ω) : (count : Nat) → List Nat → List Nat
  | 0, _ => []
  | _, [] => []
  | count + 1, id :: stack =>
    let children := ((s.node? id).map Node.children).getD []
    id :: walk s count (children ++ stack)

/-- All ids from the root down, each before its children. -/
def preorder (s : Search α σ ω) : List Nat := s.walk s.nodes.size [0]

/-- The nodes that may be the answer, with their appraisals: the root, and the nodes through which a reward
passed. -/
def eligible (s : Search α σ ω) : List (Node α × Appraisal α) :=
  s.preorder.filterMap fun id => (s.node? id).bind fun n =>
    if id = 0 ∨ 0 < n.visits then n.appraisal.map fun a => (n, a) else none

/-- The first eligible node with the smallest objective. -/
def best? (s : Search α σ ω) : Option (Node α × Appraisal α) :=
  firstBest (fun next best => lt next.2.objective best.2.objective) s.eligible

def stats (s : Search α σ ω) : Stats α where
  iterations := s.iterations
  nodes := s.nodes.size
  evaluations := s.evaluations
  bestObjective := s.best?.map fun (_, a) => a.objective
  rootObjective := s.rootObjective?
  maxDepth := s.nodes.foldl (fun deepest n => max deepest n.depth) 0

def finalize (s : Search α σ ω) : Except (SearchError α) (Solution α) :=
  match s.best? with
  | none => .error (.internal .rootPending)
  | some (n, a) => .ok {
      priority := n.priority.clearInactive s.demand
      objective := a.objective
      slowdown := a.slowdown
      warmStartObjective := s.rootObjective?.getD a.objective
      bestNode := n.id
      bestDepth := n.depth
      bestVisits := n.visits
      iterations := s.iterations
      nodes := s.nodes.size
      evaluations := s.evaluations }

end Search

namespace Move

variable {α σ ω : Type} [Scalar α] [IndexSource σ]

@[inline]
def update (f : Search α σ ω → Search α σ ω) : Move α σ ω Unit :=
  modify fun ⟨search, reported⟩ => ⟨f search, reported⟩

/-- Reports events, in their order. -/
def report (events : List (SearchEvent α)) : Move α σ ω Unit :=
  modify fun ⟨search, reported⟩ => ⟨search, events.reverse ++ reported⟩

/-- A result that does not change the search. -/
def ofExcept {β : Type} : Except (SearchError α) β → Move α σ ω β
  | .ok value => return value
  | .error e => throw e

def node (id : Nat) : Move α σ ω (Node α) := do
  match (← get).search.node? id with
  | some n => return n
  | none => throw (.internal (.noSuchNode id))

/-- Takes over what appraising a node left behind. An appraisal that is new is counted and reported. -/
def settle (id : Nat) (asked : Appraising α σ) : Move α σ ω (Appraisal α) := do
  update fun s => { s with nodes := s.nodes.setIfInBounds id asked.node, choices := asked.choices }
  report (SearchEvent.ofEpochs asked.objectives)
  match asked.result with
  | .error e => throw (.model e)
  | .ok a =>
    if asked.fresh then
      update fun s => { s with evaluations := s.evaluations + 1, observer := s.observer.report id a.objective }
      report [.appraised id asked.node.depth a.objective a.actions.length]
    return a

/-- The appraisal of a node; the model is run if it is the first time. -/
def appraisal (id : Nat) : Move α σ ω (Appraisal α) := do
  let n ← node id
  let s := (← get).search
  settle id (n.appraise s.demand s.settings.epochBudget s.choices)

/-- Whether there is nothing to try from a node. -/
def isTerminal (id : Nat) : Move α σ ω Bool := return (← appraisal id).actions.isEmpty

/-- The child of `id` with the highest score. -/
def select (id : Nat) : Move α σ ω Nat := do ofExcept ((← get).search.select id)

/-- Adds the child of `id` that a swap leads to. -/
def addChild (id : Nat) (action : Swap) : Move α σ ω Nat := do
  let n ← node id
  let fresh := (← get).search.nodes.size
  let child ← ofExcept ((n.child action fresh).mapError .model)
  update fun s => { s with
    nodes := (s.nodes.push child).modify id fun n => { n with children := n.children ++ [fresh] } }
  return fresh

/-- Adds a child for each swap, and returns the first. -/
def addChildren (id : Nat) (first : Option Nat) : List Swap → Move α σ ω (Option Nat)
  | [] => return first
  | action :: rest => do
    let child ← addChild id action
    addChildren id (first <|> some child) rest

/-- The swaps that led to the children of a node. -/
def childActions (s : Search α σ ω) (id : Nat) : List Swap :=
  ((s.node? id).map Node.children |>.getD []).filterMap fun child => (s.node? child).bind Node.action

/-- Adds a child for every candidate swap that has none yet, and returns the first new one, or the node
itself. -/
def expand (id : Nat) : Move α σ ω Nat := do
  let a ← appraisal id
  let existing := childActions (← get).search id
  let first ← addChildren id none (a.actions.filter fun action => !existing.contains action)
  return first.getD id

/-- Goes down from `id` by the best scores, at most `levels` levels, to a node without children or without
candidates. -/
def descend : (levels : Nat) → (id : Nat) → Move α σ ω Nat
  | 0, id => return id
  | levels + 1, id => do
    if (← node id).children.isEmpty then return id
    else if (← isTerminal id) then return id
    else descend levels (← select id)

/-- One iteration; returns the node whose objective was the reward. -/
def step : Move α σ ω Nat := do
  let leaf ← descend (← get).search.nodes.size 0
  let chosen ← if (← isTerminal leaf) then pure leaf else expand leaf
  let a ← appraisal chosen
  update fun s => { s.backpropagate chosen a.objective with iterations := s.iterations + 1 }
  return chosen

/-- Reports progress if the settings ask for it now. -/
def reportProgress : Move α σ ω Unit := do
  let s := (← get).search
  if s.settings.verbose && s.iterations % s.settings.logFreq == 0 then report [.progress s.stats]

def iterate : Nat → Move α σ ω Unit
  | 0 => return ()
  | count + 1 => do
    let _ ← step
    reportProgress
    iterate count

/-- Appraises the root and iterates as often as the settings say. -/
def run : Move α σ ω Unit := do
  let _ ← appraisal 0
  iterate (← get).search.settings.iterations

end Move

end LinkPriority

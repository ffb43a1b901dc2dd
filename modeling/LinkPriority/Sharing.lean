import LinkPriority.Priority

/-! Strict-priority sharing of links. On every link the jobs are served in the order of their queue. A job
that needs the link for a part `comm` of its total time leaves the share `(total - comm) / total` of the link
to those behind it, so it stretches their communication by the factor `total / (total - comm)`; a job is
stretched by the product of the factors of all jobs ahead of it. Stretching changes the totals and with them
the factors, so the model runs in epochs, each from the times of the one before, until the mean slowdown
hardly moves or the budget is used up. -/

namespace LinkPriority

open Scalar

variable {α : Type} [Scalar α]

/-- The times at the end of an epoch: the total of every job, and the stretched communication of every cell. -/
structure Epoch (α : Type) where
  totals : Array α
  comm : Grid α
deriving DecidableEq

/-- A job in the queue of a link during an epoch. -/
structure Slot (α : Type) where
  job : Nat
  /-- By how much the job stretches those behind it. -/
  factor : α
  /-- The job's own communication, stretched by those ahead. -/
  comm : α
deriving DecidableEq

/-- The mean slowdown has settled when it changes by less than this part of itself. -/
def settleTolerance : α := ofNat 3 / ofNat 100

/-- The epochs of a run where nothing else is asked for. -/
def defaultEpochBudget : Nat := 10

/-- The factor of a job with this total and this communication on the link. A job that the link saturates
leaves nothing to stretch. -/
def slackFactor (total comm : α) : α :=
  let free := total - comm
  if le free zero then one else total / free

/-- How many times longer than alone a job takes; a job without demand is never slowed. -/
def slowdown (total alone : α) : α := if lt zero alone then total / alone else one

namespace Epoch

/-- The times before the first epoch: everybody alone. -/
def start (d : Demand α) : Epoch α where
  totals := (Array.range d.jobs).map d.jobTotal
  comm := .tabulate d.jobs d.links fun job link => (d.load job link).comm

def total (e : Epoch α) (job : Nat) : α := e.totals.getD job zero

/-- The queue of a link with the factors that these times give; `ahead` is the product of the factors before
it. -/
def queue (d : Demand α) (e : Epoch α) (link : Nat) (ahead : α) : List Nat → List (Slot α)
  | [] => []
  | job :: behind =>
    let factor := slackFactor (e.total job) (e.comm.getD job link zero)
    ⟨job, factor, (d.load job link).comm * ahead⟩ :: queue d e link (ahead * factor) behind

def queues (d : Demand α) (orders : List (List Nat)) (e : Epoch α) : List (List (Slot α)) :=
  orders.mapIdx fun link order => queue d e link one order

/-- The times after an epoch with these queues. -/
def ofQueues (d : Demand α) (queues : List (List (Slot α))) : Epoch α :=
  let cells := queues.zipIdx.flatMap fun (slots, link) => slots.map fun slot => (⟨slot.job, link⟩, slot.comm)
  let comm := Grid.ofEntries d.jobs d.links zero cells
  ⟨(Array.range d.jobs).map fun job => d.jobCompute job + sum (comm.row job zero), comm⟩

def next (d : Demand α) (orders : List (List Nat)) (e : Epoch α) : Epoch α := ofQueues d (e.queues d orders)

def slowdowns (d : Demand α) (e : Epoch α) : List α :=
  (List.range d.jobs).map fun job => slowdown (e.total job) (d.jobTotal job)

/-- The mean slowdown, which the search is to make small. -/
def objective (d : Demand α) (e : Epoch α) : α := mean (e.slowdowns d)

end Epoch

/-- Whether `current` is close enough to the mean slowdown of the epoch before, if there was one. -/
def hasSettled (previous : Option α) (current : α) : Bool :=
  match previous with
  | none => false
  | some before => isWithin settleTolerance (current / before - one)

/-- The epochs after `e`, at most `budget` of them; the first whose mean slowdown has settled is the last. -/
def epochsFrom (d : Demand α) (orders : List (List Nat)) (previous : Option α) (e : Epoch α) :
    (budget : Nat) → List (Epoch α)
  | 0 => []
  | budget + 1 =>
    let after := e.next d orders
    let current := after.objective d
    if hasSettled previous current then [after] else after :: epochsFrom d orders (some current) after budget

/-- What overtaking the job in front is predicted to bring on one link, for every job but the first: its own
relative gain plus the relative loss of the job it overtakes. Less is better. -/
def overtakings (d : Demand α) (link : Nat) : List (Slot α) → List (Position × α)
  | peer :: slot :: behind =>
    let gain := (slot.comm / peer.factor - slot.comm) / d.jobTotal slot.job
    let loss := (peer.comm * slot.factor - peer.comm) / d.jobTotal peer.job
    (⟨slot.job, link⟩, gain + loss) :: overtakings d link (slot :: behind)
  | _ => []

/-- The predicted effects of all overtakings, from the queues of the first epoch. -/
def predictions (d : Demand α) (orders : List (List Nat)) : List (Position × α) :=
  ((Epoch.start d).queues d orders).zipIdx.flatMap fun (slots, link) => overtakings d link slots

/-- The predicted effect of promoting each cell by one rank; zero where there is nobody to overtake. -/
def desirability (d : Demand α) (orders : List (List Nat)) : Grid α :=
  .ofEntries d.jobs d.links zero (predictions d orders)

/-- What the model says of a priority table. -/
structure Evaluation (α : Type) where
  objective : α
  slowdown : List α
  /-- The predicted effect of promoting each cell. -/
  desirability : Grid α
  epochsRun : Nat
deriving DecidableEq

/-- A run of the model: its queues and its epochs in order. -/
structure Course (α : Type) where
  orders : List (List Nat)
  epochs : List (Epoch α)

/-- Runs the model for at most `budget` epochs on a table that fits the demand. -/
def simulate (d : Demand α) (p : Priority) (budget : Nat) : Except (ModelError α) (Course α) :=
  if budget = 0 then .error .noEpochs
  else (p.orders d).map fun orders => ⟨orders, epochsFrom d orders none (.start d) budget⟩

namespace Course

def objectives (c : Course α) (d : Demand α) : List α := c.epochs.map fun e => e.objective d

/-- The outcome of a run: the slowdowns after its last epoch, unless their mean is not finite. -/
def evaluation (c : Course α) (d : Demand α) : Except (ModelError α) (Evaluation α) :=
  let last := c.epochs.getLast?.getD (.start d)
  let objective := last.objective d
  if isFinite objective then .ok ⟨objective, last.slowdowns d, desirability d c.orders, c.epochs.length⟩
  else .error (.numeric objective c.epochs.length)

end Course

/-- What the model says of `p` under `d` within `budget` epochs. -/
def evaluate (d : Demand α) (p : Priority) (budget : Nat) : Except (ModelError α) (Evaluation α) := do
  (← simulate d p budget).evaluation d

end LinkPriority

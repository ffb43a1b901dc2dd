import LinkPriority.Scalar

/-! Observers are told of every objective that a search computes, in the order in which it does. They keep a
state of their own, and nothing they do comes back to the search. -/

namespace LinkPriority

/-- An observer: its state, and how the objective of a node changes it. -/
structure Observer (α ω : Type) where
  state : ω
  notify : ω → (node : Nat) → (objective : α) → ω

/-- The objectives of a search in the order computed, each with its node. -/
structure Trace (α : Type) where
  entries : Array (Nat × α) := #[]

namespace Trace

variable {α : Type} [Scalar α]

def push (t : Trace α) (node : Nat) (objective : α) : Trace α := ⟨t.entries.push (node, objective)⟩

/-- The smallest objective after one more; an undefined one is passed over. -/
def lowest (best : Option α) (objective : α) : Option α :=
  match best with
  | none => if Scalar.isUndefined objective then none else some objective
  | some b => some (Scalar.smaller b objective)

/-- The smallest objective of `entries` and `best` after each entry. -/
def runningFrom (best : Option α) : List (Nat × α) → List (Option α)
  | [] => []
  | (_, objective) :: rest => lowest best objective :: runningFrom (lowest best objective) rest

/-- The smallest objective so far after each entry; nothing as long as all were undefined. -/
def runningBest (t : Trace α) : List (Option α) := runningFrom none t.entries.toList

end Trace

namespace Observer

variable {α ω : Type}

/-- The observer after an objective was reported to it. -/
def report (o : Observer α ω) (node : Nat) (objective : α) : Observer α ω :=
  { o with state := o.notify o.state node objective }

def silent : Observer α Unit := ⟨(), fun _ _ _ => ()⟩

def tracing : Observer α (Trace α) := ⟨{}, fun t node objective => t.push node objective⟩

def counting : Observer α Nat := ⟨0, fun n _ _ => n + 1⟩

end Observer

end LinkPriority

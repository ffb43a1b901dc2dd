import LinkPriority.ModelError

/-! What every job asks of every link. A demand is accepted if it has jobs and links, as many cells as its
shape says, and only finite amounts that are not negative. The number of cells is compared with the product of
the two dimensions in 64-bit words, the width of a table's size; where that product overflows, the program stops. -/

namespace LinkPriority

/-- The load of every job on every link. -/
structure Demand (α : Type) extends Grid (Load α)
deriving DecidableEq

/-- What becomes of a result that no 64-bit word holds: checked arithmetic stops the program, and unchecked arithmetic
wraps around. -/
inductive Overflow where
  | stops
  | wraps
deriving DecidableEq

namespace Demand

variable {α : Type} [Scalar α]

/-- How many cells a table of this shape has, counted in 64-bit words, if they can be counted. -/
def cellCount : Overflow → (jobs links : Nat) → Option Nat
  | .stops, jobs, links => if jobs * links < UInt64.size then some (jobs * links) else none
  | .wraps, jobs, links => some (jobs * links % UInt64.size)

/-- Accepts the demand, or says what is wrong first: dimensions, size, then the cells row after row. -/
def validateUnder (overflow : Overflow) (d : Demand α) : Except (ModelError α) Unit :=
  if d.jobs = 0 then .error (.demand .noJobs)
  else if d.links = 0 then .error (.demand .noLinks)
  else match cellCount overflow d.jobs d.links with
    | none => .error (.overflow .product)
    | some count =>
      if d.cells.size ≠ count then .error (.demand (.wrongSize d.cells.size d.jobs d.links))
      else match d.entries.find? fun (_, load) => !load.isAmount with
        | some (p, load) => .error (.demand (.badLoad p.job p.link load))
        | none => .ok ()

/-- The demand of these cells, row after row. -/
def ofCellsUnder (overflow : Overflow) (jobs links : Nat) (cells : List (Load α)) :
    Except (ModelError α) (Demand α) :=
  let d : Demand α := ⟨⟨jobs, links, cells.toArray⟩⟩
  (d.validateUnder overflow).map fun _ => d

/-- Acceptance where arithmetic is checked. -/
def validate (d : Demand α) : Except (ModelError α) Unit := d.validateUnder .stops

/-- The demand of these cells where arithmetic is checked. -/
def ofCells (jobs links : Nat) (cells : List (Load α)) : Except (ModelError α) (Demand α) :=
  ofCellsUnder .stops jobs links cells

/-- The demand of these rows, one for each job. -/
def ofRows (rows : List (List (Load α))) : Except (ModelError α) (Demand α) :=
  match Grid.ofRows rows with
  | .error row => .error (.demand (.ragged row))
  | .ok grid => ofCells grid.jobs grid.links grid.cells.toList

def load (d : Demand α) (job link : Nat) : Load α := d.getD job link .idle

def isActive (d : Demand α) (job link : Nat) : Bool := (d.load job link).isActive

/-- The time `job` takes when nobody else is there: compute and volume over all links. -/
def jobTotal (d : Demand α) (job : Nat) : α := Scalar.sum ((d.row job .idle).map Load.total)

def jobComm (d : Demand α) (job : Nat) : α := Scalar.sum ((d.row job .idle).map Load.comm)

/-- The compute time of `job` over all links. -/
def jobCompute (d : Demand α) (job : Nat) : α := Scalar.sum ((d.row job .idle).map Load.compute)

/-- The jobs active on `link`, in the order of their numbers. -/
def activeJobs (d : Demand α) (link : Nat) : List Nat :=
  (List.range d.jobs).filter fun job => d.isActive job link

end Demand

end LinkPriority

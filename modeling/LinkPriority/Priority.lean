import LinkPriority.Demand

/-! Who goes first on every link. A priority table gives each job a rank on each link, and rank 0 is served
first. It fits a demand if on every link the ranks of the active jobs are 0, 1, 2 and so on without
repetition; the ranks of inactive jobs mean nothing. A table has a rank for every cell of its shape, which is
part of the type. -/

namespace LinkPriority

/-- The rank of every job on every link. -/
structure Priority extends Grid Nat where
  isFull : toGrid.IsFull
deriving DecidableEq

namespace Priority

variable {α : Type} [Scalar α]

def zeros (jobs links : Nat) : Priority := ⟨.fill jobs links 0, Grid.isFull_fill jobs links 0⟩

/-- The table of these rows, one for each job. -/
def ofRows (rows : List (List Nat)) : Except (ModelError α) Priority :=
  match h : Grid.ofRows rows with
  | .error row => .error (.priority (.ragged row))
  | .ok grid => .ok ⟨grid, Grid.isFull_of_ofRows h⟩

def rank (p : Priority) (job link : Nat) : Nat := p.getD job link 0

def rankAt (p : Priority) (cell : Position) : Nat := p.rank cell.job cell.link

def setRank (p : Priority) (job link rank : Nat) : Priority :=
  ⟨p.toGrid.set job link rank, p.isFull.set job link rank⟩

/-- The rows of ranks, one for each job. -/
def rankRows (p : Priority) : List (List Nat) := p.rows 0

/-- The table as text, one bracketed row a line. -/
def text (p : Priority) : String :=
  String.join (p.rankRows.map fun row => "[" ++ String.intercalate ", " (row.map toString) ++ "]\n")

/-- Gives `job` the place of its rank among the places of a link, which must exist and be free. -/
def seat (places : List (Option Nat)) (job rank : Nat) : Except RankFault (List (Option Nat)) :=
  match places[rank]? with
  | none => .error (.beyond job rank places.length)
  | some (some other) => .error (.shared other job rank)
  | some none => .ok (places.set rank (some job))

/-- The active jobs of `link` from the front of its queue to the back. As many jobs as places, each in a place
of its own: no place is left empty. -/
def linkOrder (p : Priority) (d : Demand α) (link : Nat) : Except (ModelError α) (List Nat) :=
  let active := d.activeJobs link
  let places := active.foldlM (fun places job => seat places job (p.rank job link))
    (List.replicate active.length none)
  match places with
  | .error fault => .error (.rankOrder link fault)
  | .ok places => .ok (places.filterMap id)

/-- The queues of all links, from a table of the demand's shape. -/
def orders (p : Priority) (d : Demand α) : Except (ModelError α) (List (List Nat)) :=
  if p.jobs ≠ d.jobs ∨ p.links ≠ d.links then .error (.priority (.wrongShape p.jobs p.links d.jobs d.links))
  else (List.range p.links).mapM fun link => p.linkOrder d link

/-- Accepts the table for a demand: it has the same shape, and every link has a queue. -/
def validate (p : Priority) (d : Demand α) : Except (ModelError α) Unit := (p.orders d).map fun _ => ()

def jobAt? (p : Priority) (d : Demand α) (link rank : Nat) : Option Nat :=
  (d.activeJobs link).find? fun job => p.rank job link = rank

/-- The table after a swap, which must name two cells of one link with the promoted rank right behind the
demoted. The rank behind the demoted one is only asked for if the promoted job has somebody ahead. -/
def applyUnder (overflow : Overflow) (p : Priority) (s : Swap) : Except (ModelError α) Priority :=
  if s.promote.link ≠ s.demote.link then .error (.swap (.differentLinks s))
  else if p.jobs ≤ s.promote.job ∨ p.jobs ≤ s.demote.job ∨ p.links ≤ s.promote.link then
    .error (.swap (.outOfRange s))
  else
    let promoteRank := p.rankAt s.promote
    let demoteRank := p.rankAt s.demote
    if promoteRank ≠ demoteRank + 1 then
      if overflow = .stops ∧ promoteRank ≠ 0 ∧ UInt64.size ≤ demoteRank + 1 then .error (.overflow .sum)
      else .error (.swap (.notAdjacent s promoteRank demoteRank))
    else .ok ((p.setRank s.promote.job s.promote.link (promoteRank - 1)).setRank s.demote.job s.demote.link
      (demoteRank + 1))

/-- The table after a swap where arithmetic is checked. -/
def apply (p : Priority) (s : Swap) : Except (ModelError α) Priority := p.applyUnder .stops s

/-- The table with rank 0 in every inactive cell. -/
def clearInactive (p : Priority) (d : Demand α) : Priority :=
  ⟨.tabulate p.jobs p.links fun job link => if d.isActive job link then p.rank job link else 0,
    Grid.isFull_tabulate _ _ _⟩

end Priority

end LinkPriority

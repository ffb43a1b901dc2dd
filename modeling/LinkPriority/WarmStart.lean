import LinkPriority.Priority

/-! Priority tables to start a search from. On every link the active jobs are sorted by a key, the largest
first; of jobs with the same key the one with the smaller number goes first. -/

namespace LinkPriority

/-- What the jobs of a link are sorted by at the start. -/
inductive WarmStart where
  /-- The part of a job's whole demand that is communication on this link. -/
  | linkShare
  /-- The part of a job's whole demand that is communication, the same on every link. -/
  | jobShare
  | identity
deriving DecidableEq

namespace WarmStart

variable {α : Type} [Scalar α]

/-- The key of a job on a link; a job whose whole demand is not positive has key zero. -/
def key (strategy : WarmStart) (d : Demand α) (job link : Nat) : α :=
  let total := d.jobTotal job
  if Scalar.le total Scalar.zero then Scalar.zero
  else match strategy with
    | linkShare => (d.load job link).comm / total
    | jobShare => d.jobComm job / total
    | identity => Scalar.zero

/-- The active jobs of a link, largest key first. -/
def order (strategy : WarmStart) (d : Demand α) (link : Nat) : List Nat :=
  (((d.activeJobs link).map fun job => (job, strategy.key d job link)).mergeSort
    fun a b => Scalar.precedes b.2 a.2).map Prod.fst

/-- The table in which every active job has its place in that order as its rank, and every inactive cell rank
0. -/
def priority (strategy : WarmStart) (d : Demand α) : Priority :=
  ⟨.ofEntries d.jobs d.links 0 ((List.range d.links).flatMap fun link =>
    (strategy.order d link).mapIdx fun rank job => (⟨job, link⟩, rank)), Grid.isFull_ofEntries _ _ _ _⟩

end WarmStart

end LinkPriority

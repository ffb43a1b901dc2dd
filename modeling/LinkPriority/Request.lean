import LinkPriority.Demand
import LinkPriority.IdMap

/-! Requests speak of jobs and links by their ids. A request says what each job asks of each link it mentions;
rows and columns of the demand are the job ids and all link ids in ascending order, and a link that a job does
not mention is idle for it. -/

namespace LinkPriority

/-- The load of every job on the links it mentions. -/
structure Request (α : Type) where
  jobs : IdMap (IdMap (Load α))

/-- The ids that the rows and the columns of a table stand for. -/
structure Layout where
  jobs : List String
  links : List String
deriving DecidableEq

/-- Why a request is dropped. -/
inductive RequestFault (α : Type) where
  | empty
  | malformed
  | noJobs
  | noLinks
  | demand (error : ModelError α)
deriving DecidableEq

def RequestFault.message {α : Type} [DecimalText α] : RequestFault α → String
  | empty => "Empty request"
  | malformed => "Malformed request"
  | noJobs => "Request has no jobs"
  | noLinks => "Request has no links"
  | demand error => s!"Invalid demand: {error.message}"

namespace Request

variable {α : Type}

def layout (r : Request α) : Layout where
  jobs := r.jobs.ids
  links := IdMap.distinctIds (r.jobs.entries.flatMap fun (_, loads) => loads.ids)

/-- The demand that a request describes, with the ids of its rows and columns. -/
def toDemand [Scalar α] (r : Request α) : Except (RequestFault α) (Demand α × Layout) :=
  let layout := r.layout
  if layout.jobs.isEmpty then .error .noJobs
  else if layout.links.isEmpty then .error .noLinks
  else
    let cells := r.jobs.entries.flatMap fun (_, loads) =>
      layout.links.map fun link => (loads.get? link).getD .idle
    match Demand.ofCells layout.jobs.length layout.links.length cells with
    | .error e => .error (.demand e)
    | .ok d => .ok (d, layout)

end Request

end LinkPriority

import LinkPriority.Json.Number
import LinkPriority.Json.Reader
import LinkPriority.Json.Writer
import LinkPriority.Priority
import LinkPriority.Request.Reader

/-! Responses give every job its rank on every link, under the ids of the request; rank 0 is served first. A
response is written as a JSON object of jobs, each an object of links with their ranks, and read back from any
text of that form. -/

namespace LinkPriority

open Json

/-- The rank of every job on every link. -/
structure Response where
  ranks : IdMap (IdMap Nat)

namespace Response

/-- The response that says what a table says, under the ids of its rows and columns. -/
def ofPriority (layout : Layout) (p : Priority) : Response :=
  ⟨.ofList (layout.jobs.mapIdx fun j job =>
    (job, .ofList (layout.links.mapIdx fun l link => (link, p.rank j l))))⟩

def compact (r : Response) : String :=
  compactObject (r.ranks.entries.map fun (job, row) =>
    (job, compactObject (row.entries.map fun (link, rank) => (link, toString rank))))

def indented (r : Response) : String :=
  indentedObject 0 (r.ranks.entries.map fun (job, row) =>
    (job, indentedObject 1 (row.entries.map fun (link, rank) => (link, toString rank))))

def rankOf? : Value → Option Nat
  | .number text => text.toWord?
  | _ => none

def read? (payload : List UInt8) : Option Response :=
  ((Value.read? payload).bind (IdMap.read? (IdMap.read? rankOf?))).map Response.mk

end Response

end LinkPriority

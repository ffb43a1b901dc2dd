import LinkPriority.Json.Number
import LinkPriority.Json.Reader
import LinkPriority.Request

/-! Reading requests. A request is a JSON object of jobs; a job is an object of links; the load on a link is an
object or an array of its two numbers. Under an id that occurs twice the later value counts, but both have to be
well formed; a load must give each of its numbers once and may hold other members. -/

namespace LinkPriority

open Json

namespace Load

def numberOf? : Value → Option Binary64
  | .number text => text.toBinary64?
  | _ => none

/-- The two spellings of the name of the compute time. -/
def computeNames : List String := ["comp_time", "compute_time"]

def commName : String := "comm_size"

/-- Takes one member of a load into what is known of it; a number that is known already is not given twice. -/
def readMember (known : Option Binary64 × Option Binary64) (member : Option String × Value) :
    Option (Option Binary64 × Option Binary64) := do
  let name ← member.1
  if name ∈ computeNames then
    if known.1.isSome then none else return (some (← numberOf? member.2), known.2)
  else if name = commName then
    if known.2.isSome then none else return (known.1, some (← numberOf? member.2))
  else return known

def read? : Value → Option (Load Binary64)
  | .array [compute, comm] => return ⟨← numberOf? compute, ← numberOf? comm⟩
  | .object members =>
    match members.foldlM readMember (none, none) with
    | some (some compute, some comm) => some ⟨compute, comm⟩
    | _ => none
  | _ => none

end Load

/-- The map that an object describes, if each of its names is text and each of its values can be read. -/
def IdMap.read? {β : Type} (read : Value → Option β) : Value → Option (IdMap β)
  | .object members => return .ofList (← members.mapM fun (name, v) => return (← name, ← read v))
  | _ => none

namespace Request

/-- Octets that count as nothing at all; the form feed is among them, although no blank of the grammar. -/
def isVoid (octet : UInt8) : Bool :=
  octet == 0x20 || octet == 0x09 || octet == 0x0a || octet == 0x0c || octet == 0x0d

def read (payload : List UInt8) : Except (RequestFault Binary64) (Request Binary64) :=
  if payload.all isVoid then .error .empty
  else match (Value.read? payload).bind (IdMap.read? (IdMap.read? Load.read?)) with
    | some jobs => .ok ⟨jobs⟩
    | none => .error .malformed

end Request

end LinkPriority

import LinkPriority.Response
import LinkPriority.Search.Solve
import LinkPriority.Service.Config

/-! Answering requests. A payload is read, its demand is solved, and the table found goes back under the ids
of the request. A connection carries one request, cut to the size the service reads; a request that is dropped
and a search that fails are reported and get no reply. -/

namespace LinkPriority

/-- Why a payload has no response. -/
inductive ServiceError (α : Type) where
  | request (fault : RequestFault α)
  | solve (error : SearchError α)
deriving DecidableEq

def ServiceError.message {α : Type} [DecimalText α] : ServiceError α → String
  | request fault => fault.message
  | solve error => s!"Solve failed: {error.message}"

/-- What a service reports. -/
inductive ServiceEvent (α : Type) where
  | received (jobs links : Nat)
  | search (event : SearchEvent α)
  | solved (solution : Solution α)
  | dropped (octets : Nat) (fault : RequestFault α)
  | failed (error : SearchError α)

namespace ServiceEvent

open DecimalText

variable {α : Type}

def level : ServiceEvent α → Level
  | received .. => .info
  | search event => event.level
  | solved .. => .info
  | dropped .. => .warn
  | failed .. => .error

/-- Whether the line of an event ends in the time that the search took. -/
def isTimed : ServiceEvent α → Bool
  | search event => event.isTimed
  | solved .. => true
  | _ => false

def text [Scalar α] [DecimalText α] : ServiceEvent α → String
  | received jobs links => s!"Received request: {jobs} jobs x {links} links"
  | search event => event.text
  | solved s =>
    s!"Solved: objective {fixed 6 s.objective} (warm start {fixed 6 s.warmStartObjective}), " ++
      s!"{s.iterations} iterations, "
  | dropped octets fault => s!"Dropping request ({octets} bytes): {fault.message}"
  | failed error => error.message

end ServiceEvent

/-- Solves a request with selections from `choices`. -/
def Request.answerWith {α σ : Type} [Scalar α] [IndexSource σ] (r : Request α) (settings : Settings)
    (choices : σ) :
    Recorded (ServiceEvent α) (Except (ServiceError α) Response) :=
  match r.toDemand with
  | .error fault => ⟨.error (.request fault), []⟩
  | .ok (d, layout) =>
    let solved := solveWith d settings choices
    let events := .received d.jobs d.links :: solved.events.map .search
    match solved.outcome with
    | .error e => ⟨.error (.solve e), events⟩
    | .ok solution => ⟨.ok (.ofPriority layout solution.priority), events ++ [.solved solution]⟩

/-- Solves a request with selections from the seed of the settings. -/
def Request.answer {α : Type} [Scalar α] (r : Request α) (settings : Settings) :
    Recorded (ServiceEvent α) (Except (ServiceError α) Response) :=
  r.answerWith settings (WordStream.ofSeed settings.seed)

def handle (payload : List UInt8) (settings : Settings) :
    Recorded (ServiceEvent Binary64) (Except (ServiceError Binary64) Response) :=
  match Request.read payload with
  | .error fault => ⟨.error (.request fault), []⟩
  | .ok r => r.answer settings

namespace ServiceConfig

/-- The reply to what a connection sent, which is nothing where there is no response. -/
def reply (c : ServiceConfig) (sent : List UInt8) : Recorded (ServiceEvent Binary64) (Option String) :=
  let payload := sent.take c.maxRequestOctets
  let handled := handle payload c.settings
  match handled.outcome with
  | .ok response => ⟨some response.compact, handled.events⟩
  | .error (.request fault) => ⟨none, handled.events ++ [.dropped payload.length fault]⟩
  | .error (.solve e) => ⟨none, handled.events ++ [.failed e]⟩

end ServiceConfig

/-- Why a service does not start. -/
inductive BindFault where
  | config (fault : ConfigFault)
  | address (text : String)
deriving DecidableEq

def BindFault.message : BindFault → String
  | config fault => fault.message
  | address text => s!"Failed to bind {text}"

/-- Accepts a service if its parameters are right and its address is free, which `isFree` says. -/
def ServiceConfig.bind (c : ServiceConfig) (isFree : String → Bool) : Except BindFault Unit :=
  match c.validate with
  | .error fault => .error (.config fault)
  | .ok () => if isFree c.address then .ok () else .error (.address c.address)

end LinkPriority

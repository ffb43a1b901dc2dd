/-! Addresses to listen on, written `host:port`. -/

namespace LinkPriority

/-- The natural number that digits after an optional plus sign stand for, if it is below `bound`. -/
def readNat? (bound : Nat) (text : String) : Option Nat :=
  let ds := match text.toList with
    | '+' :: ds => ds
    | ds => ds
  if ds.isEmpty ∨ ¬ds.all Char.isDigit then none
  else
    let n := ds.foldl (fun n d => 10 * n + (d.toNat - '0'.toNat)) 0
    if n < bound then some n else none

/-- A host, given by its name or its four numbers, and a port. -/
structure Address where
  host : String
  port : Nat
deriving DecidableEq

namespace Address

def portBound : Nat := 65536

/-- The address of a text: the port stands after the last colon. -/
def ofText? (text : String) : Option Address :=
  match (text.splitOn ":").reverse with
  | port :: host :: more =>
    (readNat? portBound port).map fun n => ⟨String.intercalate ":" (host :: more).reverse, n⟩
  | _ => none

/-- The four numbers of a host, if it is written so: each below 256 and without leading zeros. -/
def numbers? (host : String) : Option (List Nat) :=
  let parts := host.splitOn "."
  if parts.length = 4 then
    parts.mapM fun part => (readNat? 256 part).filter fun n => toString n = part
  else none

/-- Whether the host is this machine: its name, the loopback network, or all of its interfaces. -/
def isLocal (a : Address) : Bool :=
  a.host == "localhost" ||
    match numbers? a.host with
    | some (first :: rest) => first == 127 || (first :: rest).all (· == 0)
    | _ => false

end Address

end LinkPriority

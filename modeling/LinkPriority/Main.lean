import LinkPriority.CommandLine
import Std.Async.TCP
import Std.Async.Timer

/-! The program: reads and writes files, listens for connections, and prints what the library answers. -/

namespace LinkPriority

open Std.Async

/-- Prints the events that are for everybody, with the time they took where a line ends in it. -/
def printEvents (events : List (Level × Bool × String)) (milliseconds : Nat) : IO Unit :=
  for (level, isTimed, text) in events do
    if level.verbosity ≤ Level.info.verbosity then
      let time := if isTimed then s!"{milliseconds} ms" else ""
      IO.eprintln s!"[{level.name}] {text}{time}"

def printServiceEvents (events : List (ServiceEvent Binary64)) (milliseconds : Nat) : IO Unit :=
  printEvents (events.map fun e => (e.level, e.isTimed, e.text)) milliseconds

/-- The content of a file, if it can be read. -/
def readFile? (path : String) : IO (Option (List UInt8)) := do
  try return some (← IO.FS.readBinFile path).toList
  catch _ => return none

/-- Writes a file; says whether it could. -/
def writeFile (path content : String) : IO Bool := do
  try
    IO.FS.writeFile path content
    return true
  catch _ => return false

/-- The socket address of an address, whose host is this machine's name or four numbers. -/
def socketAddress? (text : String) : Option Std.Net.SocketAddress := do
  let address ← Address.ofText? text
  let numbers ← if address.host = "localhost" then some [127, 0, 0, 1] else Address.numbers? address.host
  match numbers with
  | [a, b, c, d] => return .v4 ⟨.ofParts a.toUInt8 b.toUInt8 c.toUInt8 d.toUInt8, address.port.toUInt16⟩
  | _ => none

/-- A server that listens on an address, if it can. -/
def listen? (text : String) : IO (Option TCP.Socket.Server) := do
  match socketAddress? text with
  | none => return none
  | some address =>
    try
      let server ← TCP.Socket.Server.mk
      server.bind address
      server.listen 128
      return some server
    catch _ => return none

/-- What a connection says in one read, if it says anything in time. -/
def receive? (c : ServiceConfig) (client : TCP.Socket.Client) : Async (Option (List UInt8)) := do
  let silence ← Selector.sleep (.ofNat c.readTimeout)
  Selectable.one #[
    .case (client.recvSelector c.maxRequestOctets.toUInt64) fun said =>
      return some ((said.map ByteArray.toList).getD []),
    .case silence fun _ => return none]

/-- Answers one connection; a connection that breaks is dropped. -/
def answer (c : ServiceConfig) (client : TCP.Socket.Client) : Async Unit := do
  try
    match ← receive? c client with
    | none => IO.eprintln "[WARN] Connection timed out"
    | some said =>
      let start ← IO.monoMsNow
      let reply := c.reply said
      let text := reply.outcome
      printServiceEvents reply.events ((← IO.monoMsNow) - start)
      match text with
      | some text => client.send text.toUTF8
      | none => return ()
    client.shutdown
  catch e => IO.eprintln s!"[WARN] Connection failed: {e}"

partial def answerForever (c : ServiceConfig) (server : TCP.Socket.Server) : Async Unit := do
  answer c (← server.accept)
  answerForever c server

/-- Prints how a command ends, writes what is to be written, and returns the exit code. -/
def finish (e : Ending) (milliseconds : Nat) (isTimed : Bool) : IO UInt32 := do
  IO.print e.printed
  if isTimed then IO.print (BenchSummary.timeText milliseconds)
  match e.written with
  | none => pure ()
  | some (path, summary) =>
    unless ← writeFile path (summary.json milliseconds) do
      IO.eprintln s!"Error: Failed to create file {path}"
      return 1
  match e.complaint with
  | none => pure ()
  | some line => IO.eprintln line
  return e.exit.toUInt32

def Command.perform (command : Command) : IO UInt32 := do
  let start ← IO.monoMsNow
  match command with
  | .version => finish { exit := 0, printed := versionText } 0 false
  | .solve input settings =>
    let content ← readFile? input
    let reported := (content.map fun payload => (handle payload settings).events).getD []
    let ending := Ending.ofSolve input content settings
    printServiceEvents reported ((← IO.monoMsNow) - start)
    finish ending 0 false
  | .bench config output settings =>
    let ending := Ending.ofBench config output settings fun _ => true
    let isDone := ending.exit = 0
    finish ending ((← IO.monoMsNow) - start) isDone
  | .serve config =>
    match config.bind fun _ => true with
    | .error fault => finish (.failure fault.message) 0 false
    | .ok () =>
      match ← listen? config.address with
      | none => finish (.failure (BindFault.address config.address).message) 0 false
      | some server =>
        IO.eprintln s!"[INFO] JFP solver listening on {config.address}"
        Async.block (answerForever config server)
        return 0

end LinkPriority

/-- Runs the command that the arguments ask for. -/
def main (arguments : List String) : IO UInt32 :=
  match LinkPriority.Command.ofArguments? arguments with
  | some command => command.perform
  | none => do
    IO.eprintln "Usage: jfp-server <serve|solve|bench> [options]"
    return 2

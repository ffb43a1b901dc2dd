import LinkPriority.Bench.Report
import LinkPriority.CommandLine.Options
import LinkPriority.Service
import LinkPriority.Service.Address

/-! The command line: listening for requests, solving one request from a file, and the bench. What a command
does is computed here from what its surroundings say of files and addresses, so that the outer layer only has
to ask and to print. -/

namespace LinkPriority

/-- What the program is asked to do. -/
inductive Command where
  | version
  | serve (config : ServiceConfig)
  | solve (input : String) (settings : Settings)
  | bench (config : BenchConfig) (output : Option String) (settings : Settings)
deriving DecidableEq

/-- The number given for an option, which must fit a 64-bit word, or its default; nothing if something else is
given. -/
def Options.number? (o : Options) (name : String) (default : Nat) : Option Nat :=
  match o.value? name with
  | some text => readNat? UInt64.size text
  | none => some default

/-- The path given for an option, which must not be empty. -/
def Options.path? (o : Options) (name : String) : Option String := (o.value? name).filter fun path => path ≠ ""

def WarmStart.ofWord? : String → Option WarmStart
  | "link" => some .linkShare
  | "job" => some .jobShare
  | "identity" => some .identity
  | _ => none

namespace Settings

def optionNames : OptionNames where
  valued := ["epochs", "iterations", "max-children", "seed", "warm-start"]
  switches := [("verbose", 'v')]

def ofOptions? (o : Options) : Option Settings := do
  let s : Settings := if o.hasSwitch "verbose" then talkative else {}
  let warmStart ← match o.value? "warm-start" with
    | some word => WarmStart.ofWord? word
    | none => some s.warmStart
  return { s with
    epochBudget := ← o.number? "epochs" s.epochBudget
    iterations := ← o.number? "iterations" s.iterations
    maxChildren := ← o.number? "max-children" s.maxChildren
    seed := (← o.number? "seed" s.seed.toNat).toUInt64
    warmStart }

/-- The settings that arguments ask for, if these are the only options there are. -/
def ofArguments? (arguments : List String) : Option Settings :=
  (Options.parse optionNames {} arguments).bind ofOptions?

end Settings

namespace Command

/-- The options of a command: its own and those of every command. -/
def names (own : List String) : OptionNames :=
  { Settings.optionNames with valued := own ++ Settings.optionNames.valued }

/-- The service that options ask for; the port must be given. -/
def ofServeOptions? (o : Options) : Option Command := do
  let port ← readNat? Address.portBound (← o.value? "port")
  let host := (o.value? "host").getD "127.0.0.1"
  let config : ServiceConfig := { address := s!"{host}:{port}", settings := ← Settings.ofOptions? o }
  return .serve { config with
    maxRequestOctets := ← o.number? "max-request-bytes" config.maxRequestOctets
    readTimeout := ← o.number? "read-timeout-ms" config.readTimeout }

/-- The solving that options ask for; the input must be given. -/
def ofSolveOptions? (o : Options) : Option Command :=
  return .solve (← o.path? "input") (← Settings.ofOptions? o)

def ofBenchOptions? (o : Options) : Option Command := do
  let c : BenchConfig := {}
  let config : BenchConfig := {
    trials := ← o.number? "trials" c.trials
    jobs := ← o.number? "jobs" c.jobs
    links := ← o.number? "links" c.links
    seed := (← o.number? "instance-seed" c.seed.toNat).toUInt64 }
  if o.value? "output" = some "" then none
  return .bench config (o.path? "output") (← Settings.ofOptions? o)

/-- The command that arguments ask for; nothing if they are not understood. -/
def ofArguments? : List String → Option Command
  | "--version" :: _ => some .version
  | "-V" :: _ => some .version
  | "serve" :: rest =>
    let own := ["host", "port", "max-request-bytes", "read-timeout-ms"]
    (Options.parse (names own) {} rest).bind ofServeOptions?
  | "solve" :: rest => (Options.parse (names ["input"]) {} rest).bind ofSolveOptions?
  | "bench" :: rest =>
    (Options.parse (names ["trials", "jobs", "links", "instance-seed", "output"]) {} rest).bind ofBenchOptions?
  | _ => none

end Command

/-- What the surroundings of a command say. -/
structure Surroundings where
  read : String → Option (List UInt8)
  canCreate : String → Bool
  isFree : String → Bool

/-- How a command ends: its exit code, what it prints, what it complains of, and the bench to write to a file.
-/
structure Ending where
  exit : Nat
  printed : String := ""
  complaint : Option String := none
  written : Option (String × BenchSummary Binary64) := none

def versionText : String := "jfp-server 0.1.0\n"

namespace Ending

def failure (message : String) (printed : String := "") : Ending :=
  { exit := 1, printed, complaint := some ("Error: " ++ message) }

/-- The end of arguments that are not understood. -/
def usage : Ending := { exit := 2 }

/-- The end of solving the request in a file. -/
def ofSolve (input : String) (content : Option (List UInt8)) (settings : Settings) : Ending :=
  match content with
  | none => failure s!"Failed to read {input}"
  | some payload =>
    match (handle payload settings).outcome with
    | .error _ => failure s!"Failed to solve {input}"
    | .ok response => { exit := 0, printed := response.indented ++ "\n" }

/-- The end of a bench. The file is written after everything is printed. -/
def ofBench (config : BenchConfig) (output : Option String) (settings : Settings)
    (canCreate : String → Bool) : Ending :=
  match (runBench config settings).outcome with
  | .error e => failure e.message
  | .ok summary =>
    let printed := summary.text config
    match output with
    | none => { exit := 0, printed }
    | some path =>
      if canCreate path then { exit := 0, printed, written := some (path, summary) }
      else failure s!"Failed to create file {path}" printed

end Ending

/-- How a command ends. A service that starts does not end. -/
def Command.ending? (s : Surroundings) : Command → Option Ending
  | version => some { exit := 0, printed := versionText }
  | solve input settings => some (.ofSolve input (s.read input) settings)
  | bench config output settings => some (.ofBench config output settings s.canCreate)
  | serve config =>
    match config.bind s.isFree with
    | .ok () => none
    | .error fault => some (.failure fault.message)

end LinkPriority

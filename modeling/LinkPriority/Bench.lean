import LinkPriority.Random.Uniform
import LinkPriority.Search.Solve

/-! How much a search gains over its warm start, on random instances. -/

namespace LinkPriority

open Scalar

/-- How many instances, of which shape, and from which seed. -/
structure BenchConfig where
  trials : Nat := 100
  jobs : Nat := 3
  links : Nat := 4
  seed : UInt64 := 12345
deriving DecidableEq

/-- Why there is no random instance: no link can be chosen among none, or the demand is refused. -/
inductive InstanceError (α : Type) where
  | noLinkToChoose
  | refused (error : ModelError α)
deriving DecidableEq

/-- The slowdowns of an instance under its warm start and under the table found. -/
structure Trial (α : Type) where
  warmStartObjective : α
  searchObjective : α
  /-- The slowdown of the job that is slowed most. -/
  warmStartMax : α
  searchMax : α
deriving DecidableEq

/-- What some trials show together. -/
structure BenchSummary (α : Type) where
  trials : Nat
  meanImprovement : α
  bestImprovement : α
  meanMaxImprovement : α
  notable : Nat
  results : List (Trial α)

/-- What a bench reports. -/
inductive BenchEvent (α : Type) where
  | search (event : SearchEvent α)
  | notable (index : Nat) (trial : Trial α)

variable {α σ : Type} [Scalar α]

namespace Trial

/-- By which part of itself the mean slowdown fell. -/
def meanImprovement (t : Trial α) : α := relativeGain t.warmStartObjective t.searchObjective

/-- By which part of itself the largest slowdown fell. -/
def maxImprovement (t : Trial α) : α := relativeGain t.warmStartMax t.searchMax

/-- A trial is notable if the largest slowdown fell by more than this part. -/
def notableImprovement : α := ofNat 15 / ofNat 100

/-- Whether the largest slowdown fell by much. -/
def isNotable (t : Trial α) : Bool := lt notableImprovement t.maxImprovement

end Trial

namespace BenchEvent

open DecimalText

def level : BenchEvent α → Level
  | search event => event.level
  | notable .. => .info

def text [DecimalText α] : BenchEvent α → String
  | search event => event.text
  | notable index t =>
    s!"Trial {index}: worst slowdown {fixed 4 t.warmStartMax} -> {fixed 4 t.searchMax} " ++
      s!"({fixed 1 (ofNat 100 * t.maxImprovement)}%)"

end BenchEvent

/-- A random load: compute time from 2 up to 6, volume from 10 up to 20. -/
def randomLoad [UniformSource σ α] : StateM σ (Load α) := do
  let compute ← UniformSource.between (ofNat 2 : α) (ofNat 6)
  let comm ← UniformSource.between (ofNat 10 : α) (ofNat 20)
  return ⟨compute, comm⟩

/-- The loads of a job on the given links: it uses the link `forced`, and each other one if a coin says so. -/
def randomLoads [UniformSource σ α] (forced : Nat) : List Nat → StateM σ (List (Load α))
  | [] => return []
  | link :: rest => do
    let used ← if link = forced then pure true else UniformSource.coin α
    let load ← if used then randomLoad else pure .idle
    return load :: (← randomLoads forced rest)

/-- The loads of some jobs, job after job, each on at least one link. -/
def randomRows [UniformSource σ α] (links : Nat) : (jobs : Nat) → StateM σ (List (Load α))
  | 0 => return []
  | jobs + 1 => do
    let forced ← UniformSource.below α links
    let loads ← randomLoads forced (List.range links)
    return loads ++ (← randomRows links jobs)

def randomInstance [UniformSource σ α] (jobs links : Nat) : StateM σ (Except (InstanceError α) (Demand α)) :=
  if 0 < jobs ∧ links = 0 then return .error .noLinkToChoose
  else return (Demand.ofCells jobs links (← randomRows links jobs)).mapError .refused

/-- Scores the warm start of a demand and searches from it, with selections from `choices`. -/
def runTrialWith [IndexSource σ] (d : Demand α) (settings : Settings) (choices : σ) :
    Recorded (SearchEvent α) (Except (SearchError α) (Trial α)) :=
  let baseline := evaluatePriority d (settings.warmStart.priority d) settings
  match baseline.outcome with
  | .error e => ⟨.error e, baseline.events⟩
  | .ok before =>
    let solved := solveWith d settings choices
    ⟨solved.outcome.map fun s => ⟨before.objective, s.objective, largest before.slowdown, s.maxSlowdown⟩,
      baseline.events ++ solved.events⟩

/-- Scores the warm start of a demand and searches from it. -/
def runTrial (d : Demand α) (settings : Settings) :
    Recorded (SearchEvent α) (Except (SearchError α) (Trial α)) :=
  runTrialWith d settings (WordStream.ofSeed settings.seed)

/-- So many trials, the first of which is number `index`, on instances from `source`. -/
def runTrials [UniformSource σ α] (config : BenchConfig) (settings : Settings) :
    (count index : Nat) → σ → Recorded (BenchEvent α) (Except (SearchError α) (List (Trial α)))
  | 0, _, _ => ⟨.ok [], []⟩
  | count + 1, index, source =>
    match randomInstance config.jobs config.links source with
    | (.error .noLinkToChoose, _) => ⟨.error (.settings .emptyInstances), []⟩
    | (.error (.refused e), _) => ⟨.error (.model e), []⟩
    | (.ok d, source) =>
      let trial := runTrial d settings
      let events := trial.events.map .search
      match trial.outcome with
      | .error e => ⟨.error e, events⟩
      | .ok t =>
        let rest := runTrials config settings count (index + 1) source
        let notable := if t.isNotable then [BenchEvent.notable index t] else []
        ⟨rest.outcome.map (t :: ·), events ++ notable ++ rest.events⟩

def BenchSummary.ofTrials (results : List (Trial α)) : BenchSummary α :=
  let count : α := ofNat (max results.length 1)
  { trials := results.length
    meanImprovement := sum (results.map Trial.meanImprovement) / count
    bestImprovement := largest (results.map Trial.meanImprovement)
    meanMaxImprovement := sum (results.map Trial.maxImprovement) / count
    notable := results.countP Trial.isNotable
    results }

/-- Runs all trials on instances from `source`. -/
def runBenchWith [UniformSource σ α] (config : BenchConfig) (settings : Settings) (source : σ) :
    Recorded (BenchEvent α) (Except (SearchError α) (BenchSummary α)) :=
  if config.jobs = 0 ∨ config.links = 0 then ⟨.error (.settings .emptyInstances), []⟩
  else
    let r := runTrials config settings config.trials 0 source
    ⟨r.outcome.map .ofTrials, r.events⟩

/-- Runs all trials on instances from the seed of the bench. -/
def runBench (config : BenchConfig) (settings : Settings) :
    Recorded (BenchEvent Binary64) (Except (SearchError Binary64) (BenchSummary Binary64)) :=
  runBenchWith config settings (WordStream.ofSeed config.seed)

end LinkPriority

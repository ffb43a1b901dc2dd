import LinkPriority.Random.Indices
import LinkPriority.Search.Tree

/-! Solving a demand: a search from its warm start, and the model's word on a table of the caller's own. -/

namespace LinkPriority

variable {α σ ω : Type} [Scalar α]

/-- A search from the warm start of the settings. -/
def Search.fromWarmStart (d : Demand α) (settings : Settings) (choices : σ) (observer : Observer α ω) :
    Except (SearchError α) (Search α σ ω) := do
  settings.validate
  d.validate.mapError .model
  Search.start d (settings.warmStart.priority d) settings choices observer

/-- Runs a search to its end and reads out its solution. -/
def Search.complete [IndexSource σ] (s : Search α σ ω) :
    Recorded (SearchEvent α) (Except (SearchError α) (Solution α × ω)) :=
  match Move.run ⟨s, []⟩ with
  | .error e session => ⟨.error e, session.reported.reverse⟩
  | .ok () session =>
    match session.search.finalize with
    | .error e => ⟨.error e, session.reported.reverse⟩
    | .ok solution =>
      let last := if s.settings.verbose then [SearchEvent.finished solution] else []
      ⟨.ok (solution, session.search.observer.state), session.reported.reverse ++ last⟩

/-- Searches with a source of choices and an observer of the caller's own; also returns the observer's state. -/
def solveObserved [IndexSource σ] (d : Demand α) (settings : Settings) (choices : σ) (observer : Observer α ω) :
    Recorded (SearchEvent α) (Except (SearchError α) (Solution α × ω)) :=
  match Search.fromWarmStart d settings choices observer with
  | .error e => ⟨.error e, []⟩
  | .ok s => s.complete

/-- Searches for a priority table with a small mean slowdown, with selections from `choices`. -/
def solveWith [IndexSource σ] (d : Demand α) (settings : Settings) (choices : σ) :
    Recorded (SearchEvent α) (Except (SearchError α) (Solution α)) :=
  let r := solveObserved d settings choices Observer.silent
  ⟨r.outcome.map Prod.fst, r.events⟩

/-- Searches for a priority table with a small mean slowdown, with selections from the seed of the settings. -/
def solve (d : Demand α) (settings : Settings) :
    Recorded (SearchEvent α) (Except (SearchError α) (Solution α)) :=
  solveWith d settings (WordStream.ofSeed settings.seed)

/-- What the model says of a table, and the epochs of its run. -/
def evaluateRecorded (d : Demand α) (p : Priority) (budget : Nat) :
    Recorded (SearchEvent α) (Except (ModelError α) (Evaluation α)) :=
  match simulate d p budget with
  | .error e => ⟨.error e, []⟩
  | .ok course => ⟨course.evaluation d, SearchEvent.ofEpochs (course.objectives d)⟩

/-- Recording a run does not change what the model says. -/
theorem outcome_evaluateRecorded (d : Demand α) (p : Priority) (budget : Nat) :
    (evaluateRecorded d p budget).outcome = evaluate d p budget := by
  unfold evaluateRecorded evaluate
  cases simulate d p budget <;> rfl

/-- What the model says of a table, within the epochs of the settings. -/
def evaluatePriority (d : Demand α) (p : Priority) (settings : Settings) :
    Recorded (SearchEvent α) (Except (SearchError α) (Evaluation α)) :=
  match settings.validate with
  | .error e => ⟨.error e, []⟩
  | .ok () =>
    let r := evaluateRecorded d p settings.epochBudget
    ⟨r.outcome.mapError .model, r.events⟩

end LinkPriority

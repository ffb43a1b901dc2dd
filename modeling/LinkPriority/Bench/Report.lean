import LinkPriority.Bench
import LinkPriority.Json.Writer

/-! What a bench shows: a short table for the reader, and everything as JSON. -/

namespace LinkPriority.BenchSummary

/-- A part of a whole in percent, with two places. -/
def percent (x : Binary64) : String := DecimalText.fixed 2 (Scalar.ofNat 100 * x) ++ "%"

def text (s : BenchSummary Binary64) (config : BenchConfig) : String :=
  let rule := String.ofList (List.replicate 60 '=') ++ "\n"
  "\n" ++ rule ++ s!"JFP search vs warm start ({config.jobs} jobs x {config.links} links)\n" ++ rule ++
    s!"Trials:                 {s.trials}\n" ++
    s!"Mean improvement:       {percent s.meanImprovement}\n" ++
    s!"Best improvement:       {percent s.bestImprovement}\n" ++
    s!"Mean worst-job gain:    {percent s.meanMaxImprovement}\n" ++
    s!"Notable trials:         {s.notable}\n"

/-- The line that follows the table, with the time that the bench took. -/
def timeText (milliseconds : Nat) : String :=
  "Total time:             " ++ Decimal.placePoint 3 milliseconds ++ " s\n"

/-- A number in JSON, which knows no infinities. -/
def number (x : Binary64) : String := if Scalar.isFinite x then DecimalText.shortest x else "null"

def trialMembers (t : Trial Binary64) : List (String × String) :=
  [("warm_start_objective", number t.warmStartObjective), ("search_objective", number t.searchObjective),
    ("warm_start_max", number t.warmStartMax), ("search_max", number t.searchMax)]

/-- All of a bench that took some milliseconds, as JSON. -/
def json (s : BenchSummary Binary64) (milliseconds : Nat) : String :=
  Json.indentedObject 0 [("trials", toString s.trials), ("mean_improvement", number s.meanImprovement),
    ("best_improvement", number s.bestImprovement), ("mean_max_improvement", number s.meanMaxImprovement),
    ("notable", toString s.notable), ("total_time_ms", toString milliseconds),
    ("results", Json.indentedArray 1 (s.results.map fun t => Json.indentedObject 2 (trialMembers t)))]

end LinkPriority.BenchSummary

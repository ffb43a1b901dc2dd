import LinkPriority.WarmStart
import LinkPriority.Sharing

/-! What a search is told: how long to run the model and itself, how widely to branch, where to start and how
much to say. -/

namespace LinkPriority

/-- The parameters of a search. -/
structure Settings where
  epochBudget : Nat := defaultEpochBudget
  /-- Rounds of selection, expansion, evaluation and backpropagation. -/
  iterations : Nat := 250
  /-- How many of the best predicted swaps are tried at a node; a few random ones are added. -/
  maxChildren : Nat := 2
  seed : UInt64 := 0
  warmStart : WarmStart := .linkShare
  verbose : Bool := false
  /-- Progress is reported once in so many iterations. -/
  logFreq : Nat := 50
deriving DecidableEq

/-- What a search cannot run with. -/
inductive SettingsFault where
  | noEpochs
  | noChildren
  | noLogFreq
  | emptyInstances
deriving DecidableEq

def SettingsFault.text : SettingsFault → String
  | noEpochs => "epoch_budget must be at least 1"
  | noChildren => "max_children must be at least 1"
  | noLogFreq => "log_freq must be at least 1"
  | emptyInstances => "bench instances need at least one job and one link"

namespace Settings

/-- Settings that report progress, and more often. -/
def talkative : Settings := { verbose := true, logFreq := 10 }

/-- Accepts the settings, or says what is wrong first. -/
def check (s : Settings) : Except SettingsFault Unit :=
  if s.epochBudget = 0 then .error .noEpochs
  else if s.maxChildren = 0 then .error .noChildren
  else if s.logFreq = 0 then .error .noLogFreq
  else .ok ()

end Settings

end LinkPriority

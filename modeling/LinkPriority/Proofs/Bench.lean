import Mathlib.Algebra.Order.BigOperators.Group.List
import LinkPriority.Proofs.Random
import LinkPriority.Proofs.Search.Baseline

/-! What a bench shows. A trial fails as the search on its instance fails, and otherwise compares what the search found
with what it started from. A bench makes as many trials as it is asked for, each on the next instance, and stops at the
first that fails; so a shorter bench shows the first trials of a longer one. In exact arithmetic a search gains a part
of its start between nothing and all, on the average no more than at best. -/

namespace LinkPriority

open Scalar

/-! ### One trial -/

section Trial

variable {α σ : Type} [Scalar α] [IndexSource σ] {d : Demand α} {settings : Settings} {choices : σ}

theorem runTrialWith_eq_ok {trial : Trial α} : (runTrialWith d settings choices).outcome = .ok trial ↔
    ∃ baseline solution, (evaluatePriority d (settings.warmStart.priority d) settings).outcome = .ok baseline ∧
      (solveWith d settings choices).outcome = .ok solution ∧
      trial = ⟨baseline.objective, solution.objective, largest baseline.slowdown, solution.maxSlowdown⟩ := by
  rw [runTrialWith]
  cases hbaseline : (evaluatePriority d (settings.warmStart.priority d) settings).outcome with
  | error e => simp
  | ok baseline =>
    simp only [Except.map_eq_ok, Except.ok.injEq]
    constructor
    · rintro ⟨solution, hsolution, rfl⟩
      exact ⟨baseline, solution, rfl, hsolution, rfl⟩
    · rintro ⟨_, solution, rfl, hsolution, rfl⟩
      exact ⟨solution, hsolution, rfl⟩

variable [OrderedScalar α]

/-- A trial fails exactly as the search does. -/
theorem runTrialWith_eq_error (hd : (d.validate : Except (ModelError α) Unit) = .ok ()) {e : SearchError α} :
    (runTrialWith d settings choices).outcome = .error e ↔ (solveWith d settings choices).outcome = .error e := by
  rw [runTrialWith]
  cases hbaseline : (evaluatePriority d (settings.warmStart.priority d) settings).outcome with
  | error fault =>
    rw [solveWith_of_baseline_error hd hbaseline]
    simp
  | ok baseline => exact Except.map_eq_error

/-- A trial that does not fail compares the objective of the search with that of its start. -/
theorem exists_solveWith_of_runTrialWith (hd : (d.validate : Except (ModelError α) Unit) = .ok ()) {trial : Trial α}
    (h : (runTrialWith d settings choices).outcome = .ok trial) :
    ∃ solution, (solveWith d settings choices).outcome = .ok solution ∧
      trial.warmStartObjective = solution.warmStartObjective ∧ trial.searchObjective = solution.objective ∧
      le trial.searchObjective trial.warmStartObjective = true := by
  obtain ⟨baseline, solution, hbaseline, hsolution, rfl⟩ := runTrialWith_eq_ok.1 h
  obtain ⟨⟨baseline', hbaseline', hstart⟩, -, hle⟩ := exists_baseline_of_solveWith hd hsolution
  obtain rfl := Except.ok.inj (hbaseline.symm.trans hbaseline')
  exact ⟨solution, hsolution, hstart.symm, rfl, hstart ▸ hle⟩

end Trial

/-! ### Many trials -/

section Trials

variable {α σ : Type} [Scalar α] [UniformSource σ α]

/-- The results of trials made one after the other, each on the next instance from `source`, and what is left of the
source. -/
inductive TrialsFrom (jobs links : Nat) (settings : Settings) : σ → List (Trial α) → σ → Prop where
  | nil {source : σ} : TrialsFrom jobs links settings source [] source
  | cons {source after rest : σ} {d : Demand α} {trial : Trial α} {results : List (Trial α)}
    (hinstance : randomInstance jobs links source = (.ok d, after)) (htrial : (runTrial d settings).outcome = .ok trial)
    (hrest : TrialsFrom jobs links settings after results rest) :
    TrialsFrom jobs links settings source (trial :: results) rest

/-- There is no next instance, or the trial on it fails. -/
inductive NextFails (jobs links : Nat) (settings : Settings) (source : σ) : SearchError α → Prop where
  | noLink {after : σ} (h : (randomInstance jobs links source : Except (InstanceError α) (Demand α) × σ) =
      (.error .noLinkToChoose, after)) : NextFails jobs links settings source (.settings .emptyInstances)
  | refused {after : σ} {e : ModelError α} (h : randomInstance jobs links source = (.error (.refused e), after)) :
    NextFails jobs links settings source (.model e)
  | trial {after : σ} {d : Demand α} {e : SearchError α} (hinstance : randomInstance jobs links source = (.ok d, after))
    (htrial : (runTrial d settings).outcome = .error e) : NextFails jobs links settings source e

/-- What a bench reports: one result for each trial it was asked for, and what the results show together. -/
structure BenchSummary.SumsUp (summary : BenchSummary α) (config : BenchConfig) (settings : Settings) (source : σ) :
    Prop where
  trials : summary.trials = config.trials
  length : summary.results.length = config.trials
  made : ∃ rest, TrialsFrom config.jobs config.links settings source summary.results rest
  mean : summary.meanImprovement = sum (summary.results.map Trial.meanImprovement) / ofNat (max config.trials 1)
  best : summary.bestImprovement = largest (summary.results.map Trial.meanImprovement)
  meanMax : summary.meanMaxImprovement = sum (summary.results.map Trial.maxImprovement) / ofNat (max config.trials 1)
  notable : summary.notable = summary.results.countP Trial.isNotable

variable {jobs links : Nat} {config : BenchConfig} {settings : Settings}

namespace TrialsFrom

variable {source rest : σ} {results : List (Trial α)}

/-- The first trials of some. -/
theorem take (h : TrialsFrom jobs links settings source results rest) (count : Nat) :
    ∃ after, TrialsFrom jobs links settings source (results.take count) after := by
  induction h generalizing count with
  | nil => exact ⟨_, by rw [List.take_nil]; exact .nil⟩
  | cons hinstance htrial _ ih =>
    cases count with
    | zero => exact ⟨_, .nil⟩
    | succ count =>
      obtain ⟨after, hafter⟩ := ih count
      exact ⟨after, .cons hinstance htrial hafter⟩

/-- What holds of a trial on any instance holds of all results. -/
theorem forall_mem {P : Trial α → Prop} (h : TrialsFrom jobs links settings source results rest)
    (hP : ∀ (d : Demand α) (before after : σ) (trial : Trial α), randomInstance jobs links before = (.ok d, after) →
      (runTrial d settings).outcome = .ok trial → P trial) : ∀ trial ∈ results, P trial := by
  induction h with
  | nil => exact fun _ hmem => nomatch hmem
  | cons hinstance htrial _ ih => exact List.forall_mem_cons.2 ⟨hP _ _ _ _ hinstance htrial, ih⟩

end TrialsFrom

/-- After a trial that does not fail, the others are made on the instances that follow. -/
theorem runTrials_succ {d : Demand α} {trial : Trial α} {count index : Nat} {source after : σ}
    (hinstance : randomInstance config.jobs config.links source = (.ok d, after))
    (htrial : (runTrial d settings).outcome = .ok trial) :
    (runTrials config settings (count + 1) index source).outcome =
      (runTrials config settings count (index + 1) after).outcome.map (trial :: ·) := by
  rw [runTrials, hinstance]
  dsimp only
  rw [htrial]

theorem runTrials_of_nextFails {count index : Nat} {source : σ} {e : SearchError α}
    (h : NextFails config.jobs config.links settings source e) :
    (runTrials config settings (count + 1) index source).outcome = .error e := by
  cases h with
  | noLink h => rw [runTrials, h]
  | refused h => rw [runTrials, h]
  | trial hinstance htrial =>
    rw [runTrials, hinstance]
    dsimp only
    rw [htrial]

/-- What comes after some trials is decided by what they leave of the source. -/
theorem TrialsFrom.outcome_runTrials {source rest : σ} {results : List (Trial α)}
    (h : TrialsFrom config.jobs config.links settings source results rest) (count index : Nat) :
    (runTrials config settings (results.length + count) index source).outcome =
      (runTrials config settings count (index + results.length) rest).outcome.map (results ++ ·) := by
  induction h generalizing index with
  | nil =>
    rw [List.length_nil, Nat.zero_add, Nat.add_zero]
    exact congrFun Except.map_id.symm _
  | @cons _ _ rest _ trial results hinstance htrial _ ih =>
    rw [List.length_cons, Nat.add_right_comm, runTrials_succ hinstance htrial, ih, Nat.add_assoc,
      Nat.add_comm 1 results.length]
    cases (runTrials (α := α) config settings count (index + (results.length + 1)) rest).outcome <;> rfl

variable {count index : Nat} {source rest : σ} {results : List (Trial α)} {e : SearchError α}

theorem TrialsFrom.runTrials_eq_ok (h : TrialsFrom config.jobs config.links settings source results rest) :
    (runTrials config settings results.length index source).outcome = .ok results := by
  have hruns := h.outcome_runTrials 0 index
  rw [Nat.add_zero] at hruns
  rw [hruns, runTrials, Except.map, List.append_nil]

theorem TrialsFrom.runTrials_eq_error (h : TrialsFrom config.jobs config.links settings source results rest)
    (hlt : results.length < count) (hfails : NextFails config.jobs config.links settings rest e) :
    (runTrials config settings count index source).outcome = .error e := by
  obtain ⟨more, rfl⟩ := Nat.exists_eq_add_of_lt hlt
  rw [Nat.add_assoc, h.outcome_runTrials, runTrials_of_nextFails hfails]
  rfl

variable (α) in
/-- The next trial fails, or it does not. -/
theorem nextFails_or_exists_trial (jobs links : Nat) (settings : Settings) (source : σ) :
    (∃ e : SearchError α, NextFails jobs links settings source e) ∨
    ∃ (d : Demand α) (after : σ) (trial : Trial α),
      randomInstance jobs links source = (.ok d, after) ∧ (runTrial d settings).outcome = .ok trial := by
  cases hinstance : (randomInstance jobs links source : Except (InstanceError α) (Demand α) × σ) with
  | mk made after =>
    cases made with
    | error fault =>
      cases fault with
      | noLinkToChoose => exact .inl ⟨_, .noLink hinstance⟩
      | refused e => exact .inl ⟨_, .refused hinstance⟩
    | ok d =>
      cases htrial : (runTrial d settings).outcome with
      | error e => exact .inl ⟨e, .trial hinstance htrial⟩
      | ok trial => exact .inr ⟨d, after, trial, rfl, htrial⟩

variable (α) in
/-- Trials can be made one after the other, or one of them fails. -/
theorem exists_trialsFrom_or_nextFails (jobs links : Nat) (settings : Settings) (count : Nat) (source : σ) :
    (∃ (results : List (Trial α)) (rest : σ),
      results.length = count ∧ TrialsFrom jobs links settings source results rest) ∨
    ∃ (made : List (Trial α)) (after : σ) (e : SearchError α),
      made.length < count ∧ TrialsFrom jobs links settings source made after ∧
        NextFails jobs links settings after e := by
  induction count generalizing source with
  | zero => exact .inl ⟨[], source, rfl, .nil⟩
  | succ count ih =>
    rcases nextFails_or_exists_trial α jobs links settings source with
      ⟨e, hfails⟩ | ⟨d, after, trial, hinstance, htrial⟩
    · exact .inr ⟨[], source, e, Nat.succ_pos count, .nil, hfails⟩
    · rcases ih after with ⟨results, rest, hlength, hmade⟩ | ⟨made, last, e, hlt, hmade, hfails⟩
      · exact .inl ⟨trial :: results, rest, congrArg (· + 1) hlength, .cons hinstance htrial hmade⟩
      · exact .inr ⟨trial :: made, last, e, Nat.succ_lt_succ hlt, .cons hinstance htrial hmade, hfails⟩

/-- All trials are made if none of them fails. -/
theorem runTrials_eq_ok : (runTrials config settings count index source).outcome = .ok results ↔
    results.length = count ∧ ∃ rest, TrialsFrom config.jobs config.links settings source results rest := by
  constructor
  · intro h
    rcases exists_trialsFrom_or_nextFails α config.jobs config.links settings count source with
      ⟨made, rest, rfl, hmade⟩ | ⟨made, after, e, hlt, hmade, hfails⟩
    · obtain rfl := Except.ok.inj (h.symm.trans hmade.runTrials_eq_ok)
      exact ⟨rfl, rest, hmade⟩
    · exact nomatch h.symm.trans (hmade.runTrials_eq_error hlt hfails)
  · rintro ⟨rfl, rest, hmade⟩
    exact hmade.runTrials_eq_ok

/-- The first trial that fails is the failure of all. -/
theorem runTrials_eq_error : (runTrials config settings count index source).outcome = .error e ↔
    ∃ (made : List (Trial α)) (after : σ), TrialsFrom config.jobs config.links settings source made after ∧
      made.length < count ∧ NextFails config.jobs config.links settings after e := by
  constructor
  · intro h
    rcases exists_trialsFrom_or_nextFails α config.jobs config.links settings count source with
      ⟨made, rest, rfl, hmade⟩ | ⟨made, after, e', hlt, hmade, hfails⟩
    · exact nomatch h.symm.trans hmade.runTrials_eq_ok
    · obtain rfl := Except.error.inj (h.symm.trans (hmade.runTrials_eq_error hlt hfails))
      exact ⟨made, after, hmade, hlt, hfails⟩
  · rintro ⟨made, after, hmade, hlt, hfails⟩
    exact hmade.runTrials_eq_error hlt hfails

/-! ### Their summary -/

theorem BenchSummary.sumsUp_ofTrials (hlength : results.length = config.trials)
    (hmade : ∃ rest, TrialsFrom config.jobs config.links settings source results rest) :
    (ofTrials results).SumsUp config settings source where
  trials := hlength
  length := hlength
  made := hmade
  mean := by rw [← hlength]; rfl
  best := rfl
  meanMax := by rw [← hlength]; rfl
  notable := rfl

/-- A summary is that of its results. -/
theorem BenchSummary.SumsUp.ofTrials_eq {summary : BenchSummary α} (h : summary.SumsUp config settings source) :
    ofTrials summary.results = summary := by
  obtain ⟨htrials, hlength, -, hmean, hbest, hmeanMax, hnotable⟩ := h
  cases summary
  simp only [ofTrials, hlength, BenchSummary.mk.injEq]
  exact ⟨htrials.symm, hmean.symm, hbest.symm, hmeanMax.symm, hnotable.symm, trivial⟩

section Bench

variable (hjobs : config.jobs ≠ 0) (hlinks : config.links ≠ 0)
include hjobs hlinks

theorem outcome_runBenchWith (source : σ) :
    (runBenchWith config settings source : Recorded _ (Except (SearchError α) _)).outcome =
      (runTrials config settings config.trials 0 source).outcome.map .ofTrials := by
  rw [runBenchWith, if_neg (by simp [hjobs, hlinks])]

/-- A bench comes to its end exactly if all its trials do, and sums them up. -/
theorem runBenchWith_eq_ok {summary : BenchSummary α} :
    (runBenchWith config settings source).outcome = .ok summary ↔ summary.SumsUp config settings source := by
  rw [outcome_runBenchWith hjobs hlinks, Except.map_eq_ok]
  constructor
  · rintro ⟨results, hmade, rfl⟩
    obtain ⟨hlength, hmade⟩ := runTrials_eq_ok.1 hmade
    exact BenchSummary.sumsUp_ofTrials hlength hmade
  · intro h
    exact ⟨summary.results, runTrials_eq_ok.2 ⟨h.length, h.made⟩, h.ofTrials_eq⟩

theorem runBenchWith_eq_error : (runBenchWith config settings source).outcome = .error e ↔
    ∃ (made : List (Trial α)) (after : σ), TrialsFrom config.jobs config.links settings source made after ∧
      made.length < config.trials ∧ NextFails config.jobs config.links settings after e := by
  rw [outcome_runBenchWith hjobs hlinks, Except.map_eq_error]
  exact runTrials_eq_error

/-- A bench with fewer trials shows the first ones. -/
theorem exists_runBenchWith_take {fewer : Nat} (hfewer : fewer ≤ config.trials) {long : BenchSummary α}
    (h : (runBenchWith config settings source).outcome = .ok long) :
    ∃ short, (runBenchWith { config with trials := fewer } settings source).outcome = .ok short ∧
      short.results = long.results.take fewer ∧ short.results.length = fewer := by
  have hlong := (runBenchWith_eq_ok hjobs hlinks).1 h
  obtain ⟨rest, hmade⟩ := hlong.made
  have hlength : (long.results.take fewer).length = fewer :=
    List.length_take_of_le (hfewer.trans hlong.length.ge)
  let shorter := { config with trials := fewer }
  have hshort : (BenchSummary.ofTrials (long.results.take fewer)).SumsUp shorter settings source :=
    BenchSummary.sumsUp_ofTrials hlength (hmade.take fewer)
  exact ⟨_, (runBenchWith_eq_ok (show shorter.jobs ≠ 0 from hjobs) (show shorter.links ≠ 0 from hlinks)).2 hshort,
    rfl, hlength⟩

end Bench

end Trials

/-! ### Exact numbers -/

section Exact

variable {ln sqrt : ℚ → ℚ}

/-- The search has found something that is no worse than its start, and nothing is faster than alone. -/
def Trial.Gains (t : Trial (Exact ln sqrt)) : Prop :=
  1 ≤ t.searchObjective.value ∧ t.searchObjective.value ≤ t.warmStartObjective.value

theorem Trial.Gains.value_meanImprovement {t : Trial (Exact ln sqrt)} (h : t.Gains) : t.meanImprovement.value =
    (t.warmStartObjective.value - t.searchObjective.value) / t.warmStartObjective.value := by
  obtain ⟨hone, hle⟩ := h
  have hnot : ¬le t.warmStartObjective zero = true := by
    rw [Exact.le_eq_true, Exact.value_zero]
    linarith
  rw [meanImprovement, relativeGain, if_neg hnot, Exact.value_div, Exact.value_sub]

/-- What is gained is at least nothing and less than all. -/
theorem Trial.Gains.bounds {t : Trial (Exact ln sqrt)} (h : t.Gains) :
    0 ≤ t.meanImprovement.value ∧ t.meanImprovement.value < 1 := by
  have hvalue := h.value_meanImprovement
  obtain ⟨hone, hle⟩ := h
  have hpos : 0 < t.warmStartObjective.value := by linarith
  rw [hvalue]
  exact ⟨div_nonneg (by linarith) hpos.le, (div_lt_one hpos).2 (by linarith)⟩

theorem Exact.value_larger (x y : Exact ln sqrt) : (larger x y).value = max x.value y.value := by
  have hdefined : isUndefined y = false := isUndefined_eq_false rfl
  rw [larger, hdefined, if_neg Bool.false_ne_true]
  split
  · next h => rw [max_eq_left (Exact.lt_eq_true.1 h).le]
  · next h => rw [max_eq_right (not_lt.1 (mt Exact.lt_eq_true.2 h))]

theorem Exact.value_foldl_larger_lt_iff {b : ℚ} (x : Exact ln sqrt) (xs : List (Exact ln sqrt)) :
    (xs.foldl larger x).value < b ↔ x.value < b ∧ ∀ y ∈ xs, y.value < b := by
  induction xs generalizing x with
  | nil => simp
  | cons y ys ih => rw [List.foldl_cons, ih, value_larger, max_lt_iff, List.forall_mem_cons, and_assoc]

theorem Exact.value_largest_lt_iff {b : ℚ} {xs : List (Exact ln sqrt)} :
    (largest xs).value < b ↔ 0 < b ∧ ∀ x ∈ xs, x.value < b := by
  rw [largest, value_foldl_larger_lt_iff, value_zero]

/-- No entry is larger than the largest. -/
theorem Exact.value_le_largest {x : Exact ln sqrt} {xs : List (Exact ln sqrt)} (hx : x ∈ xs) :
    x.value ≤ (largest xs).value := by
  by_contra hlt
  exact lt_irrefl _ ((value_largest_lt_iff.1 (not_le.1 hlt)).2 x hx)

theorem Exact.value_largest_nonneg (xs : List (Exact ln sqrt)) : 0 ≤ (largest xs).value := by
  by_contra hlt
  exact lt_irrefl _ (value_largest_lt_iff.1 (not_le.1 hlt)).1

/-- Of entries that are not negative one is the largest. -/
theorem Exact.exists_value_eq_largest {xs : List (Exact ln sqrt)} (hne : xs ≠ []) (hxs : ∀ x ∈ xs, 0 ≤ x.value) :
    ∃ x ∈ xs, x.value = (largest xs).value := by
  by_contra hnone
  push Not at hnone
  have hless : ∀ x ∈ xs, x.value < (largest xs).value := fun x hx => lt_of_le_of_ne (value_le_largest hx) (hnone x hx)
  obtain ⟨x, hx⟩ := List.exists_mem_of_ne_nil xs hne
  have hpos : 0 < (largest xs).value := (hxs x hx).trans_lt (hless x hx)
  exact lt_irrefl _ (value_largest_lt_iff.2 ⟨hpos, hless⟩)

/-- The mean gain is at least nothing and no more than the best one, which is less than all. -/
theorem BenchSummary.bounds_ofTrials {trials : List (Trial (Exact ln sqrt))} (h : ∀ t ∈ trials, t.Gains) :
    0 ≤ (ofTrials trials).meanImprovement.value ∧
    (ofTrials trials).meanImprovement.value ≤ (ofTrials trials).bestImprovement.value ∧
    (ofTrials trials).bestImprovement.value < 1 := by
  let gains := trials.map Trial.meanImprovement
  have hgains : ∀ gain ∈ gains, 0 ≤ gain.value ∧ gain.value < 1 := by
    intro gain hgain
    obtain ⟨t, ht, rfl⟩ := List.mem_map.1 hgain
    exact (h t ht).bounds
  have hmean : (ofTrials trials).meanImprovement.value =
      (gains.map Exact.value).sum / ((max trials.length 1 : ℕ) : ℚ) := by
    rw [ofTrials, Exact.value_div, Exact.value_sum, Exact.value_ofNat]
  have hcount : (0 : ℚ) < ((max trials.length 1 : ℕ) : ℚ) := Nat.cast_pos.2 (lt_max_of_lt_right one_pos)
  have hnonneg : 0 ≤ (gains.map Exact.value).sum := List.sum_nonneg fun x hx => by
    obtain ⟨gain, hgain, rfl⟩ := List.mem_map.1 hx
    exact (hgains gain hgain).1
  have hsum : (gains.map Exact.value).sum ≤ trials.length * (largest gains).value := by
    have hle := List.sum_le_card_nsmul (gains.map Exact.value) (largest gains).value fun x hx => by
      obtain ⟨gain, hgain, rfl⟩ := List.mem_map.1 hx
      exact Exact.value_le_largest hgain
    rwa [List.length_map, List.length_map, nsmul_eq_mul] at hle
  have hlength : (trials.length : ℚ) ≤ ((max trials.length 1 : ℕ) : ℚ) := Nat.cast_le.2 (le_max_left _ _)
  refine ⟨?_, ?_, Exact.value_largest_lt_iff.2 ⟨one_pos, fun gain hgain => (hgains gain hgain).2⟩⟩
  · rw [hmean]
    exact div_nonneg hnonneg hcount.le
  · rw [hmean, div_le_iff₀ hcount, mul_comm]
    exact hsum.trans (mul_le_mul_of_nonneg_right hlength (Exact.value_largest_nonneg gains))

/-- The mean gain and the best one, as the mean and the largest of what the trials gained. -/
structure BenchSummary.Measures (summary : BenchSummary (Exact ln sqrt)) : Prop where
  mean : summary.meanImprovement.value =
    (summary.results.map fun t => t.meanImprovement.value).sum / summary.results.length
  le_best : ∀ t ∈ summary.results, t.meanImprovement.value ≤ summary.bestImprovement.value
  exists_best : ∃ t ∈ summary.results, t.meanImprovement.value = summary.bestImprovement.value

theorem BenchSummary.measures_ofTrials {trials : List (Trial (Exact ln sqrt))} (hne : trials ≠ [])
    (h : ∀ t ∈ trials, t.Gains) : (ofTrials trials).Measures where
  mean := by
    have hcount : max trials.length 1 = trials.length := max_eq_left (List.length_pos_iff.2 hne)
    rw [ofTrials, Exact.value_div, Exact.value_sum, Exact.value_ofNat, hcount, List.map_map]
    rfl
  le_best t ht := Exact.value_le_largest (List.mem_map_of_mem ht)
  exists_best := by
    obtain ⟨gain, hgain, hlargest⟩ := Exact.exists_value_eq_largest (mt List.map_eq_nil_iff.1 hne)
      (List.forall_mem_map.2 fun t ht => (h t ht).bounds.1)
    obtain ⟨t, ht, rfl⟩ := List.mem_map.1 hgain
    exact ⟨t, ht, hlargest⟩

theorem gains_of_runTrial {d : Demand (Exact ln sqrt)} {settings : Settings} {trial : Trial (Exact ln sqrt)}
    (hd : (d.validate : Except (ModelError (Exact ln sqrt)) Unit) = .ok ())
    (h : (runTrial d settings).outcome = .ok trial) : trial.Gains := by
  obtain ⟨solution, hsolution, -, hsearch, hle⟩ := exists_solveWith_of_runTrialWith hd h
  obtain ⟨-, ⟨table, e, he, hobjective⟩, -⟩ := exists_baseline_of_solveWith hd hsolution
  refine ⟨?_, Exact.le_eq_true.1 hle⟩
  rw [hsearch, hobjective]
  exact one_le_objective_of_evaluate hd he

theorem exists_runTrial_eq {d : Demand (Exact ln sqrt)} {settings : Settings}
    (hd : (d.validate : Except (ModelError (Exact ln sqrt)) Unit) = .ok ()) (hcheck : settings.check = .ok ()) :
    ∃ trial, (runTrial d settings).outcome = .ok trial := by
  cases htrial : (runTrial d settings).outcome with
  | ok trial => exact ⟨trial, rfl⟩
  | error e =>
    obtain ⟨solution, hsolution⟩ := exists_solveWith_exact_eq hd hcheck (WordStream.ofSeed settings.seed)
    exact nomatch hsolution.symm.trans ((runTrialWith_eq_error hd).1 htrial)

end Exact

section LeastSource

variable {α : Type} [Scalar α]

instance : UniformSource LeastSource α where
  below _ := pure 0
  coin := pure false
  between low _ := pure low

instance [OrderedScalar α] : LawfulUniformSource LeastSource α where
  below_lt _ hpos := hpos
  between_mem _ hlow _ hlt := ⟨hlow, le_self hlow, hlt⟩

end LeastSource

/-- With exact numbers there is always a next trial, and it does not fail. -/
theorem not_nextFails {ln sqrt : ℚ → ℚ} {τ : Type} [UniformSource τ (Exact ln sqrt)]
    [LawfulUniformSource τ (Exact ln sqrt)] {jobs links : Nat} {settings : Settings} (hjobs : 1 ≤ jobs)
    (hlinks : 1 ≤ links) (hcells : jobs * links < UInt64.size) (hsettings : settings.check = .ok ()) (source : τ)
    (e : SearchError (Exact ln sqrt)) : ¬NextFails jobs links settings source e := by
  intro hfails
  obtain ⟨d, after, hinstance⟩ : ∃ (d : Demand (Exact ln sqrt)) (after : τ), _ :=
    exists_randomInstance_eq hjobs hlinks hcells source
  cases hfails with
  | noLink h => exact nomatch hinstance.symm.trans h
  | refused h => exact nomatch hinstance.symm.trans h
  | trial hmade htrial =>
    obtain ⟨trial, hdone⟩ := exists_runTrial_eq (randomInstance_spec hlinks hmade).1 hsettings
    exact nomatch hdone.symm.trans htrial

/-- Every instance is an accepted demand of which each job uses a link, and there is one whenever its cells can be
counted. A trial fails exactly as the search on its demand does, and otherwise reports the start and the end of that
search, which is no worse. A bench has one result for each trial, each on the next instance, and says of them what
`SumsUp` says; it fails exactly as the first instance or trial that does, and with fewer trials it shows the first
ones. With exact numbers a bench under accepted settings comes to its end, each result is the part of the start that
was gained, and the mean of these parts lies between nothing and the best of them, which is less than all. -/
theorem bench_compares_search_with_start {α σ τ υ : Type} (ln sqrt : ℚ → ℚ) [Scalar α] [OrderedScalar α]
    [CountingScalar α] [UniformSource σ α] [LawfulUniformSource σ α] [IndexSource υ]
    [UniformSource τ (Exact ln sqrt)] [LawfulUniformSource τ (Exact ln sqrt)] (config : BenchConfig)
    (settings : Settings) (hjobs : 1 ≤ config.jobs) (hlinks : 1 ≤ config.links) (hsettings : settings.check = .ok ()) :
    (∀ source : σ,
      (∀ (d : Demand α) (after : σ), randomInstance config.jobs config.links source = (.ok d, after) →
        (d.validate : Except (ModelError α) Unit) = .ok () ∧ d.jobs = config.jobs ∧ d.links = config.links ∧
        ∀ job < config.jobs, ∃ link < config.links, d.isActive job link = true) ∧
      (config.jobs * config.links < UInt64.size →
        ∃ (d : Demand α) (after : σ), randomInstance config.jobs config.links source = (.ok d, after))) ∧
    (∀ (d : Demand α) (choices : υ), (d.validate : Except (ModelError α) Unit) = .ok () →
      (∀ e, (runTrialWith d settings choices).outcome = .error e ↔
        (solveWith d settings choices).outcome = .error e) ∧
      ∀ trial, (runTrialWith d settings choices).outcome = .ok trial →
        ∃ solution, (solveWith d settings choices).outcome = .ok solution ∧
          trial.warmStartObjective = solution.warmStartObjective ∧ trial.searchObjective = solution.objective ∧
          le trial.searchObjective trial.warmStartObjective = true) ∧
    (∀ source : σ,
      (∀ summary : BenchSummary α, (runBenchWith config settings source).outcome = .ok summary ↔
        summary.SumsUp config settings source) ∧
      (∀ e : SearchError α, (runBenchWith config settings source).outcome = .error e ↔
        ∃ (made : List (Trial α)) (after : σ), TrialsFrom config.jobs config.links settings source made after ∧
          made.length < config.trials ∧ NextFails config.jobs config.links settings after e) ∧
      ∀ (fewer : Nat) (long : BenchSummary α), fewer ≤ config.trials →
        (runBenchWith config settings source).outcome = .ok long →
        ∃ short, (runBenchWith { config with trials := fewer } settings source).outcome = .ok short ∧
          short.results = long.results.take fewer ∧ short.results.length = fewer) ∧
    ∀ source : τ,
      (∀ summary : BenchSummary (Exact ln sqrt), (runBenchWith config settings source).outcome = .ok summary →
        summary.SumsUp config settings source ∧
        (∀ t ∈ summary.results, 1 ≤ t.searchObjective.value ∧ t.meanImprovement.value =
          (t.warmStartObjective.value - t.searchObjective.value) / t.warmStartObjective.value) ∧
        (1 ≤ config.trials → summary.Measures) ∧
        0 ≤ summary.meanImprovement.value ∧ summary.meanImprovement.value ≤ summary.bestImprovement.value ∧
        summary.bestImprovement.value < 1) ∧
      (config.jobs * config.links < UInt64.size →
        ∃ summary : BenchSummary (Exact ln sqrt), (runBenchWith config settings source).outcome = .ok summary) := by
  have hjobs' := Nat.pos_iff_ne_zero.1 hjobs
  have hlinks' := Nat.pos_iff_ne_zero.1 hlinks
  refine ⟨fun source => ⟨fun d after h => randomInstance_spec hlinks h,
    fun hcells => exists_randomInstance_eq hjobs hlinks hcells source⟩,
    fun d choices hd => ⟨fun e => runTrialWith_eq_error hd, fun trial h => exists_solveWith_of_runTrialWith hd h⟩,
    fun source => ⟨fun summary => runBenchWith_eq_ok hjobs' hlinks', fun e => runBenchWith_eq_error hjobs' hlinks',
      fun fewer long hfewer h => exists_runBenchWith_take hjobs' hlinks' hfewer h⟩,
    fun source => ⟨fun summary h => ?_, fun hcells => ?_⟩⟩
  · have hsums := (runBenchWith_eq_ok hjobs' hlinks').1 h
    obtain ⟨rest, hmade⟩ := hsums.made
    have hgains : ∀ t ∈ summary.results, t.Gains := hmade.forall_mem fun d _ _ trial hinstance htrial =>
      gains_of_runTrial (randomInstance_spec hlinks hinstance).1 htrial
    refine ⟨hsums, fun t ht => ⟨(hgains t ht).1, (hgains t ht).value_meanImprovement⟩, fun htrials => ?_, ?_⟩
    · have hne : summary.results ≠ [] := List.ne_nil_of_length_pos (hsums.length ▸ htrials)
      exact hsums.ofTrials_eq ▸ BenchSummary.measures_ofTrials hne hgains
    · exact hsums.ofTrials_eq ▸ BenchSummary.bounds_ofTrials hgains
  · rcases exists_trialsFrom_or_nextFails (Exact ln sqrt) config.jobs config.links settings config.trials source with
      ⟨results, rest, hlength, hmade⟩ | ⟨_, after, e, -, -, hfails⟩
    · exact ⟨_, (runBenchWith_eq_ok hjobs' hlinks').2 (BenchSummary.sumsUp_ofTrials hlength ⟨rest, hmade⟩)⟩
    · exact absurd hfails (not_nextFails hjobs hlinks hcells hsettings after e)

theorem bench_of_least_source :
    let config : BenchConfig := { trials := 4, jobs := 2, links := 3 }
    (1 ≤ config.jobs ∧ 1 ≤ config.links ∧ ({} : Settings).check = .ok ()) ∧
    (∃ (d : Demand Binary64) (after : LeastSource), randomInstance 2 3 LeastSource.least = (.ok d, after) ∧
      (d.validate : Except (ModelError Binary64) Unit) = .ok () ∧
      ∀ job < 2, ∃ link < 3, d.isActive job link = true) ∧
    ∃ long short : BenchSummary Tangent,
      (runBenchWith config {} LeastSource.least).outcome = .ok long ∧ long.results.length = 4 ∧
      (runBenchWith { config with trials := 2 } {} LeastSource.least).outcome = .ok short ∧
      short.results = long.results.take 2 ∧ long.Measures ∧
      (0 ≤ long.meanImprovement.value ∧ long.meanImprovement.value ≤ long.bestImprovement.value ∧
        long.bestImprovement.value < 1) ∧
      ∃ (d : Demand Tangent) (after : LeastSource) (first : Trial Tangent) (solution : Solution Tangent),
        randomInstance 2 3 LeastSource.least = (.ok d, after) ∧ long.results.head? = some first ∧
        (runTrial d {}).outcome = .ok first ∧
        (solveWith d {} (WordStream.ofSeed ({} : Settings).seed)).outcome = .ok solution ∧
        first.warmStartObjective = solution.warmStartObjective ∧ first.searchObjective = solution.objective := by
  intro config
  have hconfig : 1 ≤ config.jobs ∧ 1 ≤ config.links ∧ ({} : Settings).check = .ok () := ⟨by decide, by decide, rfl⟩
  obtain ⟨hinstances, -, -, -⟩ := bench_compares_search_with_start (α := Binary64) (σ := LeastSource)
    (τ := LeastSource) (υ := WordStream) (fun x => x - 1) (fun x => (x + 1) / 2) config {} hconfig.1 hconfig.2.1
    hconfig.2.2
  obtain ⟨hspec, hexists⟩ := hinstances .least
  obtain ⟨d, after, hinstance⟩ := hexists (by decide)
  obtain ⟨hd, -, -, hused⟩ := hspec d after hinstance
  obtain ⟨hinstances', htrials, hbenches, hexact⟩ := bench_compares_search_with_start (α := Tangent)
    (σ := LeastSource) (τ := LeastSource) (υ := WordStream) (fun x => x - 1) (fun x => (x + 1) / 2) config {}
    hconfig.1 hconfig.2.1 hconfig.2.2
  obtain ⟨hbounds, hruns⟩ := hexact .least
  obtain ⟨long, hlong⟩ := hruns (by decide)
  obtain ⟨-, -, hshorter⟩ := hbenches .least
  obtain ⟨short, hshort, hfirst, -⟩ := hshorter 2 long (by decide) hlong
  obtain ⟨hsums, -, hmeasures, hmean⟩ := hbounds long hlong
  have hlength : long.results.length = 4 := hsums.length
  obtain ⟨rest, hmade⟩ := hsums.made
  generalize hresults : long.results = results at hmade hlength
  cases hmade with
  | nil => exact nomatch hlength
  | @cons _ after' _ d' first others hinstance' htrial _ =>
    have hd' := ((hinstances' .least).1 d' after' hinstance').1
    obtain ⟨solution, hsolution, hstart, hsearch, -⟩ := (htrials d' _ hd').2 first htrial
    exact ⟨hconfig, ⟨d, after, hinstance, hd, hused⟩, long, short, hlong, hresults ▸ hlength, hshort, hfirst,
      hmeasures (by decide), hmean, d', after', first, solution, hinstance', by rw [hresults]; rfl, htrial, hsolution,
      hstart, hsearch⟩

end LinkPriority

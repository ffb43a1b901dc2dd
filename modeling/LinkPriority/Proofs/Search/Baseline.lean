import LinkPriority.Proofs.Search.Failing
import LinkPriority.Proofs.Search.Solving
import LinkPriority.Proofs.Sharing.Bounds

/-! The warm start is scored twice, by the model on its own and by a search as its root, and both get the same answer:
where the one fails the other fails in the same way, and where it does not, its objective is what the search reports for
its start and never goes above. In exact arithmetic neither fails. -/

namespace LinkPriority

variable {α σ : Type} [Scalar α] {d : Demand α} {p : Priority} {settings : Settings}

/-! ### The model on its own -/

theorem outcome_evaluatePriority (h : settings.check = .ok ()) (d : Demand α) (p : Priority) :
    (evaluatePriority d p settings).outcome = (evaluate d p settings.epochBudget).mapError .model := by
  have hsettings : (settings.validate : Except (SearchError α) Unit) = .ok () := by
    rw [Settings.validate, h]
    rfl
  rw [evaluatePriority, hsettings, ← outcome_evaluateRecorded]

theorem outcome_evaluatePriority_of_refused {fault : SettingsFault} (h : settings.check = .error fault)
    (d : Demand α) (p : Priority) : (evaluatePriority d p settings).outcome = .error (.settings fault) := by
  have hsettings : (settings.validate : Except (SearchError α) Unit) = .error (.settings fault) := by
    rw [Settings.validate, h]
    rfl
  rw [evaluatePriority, hsettings]

omit [Scalar α] in
theorem Settings.check_eq_ok : settings.check = .ok () ↔
    (settings.validate : Except (SearchError α) Unit) = .ok () :=
  Except.mapError_eq_ok.symm

/-! ### The search -/

variable [IndexSource σ] {choices : σ}

section Complete

variable {ω : Type} {s : Search α σ ω} {t : Session α σ ω}

theorem Search.outcome_complete_of_error {e : SearchError α} (h : Move.run ⟨s, []⟩ = .error e t) :
    s.complete.outcome = .error e := by
  rw [complete, h]

theorem Search.outcome_complete_of_ok {solution : Solution α} (h : Move.run ⟨s, []⟩ = .ok () t)
    (hsolution : t.search.finalize = .ok solution) : s.complete.outcome = .ok (solution, t.search.observer.state) := by
  rw [complete, h]
  dsimp only
  rw [hsolution]

theorem outcome_solveWith {s₀ : Search α σ Unit}
    (h : Search.fromWarmStart d settings choices Observer.silent = .ok s₀) :
    (solveWith d settings choices).outcome = s₀.complete.outcome.map Prod.fst := by
  rw [solveWith, solveObserved, h]

end Complete

variable [OrderedScalar α]

/-- Where the model has no answer for the warm start, a search from it ends there. -/
theorem solveWith_of_baseline_error (hd : (d.validate : Except (ModelError α) Unit) = .ok ()) {e : SearchError α}
    (h : (evaluatePriority d (settings.warmStart.priority d) settings).outcome = .error e) (choices : σ) :
    (solveWith d settings choices).outcome = .error e := by
  rcases Search.fromWarmStart_cases hd settings choices Observer.silent with
    ⟨fault, hcheck, hrefused⟩ | ⟨s₀, hstart, hfrom⟩
  · rw [outcome_evaluatePriority_of_refused hcheck] at h
    obtain rfl := Except.error.inj h
    rw [solveWith, solveObserved, hrefused]
    rfl
  · have hs := Search.sound_start hstart
    obtain ⟨hsettings, -, -, hs₀⟩ := Search.start_eq_ok.1 hstart
    have hroot : s₀.node? 0 = some (.root (settings.warmStart.priority d) settings.maxChildren) := by
      rw [hs₀]
      rfl
    have hdemand : s₀.demand = d ∧ s₀.settings = settings := by
      rw [hs₀]
      exact ⟨rfl, rfl⟩
    rw [outcome_evaluatePriority (Settings.check_eq_ok.2 hsettings)] at h
    cases hmodel : evaluate d (settings.warmStart.priority d) settings.epochBudget with
    | ok _ =>
      rw [hmodel] at h
      cases h
    | error fault =>
      rw [hmodel] at h
      have hpending : ∀ s₁ a, ¬s₀.Appraises 0 s₁ a := by
        intro s₁ a ha
        obtain ⟨_, hanswer, -⟩ := (ha.isOf hs hroot).evaluation
        rw [hdemand.1, hdemand.2] at hanswer
        cases hmodel.symm.trans hanswer
      generalize hrun : Move.run ⟨s₀, []⟩ = result
      have houtcome := Move.run_outcome (t := ⟨s₀, []⟩) hs
      rw [hrun] at houtcome
      cases houtcome with
      | done ha | halts ha => exact absurd ha (hpending _ _)
      | stuck hstuck _ =>
        obtain ⟨hn, -, hfails⟩ := hstuck
        obtain rfl := Option.some.inj (hroot.symm.trans hn)
        rw [hdemand.1, hdemand.2] at hfails
        obtain rfl := Except.error.inj (hmodel.symm.trans hfails)
        obtain rfl := Except.error.inj h
        rw [outcome_solveWith hfrom, Search.outcome_complete_of_error hrun]
        rfl

/-- A solution reports the model's answer for the warm start and its own for some table, which is no larger. -/
theorem exists_baseline_of_solveWith (hd : (d.validate : Except (ModelError α) Unit) = .ok ()) {solution : Solution α}
    (h : (solveWith d settings choices).outcome = .ok solution) :
    (∃ baseline, (evaluatePriority d (settings.warmStart.priority d) settings).outcome = .ok baseline ∧
      solution.warmStartObjective = baseline.objective) ∧
    (∃ table e, evaluate d table settings.epochBudget = .ok e ∧ solution.objective = e.objective) ∧
    Scalar.le solution.objective solution.warmStartObjective = true := by
  have houtcome := solve_outcome hd settings choices Observer.silent
  obtain ⟨⟨solution, u⟩, hsolve, rfl⟩ := Except.map_eq_ok.1 h
  rw [hsolve] at houtcome
  cases houtcome with
  | @solved s₀ s₁ s' a _ hstart ha hiterates hsolution =>
    obtain ⟨root, hroot, htable, hknown⟩ := Search.exists_root_of_run hstart ha hiterates.changes
    obtain ⟨hs, hdemand, hsame⟩ := Search.sound_of_run hstart ha hiterates.changes
    obtain ⟨n, b, hbest, rfl⟩ := Search.finalize_eq_ok.1 hsolution
    have hobjective : s'.rootObjective? = some a.objective := by
      rw [Search.rootObjective?, hroot, Option.bind_some, Node.objective?, hknown, Option.map_some]
    have hcheck := Settings.check_eq_ok.2 (Search.start_eq_ok.1 hstart).1
    refine ⟨?_, ?_, ?_⟩
    · obtain ⟨e, he, heq, -⟩ := ((hs.node 0 root hroot).isOf a hknown).evaluation
      rw [hdemand, hsame, htable] at he
      refine ⟨e, ?_, ?_⟩
      · rw [outcome_evaluatePriority hcheck, he]
        rfl
      · rw [hobjective, Option.getD_some, heq]
    · obtain ⟨id, hn, -, hb⟩ := (Search.mem_eligible hs.tree).1 (Search.mem_eligible_of_best? hbest)
      obtain ⟨e, he, heq, -⟩ := ((hs.node id n hn).isOf b hb).evaluation
      rw [hdemand, hsame] at he
      exact ⟨n.priority, e, he, heq⟩
    · rw [hobjective, Option.getD_some]
      exact hs.le_of_best? hbest ((Search.mem_eligible hs.tree).2 ⟨0, hroot, .inl rfl, hknown⟩)

/-! ### Exact numbers -/

section Exact

variable {ln sqrt : ℚ → ℚ} {d : Demand (Exact ln sqrt)}

theorem one_le_objective_of_evaluate (hd : (d.validate : Except (ModelError (Exact ln sqrt)) Unit) = .ok ())
    {budget : Nat} {e : Evaluation (Exact ln sqrt)} (h : evaluate d p budget = .ok e) : 1 ≤ e.objective.value := by
  obtain ⟨course, hcourse, -⟩ := Except.bind_eq_ok.1 h
  obtain ⟨hbudget, horders, -⟩ := simulate_eq_ok.1 hcourse
  have hjobs := Demand.jobs_ne_zero hd
  obtain rfl := Except.ok.inj ((evaluate_exact_eq horders hjobs hbudget).symm.trans h)
  exact (Times.atLeastAlone_after hd p _).one_le_meanSlowdown hjobs

omit [IndexSource σ] in
/-- With exact numbers the model has an answer for every node. -/
theorem Search.Sound.not_stuck {ω : Type} {s : Search (Exact ln sqrt) σ ω} {id : Nat}
    {e : SearchError (Exact ln sqrt)} (hs : s.Sound) (hjobs : s.demand.jobs ≠ 0) : ¬s.Stuck id e := by
  rintro ⟨hn, -, hfails⟩
  obtain ⟨orders, horders⟩ := Priority.exists_orders_iff.2 (hs.node _ _ hn).fits
  exact nomatch (evaluate_exact_eq horders hjobs hs.budget).symm.trans hfails

/-- With exact numbers a search comes to its end. -/
theorem exists_solveWith_exact_eq (hd : (d.validate : Except (ModelError (Exact ln sqrt)) Unit) = .ok ())
    (hcheck : settings.check = .ok ()) (choices : σ) :
    ∃ solution, (solveWith d settings choices).outcome = .ok solution := by
  rcases Search.fromWarmStart_cases hd settings choices Observer.silent with
    ⟨fault, hfault, -⟩ | ⟨s₀, hstart, hfrom⟩
  · exact nomatch hcheck.symm.trans hfault
  · have hs := Search.sound_start hstart
    have hjobs : s₀.demand.jobs ≠ 0 := by
      obtain ⟨-, -, -, rfl⟩ := Search.start_eq_ok.1 hstart
      exact Demand.jobs_ne_zero hd
    generalize hrun : Move.run ⟨s₀, []⟩ = result
    have houtcome := Move.run_outcome (t := ⟨s₀, []⟩) hs
    rw [hrun] at houtcome
    cases houtcome with
    | stuck hstuck _ => exact absurd hstuck (hs.not_stuck hjobs)
    | halts ha hiterates hhalts =>
      have hs₂ := hiterates.changes.sound (hs.appraises ha)
      obtain ⟨leaf, -, hstuck⟩ := hhalts.blocked hs₂.tree
      have hdemand := hhalts.changes.demand_eq.trans (hiterates.changes.demand_eq.trans ha.demand_eq)
      exact absurd hstuck ((hhalts.changes.sound hs₂).not_stuck (hdemand ▸ hjobs))
    | done ha hiterates =>
      obtain ⟨solution, hsolution⟩ := Search.exists_finalize_eq hstart ha hiterates.changes
      refine ⟨solution, ?_⟩
      rw [outcome_solveWith hfrom, Search.outcome_complete_of_ok hrun hsolution]
      rfl

end Exact

end LinkPriority

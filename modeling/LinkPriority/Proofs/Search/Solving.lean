import LinkPriority.Search.Solve
import LinkPriority.Proofs.WarmStart
import LinkPriority.Proofs.Search.Iteration
import LinkPriority.Proofs.Search.Readout

/-! How solving ends. An accepted demand is solved, unless the settings are refused or the numbers of the model's
run stop the search: the warm start fits, the tree is always in order, and after the run its root is appraised. -/

namespace LinkPriority

variable {α σ ω : Type} [Scalar α] [IndexSource σ] {d : Demand α} {settings : Settings}

/-- How solving an accepted demand ends. -/
inductive SolveOutcome (d : Demand α) (settings : Settings) (choices : σ) (observer : Observer α ω) :
    Except (SearchError α) (Solution α × ω) → Prop where
  | refused {fault : SettingsFault} (h : settings.check = .error fault) :
    SolveOutcome d settings choices observer (.error (.settings fault))
  | failed {objective : α} {epochs : Nat} :
    SolveOutcome d settings choices observer (.error (.model (.numeric objective epochs)))
  | solved {s₀ s₁ s' : Search α σ ω} {a : Appraisal α} {solution : Solution α}
    (hstart : Search.start d (settings.warmStart.priority d) settings choices observer = .ok s₀)
    (ha : s₀.Appraises 0 s₁ a) (h : Search.Iterates settings.iterations s₁ s')
    (hsolution : s'.finalize = .ok solution) :
    SolveOutcome d settings choices observer (.ok (solution, s'.observer.state))

section Run

variable {s₀ s₁ s' : Search α σ ω} {p : Priority} {choices : σ} {observer : Observer α ω} {a : Appraisal α}
  (hstart : Search.start d p settings choices observer = .ok s₀) (ha : s₀.Appraises 0 s₁ a)
  (h : Search.Changes s₁ s')
include hstart ha h

/-- After a run the root still has the table the search started from, and it is appraised. -/
theorem Search.exists_root_of_run :
    ∃ root, s'.node? 0 = some root ∧ root.priority = p ∧ root.appraisal = some a := by
  obtain ⟨r, hr, hr₁⟩ := ha.exists_node
  obtain ⟨root, hroot, hpersists⟩ := h.exists_persists hr₁
  obtain ⟨-, -, -, rfl⟩ := Search.start_eq_ok.1 hstart
  obtain rfl : Node.root _ _ = r := Option.some.inj hr
  exact ⟨root, hroot, hpersists.priority, hpersists.appraisal a rfl⟩

theorem Search.sound_of_run : s'.Sound ∧ s'.demand = d ∧ s'.settings = settings := by
  have hchanges : Search.Changes s₀ s' := .head (.appraise ha) h
  have hs' := hchanges.sound (Search.sound_start hstart)
  obtain ⟨-, -, -, rfl⟩ := Search.start_eq_ok.1 hstart
  exact ⟨hs', hchanges.demand_eq, hchanges.settings_eq⟩

/-- After a run there is an answer. -/
theorem Search.exists_finalize_eq : ∃ solution, s'.finalize = .ok solution := by
  obtain ⟨root, hroot, -, hknown⟩ := Search.exists_root_of_run hstart ha h
  obtain ⟨best, hbest⟩ := (Search.sound_of_run hstart ha h).1.tree.exists_best?_eq hroot hknown
  exact ⟨_, by rw [Search.finalize, hbest]⟩

end Run

omit [IndexSource σ] in
/-- With an accepted demand a search starts from its warm start, unless the settings are refused. -/
theorem Search.fromWarmStart_cases (hd : (d.validate : Except (ModelError α) Unit) = .ok ()) (settings : Settings)
    (choices : σ) (observer : Observer α ω) :
    (∃ fault, settings.check = .error fault ∧
      Search.fromWarmStart d settings choices observer = .error (.settings fault)) ∨
    ∃ s₀, Search.start d (settings.warmStart.priority d) settings choices observer = .ok s₀ ∧
      Search.fromWarmStart d settings choices observer = .ok s₀ := by
  rw [Search.fromWarmStart, Settings.validate]
  cases hcheck : settings.check with
  | error fault => exact .inl ⟨fault, rfl, rfl⟩
  | ok u =>
    have hsettings : (settings.validate : Except (SearchError α) Unit) = .ok () := by
      rw [Settings.validate, hcheck]
      rfl
    obtain ⟨s₀, hstart⟩ := Search.exists_start_eq hsettings hd (WarmStart.fits_priority settings.warmStart d)
      choices observer
    rw [hd]
    exact .inr ⟨s₀, hstart, hstart⟩

variable [OrderedScalar α]

theorem solve_outcome (hd : (d.validate : Except (ModelError α) Unit) = .ok ()) (settings : Settings) (choices : σ)
    (observer : Observer α ω) :
    SolveOutcome d settings choices observer (solveObserved d settings choices observer).outcome := by
  rw [solveObserved]
  rcases Search.fromWarmStart_cases hd settings choices observer with
    ⟨fault, hcheck, hrefused⟩ | ⟨s₀, hstart, hfrom⟩
  · rw [hrefused]
    exact .refused hcheck
  · have hsame : s₀.settings = settings := by
      obtain ⟨-, -, -, rfl⟩ := Search.start_eq_ok.1 hstart
      rfl
    have houtcome := Move.run_outcome (t := ⟨s₀, []⟩) (Search.sound_start hstart)
    rw [hfrom]
    dsimp only
    rw [Search.complete]
    generalize Move.run ⟨s₀, []⟩ = result at houtcome
    cases houtcome with
    | stuck h _ =>
      obtain ⟨objective, epochs, rfl⟩ := h.exists_numeric
      exact .failed
    | halts _ _ h =>
      obtain ⟨objective, epochs, rfl⟩ := h.exists_numeric
      exact .failed
    | @done s₁ t a ha h =>
      obtain ⟨solution, hsolution⟩ := Search.exists_finalize_eq hstart ha h.changes
      rw [hsame] at h
      dsimp only
      rw [hsolution]
      exact .solved hstart ha h hsolution

/-- The table of a solution fits the demand and has rank 0 in every inactive cell. -/
theorem priority_of_solveWith (hd : (d.validate : Except (ModelError α) Unit) = .ok ()) {choices : σ}
    {solution : Solution α} (h : (solveWith d settings choices).outcome = .ok solution) :
    solution.priority.Fits d ∧ ∀ job < d.jobs, ∀ link < d.links, d.isActive job link = false →
      solution.priority.rank job link = 0 := by
  have houtcome := solve_outcome hd settings choices Observer.silent
  obtain ⟨⟨solution, u⟩, hsolve, rfl⟩ := Except.map_eq_ok.1 h
  rw [hsolve] at houtcome
  cases houtcome with
  | solved hstart ha hiterates hsolution =>
    obtain ⟨hs, hdemand, -⟩ := Search.sound_of_run hstart ha hiterates.changes
    exact hdemand ▸ hs.priority_of_finalize hsolution

end LinkPriority

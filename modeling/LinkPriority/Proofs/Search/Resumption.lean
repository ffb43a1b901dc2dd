import LinkPriority.Proofs.Search.Completion
import LinkPriority.Proofs.Search.Parallel
import LinkPriority.Proofs.Search.Solving

/-! Searches of different lengths. A run appraises the root and iterates; a longer run does what a shorter one does
and goes on from there. So the longer one has all nodes of the shorter, its observer has been told the same and more,
and its answer is at least as good. How loudly the two run, and who observes them, makes no difference. -/

namespace LinkPriority

variable {α σ ω : Type} [Scalar α] [IndexSource σ]

/-! ### What observers are told -/

namespace Search

variable {s s' : Search α σ ω}

theorem Change.exists_hear_eq (h : Change s s') : ∃ entries, s'.observer = s.observer.hear entries := by
  cases h with
  | appraise h =>
    cases h with
    | known => exact ⟨[], rfl⟩
    | fresh => exact ⟨[(_, _)], rfl⟩
  | branch _ _ _ hb =>
    rw [hb.rest]
    exact ⟨[], rfl⟩
  | reward => exact ⟨[], rfl⟩
  | count => exact ⟨[], rfl⟩

theorem Changes.exists_hear_eq (h : Changes s s') : ∃ entries, s'.observer = s.observer.hear entries := by
  induction h with
  | refl => exact ⟨[], rfl⟩
  | tail _ hchange ih =>
    obtain ⟨entries, heq⟩ := ih
    obtain ⟨more, hmore⟩ := hchange.exists_hear_eq
    exact ⟨entries ++ more, by rw [hmore, heq, Observer.hear_append]⟩

/-- What a trace holds it keeps, in its place. -/
theorem Changes.entries_isPrefix {s s' : Search α σ (Trace α)} (h : Changes s s')
    (hnotify : s.observer.notify = Trace.push) :
    s.observer.state.entries.toList <+: s'.observer.state.entries.toList := by
  obtain ⟨entries, heq⟩ := h.exists_hear_eq
  rw [heq, Observer.entries_hear hnotify]
  exact List.prefix_append _ _

end Search

/-! ### Runs of so many iterations -/

namespace Move

variable {t t' : Session α σ ω}

/-- Appraises the root and iterates so often. -/
def rounds (count : Nat) : Move α σ ω Unit := do
  let _ ← appraisal 0
  iterate count

/-- More iterations are iterations that are gone on with. -/
theorem iterate_add (count more : Nat) :
    (iterate (count + more) : Move α σ ω Unit) = iterate count >>= fun _ => iterate more := by
  induction count with
  | zero => rw [Nat.zero_add, iterate, pure_bind]
  | succ count ih =>
    rw [Nat.succ_add, iterate, iterate, ih]
    simp only [bind_assoc]

theorem rounds_add (count more : Nat) :
    (rounds (count + more) : Move α σ ω Unit) = rounds count >>= fun _ => iterate more := by
  rw [rounds, rounds, iterate_add, bind_assoc]

theorem Parallel.rounds (count : Nat) : Parallel (rounds count : Move α σ ω Unit) (Move.rounds count) :=
  .of_moves fun _ _ _ _ _ => .bind (.appraisal 0) fun _ _ _ => .iterate count

variable [OrderedScalar α]

theorem run_eq_rounds (hs : t.search.Sound) : Move.run t = rounds t.search.settings.iterations t := by
  obtain ⟨root, hroot, -⟩ := hs.tree.root
  rw [Move.run, rounds]
  generalize hresult : Move.appraisal 0 t = result
  have houtcome := appraisal_outcome hs hroot
  rw [hresult] at houtcome
  cases houtcome with
  | stuck => rw [bind_of_error hresult, bind_of_error hresult]
  | answers ha => rw [bind_of_ok hresult, bind_of_ok hresult, get_bind, ha.settings_eq]

theorem iterates_of_iterate {count : Nat} (hs : t.search.Sound) (h : iterate count t = .ok () t') :
    Search.Iterates count t.search t'.search := by
  have houtcome := iterate_outcome hs count
  rw [h] at houtcome
  cases houtcome with
  | done h => exact h

theorem exists_iterates_of_rounds {count : Nat} (hs : t.search.Sound) (h : rounds count t = .ok () t') :
    ∃ s₁ a, t.search.Appraises 0 s₁ a ∧ Search.Iterates count s₁ t'.search := by
  obtain ⟨root, hroot, -⟩ := hs.tree.root
  generalize hresult : Move.appraisal 0 t = result
  have houtcome := appraisal_outcome hs hroot
  rw [hresult] at houtcome
  cases houtcome with
  | stuck =>
    rw [rounds, bind_of_error hresult] at h
    simp at h
  | answers ha =>
    rw [rounds, bind_of_ok hresult] at h
    exact ⟨_, _, ha, iterates_of_iterate (hs.appraises ha) h⟩

end Move

/-! ### Solving for longer -/

variable {d : Demand α} {settings short long : Settings} {choices : σ}

/-- With these settings solving ends with the nodes `nodes` and gives `solution`, whoever observes; the observer is
told of `heard`. -/
def Solves (d : Demand α) (settings : Settings) (choices : σ) (nodes : Array (Node α)) (heard : List (Nat × α))
    (solution : Solution α) : Prop :=
  ∀ (ω : Type) (o : Observer α ω), ∃ s t, Search.fromWarmStart d settings choices o = .ok s ∧
    Move.run ⟨s, []⟩ = .ok () t ∧ t.search.nodes = nodes ∧
    (solveObserved d settings choices o).outcome = .ok (solution, (o.hear heard).state)

/-- What observers are told is what a trace holds. -/
theorem Solves.outcome_tracing {nodes : Array (Node α)} {heard : List (Nat × α)} {solution : Solution α}
    (h : Solves d settings choices nodes heard solution) :
    (solveObserved d settings choices Observer.tracing).outcome = .ok (solution, ⟨heard.toArray⟩) := by
  have hentries : (Observer.tracing.hear heard).state = ⟨heard.toArray⟩ := by
    have hlist := Observer.entries_hear (o := (Observer.tracing : Observer α (Trace α))) rfl heard
    exact congrArg Trace.mk (Array.toList_inj.1 hlist)
  obtain ⟨_, _, _, _, _, hanswer⟩ := h (Trace α) Observer.tracing
  rw [hanswer, hentries]

/-- A solution is read out at the end of a run. -/
theorem solveObserved_eq_ok {o : Observer α ω} {solution : Solution α} {w : ω} :
    (solveObserved d settings choices o).outcome = .ok (solution, w) ↔
      ∃ s t, Search.fromWarmStart d settings choices o = .ok s ∧ Move.run ⟨s, []⟩ = .ok () t ∧
        t.search.finalize = .ok solution ∧ t.search.observer.state = w := by
  constructor
  · intro h
    rw [solveObserved] at h
    cases hfrom : Search.fromWarmStart d settings choices o with
    | error e => simp [hfrom] at h
    | ok s =>
      cases hrun : Move.run ⟨s, []⟩ with
      | error e t => simp [hfrom, Search.complete, hrun] at h
      | ok u t =>
        cases hfinalize : t.search.finalize with
        | error e => simp [hfrom, Search.complete, hrun, hfinalize] at h
        | ok solution' =>
          simp only [hfrom, Search.complete, hrun, hfinalize, Except.ok.injEq, Prod.mk.injEq] at h
          exact ⟨s, t, rfl, hrun, hfinalize.trans (congrArg _ h.1), h.2⟩
  · rintro ⟨s, t, hfrom, hrun, hfinalize, rfl⟩
    simp only [solveObserved, hfrom, Search.complete, hrun, hfinalize]

variable [OrderedScalar α]

/-- What a traced search does in so many iterations solves the demand with settings that ask for as many. -/
theorem solves_of_rounds (hd : (d.validate : Except (ModelError α) Unit) = .ok ())
    (hshort : (short.validate : Except (SearchError α) Unit) = .ok ()) (hagree : short.Agrees long)
    {r₀ : Search α σ (Trace α)} {r : Session α σ (Trace α)} {solution : Solution α}
    (hr₀ : Search.start d (long.warmStart.priority d) long choices Observer.tracing = .ok r₀)
    (hr : Move.rounds short.iterations ⟨r₀, []⟩ = .ok () r) (hsolution : r.search.finalize = .ok solution) :
    Solves d short choices r.search.nodes r.search.observer.state.entries.toList solution := by
  intro ω o
  rcases Search.fromWarmStart_cases hd short choices o with ⟨fault, hcheck, -⟩ | ⟨s, hstart, hfrom⟩
  · rw [Settings.validate, hcheck] at hshort
    simp [Except.mapError] at hshort
  · have hends := Move.Parallel.rounds short.iterations o ⟨s, []⟩ ⟨r₀, []⟩ (Search.follows_start hagree hstart hr₀)
    rw [hr] at hends
    obtain ⟨t, ht, hfollows⟩ := hends.exists_left
    have hsettings : s.settings = short := by
      obtain ⟨-, -, -, rfl⟩ := Search.start_eq_ok.1 hstart
      rfl
    have hrun : Move.run ⟨s, []⟩ = .ok () t := by
      rw [Move.run_eq_rounds (t := ⟨s, []⟩) (Search.sound_start hstart), hsettings, ht]
    have hstate := congrArg Observer.state hfollows.observer
    have hanswer := solveObserved_eq_ok.2 ⟨s, t, hfrom, hrun, hfollows.finalize_eq.trans hsolution, hstate⟩
    exact ⟨s, t, hfrom, hrun, hfollows.nodes, hanswer⟩

/-- A longer run of a traced search goes on from a shorter one: what the trace holds and what is fixed about the
nodes stays, and the answer gets no worse. -/
theorem Move.resumes {r₀ : Search α σ (Trace α)} {r r' : Session α σ (Trace α)} {count more : Nat} {p : Priority}
    (hr₀ : Search.start d p settings choices Observer.tracing = .ok r₀) (hr : Move.rounds count ⟨r₀, []⟩ = .ok () r)
    (hr' : Move.iterate more r = .ok () r') :
    r.search.observer.state.entries.toList <+: r'.search.observer.state.entries.toList ∧
    (∀ i n, r.search.node? i = some n → ∃ n', r'.search.node? i = some n' ∧ n.Persists n') ∧
    ∀ solution solution', r.search.finalize = .ok solution → r'.search.finalize = .ok solution' →
      Scalar.le solution'.objective solution.objective = true := by
  have hs₀ := Search.sound_start hr₀
  obtain ⟨r₁, a, ha, hfirst⟩ := exists_iterates_of_rounds (t := ⟨r₀, []⟩) hs₀ hr
  have hs₁ := hs₀.appraises ha
  have hs := hfirst.changes.sound hs₁
  have hsecond := iterates_of_iterate hs hr'
  have hs' := hsecond.changes.sound hs
  have htraced := hfirst.changes.traced ((Search.Change.appraise ha).traced (Search.traced_start hr₀))
  have htallied : r'.search.Tallied :=
    hsecond.tallied hs (hfirst.tallied hs₁ ((Search.tallied_start hr₀).appraises_root ha))
  refine ⟨hsecond.changes.entries_isPrefix htraced.notify, fun i n hn => hsecond.changes.exists_persists hn, ?_⟩
  intro solution solution' hsolution hsolution'
  obtain ⟨n, b, hbest, rfl⟩ := Search.finalize_eq_ok.1 hsolution
  obtain ⟨n', b', hbest', rfl⟩ := Search.finalize_eq_ok.1 hsolution'
  obtain ⟨i, hn, -, hb⟩ := (Search.mem_eligible hs.tree).1 (Search.mem_eligible_of_best? hbest)
  -- after the iterations every appraised node is eligible, the best one of the shorter run among them
  obtain ⟨m, hm, hpersists⟩ := hsecond.changes.exists_persists hn
  exact hs'.le_of_best? hbest' (htallied.mem_eligible hs'.tree hm (hpersists.appraisal b hb))

/-- Whoever observed it, a solution is one that a traced search finds in as many iterations. -/
theorem exists_rounds_of_solveObserved (hd : (d.validate : Except (ModelError α) Unit) = .ok ()) {o : Observer α ω}
    {solution : Solution α} {w : ω} (h : (solveObserved d settings choices o).outcome = .ok (solution, w)) :
    ∃ r₀ r, Search.start d (settings.warmStart.priority d) settings choices Observer.tracing = .ok r₀ ∧
      Move.rounds settings.iterations ⟨r₀, []⟩ = .ok () r ∧ r.search.finalize = .ok solution := by
  obtain ⟨s, t, hfrom, hrun, hfinalize, -⟩ := solveObserved_eq_ok.1 h
  rcases Search.fromWarmStart_cases hd settings choices o with ⟨fault, -, hrefused⟩ | ⟨s', hstart, hfrom'⟩
  · simp [hfrom] at hrefused
  obtain rfl : s = s' := Except.ok.inj (hfrom.symm.trans hfrom')
  obtain ⟨hsettings, -, hfits, hs⟩ := Search.start_eq_ok.1 hstart
  obtain ⟨r₀, hr₀⟩ := Search.exists_start_eq hsettings hd hfits choices Observer.tracing
  have hends := Move.Parallel.rounds settings.iterations o ⟨s, []⟩ ⟨r₀, []⟩ (Search.follows_start .refl hstart hr₀)
  have hsame : s.settings = settings := by rw [hs]
  rw [Move.run_eq_rounds (t := ⟨s, []⟩) (Search.sound_start hstart), hsame] at hrun
  rw [hrun] at hends
  obtain ⟨r, hr, hfollows⟩ := hends.exists_right
  exact ⟨r₀, r, hr₀, hr, hfollows.finalize_eq.symm.trans hfinalize⟩

/-- A search that is run for longer goes on from a shorter one, whoever observes the two and however loudly they run.
If it finds a solution, so does the shorter one; the observer of the shorter one is told the beginning of what that
of the longer one is told, the shorter one's nodes are nodes of the longer one, and its solution is not better. -/
theorem longer_search_resumes_shorter (hd : (d.validate : Except (ModelError α) Unit) = .ok ())
    (hshort : (short.validate : Except (SearchError α) Unit) = .ok ()) (hagree : short.Agrees long)
    (hle : short.iterations ≤ long.iterations) (seeded : UInt64 → σ) {o : Observer α ω} {solution' : Solution α}
    {w : ω} (hsolve : (solveObserved d long (seeded long.seed) o).outcome = .ok (solution', w)) :
    ∃ nodes heard solution nodes' heard', Solves d short (seeded short.seed) nodes heard solution ∧
      Solves d long (seeded long.seed) nodes' heard' solution' ∧ heard <+: heard' ∧
      (∀ (i : Nat) n, nodes[i]? = some n → ∃ n', nodes'[i]? = some n' ∧ n.Persists n') ∧
      Scalar.le solution'.objective solution.objective = true ∧
      (short.iterations = long.iterations → solution = solution') := by
  rw [hagree.seed] at hsolve ⊢
  generalize seeded short.seed = choices at hsolve ⊢
  obtain ⟨r₀, r', hr₀, hr', hsolution'⟩ := exists_rounds_of_solveObserved hd hsolve
  have hlong := (Search.start_eq_ok.1 hr₀).1
  obtain ⟨more, hmore⟩ := Nat.exists_eq_add_of_le hle
  have hboth := hr'
  rw [hmore, Move.rounds_add] at hboth
  obtain ⟨u, r, hr, hrest⟩ := Move.exists_of_bind_eq_ok hboth
  obtain ⟨r₁, a, ha, hiterates⟩ := Move.exists_iterates_of_rounds (t := ⟨r₀, []⟩) (Search.sound_start hr₀) hr
  obtain ⟨solution, hsolution⟩ := Search.exists_finalize_eq hr₀ ha hiterates.changes
  obtain ⟨hentries, hpersists, hobjective⟩ := Move.resumes hr₀ hr hrest
  refine ⟨_, _, solution, _, _, solves_of_rounds hd hshort hagree hr₀ hr hsolution,
    solves_of_rounds hd hlong .refl hr₀ hr' hsolution', hentries, hpersists,
    hobjective solution solution' hsolution hsolution', fun hsame => ?_⟩
  obtain rfl : more = 0 := by omega
  have hstay : r = r' := (EStateM.Result.ok.inj hrest).2
  rw [hstay, hsolution'] at hsolution
  exact (Except.ok.inj hsolution).symm

theorem sharedLink_search_resumes :
    (sharedLink.validate : Except (ModelError Tangent) Unit) = .ok () ∧
    ∃ nodes heard solution nodes' heard' solution',
      Solves sharedLink { iterations := 1, warmStart := .identity } (WordStream.ofSeed 0) nodes heard solution ∧
      Solves sharedLink { iterations := 2, warmStart := .identity, verbose := true, logFreq := 1 }
        (WordStream.ofSeed 0) nodes' heard' solution' ∧
      heard <+: heard' ∧ heard.length = 2 ∧ heard'.length = 3 ∧
      Scalar.le solution'.objective solution.objective = true := by
  have hd : (sharedLink.validate : Except (ModelError Tangent) Unit) = .ok () := by cbv
  have hagree : Settings.Agrees { iterations := 1, warmStart := .identity }
      { iterations := 2, warmStart := .identity, verbose := true, logFreq := 1 } := ⟨rfl, rfl, rfl, rfl⟩
  have hfirst : (solveObserved sharedLink { iterations := 1, warmStart := .identity } (WordStream.ofSeed 0)
      Observer.tracing).outcome.map (fun answer => answer.2.entries.size) = .ok 2 := by cbv
  have hsecond : (solveObserved sharedLink { iterations := 2, warmStart := .identity, verbose := true, logFreq := 1 }
      (WordStream.ofSeed 0) Observer.tracing).outcome.map (fun answer => answer.2.entries.size) = .ok 3 := by cbv
  obtain ⟨⟨solution', trace⟩, hsolve, -⟩ := Except.map_eq_ok.1 hsecond
  obtain ⟨nodes, heard, solution, nodes', heard', hshort, hlong, hprefix, -, hle, -⟩ :=
    longer_search_resumes_shorter hd rfl hagree (by decide) WordStream.ofSeed hsolve
  rw [hshort.outcome_tracing] at hfirst
  rw [hlong.outcome_tracing] at hsecond
  exact ⟨hd, nodes, heard, solution, nodes', heard', solution', hshort, hlong, hprefix,
    Except.ok.inj hfirst, Except.ok.inj hsecond, hle⟩

end LinkPriority

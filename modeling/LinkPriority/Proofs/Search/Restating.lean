import LinkPriority.Proofs.Search.Calls
import LinkPriority.Proofs.Sharing.Units

/-! Searches for one demand in two units of time. A search looks at its demand only when it appraises a node and when
it reads out its answer. Where a demand can be restated so that both give the same, a search for the restated demand
makes the same moves, reports the same events and has the same answer; in exact numbers the demand in another unit is
such a restatement. -/

namespace LinkPriority

variable {α σ ω β γ : Type} {f : Demand α → Demand α}

/-- `f` restates demands so that no search can tell: nodes are appraised alike, and the same cells are inactive. -/
structure Demand.Restates [Scalar α] (f : Demand α → Demand α) : Prop where
  appraise {σ : Type} [IndexSource σ] (n : Node α) (d : Demand α) (budget : Nat) (choices : σ) :
    n.appraise (f d) budget choices = n.appraise d budget choices
  clearInactive (p : Priority) (d : Demand α) : p.clearInactive (f d) = p.clearInactive d

/-- The search with its demand restated, and everything else as it is. -/
def Search.restate (f : Demand α → Demand α) (s : Search α σ ω) : Search α σ ω := { s with demand := f s.demand }

def Session.restate (f : Demand α → Demand α) (t : Session α σ ω) : Session α σ ω := ⟨t.search.restate f, t.reported⟩

/-! ### What does not look at the demand -/

namespace Search

variable {s : Search α σ ω}

theorem walk_restate (count : Nat) (stack : List Nat) : (s.restate f).walk count stack = s.walk count stack := by
  induction count generalizing stack with
  | zero => rw [walk, walk]
  | succ count ih =>
    cases stack with
    | nil => rfl
    | cons id stack =>
      rw [walk, walk, ih]
      rfl

variable [Scalar α]

theorem best?_restate : (s.restate f).best? = s.best? := by
  have hpreorder : (s.restate f).preorder = s.preorder := walk_restate s.nodes.size [0]
  rw [best?, best?, eligible, eligible, hpreorder]
  rfl

theorem stats_restate : (s.restate f).stats = s.stats := by
  rw [stats, stats, best?_restate]
  rfl

theorem finalize_restate (hf : Demand.Restates f) : (s.restate f).finalize = s.finalize := by
  rw [finalize, finalize, best?_restate]
  cases s.best? with
  | none => rfl
  | some best =>
    have hclear : best.1.priority.clearInactive (s.restate f).demand = best.1.priority.clearInactive s.demand :=
      hf.clearInactive best.1.priority s.demand
    simp only [hclear]
    rfl

end Search

/-! ### Moves -/

namespace Move

/-- How a move ends, with the demand restated. -/
def restated (f : Demand α → Demand α) : EStateM.Result (SearchError α) (Session α σ ω) β →
    EStateM.Result (SearchError α) (Session α σ ω) β
  | .ok b t => .ok b (t.restate f)
  | .error e t => .error e (t.restate f)

/-- The move does the same for the restated demand. -/
def Blind (f : Demand α → Demand α) (m : Move α σ ω β) : Prop := ∀ t, m (t.restate f) = restated f (m t)

namespace Blind

theorem pure (b : β) : Blind f (Pure.pure b : Move α σ ω β) := fun _ => rfl

theorem throw (e : SearchError α) : Blind f (throw e : Move α σ ω β) := fun _ => rfl

theorem bind {m : Move α σ ω β} {k : β → Move α σ ω γ} (hm : Blind f m) (hk : ∀ b, Blind f (k b)) :
    Blind f (m >>= k) := by
  intro t
  have hfirst := hm t
  cases hresult : m t with
  | ok b t₁ =>
    rw [hresult] at hfirst
    rw [Move.bind_of_ok hresult, Move.bind_of_ok hfirst]
    exact hk b t₁
  | error e t₁ =>
    rw [hresult] at hfirst
    rw [Move.bind_of_error hresult, Move.bind_of_error hfirst]
    rfl

/-- A move that looks at the session first. -/
theorem get_bind {k : Session α σ ω → Move α σ ω β}
    (hk : ∀ t, k (t.restate f) (t.restate f) = restated f (k t t)) : Blind f (get >>= k) := hk

theorem update {g : Search α σ ω → Search α σ ω} (hg : ∀ s, g (s.restate f) = (g s).restate f) :
    Blind f (Move.update g) := by
  intro t
  show EStateM.Result.ok () (Session.mk (g (t.search.restate f)) t.reported) = _
  rw [hg]
  rfl

theorem report (events : List (SearchEvent α)) : Blind f (Move.report events : Move α σ ω Unit) := fun _ => rfl

theorem ofExcept (x : Except (SearchError α) β) : Blind f (Move.ofExcept x : Move α σ ω β) := by
  cases x with
  | ok b => exact pure b
  | error e => exact throw e

theorem node (id : Nat) : Blind f (Move.node id : Move α σ ω (Node α)) := by
  refine get_bind fun t => ?_
  have hnode : (t.restate f).search.node? id = t.search.node? id := rfl
  rw [hnode]
  cases t.search.node? id with
  | none => exact throw _ t
  | some n => exact pure n t

theorem settle (id : Nat) (asked : Appraising α σ) : Blind f (Move.settle id asked : Move α σ ω (Appraisal α)) := by
  refine bind (update fun _ => rfl) fun _ => bind (report _) fun _ => ?_
  cases asked.result with
  | error e => exact throw _
  | ok a =>
    cases asked.fresh with
    | false => exact pure a
    | true => exact bind (update fun _ => rfl) fun _ => bind (report _) fun _ => pure a

variable [Scalar α]

theorem select (id : Nat) : Blind f (Move.select id : Move α σ ω Nat) :=
  get_bind fun t => ofExcept (t.search.select id) t

theorem addChild (id : Nat) (action : Swap) : Blind f (Move.addChild id action : Move α σ ω Nat) := by
  refine bind (node id) fun n => get_bind fun t => ?_
  show (Move.ofExcept ((n.child action t.search.nodes.size).mapError .model) >>= _) (t.restate f) = _
  refine bind (ofExcept _) (fun child => bind (update ?_) fun _ => ?_) t
  · exact fun _ => rfl
  · exact pure t.search.nodes.size

theorem addChildren (id : Nat) (first : Option Nat) (actions : List Swap) :
    Blind f (Move.addChildren id first actions : Move α σ ω (Option Nat)) := by
  induction actions generalizing first with
  | nil => exact pure first
  | cons action rest ih => exact bind (addChild id action) fun child => ih _

theorem reportProgress : Blind f (Move.reportProgress : Move α σ ω Unit) := by
  refine get_bind fun t => ?_
  have hstats : (t.restate f).search.stats = t.search.stats := Search.stats_restate
  rw [hstats]
  show (if t.search.settings.verbose && t.search.iterations % t.search.settings.logFreq == 0 then
    Move.report [.progress t.search.stats] else Pure.pure () : Move α σ ω Unit) (t.restate f) = _
  split
  · exact report _ t
  · exact pure () t

section Appraising

variable [IndexSource σ] (hf : Demand.Restates f)
include hf

theorem appraisal (id : Nat) : Blind f (Move.appraisal id : Move α σ ω (Appraisal α)) := by
  refine bind (node id) fun n => get_bind fun t => ?_
  show Move.settle id (n.appraise (f t.search.demand) t.search.settings.epochBudget t.search.choices) (t.restate f) = _
  rw [hf.appraise]
  exact settle id _ t

theorem isTerminal (id : Nat) : Blind f (Move.isTerminal id : Move α σ ω Bool) :=
  bind (appraisal hf id) fun a => pure a.actions.isEmpty

theorem expand (id : Nat) : Blind f (Move.expand id : Move α σ ω Nat) := by
  refine bind (appraisal hf id) fun a => get_bind fun t => ?_
  exact bind (addChildren id none _) (fun first => pure (first.getD id)) t

theorem descend (levels id : Nat) : Blind f (Move.descend levels id : Move α σ ω Nat) := by
  induction levels generalizing id with
  | zero => exact pure id
  | succ levels ih =>
    refine bind (node id) fun n => ?_
    split
    · exact pure id
    · refine bind (isTerminal hf id) fun terminal => ?_
      split
      · exact pure id
      · exact bind (select id) fun child => ih child

theorem rewarding (chosen : Nat) : Blind f (Move.rewarding chosen : Move α σ ω Nat) :=
  bind (appraisal hf chosen) fun _ => bind (update fun _ => rfl) fun _ => pure chosen

/-- An iteration does the same for the restated demand. -/
theorem step : Blind f (Move.step : Move α σ ω Nat) := by
  intro t
  rw [Move.step_eq, Move.step_eq]
  refine bind (descend hf t.search.nodes.size 0) (fun leaf => bind (isTerminal hf leaf) fun terminal => ?_) t
  refine bind (m := if terminal then Pure.pure leaf else Move.expand leaf) ?_ (rewarding hf)
  split
  · exact pure leaf
  · exact expand hf leaf

theorem iterate (count : Nat) : Blind f (Move.iterate count : Move α σ ω Unit) := by
  induction count with
  | zero => exact pure ()
  | succ count ih => exact bind (step hf) fun _ => bind reportProgress fun _ => ih

theorem run : Blind f (Move.run : Move α σ ω Unit) :=
  bind (appraisal hf 0) fun _ => get_bind fun t => iterate hf t.search.settings.iterations t

theorem call (c : Call α) : Blind f (c.move : Move α σ ω Unit) := by
  cases c with
  | step => exact bind (step hf) fun _ => pure ()
  | run => exact run hf
  | expand id => exact bind (expand hf id) fun _ => pure ()
  | appraise id => exact bind (appraisal hf id) fun _ => pure ()
  | backpropagate id amount => exact update (g := fun s => s.backpropagate id amount) fun _ => rfl

end Appraising

end Blind

end Move

/-! ### Whole searches -/

section Runs

variable [Scalar α] [IndexSource σ] (hf : Demand.Restates f)
include hf

theorem Session.afterAll_restate (t : Session α σ ω) (calls : List (Call α)) :
    (t.restate f).afterAll calls = (t.afterAll calls).restate f := by
  induction calls generalizing t with
  | nil => rfl
  | cons c calls ih =>
    have hafter : (t.restate f).after c = (t.after c).restate f := by
      rw [after, after, Move.Blind.call hf c t]
      cases c.move t <;> rfl
    show ((t.restate f).after c).afterAll calls = ((t.after c).afterAll calls).restate f
    rw [hafter, ih]

theorem Search.complete_restate (s : Search α σ ω) : (s.restate f).complete = s.complete := by
  have hrun : Move.run ⟨s.restate f, []⟩ = Move.restated f (Move.run ⟨s, []⟩) := Move.Blind.run hf ⟨s, []⟩
  rw [complete, complete, hrun]
  cases Move.run ⟨s, []⟩ with
  | error e t => rfl
  | ok u t =>
    have hfinal : (t.restate f).search.finalize = t.search.finalize := finalize_restate hf
    simp only [Move.restated, hfinal]
    rfl

end Runs

/-! ### Another unit of time -/

section Unit

variable {ln sqrt : ℚ → ℚ} {c : Exact ln sqrt} {d : Demand (Exact ln sqrt)} (hc : 0 < c.value)
include hc

theorem Node.appraise_scale {σ : Type} [IndexSource σ] (n : Node (Exact ln sqrt)) (d : Demand (Exact ln sqrt))
    (budget : Nat) (choices : σ) : n.appraise (d.scale c) budget choices = n.appraise d budget choices := by
  rw [appraise, appraise, simulate_scale hc]
  cases n.appraisal with
  | some known => rfl
  | none =>
    cases simulate d n.priority budget with
    | error e => rfl
    | ok course =>
      simp only [Except.map, Course.evaluation_scale hc, Course.objectives_scale hc, selectSwaps_scale hc]

/-- Another unit of time is nothing a search can tell. -/
theorem Demand.restates_scale : Demand.Restates (Demand.scale c) :=
  ⟨fun n d budget choices => Node.appraise_scale hc n d budget choices, fun p _ => clearInactive_scale hc p⟩

variable {σ ω : Type} (hd : (d.validate : Except (ModelError (Exact ln sqrt)) Unit) = .ok ())
include hd

/-- In another unit the same searches start. -/
theorem Search.start_scale (root : Priority) (settings : Settings) (choices : σ) (observer : Observer _ ω) :
    Search.start (d.scale c) root settings choices observer =
      (Search.start d root settings choices observer).map (Search.restate (Demand.scale c)) := by
  have hd' : ((d.scale c).validate : Except (ModelError (Exact ln sqrt)) Unit) = .ok () :=
    (Demand.validate_scale hc).2 hd
  have hroot : (root.validate (d.scale c) : Except (ModelError (Exact ln sqrt)) Unit) = root.validate d := by
    rw [Priority.validate, Priority.validate, orders_scale hc]
  rw [start, start, hd, hd', hroot]
  cases (settings.validate : Except (SearchError (Exact ln sqrt)) Unit) with
  | error e => rfl
  | ok u => cases (root.validate d : Except (ModelError (Exact ln sqrt)) Unit) <;> rfl

theorem Search.fromWarmStart_scale (settings : Settings) (choices : σ) (observer : Observer _ ω) :
    Search.fromWarmStart (d.scale c) settings choices observer =
      (Search.fromWarmStart d settings choices observer).map (Search.restate (Demand.scale c)) := by
  have hd' : ((d.scale c).validate : Except (ModelError (Exact ln sqrt)) Unit) = .ok () :=
    (Demand.validate_scale hc).2 hd
  rw [fromWarmStart, fromWarmStart, hd, hd', WarmStart.priority_scale hc, start_scale hc hd]
  cases (settings.validate : Except (SearchError (Exact ln sqrt)) Unit) <;> rfl

theorem solveObserved_scale [IndexSource σ] (settings : Settings) (choices : σ) (observer : Observer _ ω) :
    solveObserved (d.scale c) settings choices observer = solveObserved d settings choices observer := by
  rw [solveObserved, solveObserved, Search.fromWarmStart_scale hc hd]
  cases Search.fromWarmStart d settings choices observer with
  | error e => rfl
  | ok s => exact Search.complete_restate (Demand.restates_scale hc) s

end Unit

/-- Results do not depend on the unit of time. In exact numbers, with all times and volumes multiplied by the same
positive number, an accepted demand is accepted, has the same warm starts, and the model says the same of every table.
A search starts if it did and does the same from there on, whatever is asked of it, and solving gives the same
solution and reports the same events. -/
theorem unit_of_time_irrelevant {ln sqrt : ℚ → ℚ} {c : Exact ln sqrt} {d : Demand (Exact ln sqrt)}
    (hc : 0 < c.value) (hd : (d.validate : Except (ModelError (Exact ln sqrt)) Unit) = .ok ())
    {σ ω : Type} [IndexSource σ] :
    ((d.scale c).validate : Except (ModelError (Exact ln sqrt)) Unit) = .ok () ∧
    (∀ strategy : WarmStart, strategy.priority (d.scale c) = strategy.priority d) ∧
    (∀ (p : Priority) (budget : Nat), evaluate (d.scale c) p budget = evaluate d p budget) ∧
    (∀ (root : Priority) (settings : Settings) (choices : σ) (observer : Observer (Exact ln sqrt) ω) s₀,
      Search.start d root settings choices observer = .ok s₀ →
      Search.start (d.scale c) root settings choices observer = .ok { s₀ with demand := d.scale c } ∧
      ∀ calls : List (Call (Exact ln sqrt)),
        Session.afterAll ⟨{ s₀ with demand := d.scale c }, []⟩ calls =
          (Session.afterAll ⟨s₀, []⟩ calls).restate (Demand.scale c)) ∧
    (∀ (settings : Settings) (choices : σ) (observer : Observer (Exact ln sqrt) ω),
      solveObserved (d.scale c) settings choices observer = solveObserved d settings choices observer) ∧
    ∀ settings : Settings, solve (d.scale c) settings = solve d settings := by
  refine ⟨(Demand.validate_scale hc).2 hd, ?_, ?_, ?_, ?_, ?_⟩
  · exact fun strategy => WarmStart.priority_scale hc strategy
  · exact fun p budget => evaluate_scale hc
  · intro root settings choices observer s₀ hstart
    have hsame : s₀.restate (Demand.scale c) = { s₀ with demand := d.scale c } := by
      obtain ⟨-, -, -, rfl⟩ := Search.start_eq_ok.1 hstart
      rfl
    rw [← hsame, Search.start_scale hc hd, hstart]
    exact ⟨rfl, fun calls => Session.afterAll_restate (Demand.restates_scale hc) ⟨s₀, []⟩ calls⟩
  · exact solveObserved_scale hc hd
  · intro settings
    rw [solve, solve, solveWith, solveWith, solveObserved_scale hc hd]

theorem sharedLink_unit_of_time_irrelevant :
    (sharedLink.validate : Except (ModelError Tangent) Unit) = .ok () ∧
    (sharedLink.scale ⟨60⟩).load 0 0 = ⟨⟨60⟩, ⟨480⟩⟩ ∧
    WarmStart.linkShare.priority (sharedLink.scale ⟨60⟩) = WarmStart.linkShare.priority sharedLink ∧
    ∀ settings : Settings, solve (sharedLink.scale ⟨60⟩) settings = solve sharedLink settings := by
  have hd : (sharedLink.validate : Except (ModelError Tangent) Unit) = .ok () := rfl
  have hc : 0 < (⟨60⟩ : Tangent).value := by decide
  have hload : (sharedLink.scale ⟨60⟩).load 0 0 = ⟨⟨60⟩, ⟨480⟩⟩ := by decide +kernel
  obtain ⟨-, hwarm, -, -, -, hsolve⟩ := unit_of_time_irrelevant (σ := WordStream) (ω := Unit) hc hd
  exact ⟨hd, hload, hwarm .linkShare, hsolve⟩

end LinkPriority

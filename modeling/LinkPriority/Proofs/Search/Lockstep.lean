import Mathlib
import LinkPriority.Proofs.Agreement
import LinkPriority.Proofs.Scalar.Exact
import LinkPriority.Proofs.Search.Calls
import LinkPriority.Proofs.Search.CoupledMoves

/-! Searches from roots that differ only in inactive cells. Whatever a caller asks of the two, they answer the same
and build the same tree with the same numbers, only that their tables go on differing in inactive cells; these are
cleared in a solution, so the two have the same one. -/

namespace LinkPriority

/-! ### What a caller gets back -/

/-- What a call gives back when it succeeds. -/
inductive Reply (α : Type) where
  | done
  | node (id : Nat)
  | appraisal (a : Appraisal α)

namespace Call

variable {α σ ω : Type} [Scalar α] [IndexSource σ]

/-- The move a caller asks for, with its result. -/
def replying : Call α → Move α σ ω (Reply α)
  | step => return .node (← Move.step)
  | run => do
    Move.run
    return .done
  | expand id => return .node (← Move.expand id)
  | appraise id => return .appraisal (← Move.appraisal id)
  | backpropagate id amount => do
    Move.update fun s => s.backpropagate id amount
    return .done

/-- What a call gives back, or why it fails. -/
def reply (c : Call α) (t : Session α σ ω) : Except (SearchError α) (Reply α) :=
  match c.replying t with
  | .ok reply _ => .ok reply
  | .error e _ => .error e

theorem move_eq (c : Call α) : c.move = (do let _ ← c.replying : Move α σ ω Unit) := by
  cases c <;> simp only [move, replying, bind_assoc, pure_bind, bind_pure_unit]

end Call

/-! ### Calls on two searches -/

namespace Coupling

variable {α σ ω ω' : Type} [Scalar α] [IndexSource σ] {X : Coupling α σ ω ω'} {t : Session α σ ω}
  {r : Session α σ ω'}

theorem Moves.replying (hiterations : X.settings.iterations = X.settings'.iterations) (c : Call α) :
    X.Moves Eq c.replying c.replying := by
  cases c with
  | step => exact bind step fun _ _ hid => pure (congrArg Reply.node hid)
  | run => exact bind (run hiterations) fun _ _ _ => pure rfl
  | expand id => exact bind (expand id) fun _ _ hid => pure (congrArg Reply.node hid)
  | appraise id => exact bind (appraisal id) fun _ _ ha => pure (congrArg Reply.appraisal ha.1)
  | backpropagate id amount => exact bind (update fun _ _ h => h.backpropagate id amount) fun _ _ _ => pure rfl

theorem Searches.call (h : X.Searches t.search r.search)
    (hiterations : X.settings.iterations = X.settings'.iterations) (c : Call α) :
    c.reply t = c.reply r ∧ X.Searches (t.after c).search (r.after c).search := by
  have hends := Moves.replying hiterations c t r h
  rw [Call.reply, Call.reply, Session.after, Session.after, Call.move_eq, Call.move_eq]
  generalize hresult : c.replying t = result at hends
  generalize hresult' : c.replying r = result' at hends
  cases hends with
  | ok hreply h =>
    rw [Move.bind_of_ok hresult, Move.bind_of_ok hresult']
    exact ⟨congrArg Except.ok hreply, h⟩
  | error e h =>
    rw [Move.bind_of_error hresult, Move.bind_of_error hresult']
    exact ⟨rfl, h⟩

/-- Whatever is asked of the two searches, they reply the same and stay the same. -/
theorem Searches.calls (h : X.Searches t.search r.search)
    (hiterations : X.settings.iterations = X.settings'.iterations) (calls : List (Call α)) :
    Session.collect (fun c t => [c.reply t]) t calls = Session.collect (fun c t => [c.reply t]) r calls ∧
      X.Searches (t.afterAll calls).search (r.afterAll calls).search := by
  induction calls generalizing t r with
  | nil => exact ⟨rfl, h⟩
  | cons c calls ih =>
    obtain ⟨hreply, hafter⟩ := h.call hiterations c
    obtain ⟨hreplies, hrest⟩ := ih hafter
    refine ⟨?_, hrest⟩
    rw [Session.collect, Session.collect, hreply, hreplies]

end Coupling

/-! ### Tables that agree on the active cells -/

variable {α σ ω : Type} [Scalar α] [IndexSource σ] [OrderedScalar α] {d : Demand α} {p q : Priority}

/-- Searches with the same settings and observer, whose tables agree on the active cells. -/
def Coupling.agreeing (d : Demand α) (settings : Settings) : Coupling α σ ω ω where
  demand := d
  settings
  settings' := settings
  tables := Priority.AgreeOn d
  swaps := Swap.IsActive d
  observers := Eq
  epochBudget := rfl
  simulate h := h.simulate_eq
  select h := h.selectSwaps_eq
  proposed _ := Priority.isActive_of_selectSwaps
  apply h := h.apply_alike
  report h id objective := congrArg (Observer.report · id objective) h

omit [IndexSource σ] [OrderedScalar α] in
/-- A search starts from the one table if it starts from the other. -/
theorem Priority.AgreeOn.exists_start_eq (h : p.AgreeOn d q) {settings : Settings} {choices : σ}
    {observer : Observer α ω} {s : Search α σ ω} (hs : Search.start d p settings choices observer = .ok s) :
    ∃ r : Search α σ ω, Search.start d q settings choices observer = .ok r := by
  obtain ⟨hsettings, hd, hfits, -⟩ := Search.start_eq_ok.1 hs
  refine Search.exists_start_eq hsettings hd (Priority.validate_eq_ok.1 ?_) choices observer
  rw [← h.validate_eq]
  exact Priority.validate_eq_ok.2 hfits

theorem Priority.AgreeOn.searches_start (h : p.AgreeOn d q) {settings : Settings} {choices : σ}
    {observer : Observer α ω} {s r : Search α σ ω} (hs : Search.start d p settings choices observer = .ok s)
    (hr : Search.start d q settings choices observer = .ok r) :
    (Coupling.agreeing d settings).Searches s r := by
  obtain ⟨-, -, -, rfl⟩ := Search.start_eq_ok.1 hs
  obtain ⟨-, -, -, rfl⟩ := Search.start_eq_ok.1 hr
  refine ⟨⟨rfl, rfl⟩, ⟨rfl, rfl⟩, fun i => ?_, rfl, rfl, rfl, rfl⟩
  cases i with
  | zero => exact .some ⟨rfl, h, fun a ha => by simp [Node.root] at ha⟩
  | succ i => exact .none

/-- Ranks of inactive cells make no difference. Tables that agree on the active cells are accepted or refused alike
and the model says the same of them; searches from the two give the same replies to the same calls, leave trees that
are the same but for inactive cells, and have the same solution. -/
theorem agreeing_tables_search_alike (h : p.AgreeOn d q) :
    (p.validate d : Except (ModelError α) Unit) = q.validate d ∧
    (∀ budget, evaluate d p budget = evaluate d q budget) ∧
    ∀ (settings : Settings) (choices : σ) (observer : Observer α ω) (s : Search α σ ω),
      Search.start d p settings choices observer = .ok s →
      ∃ r, Search.start d q settings choices observer = .ok r ∧ ∀ calls : List (Call α),
        Session.collect (fun c t => [c.reply t]) ⟨s, []⟩ calls =
          Session.collect (fun c t => [c.reply t]) ⟨r, []⟩ calls ∧
        (Session.afterAll ⟨s, []⟩ calls).search.nodes.size = (Session.afterAll ⟨r, []⟩ calls).search.nodes.size ∧
        (∀ i n n', (Session.afterAll ⟨s, []⟩ calls).search.node? i = some n →
          (Session.afterAll ⟨r, []⟩ calls).search.node? i = some n' →
          n' = { n with priority := n'.priority } ∧ n.priority.AgreeOn d n'.priority) ∧
        (Session.afterAll ⟨s, []⟩ calls).search.finalize = (Session.afterAll ⟨r, []⟩ calls).search.finalize := by
  refine ⟨h.validate_eq, h.evaluate_eq, fun settings choices observer s hs => ?_⟩
  obtain ⟨r, hr⟩ := h.exists_start_eq hs
  refine ⟨r, hr, fun calls => ?_⟩
  obtain ⟨hreplies, hsame⟩ :=
    Coupling.Searches.calls (t := ⟨s, []⟩) (r := ⟨r, []⟩) (h.searches_start hs hr) rfl calls
  refine ⟨hreplies, hsame.arenas.size_eq, fun i n n' hn hn' => ?_, hsame.finalize_eq fun p q hpq => ?_⟩
  · have hrel := hsame.arenas i
    rw [← Search.node?, hn, ← Search.node?, hn'] at hrel
    cases hrel with
    | some hrel => exact ⟨hrel.same, hrel.tables⟩
  · exact hpq.clearInactive_eq

/-- Two jobs on one link, and a third that does not use it. -/
def halfUsedLink : Demand Tangent := ⟨⟨3, 1, #[⟨⟨1⟩, ⟨8⟩⟩, ⟨⟨1⟩, ⟨3⟩⟩, ⟨⟨0⟩, ⟨0⟩⟩]⟩⟩

/-- The search for the half used link from a table that gives the third job some rank. -/
def halfUsedSearch (rank : Nat) : Search Tangent WordStream Unit where
  demand := halfUsedLink
  settings := { iterations := 1 }
  nodes := #[.root ⟨⟨3, 1, #[0, 1, rank]⟩, rfl⟩ 2]
  choices := .ofSeed 0
  observer := .silent

theorem halfUsedLink_search_alike : ∃ p q : Priority, p.AgreeOn halfUsedLink q ∧ p ≠ q ∧
    Search.start halfUsedLink p { iterations := 1 } (.ofSeed 0) Observer.silent = .ok (halfUsedSearch 0) ∧
    Search.start halfUsedLink q { iterations := 1 } (.ofSeed 0) Observer.silent = .ok (halfUsedSearch 7) ∧
    ∀ calls, (Session.afterAll ⟨halfUsedSearch 0, []⟩ calls).search.finalize =
      (Session.afterAll ⟨halfUsedSearch 7, []⟩ calls).search.finalize := by
  have hagree : Priority.AgreeOn halfUsedLink ⟨⟨3, 1, #[0, 1, 0]⟩, rfl⟩ ⟨⟨3, 1, #[0, 1, 7]⟩, rfl⟩ :=
    ⟨⟨rfl, rfl⟩, ⟨rfl, rfl⟩, by decide +kernel⟩
  have hzero : Search.start halfUsedLink ⟨⟨3, 1, #[0, 1, 0]⟩, rfl⟩ { iterations := 1 } (.ofSeed 0)
      Observer.silent = .ok (halfUsedSearch 0) := by cbv
  have hseven : Search.start halfUsedLink ⟨⟨3, 1, #[0, 1, 7]⟩, rfl⟩ { iterations := 1 } (.ofSeed 0)
      Observer.silent = .ok (halfUsedSearch 7) := by cbv
  obtain ⟨-, -, halike⟩ := agreeing_tables_search_alike (σ := WordStream) (ω := Unit) hagree
  obtain ⟨r, hr, hcalls⟩ := halike { iterations := 1 } (.ofSeed 0) Observer.silent (halfUsedSearch 0) hzero
  obtain rfl : halfUsedSearch 7 = r := Except.ok.inj (hseven.symm.trans hr)
  exact ⟨_, _, hagree, by decide, hzero, hseven, fun calls => (hcalls calls).2.2.2⟩

end LinkPriority

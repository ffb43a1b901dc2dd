import LinkPriority.Proofs.Search.Iteration
import LinkPriority.Proofs.Search.Readout

/-! Two searches that are the same but for their tables. A search looks at its tables only through the model, the
selection of swaps and the swaps themselves, and never at its observer. Tables that cannot be told apart in these
three ways give nodes the same appraisals and the same children, so trees over them have one shape and the same
numbers; and if clearing their inactive cells leaves the same, the answer is the same. -/

namespace LinkPriority

/-- How two searches of one demand may differ: `tables` says which tables stand for each other, `swaps` which swaps
keep them so, and `observers` how the two observers are related. -/
structure Coupling (α σ ω ω' : Type) [Scalar α] [IndexSource σ] where
  demand : Demand α
  settings : Settings
  settings' : Settings
  tables : Priority → Priority → Prop
  swaps : Swap → Prop
  observers : Observer α ω → Observer α ω' → Prop
  epochBudget : settings.epochBudget = settings'.epochBudget
  simulate {p q : Priority} (h : tables p q) (budget : Nat) :
    LinkPriority.simulate demand p budget = LinkPriority.simulate demand q budget
  select {p q : Priority} (h : tables p q) {orders : List (List Nat)} (horders : p.orders demand = .ok orders)
    (count : Nat) (choices : σ) : selectSwaps (desirability demand orders) demand p count choices =
      selectSwaps (desirability demand orders) demand q count choices
  proposed {p q : Priority} (h : tables p q) {orders : List (List Nat)} (horders : p.orders demand = .ok orders)
    {count : Nat} {choices after : σ} {actions : List Swap}
    (hselect : selectSwaps (desirability demand orders) demand p count choices = (.ok actions, after)) :
    ∀ s ∈ actions, swaps s
  apply {p q : Priority} (h : tables p q) {s : Swap} (hs : swaps s) :
    Except.Alike tables (p.apply s : Except (ModelError α) Priority) (q.apply s)
  report {o : Observer α ω} {o' : Observer α ω'} (h : observers o o') (id : Nat) (objective : α) :
    observers (o.report id objective) (o'.report id objective)

/-- The node with rank 0 in every inactive cell of its table, as it goes into a solution. -/
def Node.cleared {α : Type} [Scalar α] (d : Demand α) (n : Node α) : Node α :=
  { n with priority := n.priority.clearInactive d }

namespace Coupling

variable {α σ ω ω' β γ : Type} [Scalar α] [IndexSource σ] {X : Coupling α σ ω ω'} {n n' : Node α}

/-! ### Nodes -/

/-- The nodes are the same but for their tables, which stand for each other, and propose only swaps that keep them
so. -/
structure Nodes (X : Coupling α σ ω ω') (n n' : Node α) : Prop where
  same : n' = { n with priority := n'.priority }
  tables : X.tables n.priority n'.priority
  swaps : ∀ a, n.appraisal = some a → ∀ s ∈ a.actions, X.swaps s

/-- Asking has left the same behind but for the nodes. -/
structure Appraisings (X : Coupling α σ ω ω') (asked asked' : Appraising α σ) : Prop where
  same : asked' = { asked with node := asked'.node }
  node : X.Nodes asked.node asked'.node
  swaps : ∀ a, asked.result = .ok a → ∀ s ∈ a.actions, X.swaps s

namespace Nodes

variable (h : X.Nodes n n')
include h

/-- What does not look at the table is the same. -/
theorem map_eq {f : Node α → β} (hf : ∀ n q, f { n with priority := q } = f n) : f n' = f n := by rw [h.same, hf]

theorem appraisal_eq : n'.appraisal = n.appraisal := h.map_eq fun _ _ => rfl

theorem maxChildren_eq : n'.maxChildren = n.maxChildren := h.map_eq fun _ _ => rfl

theorem appraised {a : Appraisal α} (ha : ∀ s ∈ a.actions, X.swaps s) :
    X.Nodes { n with appraisal := some a } { n' with appraisal := some a } :=
  ⟨congrArg (fun m => { m with appraisal := some a }) h.same, h.tables, fun _ hb => Option.some.inj hb ▸ ha⟩

theorem appraise (budget : Nat) (choices : σ) :
    X.Appraisings (n.appraise X.demand budget choices) (n'.appraise X.demand budget choices) := by
  cases ha : n.appraisal with
  | some known =>
    rw [Node.appraise_of_known ha, Node.appraise_of_known (h.appraisal_eq.trans ha)]
    exact ⟨rfl, h, fun a h' => h.swaps a (ha.trans (congrArg some (Except.ok.inj h')))⟩
  | none =>
    have ha' : n'.appraisal = none := h.appraisal_eq.trans ha
    simp only [Node.appraise, ha, ha', ← X.simulate h.tables]
    cases hsimulate : LinkPriority.simulate X.demand n.priority budget with
    | error e => exact ⟨rfl, h, fun a h' => by simp at h'⟩
    | ok course =>
      cases hevaluation : course.evaluation X.demand with
      | error e =>
        simp only [hevaluation]
        exact ⟨rfl, h, fun a h' => by simp at h'⟩
      | ok evaluation =>
        have horders := (simulate_eq_ok.1 hsimulate).2.1
        have hselect := X.select h.tables horders n'.maxChildren choices
        rw [h.maxChildren_eq] at hselect
        simp only [hevaluation, (Course.evaluation_eq_ok hevaluation).2, h.maxChildren_eq, ← hselect]
        generalize hactions : selectSwaps (desirability X.demand course.orders) X.demand n.priority n.maxChildren
          choices = selected
        cases selected with
        | mk actions after =>
          cases actions with
          | error e => exact ⟨rfl, h, fun a h' => by simp at h'⟩
          | ok actions =>
            have hproposed := X.proposed h.tables horders hactions
            have hnode := h.appraised
              (a := ⟨evaluation.objective, evaluation.slowdown, actions, evaluation.epochsRun⟩) hproposed
            rw [h.maxChildren_eq] at hnode
            exact ⟨rfl, hnode, fun a h' => Except.ok.inj h' ▸ hproposed⟩

theorem child {action : Swap} (haction : X.swaps action) (id : Nat) :
    Except.Alike X.Nodes (n.child action id) (n'.child action id) := by
  refine (X.apply h.tables haction).map fun p q hpq => ?_
  rw [h.map_eq (f := Node.id) fun _ _ => rfl, h.map_eq (f := Node.depth) fun _ _ => rfl, h.maxChildren_eq]
  exact ⟨rfl, hpq, fun a ha => by simp [Node.root] at ha⟩

theorem record (amount : α) : X.Nodes (n.record amount) (n'.record amount) :=
  ⟨congrArg (fun m => m.record amount) h.same, h.tables, h.swaps⟩

theorem withChild (id : Nat) :
    X.Nodes { n with children := n.children ++ [id] } { n' with children := n'.children ++ [id] } :=
  ⟨congrArg (fun m => { m with children := m.children ++ [id] }) h.same, h.tables, h.swaps⟩

end Nodes

/-! ### Arenas -/

/-- The arenas have the same places, with nodes that are the same but for their tables. -/
def Arenas (X : Coupling α σ ω ω') (nodes nodes' : Array (Node α)) : Prop :=
  ∀ i : Nat, Option.Rel X.Nodes nodes[i]? nodes'[i]?

namespace Arenas

variable {nodes nodes' : Array (Node α)} (h : X.Arenas nodes nodes')
include h

theorem map_eq (i : Nat) {f : Node α → β} (hf : ∀ n q, f { n with priority := q } = f n) :
    nodes[i]?.map f = nodes'[i]?.map f := by
  have hi := h i
  generalize nodes[i]? = x at hi
  generalize nodes'[i]? = y at hi
  cases hi with
  | none => rfl
  | some hn => rw [Option.map_some, Option.map_some, hn.map_eq hf]

theorem bind_eq (i : Nat) {f : Node α → Option β} (hf : ∀ n q, f { n with priority := q } = f n) :
    nodes[i]?.bind f = nodes'[i]?.bind f := by
  have hi := h i
  generalize nodes[i]? = x at hi
  generalize nodes'[i]? = y at hi
  cases hi with
  | none => rfl
  | some hn => rw [Option.bind_some, Option.bind_some, hn.map_eq hf]

theorem size_eq : nodes.size = nodes'.size := by
  refine le_antisymm (not_lt.1 fun hlt => ?_) (not_lt.1 fun hlt => ?_)
  · have hi := h nodes'.size
    rw [Array.getElem?_eq_none le_rfl, Array.getElem?_eq_getElem hlt] at hi
    cases hi
  · have hi := h nodes.size
    rw [Array.getElem?_eq_none le_rfl, Array.getElem?_eq_getElem hlt] at hi
    cases hi

theorem set (id : Nat) (hn : X.Nodes n n') :
    X.Arenas (nodes.setIfInBounds id n) (nodes'.setIfInBounds id n') := by
  intro i
  rw [Array.getElem?_setIfInBounds, Array.getElem?_setIfInBounds, h.size_eq]
  split_ifs
  · exact .some hn
  · exact .none
  · exact h i

theorem push (hn : X.Nodes n n') : X.Arenas (nodes.push n) (nodes'.push n') := by
  intro i
  rw [Array.getElem?_push, Array.getElem?_push, h.size_eq]
  split_ifs
  · exact .some hn
  · exact h i

theorem map {f : Node α → Node α} (hf : ∀ n n', X.Nodes n n' → X.Nodes (f n) (f n')) (i : Nat) :
    Option.Rel X.Nodes (nodes[i]?.map f) (nodes'[i]?.map f) := by
  have hi := h i
  generalize nodes[i]? = x at hi
  generalize nodes'[i]? = y at hi
  cases hi with
  | none => exact .none
  | some hn => exact .some (hf _ _ hn)

theorem modify (id : Nat) {f : Node α → Node α} (hf : ∀ n n', X.Nodes n n' → X.Nodes (f n) (f n')) :
    X.Arenas (nodes.modify id f) (nodes'.modify id f) := by
  intro i
  rw [Array.getElem?_modify, Array.getElem?_modify]
  split_ifs
  · exact h.map hf i
  · exact h i

/-- The ways up are the same, so a reward is recorded at the same nodes. -/
theorem reward (id : Nat) (amount : α) :
    X.Arenas (Search.reward nodes id amount) (Search.reward nodes' id amount) := by
  have hlineage : Search.lineage nodes' id = Search.lineage nodes id :=
    Search.lineage_congr fun i _ => (h.bind_eq i fun _ _ => rfl).symm
  intro i
  rw [Search.getElem?_reward, Search.getElem?_reward, hlineage]
  split_ifs
  · exact h.map (fun _ _ hn => hn.record amount) i
  · exact h i

end Arenas

/-! ### Searches -/

/-- The searches are the same but for their tables, their observers, and how long and how loudly they run. -/
structure Searches (X : Coupling α σ ω ω') (s : Search α σ ω) (r : Search α σ ω') : Prop where
  demand : s.demand = X.demand ∧ r.demand = X.demand
  settings : s.settings = X.settings ∧ r.settings = X.settings'
  arenas : X.Arenas s.nodes r.nodes
  choices : s.choices = r.choices
  evaluations : s.evaluations = r.evaluations
  iterations : s.iterations = r.iterations
  observers : X.observers s.observer r.observer

namespace Searches

variable {s : Search α σ ω} {r : Search α σ ω'} (h : X.Searches s r)
include h

theorem withNodes {nodes nodes' : Array (Node α)} (hnodes : X.Arenas nodes nodes') :
    X.Searches { s with nodes } { r with nodes := nodes' } where
  demand := h.demand
  settings := h.settings
  arenas := hnodes
  choices := h.choices
  evaluations := h.evaluations
  iterations := h.iterations
  observers := h.observers

/-- Both report an objective. -/
theorem report (id : Nat) (objective : α) :
    X.Searches { s with evaluations := s.evaluations + 1, observer := s.observer.report id objective }
      { r with evaluations := r.evaluations + 1, observer := r.observer.report id objective } where
  demand := h.demand
  settings := h.settings
  arenas := h.arenas
  choices := h.choices
  evaluations := congrArg (· + 1) h.evaluations
  iterations := h.iterations
  observers := X.report h.observers id objective

theorem backpropagate (id : Nat) (amount : α) :
    X.Searches (s.backpropagate id amount) (r.backpropagate id amount) :=
  h.withNodes (h.arenas.reward id amount)

theorem rewarded (id : Nat) (amount : α) : X.Searches (s.rewarded id amount) (r.rewarded id amount) :=
  { h.backpropagate id amount with iterations := congrArg (· + 1) h.iterations }

theorem childActions_eq (id : Nat) : Move.childActions s id = Move.childActions r id := by
  have hactions : (fun child => (s.node? child).bind Node.action) =
      fun child => (r.node? child).bind Node.action :=
    funext fun child => h.arenas.bind_eq child fun _ _ => rfl
  have hchildren : (s.node? id).map Node.children = (r.node? id).map Node.children :=
    h.arenas.map_eq id fun _ _ => rfl
  rw [Move.childActions, Move.childActions, hactions, hchildren]

theorem select_eq (id : Nat) : s.select id = r.select id := by
  have hscores : ∀ n, s.scores n = r.scores n := fun n =>
    List.filterMap_congr fun child _ => h.arenas.map_eq child fun _ _ => rfl
  have hn := h.arenas id
  rw [Search.select, Search.select, Search.node?, Search.node?]
  generalize s.nodes[id]? = x at hn
  generalize r.nodes[id]? = y at hn
  cases hn with
  | none => rfl
  | @some n n' hn =>
    have hsame : r.scores n' = r.scores n := hn.map_eq fun _ _ => rfl
    simp only [hscores, hsame]

theorem walk_eq (count : Nat) (stack : List Nat) : s.walk count stack = r.walk count stack := by
  induction count generalizing stack with
  | zero => rw [Search.walk, Search.walk]
  | succ count ih =>
    cases stack with
    | nil => rfl
    | cons id stack =>
      have hchildren : (s.node? id).map Node.children = (r.node? id).map Node.children :=
        h.arenas.map_eq id fun _ _ => rfl
      rw [Search.walk, Search.walk, hchildren, ih]

section Answer

variable (hclear : ∀ p q, X.tables p q → p.clearInactive X.demand = q.clearInactive X.demand)
include hclear

omit h in
theorem cleared_eq (hn : X.Nodes n n') : n'.cleared X.demand = n.cleared X.demand := by
  rw [Node.cleared, hn.same, ← hclear _ _ hn.tables]
  rfl

theorem eligible_eq : s.eligible.map (Prod.map (Node.cleared X.demand) id) =
    r.eligible.map (Prod.map (Node.cleared X.demand) id) := by
  rw [Search.eligible, Search.eligible, Search.preorder, Search.preorder, h.arenas.size_eq, h.walk_eq,
    List.map_filterMap, List.map_filterMap]
  refine List.filterMap_congr fun i _ => ?_
  have hn := h.arenas i
  rw [Search.node?, Search.node?]
  generalize s.nodes[i]? = x at hn
  generalize r.nodes[i]? = y at hn
  cases hn with
  | none => rfl
  | @some n n' hn =>
    have hvisits : n'.visits = n.visits := hn.map_eq fun _ _ => rfl
    rw [Option.bind_some, Option.bind_some, hvisits, hn.appraisal_eq]
    split_ifs
    · cases n.appraisal with
      | none => rfl
      | some a => exact congrArg (fun m => some (m, a)) (cleared_eq hclear hn).symm
    · rfl

/-- Where clearing the inactive cells leaves the same of tables that stand for each other, both have the same
answer. -/
theorem finalize_eq : s.finalize = r.finalize := by
  have hbest : s.best?.map (Prod.map (Node.cleared X.demand) id) =
      r.best?.map (Prod.map (Node.cleared X.demand) id) := by
    rw [Search.best?_map, Search.best?_map, h.eligible_eq hclear]
  have hroot : s.rootObjective? = r.rootObjective? := h.arenas.bind_eq 0 fun _ _ => rfl
  rw [Search.finalize, Search.finalize, h.demand.1, h.demand.2, hroot, h.iterations, h.evaluations,
    h.arenas.size_eq]
  cases hs : s.best? with
  | none =>
    rw [hs, Option.map_none] at hbest
    rw [Option.map_eq_none_iff.1 hbest.symm]
  | some best =>
    obtain ⟨⟨n, a⟩, hr, hcleared⟩ := Option.map_eq_some_iff.1 (hbest.symm.trans (congrArg _ hs))
    obtain ⟨hnode, rfl⟩ := Prod.mk.inj hcleared
    have hfield : ∀ {γ : Type} (f : Node α → γ), f (n.cleared X.demand) = f (best.1.cleared X.demand) :=
      fun f => congrArg f hnode
    have hpriority : n.priority.clearInactive X.demand = best.1.priority.clearInactive X.demand :=
      hfield Node.priority
    have hid : n.id = best.1.id := hfield Node.id
    have hdepth : n.depth = best.1.depth := hfield Node.depth
    have hvisits : n.visits = best.1.visits := hfield Node.visits
    rw [hr]
    simp only [hpriority, hid, hdepth, hvisits, id_eq]

end Answer

end Searches

end Coupling

end LinkPriority

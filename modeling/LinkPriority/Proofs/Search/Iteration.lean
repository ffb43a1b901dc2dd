import LinkPriority.Proofs.Search.Move

/-! What one iteration does to a search. Expanding a node adds all its children or finds nothing to add. An
iteration descends to a childless node and appraises it; if it has candidates, it becomes a parent and its first
child is appraised too; the last appraisal is the reward. A run is an appraisal of the root and so many
iterations. -/

namespace LinkPriority

namespace Search

variable {α σ ω : Type} [Scalar α] [IndexSource σ]

/-- An iteration on `s` rewards the node `id` and leaves `s'`. -/
inductive Advances (s : Search α σ ω) : (id : Nat) → (s' : Search α σ ω) → Prop where
  | terminal {leaf : Nat} {s₁ : Search α σ ω} {a : Appraisal α} (hleaf : s.Descends 0 leaf)
    (ha : s.Appraises leaf s₁ a) (hactions : a.actions = []) : Advances s leaf (s₁.rewarded leaf a.objective)
  | child {leaf : Nat} {s₁ s₂ s₃ : Search α σ ω} {a b : Appraisal α} {n : Node α} (hleaf : s.Descends 0 leaf)
    (ha : s.Appraises leaf s₁ a) (hactions : a.actions ≠ []) (hn : s₁.node? leaf = some n)
    (hchildless : n.children = []) (hknown : n.appraisal = some a) (hb : s₁.Branches s₂ leaf n a.actions)
    (hchild : s₂.Appraises s₁.nodes.size s₃ b) :
    Advances s s₁.nodes.size (s₃.rewarded s₁.nodes.size b.objective)

/-- An iteration on `s` stops with `e` and leaves `s'`. -/
inductive Halts (s : Search α σ ω) : (e : SearchError α) → (s' : Search α σ ω) → Prop where
  | leaf {leaf : Nat} {e : SearchError α} (hleaf : s.Descends 0 leaf) (hstuck : s.Stuck leaf e) : Halts s e s
  | child {leaf : Nat} {s₁ s₂ : Search α σ ω} {a : Appraisal α} {n : Node α} {e : SearchError α}
    (hleaf : s.Descends 0 leaf) (ha : s.Appraises leaf s₁ a) (hactions : a.actions ≠ [])
    (hn : s₁.node? leaf = some n) (hchildless : n.children = []) (hknown : n.appraisal = some a)
    (hb : s₁.Branches s₂ leaf n a.actions) (hstuck : s₂.Stuck s₁.nodes.size e) : Halts s e s₂

/-- So many iterations lead from one search to another. -/
inductive Iterates : (count : Nat) → (s s' : Search α σ ω) → Prop where
  | zero (s : Search α σ ω) : Iterates 0 s s
  | succ {count id : Nat} {s s₁ s' : Search α σ ω} (h : s.Advances id s₁) (hrest : Iterates count s₁ s') :
    Iterates (count + 1) s s'

variable {s s' : Search α σ ω} {id : Nat} {e : SearchError α}

theorem Advances.changes (h : s.Advances id s') : Changes s s' := by
  cases h with
  | terminal _ ha _ => exact .trans (.single (.appraise ha)) (changes_rewarded _ _ _)
  | child _ ha _ hn hchildless hknown hb hchild =>
    exact .trans (.tail (.tail (.single (.appraise ha)) (.branch hn hchildless hknown hb)) (.appraise hchild))
      (changes_rewarded _ _ _)

theorem Halts.changes (h : s.Halts e s') : Changes s s' := by
  cases h with
  | leaf => exact .refl
  | child _ ha _ hn hchildless hknown hb _ =>
    exact .tail (.single (.appraise ha)) (.branch hn hchildless hknown hb)

theorem Advances.iterations_eq (h : s.Advances id s') : s'.iterations = s.iterations + 1 := by
  cases h with
  | terminal _ ha _ => exact congrArg (· + 1) ha.iterations_eq
  | @child _ s₁ s₂ _ _ _ _ _ ha _ _ _ _ hb hchild =>
    have hbranch : s₂.iterations = s₁.iterations := by rw [hb.rest]
    exact congrArg (· + 1) (hchild.iterations_eq.trans (hbranch.trans ha.iterations_eq))

/-- Only the numbers of the model's run stop an iteration. -/
theorem Halts.exists_numeric (h : s.Halts e s') : ∃ objective epochs, e = .model (.numeric objective epochs) := by
  cases h with
  | leaf _ hstuck => exact hstuck.exists_numeric
  | child _ _ _ _ _ _ _ hstuck => exact hstuck.exists_numeric

theorem Iterates.changes {count : Nat} (h : Iterates count s s') : Changes s s' := by
  induction h with
  | zero => exact .refl
  | succ h _ ih => exact h.changes.trans ih

theorem Iterates.iterations_eq {count : Nat} (h : Iterates count s s') : s'.iterations = s.iterations + count := by
  induction h with
  | zero => rfl
  | succ h _ ih =>
    rw [ih, h.iterations_eq]
    omega

end Search

namespace Move

variable {α σ ω : Type} {s : Search α σ ω} {t : Session α σ ω} {id : Nat} {n : Node α}

/-! ### Expansion -/

theorem childActions_eq (hn : s.node? id = some n) :
    Move.childActions s id = n.children.filterMap s.actionOf := by
  rw [Move.childActions, hn]
  rfl

private theorem filterMap_eq_of_map_eq {β γ : Type} {f : β → Option γ} {xs : List β} {ys : List γ}
    (h : xs.map f = ys.map some) : xs.filterMap f = ys := by
  have hmap : xs.filterMap f = (xs.map f).filterMap id := by rw [List.filterMap_map, Function.id_comp]
  rw [hmap, h, List.filterMap_map, Function.id_comp, List.filterMap_some]

variable [Scalar α]

theorem addChild_eq {action : Swap} {child : Node α} (hn : t.search.node? id = some n)
    (hchild : n.child action t.search.nodes.size = .ok child) :
    Move.addChild id action t = .ok t.search.nodes.size
      ⟨{ t.search with nodes := (t.search.nodes.push child).modify id fun m =>
        { m with children := m.children ++ [t.search.nodes.size] } }, t.reported⟩ := by
  rw [Move.addChild, bind_of_ok (node_eq hn), get_bind, hchild]
  rfl

/-- Adding children one after the other; the first of them is returned if none was there before. -/
theorem exists_addChildren_eq {rest : List Swap} {done : List Swap} (first : Option Nat)
    (hn : s.node? id = some n) (hb : s.Branches t.search id n done)
    (hchild : ∀ action ∈ rest, ∀ i, ∃ child, n.child action i = .ok child) :
    ∃ t', Move.addChildren id first rest t =
        .ok (first <|> rest.head?.map fun _ => t.search.nodes.size) t' ∧
      s.Branches t'.search id n (done ++ rest) := by
  induction rest generalizing t done first with
  | nil =>
    refine ⟨t, ?_, by rwa [List.append_nil]⟩
    cases first <;> rfl
  | cons action rest ih =>
    obtain ⟨child, hok⟩ := hchild action List.mem_cons_self t.search.nodes.size
    have hb₁ := hb.push (Search.node?_lt hn) hok
    obtain ⟨t', heq, hb'⟩ := @ih ⟨_, t.reported⟩ _ (first <|> some t.search.nodes.size) hb₁ fun a ha =>
      hchild a (List.mem_cons_of_mem _ ha)
    refine ⟨t', ?_, by rwa [List.append_assoc] at hb'⟩
    rw [Move.addChildren, bind_of_ok (addChild_eq hb.parent hok), heq]
    cases first <;> rfl

variable [IndexSource σ]

/-- Every candidate of a node with children has its child: there is nothing to add. -/
theorem expand_of_children (htree : t.search.IsTree) (hn : t.search.node? id = some n) (hne : n.children ≠ []) :
    Move.expand id t = .ok id t := by
  obtain ⟨a, ha, -, hactions⟩ := htree.appraisal_of_children hn hne
  have hfilter : a.actions.filter (fun action => !a.actions.contains action) = [] := by simp
  rw [Move.expand, bind_of_ok (appraisal_of_known hn ha), get_bind, childActions_eq hn,
    filterMap_eq_of_map_eq hactions, hfilter]
  rfl

theorem expand_of_terminal {a : Appraisal α} (hn : t.search.node? id = some n) (ha : n.appraisal = some a)
    (hactions : a.actions = []) : Move.expand id t = .ok id t := by
  rw [Move.expand, bind_of_ok (appraisal_of_known hn ha), get_bind, hactions]
  rfl

/-- How an expansion ends. -/
inductive ExpandOutcome (t : Session α σ ω) (id : Nat) :
    EStateM.Result (SearchError α) (Session α σ ω) Nat → Prop where
  | settled {t' : Session α σ ω} {a : Appraisal α} {n : Node α} (ha : t.search.Appraises id t'.search a)
    (hn : t'.search.node? id = some n) (hknown : n.appraisal = some a) (h : n.children ≠ [] ∨ a.actions = []) :
    ExpandOutcome t id (.ok id t')
  | branched {s₁ : Search α σ ω} {t' : Session α σ ω} {a : Appraisal α} {n : Node α}
    (ha : t.search.Appraises id s₁ a) (hactions : a.actions ≠ []) (hn : s₁.node? id = some n)
    (hchildless : n.children = []) (hknown : n.appraisal = some a)
    (hb : s₁.Branches t'.search id n a.actions) : ExpandOutcome t id (.ok s₁.nodes.size t')
  | stuck {t' : Session α σ ω} {e : SearchError α} (h : t.search.Stuck id e) (hsame : t'.search = t.search) :
    ExpandOutcome t id (.error e t')

/-- Expanding is asking for the appraisal and expanding then. -/
theorem expand_of_appraisal {t₁ : Session α σ ω} {a : Appraisal α} (h : Move.appraisal id t = .ok a t₁)
    (hn : t₁.search.node? id = some n) (ha : n.appraisal = some a) :
    Move.expand id t = Move.expand id t₁ := by
  rw [Move.expand, bind_of_ok h, bind_of_ok (appraisal_of_known hn ha)]

/-- A childless node with candidates gets a child for each of them, and the first new place is returned. -/
theorem exists_expand_eq {a : Appraisal α} (hs : t.search.Sound) (hn : t.search.node? id = some n)
    (ha : n.appraisal = some a) (hchildless : n.children = []) (hactions : a.actions ≠ []) :
    ∃ t', Move.expand id t = .ok t.search.nodes.size t' ∧ t.search.Branches t'.search id n a.actions := by
  obtain ⟨t', heq, hb⟩ := exists_addChildren_eq none hn (.refl hn) fun action haction i =>
    ((hs.node id n hn).exists_child_eq ha haction i).imp fun _ h => h.1
  have hfilter : a.actions.filter (fun action => !([] : List Swap).contains action) = a.actions :=
    List.filter_true _
  have hfirst : (none <|> a.actions.head?.map fun _ => t.search.nodes.size) = some t.search.nodes.size := by
    rw [List.head?_eq_some_head hactions]
    rfl
  refine ⟨t', ?_, hb⟩
  rw [Move.expand, bind_of_ok (appraisal_of_known hn ha), get_bind, childActions_eq hn, hchildless,
    List.filterMap_nil, hfilter, bind_of_ok heq, hfirst]
  rfl

variable [OrderedScalar α]

theorem expand_outcome (hs : t.search.Sound) (hn : t.search.node? id = some n) :
    ExpandOutcome t id (Move.expand id t) := by
  generalize hresult : Move.appraisal id t = result
  have houtcome := appraisal_outcome hs hn
  rw [hresult] at houtcome
  cases houtcome with
  | stuck h hsame =>
    rw [Move.expand, bind_of_error hresult]
    exact .stuck h hsame
  | @answers t₁ a ha =>
    obtain ⟨m, -, hm⟩ := ha.exists_node
    have hs₁ := hs.appraises ha
    rw [expand_of_appraisal hresult hm rfl]
    by_cases hchildless : m.children = []
    · by_cases hactions : a.actions = []
      · rw [expand_of_terminal hm rfl hactions]
        exact .settled ha hm rfl (.inr hactions)
      · obtain ⟨t', heq, hb⟩ := exists_expand_eq hs₁ hm rfl hchildless hactions
        rw [heq]
        exact .branched ha hactions hm hchildless rfl hb
    · rw [expand_of_children hs₁.tree hm hchildless]
      exact .settled ha hm rfl (.inl hchildless)

/-! ### Iterations -/

/-- The end of an iteration: the objective of `chosen` is its reward. -/
def rewarding (chosen : Nat) : Move α σ ω Nat := do
  let a ← Move.appraisal chosen
  Move.update fun s => s.rewarded chosen a.objective
  return chosen

omit [OrderedScalar α] in
theorem step_eq (t : Session α σ ω) : Move.step t =
    (Move.descend t.search.nodes.size 0 >>= fun leaf => Move.isTerminal leaf >>= fun terminal =>
      (if terminal then pure leaf else Move.expand leaf) >>= rewarding) t := by
  rw [Move.step, get_bind]
  refine congrFun (congrArg (Move.descend t.search.nodes.size 0 >>= ·) (funext fun leaf =>
    congrArg (Move.isTerminal leaf >>= ·) (funext fun terminal => ?_))) t
  cases terminal <;> rfl

omit [OrderedScalar α] in
theorem rewarding_of_ok {chosen : Nat} {a : Appraisal α} {t' : Session α σ ω}
    (h : Move.appraisal chosen t = .ok a t') :
    rewarding chosen t = .ok chosen ⟨t'.search.rewarded chosen a.objective, t'.reported⟩ := by
  rw [rewarding, bind_of_ok h]
  rfl

/-- How an iteration ends. -/
inductive StepOutcome (t : Session α σ ω) : EStateM.Result (SearchError α) (Session α σ ω) Nat → Prop where
  | advances {t' : Session α σ ω} {id : Nat} (h : t.search.Advances id t'.search) : StepOutcome t (.ok id t')
  | halts {t' : Session α σ ω} {e : SearchError α} (h : t.search.Halts e t'.search) : StepOutcome t (.error e t')

/-- The second half of an iteration whose leaf has candidates. -/
theorem step_outcome_of_candidates {leaf : Nat} {t₁ : Session α σ ω} {a : Appraisal α} {n : Node α}
    (hs : t.search.Sound) (hleaf : t.search.Descends 0 leaf) (ha : t.search.Appraises leaf t₁.search a)
    (hn : t₁.search.node? leaf = some n) (hknown : n.appraisal = some a) (hchildless : n.children = [])
    (hactions : a.actions ≠ []) : StepOutcome t ((Move.expand leaf >>= rewarding) t₁) := by
  have hs₁ := hs.appraises ha
  obtain ⟨t₂, hexpand, hb⟩ := exists_expand_eq hs₁ hn hknown hchildless hactions
  have hs₂ := hs₁.branches hn hchildless hknown hb
  obtain ⟨child, hchild⟩ := hb.exists_first hactions
  rw [bind_of_ok hexpand]
  generalize hresult : Move.appraisal t₁.search.nodes.size t₂ = result
  have houtcome := appraisal_outcome hs₂ hchild
  rw [hresult] at houtcome
  cases houtcome with
  | stuck h hsame =>
    rw [rewarding, bind_of_error hresult]
    refine .halts ?_
    rw [hsame]
    exact .child hleaf ha hactions hn hchildless hknown hb h
  | answers h =>
    rw [rewarding_of_ok hresult]
    exact .advances (.child hleaf ha hactions hn hchildless hknown hb h)

theorem step_outcome (hs : t.search.Sound) : StepOutcome t (Move.step t) := by
  obtain ⟨root, hroot, -⟩ := hs.tree.root
  obtain ⟨leaf, hleaf, hdescend⟩ := exists_descend_eq hs hroot (Nat.le_add_right t.search.nodes.size 0)
  obtain ⟨n, hn, hchildless⟩ := hleaf.exists_leaf
  rw [step_eq, bind_of_ok hdescend]
  generalize hresult : Move.appraisal leaf t = result
  have houtcome := appraisal_outcome hs hn
  rw [hresult] at houtcome
  cases houtcome with
  | stuck h hsame =>
    have hterminal : Move.isTerminal leaf t = .error _ _ := bind_of_error hresult
    rw [bind_of_error hterminal]
    refine .halts ?_
    rw [hsame]
    exact .leaf hleaf h
  | @answers t₁ a ha =>
    have hterminal : Move.isTerminal leaf t = .ok a.actions.isEmpty t₁ := by
      rw [Move.isTerminal, bind_of_ok hresult]
      rfl
    obtain ⟨m, hm, hm₁⟩ := ha.exists_node
    obtain rfl : m = n := Option.some.inj (hm.symm.trans hn)
    rw [bind_of_ok hterminal]
    by_cases hactions : a.actions = []
    · rw [if_pos (by simp [hactions]), pure_bind, rewarding_of_ok (appraisal_of_known hm₁ rfl)]
      exact .advances (.terminal hleaf ha hactions)
    · rw [if_neg (by simp [hactions])]
      exact step_outcome_of_candidates hs hleaf ha hm₁ rfl hchildless hactions

theorem advances_of_step {t' : Session α σ ω} (hs : t.search.Sound) (h : Move.step t = .ok id t') :
    t.search.Advances id t'.search := by
  have houtcome := step_outcome hs
  rw [h] at houtcome
  cases houtcome with
  | advances h => exact h

/-! ### Runs -/

omit [OrderedScalar α] [IndexSource σ] in
/-- Reporting progress does not touch the search. -/
theorem exists_reportProgress_eq (t : Session α σ ω) :
    ∃ reported, Move.reportProgress t = .ok () ⟨t.search, reported⟩ := by
  rw [Move.reportProgress, get_bind]
  split
  · exact ⟨_, rfl⟩
  · exact ⟨t.reported, rfl⟩

/-- How so many iterations end. -/
inductive IterateOutcome (t : Session α σ ω) (count : Nat) :
    EStateM.Result (SearchError α) (Session α σ ω) Unit → Prop where
  | done {t' : Session α σ ω} (h : Search.Iterates count t.search t'.search) : IterateOutcome t count (.ok () t')
  | halts {t' : Session α σ ω} {s₁ : Search α σ ω} {e : SearchError α} {before : Nat} (hbefore : before < count)
    (h : Search.Iterates before t.search s₁) (hhalts : s₁.Halts e t'.search) : IterateOutcome t count (.error e t')

theorem iterate_outcome (hs : t.search.Sound) (count : Nat) : IterateOutcome t count (Move.iterate count t) := by
  induction count generalizing t with
  | zero => exact .done (.zero t.search)
  | succ count ih =>
    rw [Move.iterate]
    generalize hresult : Move.step t = result
    have houtcome := step_outcome hs
    rw [hresult] at houtcome
    cases houtcome with
    | halts h =>
      rw [bind_of_error hresult]
      exact .halts (Nat.succ_pos count) (.zero t.search) h
    | @advances t₁ id h =>
      obtain ⟨reported, hreport⟩ := exists_reportProgress_eq t₁
      rw [bind_of_ok hresult, bind_of_ok hreport]
      have hrest := ih (t := ⟨t₁.search, reported⟩) (h.changes.sound hs)
      generalize Move.iterate count ⟨t₁.search, reported⟩ = result at hrest
      cases hrest with
      | done hrest => exact .done (.succ h hrest)
      | halts hbefore hrest hhalts => exact .halts (Nat.succ_lt_succ hbefore) (.succ h hrest) hhalts

/-- How a run ends. -/
inductive RunOutcome (t : Session α σ ω) : EStateM.Result (SearchError α) (Session α σ ω) Unit → Prop where
  | done {s₁ : Search α σ ω} {t' : Session α σ ω} {a : Appraisal α} (ha : t.search.Appraises 0 s₁ a)
    (h : Search.Iterates t.search.settings.iterations s₁ t'.search) : RunOutcome t (.ok () t')
  | stuck {t' : Session α σ ω} {e : SearchError α} (h : t.search.Stuck 0 e) (hsame : t'.search = t.search) :
    RunOutcome t (.error e t')
  | halts {s₁ s₂ : Search α σ ω} {t' : Session α σ ω} {a : Appraisal α} {e : SearchError α} {before : Nat}
    (ha : t.search.Appraises 0 s₁ a) (h : Search.Iterates before s₁ s₂) (hhalts : s₂.Halts e t'.search) :
    RunOutcome t (.error e t')

theorem run_outcome (hs : t.search.Sound) : RunOutcome t (Move.run t) := by
  obtain ⟨root, hroot, -⟩ := hs.tree.root
  rw [Move.run]
  generalize hresult : Move.appraisal 0 t = result
  have houtcome := appraisal_outcome hs hroot
  rw [hresult] at houtcome
  cases houtcome with
  | stuck h hsame =>
    rw [bind_of_error hresult]
    exact .stuck h hsame
  | @answers t₁ a ha =>
    rw [bind_of_ok hresult, get_bind, ha.settings_eq]
    have hrest := iterate_outcome (hs.appraises ha) t.search.settings.iterations
    generalize Move.iterate t.search.settings.iterations t₁ = result at hrest
    cases hrest with
    | done h => exact .done ha h
    | halts _ h hhalts => exact .halts ha h hhalts

end Move

end LinkPriority

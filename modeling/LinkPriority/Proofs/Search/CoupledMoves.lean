import LinkPriority.Proofs.Search.Coupling

/-! Two searches that move in step. Of searches that are the same but for their tables, every move gives the same in
both or fails in both with the same error, and leaves them the same but for their tables: it is made of looking at a
node, appraising, adding a child and passing a reward up, each of which does. -/

namespace LinkPriority.Coupling

variable {α σ ω ω' β γ : Type} [Scalar α] [IndexSource σ] {X : Coupling α σ ω ω'}

/-- Both moves end with results that are related or fail with the same error, and the searches still do the same. -/
inductive Ends (X : Coupling α σ ω ω') (R : β → γ → Prop) :
    EStateM.Result (SearchError α) (Session α σ ω) β → EStateM.Result (SearchError α) (Session α σ ω') γ → Prop where
  | ok {b : β} {c : γ} {t : Session α σ ω} {r : Session α σ ω'} (hb : R b c) (h : X.Searches t.search r.search) :
    Ends X R (.ok b t) (.ok c r)
  | error {t : Session α σ ω} {r : Session α σ ω'} (e : SearchError α) (h : X.Searches t.search r.search) :
    Ends X R (.error e t) (.error e r)

/-- The moves do the same, with results that are related. -/
def Moves (X : Coupling α σ ω ω') (R : β → γ → Prop) (m : Move α σ ω β) (m' : Move α σ ω' γ) : Prop :=
  ∀ t r, X.Searches t.search r.search → X.Ends R (m t) (m' r)

/-- The appraisals are the same, and propose only swaps under which the searches stay the same. -/
def Appraisals (X : Coupling α σ ω ω') (a a' : Appraisal α) : Prop := a = a' ∧ ∀ s ∈ a.actions, X.swaps s

namespace Moves

variable {β' γ' : Type} {R : β → γ → Prop} {S : β' → γ' → Prop} {m : Move α σ ω β} {m' : Move α σ ω' γ}

theorem pure {b : β} {c : γ} (h : R b c) : X.Moves R (Pure.pure b) (Pure.pure c) := fun _ _ hsame => .ok h hsame

theorem throw (e : SearchError α) : X.Moves R (throw e) (throw e) := fun _ _ hsame => .error e hsame

theorem bind {f : β → Move α σ ω β'} {f' : γ → Move α σ ω' γ'} (hm : X.Moves R m m')
    (hf : ∀ b c, R b c → X.Moves S (f b) (f' c)) : X.Moves S (m >>= f) (m' >>= f') := by
  intro t r h
  have hends := hm t r h
  generalize hresult : m t = result at hends
  generalize hresult' : m' r = result' at hends
  cases hends with
  | ok hb h =>
    rw [Move.bind_of_ok hresult, Move.bind_of_ok hresult']
    exact hf _ _ hb _ _ h
  | error e h =>
    rw [Move.bind_of_error hresult, Move.bind_of_error hresult']
    exact .error e h

/-- Moves that look at their searches. -/
theorem get_bind {f : Session α σ ω → Move α σ ω β} {f' : Session α σ ω' → Move α σ ω' γ}
    (hf : ∀ t r, X.Searches t.search r.search → X.Ends R (f t t) (f' r r)) : X.Moves R (get >>= f) (get >>= f') := hf

theorem update {g : Search α σ ω → Search α σ ω} {g' : Search α σ ω' → Search α σ ω'}
    (hg : ∀ s r, X.Searches s r → X.Searches (g s) (g' r)) : X.Moves Eq (Move.update g) (Move.update g') :=
  fun t r h => .ok rfl (hg t.search r.search h)

/-- Reports need not be the same. -/
theorem report (events events' : List (SearchEvent α)) :
    X.Moves Eq (Move.report events) (Move.report events') := fun _ _ h => .ok rfl h

theorem ofExcept {x : Except (SearchError α) β} {y : Except (SearchError α) γ} (h : Except.Alike R x y) :
    X.Moves R (Move.ofExcept x) (Move.ofExcept y) := by
  cases h with
  | ok h => exact pure h
  | error e => exact throw e

theorem node (id : Nat) : X.Moves X.Nodes (Move.node id) (Move.node id) := by
  refine get_bind fun t r h => ?_
  have hn := h.arenas id
  rw [Search.node?, Search.node?]
  generalize t.search.nodes[id]? = x at hn
  generalize r.search.nodes[id]? = y at hn
  cases hn with
  | none => exact throw _ t r h
  | some hn => exact pure hn t r h

theorem settle (id : Nat) {asked asked' : Appraising α σ} (hasked : X.Appraisings asked asked') :
    X.Moves X.Appraisals (Move.settle id asked) (Move.settle id asked') := by
  obtain ⟨hsame, hnode, hswaps⟩ := hasked
  generalize asked'.node = n at hsame hnode
  subst hsame
  refine bind (update fun s r h => ?_) fun _ _ _ => bind (report _ _) fun _ _ _ => ?_
  · exact { h.withNodes (h.arenas.set id hnode) with choices := rfl }
  · dsimp only
    cases hresult : asked.result with
    | error e => exact throw _
    | ok a =>
      have ha : X.Appraisals a a := ⟨rfl, hswaps a hresult⟩
      cases asked.fresh with
      | false => exact pure ha
      | true =>
        exact bind (update fun s r h => h.report id a.objective) fun _ _ _ =>
          bind (report _ _) fun _ _ _ => pure ha

theorem appraisal (id : Nat) : X.Moves X.Appraisals (Move.appraisal id) (Move.appraisal id) := by
  refine bind (node id) fun n n' hn => get_bind fun t r h => ?_
  have hasked := hn.appraise X.settings.epochBudget t.search.choices
  rw [h.demand.1, h.demand.2, h.settings.1, h.settings.2, ← X.epochBudget, ← h.choices]
  exact settle id hasked t r h

theorem isTerminal (id : Nat) : X.Moves Eq (Move.isTerminal id) (Move.isTerminal id) :=
  bind (appraisal id) fun _ _ ha => pure (congrArg (fun a => a.actions.isEmpty) ha.1)

theorem select (id : Nat) : X.Moves Eq (Move.select id) (Move.select id) := by
  refine get_bind fun t r h => ?_
  rw [h.select_eq]
  cases r.search.select id with
  | ok child => exact pure rfl t r h
  | error e => exact throw e t r h

theorem addChild (id : Nat) {action : Swap} (haction : X.swaps action) :
    X.Moves Eq (Move.addChild id action) (Move.addChild id action) := by
  refine bind (node id) fun n n' hn => get_bind fun t r h => ?_
  -- the child gets the same id on both sides
  rw [h.arenas.size_eq]
  refine bind (ofExcept ((hn.child haction _).mapError _)) (fun child child' hchild =>
    bind (update fun s r h => ?_) fun _ _ _ => pure rfl) t r h
  exact h.withNodes ((h.arenas.push hchild).modify id fun _ _ hn => hn.withChild _)

theorem addChildren (id : Nat) (first : Option Nat) {actions : List Swap} (hactions : ∀ s ∈ actions, X.swaps s) :
    X.Moves Eq (Move.addChildren id first actions) (Move.addChildren id first actions) := by
  induction actions generalizing first with
  | nil => exact pure rfl
  | cons action rest ih =>
    obtain ⟨haction, hrest⟩ := List.forall_mem_cons.1 hactions
    refine bind (addChild id haction) fun child child' hchild => ?_
    rw [hchild]
    exact ih _ hrest

theorem expand (id : Nat) : X.Moves Eq (Move.expand id) (Move.expand id) := by
  refine bind (appraisal id) fun a a' ha => get_bind fun t r h => ?_
  obtain ⟨rfl, hswaps⟩ := ha
  rw [h.childActions_eq]
  refine bind (addChildren id none fun s hs => ?_) (fun first first' hfirst => ?_) t r h
  · exact hswaps s (List.mem_of_mem_filter hs)
  · rw [hfirst]
    exact pure rfl

theorem descend (levels id : Nat) : X.Moves Eq (Move.descend levels id) (Move.descend levels id) := by
  induction levels generalizing id with
  | zero => exact pure rfl
  | succ levels ih =>
    refine bind (node id) fun n n' hn => ?_
    rw [hn.map_eq (f := fun n => n.children.isEmpty) fun _ _ => rfl]
    split
    · exact pure rfl
    · refine bind (isTerminal id) fun terminal terminal' hterminal => ?_
      rw [hterminal]
      split
      · exact pure rfl
      · refine bind (select id) fun child child' hchild => ?_
        rw [hchild]
        exact ih child'

theorem rewarding (chosen : Nat) : X.Moves Eq (Move.rewarding chosen) (Move.rewarding chosen) := by
  refine bind (appraisal chosen) fun a a' ha => ?_
  obtain ⟨rfl, -⟩ := ha
  exact bind (update fun _ _ h => h.rewarded chosen a.objective) fun _ _ _ => pure rfl

/-- An iteration does the same in both searches. -/
theorem step : X.Moves Eq Move.step Move.step := by
  intro t r h
  rw [Move.step_eq, Move.step_eq, h.arenas.size_eq]
  refine bind (descend _ 0) (fun leaf leaf' hleaf => ?_) t r h
  rw [hleaf]
  refine bind (isTerminal leaf') fun terminal terminal' hterminal => ?_
  rw [hterminal]
  have hchosen : X.Moves Eq (if terminal' then Pure.pure leaf' else Move.expand leaf')
      (if terminal' then Pure.pure leaf' else Move.expand leaf') := by
    split
    · exact pure rfl
    · exact expand leaf'
  refine bind hchosen fun chosen chosen' hsame => ?_
  rw [hsame]
  exact rewarding chosen'

theorem reportProgress : X.Moves Eq Move.reportProgress Move.reportProgress := by
  intro t r h
  obtain ⟨reported, hreport⟩ := Move.exists_reportProgress_eq t
  obtain ⟨reported', hreport'⟩ := Move.exists_reportProgress_eq r
  rw [hreport, hreport']
  exact .ok rfl h

theorem iterate (count : Nat) : X.Moves Eq (Move.iterate count) (Move.iterate count) := by
  induction count with
  | zero => exact pure rfl
  | succ count ih => exact bind step fun _ _ _ => bind reportProgress fun _ _ _ => ih

/-- A run does the same if both searches are to iterate as often. -/
theorem run (hiterations : X.settings.iterations = X.settings'.iterations) : X.Moves Eq Move.run Move.run := by
  refine bind (appraisal 0) fun _ _ _ => get_bind fun t r h => ?_
  rw [h.settings.1, h.settings.2, hiterations]
  exact iterate _ t r h

end Moves

end LinkPriority.Coupling

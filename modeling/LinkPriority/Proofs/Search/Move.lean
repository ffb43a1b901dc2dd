import LinkPriority.Proofs.FirstBest
import LinkPriority.Proofs.Search.Invariant

/-! How the moves of a search end. On a sound search an appraisal can only be missed because the numbers of the
model's run are not finite, a descent ends at a childless node without changing anything, and the children of a
node are added all at once. Each move gets one list of its possible endings, from which everything else about it
is derived. -/

namespace LinkPriority

namespace Search

variable {α σ ω : Type} [Scalar α] {s : Search α σ ω} {i id : Nat} {n : Node α}

/-- The model cannot answer for the node `id`, which is not appraised, and `e` says so. -/
inductive Stuck (s : Search α σ ω) (id : Nat) : SearchError α → Prop where
  | intro {n : Node α} {objective : α} {epochs : Nat} (hn : s.node? id = some n) (hpending : n.appraisal = none)
    (hfails : n.Fails s.demand s.settings.epochBudget objective epochs) :
    Stuck s id (.model (.numeric objective epochs))

theorem Stuck.exists_numeric {e : SearchError α} (h : s.Stuck id e) :
    ∃ objective epochs, e = .model (.numeric objective epochs) := by
  obtain ⟨-, -, -⟩ := h
  exact ⟨_, _, rfl⟩

/-- Following the best scores from `id` down leads to the childless node `leaf`. -/
inductive Descends (s : Search α σ ω) : (id leaf : Nat) → Prop where
  | here {id : Nat} {n : Node α} (hn : s.node? id = some n) (hleaf : n.children = []) : Descends s id id
  | down {id child leaf : Nat} {n : Node α} (hn : s.node? id = some n) (hne : n.children ≠ [])
    (hselect : s.select id = .ok child) (h : Descends s child leaf) : Descends s id leaf

theorem Descends.exists_leaf {leaf : Nat} (h : s.Descends id leaf) :
    ∃ n, s.node? leaf = some n ∧ n.children = [] := by
  induction h with
  | here hn hleaf => exact ⟨_, hn, hleaf⟩
  | down _ _ _ _ ih => exact ih

/-- The search after an iteration that rewarded `id`. -/
def rewarded (s : Search α σ ω) (id : Nat) (amount : α) : Search α σ ω :=
  { s.backpropagate id amount with iterations := s.iterations + 1 }

theorem changes_rewarded [IndexSource σ] (s : Search α σ ω) (id : Nat) (amount : α) :
    Changes s (s.rewarded id amount) :=
  .tail (.single (.reward s id amount)) (.count (s.backpropagate id amount))

/-! ### Selection -/

/-- Among children there is always one to select. -/
theorem IsTree.exists_select_eq (h : s.IsTree) (hn : s.node? id = some n) (hne : n.children ≠ []) :
    ∃ child ∈ n.children, s.select id = .ok child := by
  have hscores : s.scores n ≠ [] := by
    obtain ⟨c, hc⟩ := List.exists_mem_of_ne_nil _ hne
    obtain ⟨m, hm, -⟩ := h.exists_child hn hc
    have hscore : (s.node? c).map (fun c' => (c, c'.score n.visits)) = some (c, m.score n.visits) := by
      rw [hm, Option.map_some]
    exact List.ne_nil_of_mem (List.mem_filterMap.2 ⟨c, hc, hscore⟩)
  have hsome : favourite (s.scores n) ≠ none := mt firstBest_eq_none.1 hscores
  obtain ⟨⟨child, score⟩, heq⟩ := Option.ne_none_iff_exists'.1 hsome
  have hmem := firstBest_mem heq
  obtain ⟨c, hc, hscore⟩ := List.mem_filterMap.1 hmem
  obtain ⟨m, -, hpair⟩ := Option.map_eq_some_iff.1 hscore
  obtain ⟨rfl, -⟩ := Prod.mk.inj hpair
  exact ⟨c, hc, by simp only [select, hn, heq]⟩

end Search

namespace Move

variable {α σ ω β γ : Type} {t t' : Session α σ ω} {e : SearchError α}

theorem bind_of_ok {m : Move α σ ω β} {f : β → Move α σ ω γ} {b : β} (h : m t = .ok b t') :
    (m >>= f) t = f b t' := by
  simp only [bind, EStateM.bind, h]

theorem bind_of_error {m : Move α σ ω β} {f : β → Move α σ ω γ} (h : m t = .error e t') :
    (m >>= f) t = .error e t' := by
  simp only [bind, EStateM.bind, h]

theorem exists_of_bind_eq_ok {m : Move α σ ω β} {f : β → Move α σ ω γ} {c : γ} (h : (m >>= f) t = .ok c t') :
    ∃ b t₁, m t = .ok b t₁ ∧ f b t₁ = .ok c t' := by
  cases hresult : m t with
  | error e t₁ =>
    rw [bind_of_error hresult] at h
    simp at h
  | ok b t₁ =>
    rw [bind_of_ok hresult] at h
    exact ⟨b, t₁, rfl, h⟩

theorem get_bind (f : Session α σ ω → Move α σ ω β) : ((get : Move α σ ω _) >>= f) t = f t t := rfl

variable {id : Nat} {n : Node α}

theorem node_eq (hn : t.search.node? id = some n) : Move.node id t = .ok n t := by
  rw [Move.node, get_bind, hn]
  rfl

variable [Scalar α] [IndexSource σ]

/-! ### Nodes that are appraised -/

omit [Scalar α] [IndexSource σ] in
private theorem setIfInBounds_node (hn : t.search.node? id = some n) :
    t.search.nodes.setIfInBounds id n = t.search.nodes := by
  refine Array.ext_getElem? fun i => ?_
  rw [Array.getElem?_setIfInBounds]
  split
  · next hi =>
    subst hi
    rw [if_pos (Search.node?_lt hn)]
    exact hn.symm
  · rfl

theorem appraisal_of_known {a : Appraisal α} (hn : t.search.node? id = some n) (ha : n.appraisal = some a) :
    Move.appraisal id t = .ok a t := by
  have heq : Move.appraisal id t =
      .ok a ⟨{ t.search with nodes := t.search.nodes.setIfInBounds id n }, t.reported⟩ := by
    rw [Move.appraisal, bind_of_ok (node_eq hn), get_bind, Node.appraise_of_known ha]
    rfl
  rw [heq, setIfInBounds_node hn]

theorem isTerminal_of_known {a : Appraisal α} (hn : t.search.node? id = some n) (ha : n.appraisal = some a) :
    Move.isTerminal id t = .ok a.actions.isEmpty t := by
  rw [Move.isTerminal, bind_of_ok (appraisal_of_known hn ha)]
  rfl

/-! ### Descent -/

/-- A descent ends at a childless node, if it may take as many levels as there are younger nodes. -/
theorem exists_descend_eq {levels : Nat} (hs : t.search.Sound) (hn : t.search.node? id = some n)
    (hlevels : t.search.nodes.size ≤ levels + id) :
    ∃ leaf, t.search.Descends id leaf ∧ Move.descend levels id t = .ok leaf t := by
  induction levels generalizing id n with
  | zero =>
    have := Search.node?_lt hn
    omega
  | succ levels ih =>
    rw [Move.descend, bind_of_ok (node_eq hn)]
    by_cases hleaf : n.children = []
    · refine ⟨id, .here hn hleaf, ?_⟩
      rw [hleaf]
      rfl
    · obtain ⟨a, ha, hactions, -⟩ := hs.tree.appraisal_of_children hn hleaf
      obtain ⟨child, hchild, hselect⟩ := hs.tree.exists_select_eq hn hleaf
      obtain ⟨m, hm, hp⟩ := hs.tree.hangs_of_mem hn hchild
      have hselect' : Move.select id t = .ok child t := by
        rw [Move.select, get_bind, hselect]
        rfl
      have holder := hp.older
      obtain ⟨leaf, hdescends, heq⟩ := ih hm (by omega)
      refine ⟨leaf, .down hn hleaf hselect hdescends, ?_⟩
      rw [if_neg (by simpa using hleaf), bind_of_ok (isTerminal_of_known hn ha), if_neg (by simpa using hactions),
        bind_of_ok hselect', heq]

/-! ### Asking the model -/

/-- How asking for an appraisal ends. -/
inductive AppraisalOutcome (t : Session α σ ω) (id : Nat) :
    EStateM.Result (SearchError α) (Session α σ ω) (Appraisal α) → Prop where
  | answers {t' : Session α σ ω} {a : Appraisal α} (h : t.search.Appraises id t'.search a) :
    AppraisalOutcome t id (.ok a t')
  | stuck {t' : Session α σ ω} {e : SearchError α} (h : t.search.Stuck id e) (hsame : t'.search = t.search) :
    AppraisalOutcome t id (.error e t')

variable [OrderedScalar α]

theorem appraisal_outcome (hs : t.search.Sound) (hn : t.search.node? id = some n) :
    AppraisalOutcome t id (Move.appraisal id t) := by
  cases ha : n.appraisal with
  | some a =>
    rw [appraisal_of_known hn ha]
    exact .answers (.known hn ha)
  | none =>
    rcases Node.appraise_of_pending ha (hs.node id n hn).fits hs.budget t.search.choices with
      ⟨a, after, objectives, happraise, hanswers⟩ | ⟨objective, epochs, objectives, happraise, hfails⟩
    · have heq : Move.appraisal id t = .ok a ⟨t.search.appraised id n a after,
          [SearchEvent.appraised id n.depth a.objective a.actions.length] ++
            ((SearchEvent.ofEpochs objectives).reverse ++ t.reported)⟩ := by
        rw [Move.appraisal, bind_of_ok (node_eq hn), get_bind, happraise]
        rfl
      rw [heq]
      exact .answers (.fresh hn ha hanswers)
    · have heq : Move.appraisal id t = .error (.model (.numeric objective epochs))
          ⟨{ t.search with nodes := t.search.nodes.setIfInBounds id n },
            (SearchEvent.ofEpochs objectives).reverse ++ t.reported⟩ := by
        rw [Move.appraisal, bind_of_ok (node_eq hn), get_bind, happraise]
        rfl
      rw [heq, setIfInBounds_node hn]
      exact .stuck (.intro hn ha hfails) rfl

end Move

end LinkPriority

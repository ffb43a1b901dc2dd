import LinkPriority.Proofs.Search.Tree

/-! The four changes a search is made of, each with what it does to every node, and the invariant that all of
them keep: the nodes form a tree, their tables fit the demand, and their appraisals are what the model says. -/

namespace LinkPriority.Search

variable {α σ ω : Type} {s s' : Search α σ ω} {i id : Nat} {n : Node α}

/-! ### Appraising a node -/

section Appraised

/-- The search after the model has answered `a` for the node `n`. -/
def appraised (s : Search α σ ω) (id : Nat) (n : Node α) (a : Appraisal α) (choices : σ) : Search α σ ω :=
  { s with
    nodes := s.nodes.setIfInBounds id { n with appraisal := some a }
    choices
    evaluations := s.evaluations + 1
    observer := s.observer.report id a.objective }

variable {a : Appraisal α} {choices : σ}

theorem node?_appraised (hn : s.node? id = some n) (i : Nat) :
    (s.appraised id n a choices).node? i = if i = id then some { n with appraisal := some a } else s.node? i := by
  simp only [node?, appraised, Array.getElem?_setIfInBounds, node?_lt hn, if_true, eq_comm]

theorem sameTree_appraised (hn : s.node? id = some n) (hpending : n.appraisal = none) :
    s.SameTree (s.appraised id n a choices) := by
  refine ⟨by simp [appraised], fun i m hm => ?_⟩
  rw [node?_appraised hn]
  by_cases hi : i = id
  · subst hi
    obtain rfl : n = m := Option.some.inj (hn.symm.trans hm)
    rw [if_pos rfl]
    exact ⟨_, rfl, ⟨rfl, rfl, rfl, rfl, rfl, rfl, fun b hb => by simp [hpending] at hb⟩, rfl⟩
  · rw [if_neg hi]
    exact ⟨m, hm, .refl m, rfl⟩

end Appraised

/-! ### The way up -/

section Lineage

/-- The way from a node up to the root. -/
def lineage (nodes : Array (Node α)) (id : Nat) : List Nat :=
  match nodes[id]?.bind Node.parent with
  | none => [id]
  | some p => if p < id then id :: lineage nodes p else [id]
termination_by id

variable {nodes : Array (Node α)}

theorem lineage_of_parent {p : Nat} (hparent : nodes[id]?.bind Node.parent = some p) (hlt : p < id) :
    lineage nodes id = id :: lineage nodes p := by
  rw [lineage]
  simp only [hparent, hlt, if_true]

theorem lineage_of_top (h : ¬∃ p, nodes[id]?.bind Node.parent = some p ∧ p < id) : lineage nodes id = [id] := by
  rw [lineage]
  split
  · rfl
  · next p hparent => rw [if_neg fun hlt => h ⟨p, hparent, hlt⟩]

theorem lineage_cases (nodes : Array (Node α)) (id : Nat) : lineage nodes id = [id] ∨
    ∃ p, nodes[id]?.bind Node.parent = some p ∧ p < id ∧ lineage nodes id = id :: lineage nodes p := by
  by_cases h : ∃ p, nodes[id]?.bind Node.parent = some p ∧ p < id
  · obtain ⟨p, hparent, hlt⟩ := h
    exact .inr ⟨p, hparent, hlt, lineage_of_parent hparent hlt⟩
  · exact .inl (lineage_of_top h)

theorem mem_lineage_self (nodes : Array (Node α)) (id : Nat) : id ∈ lineage nodes id := by
  rcases lineage_cases nodes id with h | ⟨p, -, -, h⟩
  · rw [h]
    exact List.mem_singleton_self id
  · rw [h]
    exact List.mem_cons_self

theorem le_of_mem_lineage (h : i ∈ lineage nodes id) : i ≤ id := by
  induction id using Nat.strong_induction_on with
  | _ id ih =>
    rcases lineage_cases nodes id with heq | ⟨p, -, hlt, heq⟩
    · rw [heq] at h
      exact (List.mem_singleton.1 h).le
    · rw [heq] at h
      rcases List.mem_cons.1 h with rfl | hrest
      · exact le_rfl
      · exact (ih p hlt hrest).trans hlt.le

/-- A node on the way is the one it starts from, or the parent of another on the way. -/
theorem eq_or_parent_of_mem_lineage (h : i ∈ lineage nodes id) :
    i = id ∨ ∃ c ∈ lineage nodes id, nodes[c]?.bind Node.parent = some i := by
  induction id using Nat.strong_induction_on with
  | _ id ih =>
    rcases lineage_cases nodes id with heq | ⟨p, hparent, hlt, heq⟩
    · rw [heq] at h
      exact .inl (List.mem_singleton.1 h)
    · rw [heq] at h ⊢
      rcases List.mem_cons.1 h with rfl | hrest
      · exact .inl rfl
      · rcases ih p hlt hrest with rfl | ⟨c, hc, hled⟩
        · exact .inr ⟨id, List.mem_cons_self, hparent⟩
        · exact .inr ⟨c, List.mem_cons_of_mem _ hc, hled⟩

theorem mem_lineage_of_parent {p : Nat} (hparent : nodes[id]?.bind Node.parent = some p) (hlt : p < id) :
    p ∈ lineage nodes id := by
  rw [lineage_of_parent hparent hlt]
  exact List.mem_cons_of_mem _ (mem_lineage_self nodes p)

/-- The way up only depends on the parents of nodes that are not younger. -/
theorem lineage_congr {nodes' : Array (Node α)}
    (h : ∀ i ≤ id, nodes'[i]?.bind Node.parent = nodes[i]?.bind Node.parent) :
    lineage nodes' id = lineage nodes id := by
  induction id using Nat.strong_induction_on with
  | _ id ih =>
    rw [lineage, lineage, h id le_rfl]
    split
    · rfl
    · next p _ =>
      split
      · next hlt => rw [ih p hlt fun i hi => h i (hi.trans hlt.le)]
      · rfl

end Lineage

variable [Scalar α]

/-! ### Adding children -/

/-- `s'` is `s` with a new child of `id` for each of `actions`, in their order. -/
structure Branches (s s' : Search α σ ω) (id : Nat) (n : Node α) (actions : List Swap) : Prop where
  rest : s' = { s with nodes := s'.nodes }
  size : s'.nodes.size = s.nodes.size + actions.length
  parent : s'.node? id = some { n with children := n.children ++ List.range' s.nodes.size actions.length }
  old : ∀ i < s.nodes.size, i ≠ id → s'.node? i = s.node? i
  new : ∀ j action, actions[j]? = some action → ∃ child, n.child action (s.nodes.size + j) = .ok child ∧
    s'.node? (s.nodes.size + j) = some child

namespace Branches

variable {actions : List Swap}

theorem refl (hn : s.node? id = some n) : s.Branches s id n [] :=
  ⟨rfl, rfl, by simpa using hn, fun _ _ _ => rfl, fun _ _ h => by simp at h⟩

/-- One more child. -/
theorem push {s₁ : Search α σ ω} (h : s.Branches s₁ id n actions) (hid : id < s.nodes.size) {action : Swap}
    {child : Node α} (hchild : n.child action s₁.nodes.size = .ok child) :
    s.Branches { s₁ with nodes := (s₁.nodes.push child).modify id fun m =>
      { m with children := m.children ++ [s₁.nodes.size] } } id n (actions ++ [action]) := by
  have hsize : id < s₁.nodes.size := h.size ▸ Nat.lt_add_right _ hid
  have hnode : ∀ i, ((s₁.nodes.push child).modify id fun m =>
      { m with children := m.children ++ [s₁.nodes.size] })[i]? =
      if i = id then some { n with children := n.children ++ List.range' s.nodes.size (actions.length + 1) }
      else (s₁.nodes.push child)[i]? := by
    intro i
    rw [Array.getElem?_modify]
    by_cases hi : i = id
    · subst hi
      have hparent : s₁.nodes[i]? = _ := h.parent
      rw [if_pos rfl, if_pos rfl, Array.getElem?_push, if_neg hsize.ne, hparent, Option.map_some,
        List.range'_concat, h.size, List.append_assoc, Nat.one_mul]
    · rw [if_neg hi, if_neg fun h => hi h.symm]
  constructor
  · rw [h.rest]
  · simp [h.size, Nat.add_assoc]
  · simpa [node?] using hnode id
  · intro i hi hne
    rw [← h.old i hi hne, node?, node?, hnode, if_neg hne, Array.getElem?_push,
      if_neg (h.size ▸ Nat.lt_add_right _ hi).ne]
  · intro j other hj
    have hne : s.nodes.size + j ≠ id := by omega
    rw [node?, hnode, if_neg hne]
    by_cases hlast : j < actions.length
    · rw [List.getElem?_append_left hlast] at hj
      obtain ⟨c, hc, hnode?⟩ := h.new j other hj
      have hlt : s.nodes.size + j < s₁.nodes.size := node?_lt hnode?
      exact ⟨c, hc, by rw [Array.getElem?_push, if_neg hlt.ne]; exact hnode?⟩
    · have hj' : j < (actions ++ [action]).length := (List.getElem?_eq_some_iff.1 hj).1
      obtain rfl : j = actions.length := by
        rw [List.length_append, List.length_singleton] at hj'
        omega
      obtain rfl : action = other := by simpa using hj
      rw [← h.size]
      exact ⟨child, hchild, Array.getElem?_push_size⟩

theorem exists_persists (h : s.Branches s' id n actions) (hn : s.node? id = some n) {i : Nat} {m : Node α}
    (hm : s.node? i = some m) : ∃ m', s'.node? i = some m' ∧ m.Persists m' ∧ (i ≠ id → m' = m) := by
  by_cases hi : i = id
  · subst hi
    obtain rfl : n = m := Option.some.inj (hn.symm.trans hm)
    exact ⟨_, h.parent, ⟨rfl, rfl, rfl, rfl, rfl, rfl, fun _ h => h⟩, fun hne => absurd rfl hne⟩
  · exact ⟨m, (h.old i (node?_lt hm) hi).trans hm, .refl m, fun _ => rfl⟩

/-- A node after branching is the node branched at, another old one, or a new child. -/
theorem node_cases (h : s.Branches s' id n actions) {m : Node α} (hm : s'.node? i = some m) :
    (i = id ∧ m = { n with children := n.children ++ List.range' s.nodes.size actions.length }) ∨
      (i ≠ id ∧ s.node? i = some m) ∨
      ∃ j action p, i = s.nodes.size + j ∧ actions[j]? = some action ∧
        (n.priority.apply action : Except (ModelError α) Priority) = .ok p ∧
        m = { Node.root p n.maxChildren with
          id := i, action := some action, parent := some n.id, depth := n.depth + 1 } := by
  by_cases hid : i = id
  · subst hid
    exact .inl ⟨rfl, Option.some.inj (hm.symm.trans h.parent)⟩
  · by_cases hi : i < s.nodes.size
    · exact .inr (.inl ⟨hid, (h.old i hi hid) ▸ hm⟩)
    · have hlt : i < s.nodes.size + actions.length := h.size ▸ node?_lt hm
      have hj : i - s.nodes.size < actions.length := by omega
      have hsum : s.nodes.size + (i - s.nodes.size) = i := by omega
      obtain ⟨child, hchild, hnode⟩ := h.new (i - s.nodes.size) _ (List.getElem?_eq_getElem hj)
      rw [hsum] at hchild hnode
      obtain rfl : child = m := Option.some.inj (hnode.symm.trans hm)
      obtain ⟨p, hp, rfl⟩ := Node.child_eq_ok.1 hchild
      exact .inr (.inr ⟨i - s.nodes.size, _, p, hsum.symm, List.getElem?_eq_getElem hj, hp, rfl⟩)

/-- Where there is something to try, the first child takes the first new place. -/
theorem exists_first (h : s.Branches s' id n actions) (hne : actions ≠ []) :
    ∃ child, s'.node? s.nodes.size = some child := by
  refine exists_node?_eq ?_
  have := List.length_pos_iff.2 hne
  rw [h.size]
  omega

theorem actionOf_new (h : s.Branches s' id n actions) {j : Nat} {action : Swap} (hj : actions[j]? = some action) :
    s'.actionOf (s.nodes.size + j) = some action := by
  obtain ⟨child, hchild, hnode⟩ := h.new j action hj
  obtain ⟨p, -, rfl⟩ := Node.child_eq_ok.1 hchild
  simp only [actionOf, hnode, Option.bind_some]

theorem actionOf_old (h : s.Branches s' id n actions) (hn : s.node? id = some n) (hi : i < s.nodes.size) :
    s'.actionOf i = s.actionOf i := by
  obtain ⟨m, hm⟩ := exists_node?_eq hi
  obtain ⟨m', hm', hpersists, -⟩ := h.exists_persists hn hm
  simp only [actionOf, hm, hm', Option.bind_some, hpersists.action]

end Branches

section Branches

variable {actions : List Swap} {c r : Nat} {m m' other : Node α} (h : s.IsTree) (hn : s.node? id = some n)
  (hleaf : n.children = []) (hb : s.Branches s' id n actions)
include h hn hleaf hb

/-- A child after branching at a childless node is new, or an old child of another node. -/
theorem IsTree.child_cases (hother : s'.node? r = some other) (hc : c ∈ other.children) :
    r = id ∧ s.nodes.size ≤ c ∨ s.node? r = some other ∧ c < s.nodes.size := by
  rcases hb.node_cases hother with ⟨rfl, rfl⟩ | ⟨-, hold⟩ | ⟨_, _, _, -, -, -, rfl⟩
  · simp only [hleaf, List.nil_append, List.mem_range'_1] at hc
    exact .inl ⟨rfl, hc.1⟩
  · exact .inr ⟨hold, (h.lt_of_mem_children hold hc).2⟩
  · simp [Node.root] at hc

/-- An old node hangs where it did: the node branched at had no children. -/
theorem IsTree.hangs_old (hm : s.node? i = some m) (hpersists : m.Persists m') (hi : i ≠ 0) :
    ∃ p q, s'.Hangs i m' p q := by
  obtain ⟨p, q, hp⟩ := h.hangs i m hm hi
  have hpid : p ≠ id := by
    rintro rfl
    obtain rfl : n = q := Option.some.inj (hn.symm.trans hp.node)
    simpa [hleaf] using hp.once
  obtain ⟨action, haction, happly⟩ := hp.swap
  refine ⟨p, q, hpersists.parent.trans hp.parent, hp.older, (hb.old p (node?_lt hp.node) hpid).trans hp.node,
    hpersists.depth.trans hp.depth, hpersists.maxChildren.trans hp.maxChildren,
    ⟨action, hpersists.action.trans haction, hpersists.priority ▸ happly⟩, hp.once, ?_⟩
  intro r other hother hmem
  rcases h.child_cases hn hleaf hb hother hmem with ⟨-, hle⟩ | ⟨hold, -⟩
  · exact absurd (node?_lt hm) (not_lt.2 hle)
  · exact hp.only r other hold hmem

/-- A new node hangs below the node branched at. -/
theorem IsTree.hangs_new {j : Nat} {action : Swap} {p : Priority} (hj : actions[j]? = some action)
    (hp : (n.priority.apply action : Except (ModelError α) Priority) = .ok p) :
    ∃ q, s'.Hangs (s.nodes.size + j) { Node.root p n.maxChildren with
      id := s.nodes.size + j, action := some action, parent := some n.id, depth := n.depth + 1 } id q := by
  have hid := node?_lt hn
  have hj' : j < actions.length := (List.getElem?_eq_some_iff.1 hj).1
  have hparent := hb.parent
  simp only [hleaf, List.nil_append] at hparent
  refine ⟨_, congrArg some (h.id_eq id n hn), by omega, hparent, rfl, rfl, ⟨action, rfl, hp⟩, ?_, ?_⟩
  · exact List.count_eq_one_of_mem List.nodup_range' (List.mem_range'_1.2 (by omega))
  · intro r other hother hmem
    rcases h.child_cases hn hleaf hb hother hmem with ⟨hr, -⟩ | ⟨-, hlt⟩
    · exact hr
    · omega

end Branches

theorem Branches.map_actionOf {actions : List Swap} (h : s.Branches s' id n actions) :
    (List.range' s.nodes.size actions.length).map s'.actionOf = actions.map some := by
  refine List.ext_getElem (by simp) fun j hj _ => ?_
  rw [List.length_map, List.length_range'] at hj
  rw [List.getElem_map, List.getElem_range', Nat.one_mul, List.getElem_map]
  exact h.actionOf_new (List.getElem?_eq_getElem hj)

/-- A childless appraised node gets its children: the tree is a tree again. -/
theorem IsTree.branches {a : Appraisal α} (h : s.IsTree) (hn : s.node? id = some n) (hleaf : n.children = [])
    (ha : n.appraisal = some a) (hnodup : a.actions.Nodup) (hb : s.Branches s' id n a.actions) : s'.IsTree where
  id_eq i m hm := by
    rcases hb.node_cases hm with ⟨rfl, rfl⟩ | ⟨-, hold⟩ | ⟨_, _, _, -, -, -, rfl⟩
    · exact h.id_eq i n hn
    · exact h.id_eq i m hold
    · rfl
  root := by
    obtain ⟨r, hr, hroot⟩ := h.root
    obtain ⟨r', hr', hpersists, -⟩ := hb.exists_persists hn hr
    exact ⟨r', hr', hpersists.parent.trans hroot.1, hpersists.action.trans hroot.2.1,
      hpersists.depth.trans hroot.2.2⟩
  hangs i m hm hi := by
    rcases hb.node_cases hm with ⟨rfl, rfl⟩ | ⟨-, hold⟩ | ⟨j, action, p, rfl, hj, hp, rfl⟩
    · exact h.hangs_old hn hleaf hb hn ⟨rfl, rfl, rfl, rfl, rfl, rfl, fun _ h => h⟩ hi
    · exact h.hangs_old hn hleaf hb hold (.refl m) hi
    · exact ⟨id, h.hangs_new hn hleaf hb hj hp⟩
  children i m hm := by
    rcases hb.node_cases hm with ⟨rfl, rfl⟩ | ⟨-, hold⟩ | ⟨_, _, _, -, -, -, rfl⟩
    · refine .inr ⟨a, ha, hnodup, ?_⟩
      rw [hleaf, List.nil_append, hb.map_actionOf]
    · rcases h.children i m hold with hnil | ⟨b, hb', hnodup', hactions⟩
      · exact .inl hnil
      · refine .inr ⟨b, hb', hnodup', ?_⟩
        rw [← hactions]
        exact List.map_congr_left fun c hc => hb.actionOf_old hn (h.lt_of_mem_children hold hc).2
    · exact .inl rfl

/-! ### Passing a reward up -/

theorem parent_modify_record (nodes : Array (Node α)) (id i : Nat) (amount : α) :
    (nodes.modify id fun n => n.record amount)[i]?.bind Node.parent = nodes[i]?.bind Node.parent := by
  rw [Array.getElem?_modify]
  split
  · cases nodes[i]? <;> rfl
  · rfl

/-- A reward is recorded once at every node on the way up, and nowhere else. -/
theorem getElem?_reward (nodes : Array (Node α)) (id : Nat) (amount : α) (i : Nat) :
    (reward nodes id amount)[i]? =
      if i ∈ lineage nodes id then nodes[i]?.map fun n => n.record amount else nodes[i]? := by
  induction id using Nat.strong_induction_on generalizing nodes with
  | _ id ih =>
    have hsame : ∀ j, (nodes.modify id fun n => n.record amount)[j]? =
        if j = id then nodes[j]?.map fun n => n.record amount else nodes[j]? := by
      intro j
      rw [Array.getElem?_modify]
      simp only [eq_comm]
    by_cases h : ∃ p, nodes[id]?.bind Node.parent = some p ∧ p < id
    · obtain ⟨p, hparent, hlt⟩ := h
      have hreward : reward nodes id amount = reward (nodes.modify id fun n => n.record amount) p amount := by
        rw [reward]
        simp only [hparent, hlt, if_true]
      rw [hreward, ih p hlt, lineage_congr fun j _ => parent_modify_record nodes id j amount, hsame,
        lineage_of_parent hparent hlt]
      by_cases hi : i = id
      · have hnot : i ∉ lineage nodes p := fun h => by
          have := le_of_mem_lineage h
          omega
        rw [if_neg hnot, if_pos hi, if_pos (List.mem_cons.2 (.inl hi))]
      · simp only [List.mem_cons, hi, false_or, if_false]
    · have hreward : reward nodes id amount = nodes.modify id fun n => n.record amount := by
        rw [reward]
        split
        · rfl
        · next p hparent => rw [if_neg fun hlt => h ⟨p, hparent, hlt⟩]
      rw [hreward, hsame, lineage_of_top h]
      simp only [List.mem_singleton]

theorem node?_backpropagate (s : Search α σ ω) (id : Nat) (amount : α) (i : Nat) :
    (s.backpropagate id amount).node? i =
      if i ∈ lineage s.nodes id then (s.node? i).map fun n => n.record amount else s.node? i :=
  getElem?_reward s.nodes id amount i

theorem sameTree_backpropagate (s : Search α σ ω) (id : Nat) (amount : α) :
    s.SameTree (s.backpropagate id amount) := by
  have hnode : ∀ i n, s.node? i = some n → ∃ n', (s.backpropagate id amount).node? i = some n' ∧
      n.Persists n' ∧ n'.children = n.children := by
    intro i n hn
    rw [node?_backpropagate, hn]
    split
    · exact ⟨_, rfl, ⟨rfl, rfl, rfl, rfl, rfl, rfl, fun _ h => h⟩, rfl⟩
    · exact ⟨n, rfl, .refl n, rfl⟩
  refine ⟨le_antisymm ?_ ?_, hnode⟩
  · by_contra hlt
    have hnone : (s.backpropagate id amount).node? s.nodes.size = none := by
      rw [node?_backpropagate, node?, Array.getElem?_eq_none le_rfl, Option.map_none, ite_self]
    rw [node?, Array.getElem?_eq_none_iff] at hnone
    exact hlt hnone
  · by_contra hlt
    obtain ⟨n, hn⟩ := exists_node?_eq (not_le.1 hlt)
    obtain ⟨n', hn', -⟩ := hnode _ n hn
    exact absurd (node?_lt hn') (lt_irrefl _)

end LinkPriority.Search

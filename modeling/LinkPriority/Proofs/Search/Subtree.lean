import LinkPriority.Proofs.Search.Change

/-! The nodes below a node. The subtree of a node is the node and, child after child, the subtrees of its
children; a node lies in the subtrees of exactly the nodes on its way up. A walk through the tree goes through the
subtrees of what is on its stack, so the walk from the root meets every node once, each before its children and
these in the order of their age. -/

namespace LinkPriority.Search

variable {α σ ω : Type} {s s' : Search α σ ω} {i id : Nat} {n : Node α}

/-- The children of a node. -/
def childrenOf (s : Search α σ ω) (id : Nat) : List Nat := ((s.node? id).map Node.children).getD []

/-- A node and what is at most so many levels below it, each before its children. -/
def descendants (s : Search α σ ω) : (levels : Nat) → (id : Nat) → List Nat
  | 0, id => [id]
  | levels + 1, id => id :: (s.childrenOf id).flatMap (s.descendants levels)

/-- A node and all nodes below it, each before its children. -/
def subtree (s : Search α σ ω) (id : Nat) : List Nat := s.descendants s.nodes.size id

theorem childrenOf_eq (hn : s.node? id = some n) : s.childrenOf id = n.children := by
  rw [childrenOf, hn, Option.map_some, Option.getD_some]

theorem childrenOf_of_size_le (hid : s.nodes.size ≤ id) : s.childrenOf id = [] := by
  rw [childrenOf, node?, Array.getElem?_eq_none hid, Option.map_none, Option.getD_none]

theorem exists_node?_of_childrenOf (h : s.childrenOf id ≠ []) :
    ∃ n, s.node? id = some n ∧ n.children = s.childrenOf id := by
  by_cases hid : id < s.nodes.size
  · obtain ⟨n, hn⟩ := exists_node?_eq hid
    exact ⟨n, hn, (childrenOf_eq hn).symm⟩
  · exact absurd (childrenOf_of_size_le (not_lt.1 hid)) h

theorem SameTree.childrenOf_eq (h : s.SameTree s') (p : Nat) : s'.childrenOf p = s.childrenOf p := by
  by_cases hp : p < s.nodes.size
  · obtain ⟨n, hn⟩ := exists_node?_eq hp
    obtain ⟨n', hn', -, hchildren⟩ := h.node p n hn
    rw [Search.childrenOf_eq hn, Search.childrenOf_eq hn', hchildren]
  · rw [childrenOf_of_size_le (not_lt.1 hp), childrenOf_of_size_le (h.size ▸ not_lt.1 hp)]

theorem mem_lineage_trans {nodes : Array (Node α)} {j : Nat} (hij : i ∈ lineage nodes j)
    (hj : j ∈ lineage nodes id) : i ∈ lineage nodes id := by
  induction id using Nat.strong_induction_on with
  | _ id ih =>
    rcases lineage_cases nodes id with heq | ⟨p, -, hlt, heq⟩
    · rw [heq] at hj
      rwa [List.mem_singleton.1 hj] at hij
    · rw [heq] at hj ⊢
      rcases List.mem_cons.1 hj with rfl | hrest
      · rwa [← heq]
      · exact List.mem_cons_of_mem _ (ih p hlt hrest)

/-- Two nodes on one way up are not siblings. -/
theorem eq_of_mem_lineage_of_parent {nodes : Array (Node α)} {c c' p : Nat} (hc : c ∈ lineage nodes id)
    (hc' : c' ∈ lineage nodes id) (hp : nodes[c]?.bind Node.parent = some p)
    (hp' : nodes[c']?.bind Node.parent = some p) (hlt : p < c) (hlt' : p < c') : c = c' := by
  induction id using Nat.strong_induction_on with
  | _ id ih =>
    rcases lineage_cases nodes id with heq | ⟨q, hq, hlt'', heq⟩
    · rw [heq] at hc hc'
      rw [List.mem_singleton.1 hc, List.mem_singleton.1 hc']
    · rw [heq] at hc hc'
      rcases List.mem_cons.1 hc with rfl | hup
      · rcases List.mem_cons.1 hc' with rfl | hup'
        · rfl
        · obtain rfl : q = p := Option.some.inj (hq.symm.trans hp)
          have := le_of_mem_lineage hup'
          omega
      · rcases List.mem_cons.1 hc' with rfl | hup'
        · obtain rfl : q = p := Option.some.inj (hq.symm.trans hp')
          have := le_of_mem_lineage hup
          omega
        · exact ih q hlt'' hup hup'

namespace IsTree

theorem hangs_of_mem_childrenOf (h : s.IsTree) {c : Nat} (hc : c ∈ s.childrenOf id) :
    ∃ n m, s.node? id = some n ∧ s.node? c = some m ∧ s.Hangs c m id n := by
  obtain ⟨n, hn, hchildren⟩ := exists_node?_of_childrenOf (List.ne_nil_of_mem hc)
  obtain ⟨m, hm, hhangs⟩ := h.hangs_of_mem hn (hchildren ▸ hc)
  exact ⟨n, m, hn, hm, hhangs⟩

/-- What holds of a node once it holds of its children holds of all nodes. -/
theorem induction_up (h : s.IsTree) {motive : Nat → Prop}
    (step : ∀ id, (∀ c ∈ s.childrenOf id, motive c) → motive id) (id : Nat) : motive id := by
  induction hk : s.nodes.size - id using Nat.strong_induction_on generalizing id with
  | _ k ih =>
    refine step id fun c hc => ?_
    obtain ⟨_, m, -, hm, hhangs⟩ := h.hangs_of_mem_childrenOf hc
    have hlt := node?_lt hm
    have holder := hhangs.older
    exact ih (s.nodes.size - c) (by omega) c rfl

/-- More levels than there are younger nodes make no difference. -/
theorem descendants_eq (h : s.IsTree) {levels levels' : Nat} (hlevels : s.nodes.size ≤ levels + id)
    (hlevels' : s.nodes.size ≤ levels' + id) : s.descendants levels id = s.descendants levels' id := by
  by_cases hid : s.nodes.size ≤ id
  · have hsingle : ∀ levels, s.descendants levels id = [id] := by
      intro levels
      cases levels with
      | zero => rfl
      | succ levels => rw [descendants, childrenOf_of_size_le hid, List.flatMap_nil]
    rw [hsingle, hsingle]
  · induction id using h.induction_up generalizing levels levels' with
    | step id ih =>
      obtain ⟨k, rfl⟩ : ∃ k, levels = k + 1 := ⟨levels - 1, by omega⟩
      obtain ⟨k', rfl⟩ : ∃ k', levels' = k' + 1 := ⟨levels' - 1, by omega⟩
      rw [descendants, descendants]
      refine congrArg (id :: ·) (List.flatMap_congr fun c hc => ?_)
      obtain ⟨_, m, -, hm, hhangs⟩ := h.hangs_of_mem_childrenOf hc
      have hlt := node?_lt hm
      have holder := hhangs.older
      exact ih c hc (by omega) (by omega) (by omega)

theorem subtree_eq (h : s.IsTree) (id : Nat) : s.subtree id = id :: (s.childrenOf id).flatMap s.subtree := by
  rw [subtree, h.descendants_eq (Nat.le_add_right _ id) (show s.nodes.size ≤ s.nodes.size + 1 + id by omega)]
  rfl

theorem mem_subtree_self (h : s.IsTree) (id : Nat) : id ∈ s.subtree id := by
  rw [h.subtree_eq]
  exact List.mem_cons_self

theorem mem_subtree_of_mem_childrenOf (h : s.IsTree) {p : Nat} (hp : p ∈ s.subtree id) (hi : i ∈ s.childrenOf p) :
    i ∈ s.subtree id := by
  induction id using h.induction_up with
  | step id ih =>
    rw [h.subtree_eq] at hp ⊢
    refine List.mem_cons_of_mem _ (List.mem_flatMap.2 ?_)
    rcases List.mem_cons.1 hp with rfl | hbelow
    · exact ⟨i, hi, h.mem_subtree_self i⟩
    · obtain ⟨c, hc, hpc⟩ := List.mem_flatMap.1 hbelow
      exact ⟨c, hc, ih c hc hpc⟩

theorem parent_of_mem_childrenOf (h : s.IsTree) {c : Nat} (hc : c ∈ s.childrenOf id) :
    s.nodes[c]?.bind Node.parent = some id ∧ id < c := by
  obtain ⟨n, m, -, hm, hhangs⟩ := h.hangs_of_mem_childrenOf hc
  have hbind : (s.node? c).bind Node.parent = some id := by rw [hm, Option.bind_some, hhangs.parent]
  exact ⟨hbind, hhangs.older⟩

theorem mem_childrenOf_of_parent (h : s.IsTree) {c : Nat} (hp : s.nodes[c]?.bind Node.parent = some id) :
    c ∈ s.childrenOf id := by
  obtain ⟨m, hm, hparent⟩ := Option.bind_eq_some_iff.1 hp
  have hne : c ≠ 0 := by
    rintro rfl
    obtain ⟨r, hr, hnone, -⟩ := h.root
    obtain rfl : m = r := Option.some.inj (hm.symm.trans hr)
    simp [hnone] at hparent
  obtain ⟨p, n, hhangs⟩ := h.hangs c m hm hne
  obtain rfl : p = id := Option.some.inj (hhangs.parent.symm.trans hparent)
  rw [childrenOf_eq hhangs.node]
  exact List.count_pos_iff.1 (hhangs.once ▸ Nat.one_pos)

/-- A node is below those on its way up. -/
theorem mem_subtree (h : s.IsTree) : i ∈ s.subtree id ↔ id ∈ lineage s.nodes i := by
  constructor
  · intro hi
    induction id using h.induction_up with
    | step id ih =>
      rw [h.subtree_eq] at hi
      rcases List.mem_cons.1 hi with rfl | hbelow
      · exact mem_lineage_self s.nodes i
      · obtain ⟨c, hc, hic⟩ := List.mem_flatMap.1 hbelow
        obtain ⟨hparent, hlt⟩ := h.parent_of_mem_childrenOf hc
        exact mem_lineage_trans (mem_lineage_of_parent hparent hlt) (ih c hc hic)
  · intro hid
    induction i using Nat.strong_induction_on with
    | _ i ih =>
      rcases lineage_cases s.nodes i with heq | ⟨p, hparent, hlt, heq⟩
      · rw [heq] at hid
        rw [List.mem_singleton.1 hid]
        exact h.mem_subtree_self i
      · rw [heq] at hid
        rcases List.mem_cons.1 hid with rfl | hup
        · exact h.mem_subtree_self id
        · exact h.mem_subtree_of_mem_childrenOf (ih p hlt hup) (h.mem_childrenOf_of_parent hparent)

theorem nodup_childrenOf (h : s.IsTree) (id : Nat) : (s.childrenOf id).Nodup := by
  by_cases hid : id < s.nodes.size
  · obtain ⟨n, hn⟩ := exists_node?_eq hid
    rw [childrenOf_eq hn]
    exact h.nodup_children hn
  · rw [childrenOf_of_size_le (not_lt.1 hid)]
    exact List.nodup_nil

theorem nodup_subtree (h : s.IsTree) (id : Nat) : (s.subtree id).Nodup := by
  induction id using h.induction_up with
  | step id ih =>
    rw [h.subtree_eq, List.nodup_cons]
    refine ⟨fun hmem => ?_, List.nodup_flatMap.2 ⟨ih, (h.nodup_childrenOf id).imp_of_mem ?_⟩⟩
    · obtain ⟨c, hc, hid⟩ := List.mem_flatMap.1 hmem
      have hle := le_of_mem_lineage (h.mem_subtree.1 hid)
      have hlt := (h.parent_of_mem_childrenOf hc).2
      omega
    · intro c c' hc hc' hne i hi hi'
      obtain ⟨hparent, hlt⟩ := h.parent_of_mem_childrenOf hc
      obtain ⟨hparent', hlt'⟩ := h.parent_of_mem_childrenOf hc'
      exact hne (eq_of_mem_lineage_of_parent (h.mem_subtree.1 hi) (h.mem_subtree.1 hi') hparent hparent' hlt hlt')

theorem zero_mem_lineage (h : s.IsTree) (hi : i < s.nodes.size) : 0 ∈ lineage s.nodes i := by
  induction i using Nat.strong_induction_on with
  | _ i ih =>
    by_cases hzero : i = 0
    · rw [hzero]
      exact mem_lineage_self s.nodes 0
    · obtain ⟨n, hn⟩ := exists_node?_eq hi
      obtain ⟨p, m, hhangs⟩ := h.hangs i n hn hzero
      have hparent : (s.node? i).bind Node.parent = some p := by rw [hn, Option.bind_some, hhangs.parent]
      rw [lineage_of_parent hparent hhangs.older]
      exact List.mem_cons_of_mem _ (ih p hhangs.older (node?_lt hhangs.node))

/-- All nodes are below the root. -/
theorem mem_subtree_zero (h : s.IsTree) : i ∈ s.subtree 0 ↔ i < s.nodes.size := by
  refine ⟨fun hi => ?_, fun hi => h.mem_subtree.2 (h.zero_mem_lineage hi)⟩
  by_contra hout
  have hup := h.mem_subtree.1 hi
  have hnone : ¬∃ p, s.nodes[i]?.bind Node.parent = some p ∧ p < i := by
    rw [Array.getElem?_eq_none (not_lt.1 hout)]
    rintro ⟨p, hp, -⟩
    simp at hp
  rw [lineage_of_top hnone, List.mem_singleton] at hup
  have := h.size_pos
  omega

theorem subtree_zero_perm (h : s.IsTree) : (s.subtree 0).Perm (List.range s.nodes.size) :=
  (List.perm_ext_iff_of_nodup (h.nodup_subtree 0) List.nodup_range).2 fun i => by
    rw [h.mem_subtree_zero, List.mem_range]

/-- A walk goes through the subtrees of what is on its stack, as far as its count allows. -/
theorem walk_eq (h : s.IsTree) (count : Nat) (stack : List Nat) :
    s.walk count stack = (stack.flatMap s.subtree).take count := by
  induction count generalizing stack with
  | zero => rfl
  | succ count ih =>
    cases stack with
    | nil => rfl
    | cons id stack =>
      have hwalk : s.walk (count + 1) (id :: stack) = id :: s.walk count (s.childrenOf id ++ stack) := rfl
      rw [hwalk, ih, List.flatMap_cons, h.subtree_eq id, List.flatMap_append]
      rfl

theorem preorder_eq (h : s.IsTree) : s.preorder = s.subtree 0 := by
  have hlength : (s.subtree 0).length ≤ s.nodes.size := by
    rw [h.subtree_zero_perm.length_eq, List.length_range]
  rw [preorder, h.walk_eq, List.flatMap_singleton, List.take_of_length_le hlength]

end IsTree

/-- Branching at a childless node gives it the new nodes for children and changes nobody else's. -/
theorem Branches.childrenOf_eq [Scalar α] {actions : List Swap} (h : s.Branches s' id n actions)
    (hchildless : n.children = []) (p : Nat) :
    s'.childrenOf p = if p = id then List.range' s.nodes.size actions.length else s.childrenOf p := by
  by_cases hp : p = id
  · rw [if_pos hp, hp, Search.childrenOf_eq h.parent, hchildless, List.nil_append]
  · rw [if_neg hp]
    cases hm : s'.node? p with
    | none =>
      have hout : s'.nodes.size ≤ p := Array.getElem?_eq_none_iff.1 hm
      have hle : s.nodes.size ≤ p := by
        rw [h.size] at hout
        omega
      rw [childrenOf_of_size_le hout, childrenOf_of_size_le hle]
    | some m =>
      rcases h.node_cases hm with ⟨heq, -⟩ | ⟨-, hold⟩ | ⟨j, _, _, rfl, -, -, rfl⟩
      · exact absurd heq hp
      · rw [Search.childrenOf_eq hm, Search.childrenOf_eq hold]
      · rw [Search.childrenOf_eq hm, childrenOf_of_size_le (Nat.le_add_right _ _)]
        rfl

/-- Where there is something to try, the first new place is that of a child. -/
theorem Branches.mem_childrenOf [Scalar α] {actions : List Swap}
    (h : s.Branches s' id n actions) (hne : actions ≠ []) : s.nodes.size ∈ s'.childrenOf id := by
  have hpos := List.length_pos_iff.2 hne
  rw [Search.childrenOf_eq h.parent]
  exact List.mem_append_right _ (List.mem_range'_1.2 (by omega))

end LinkPriority.Search

import Mathlib.Data.List.Count
import Mathlib.Logic.Relation
import Mathlib.Order.Nat
import LinkPriority.Search.Tree
import LinkPriority.Proofs.Search.Appraisal

/-! The shape of the search tree, and the changes that keep it. The nodes of a search form a tree in its arena:
every node but the root hangs below an older one, in whose list of children it occurs once, and a list of children
is empty or has one child for each candidate swap of its node, in their order. Whatever a search does is made of
four changes: a node is appraised, a childless node gets its children, a reward is passed up, an iteration is
counted. Each keeps the tree and everything that is fixed about the nodes that exist. -/

namespace LinkPriority

/-- What never changes about a node: its place in the tree, its table, and its appraisal once it has one. -/
structure Node.Persists {α : Type} (n n' : Node α) : Prop where
  id : n'.id = n.id
  action : n'.action = n.action
  parent : n'.parent = n.parent
  depth : n'.depth = n.depth
  maxChildren : n'.maxChildren = n.maxChildren
  priority : n'.priority = n.priority
  appraisal : ∀ a, n.appraisal = some a → n'.appraisal = some a

namespace Node.Persists

variable {α : Type} {n n' n'' : Node α}

theorem refl (n : Node α) : n.Persists n := ⟨rfl, rfl, rfl, rfl, rfl, rfl, fun _ h => h⟩

theorem trans (h : n.Persists n') (h' : n'.Persists n'') : n.Persists n'' where
  id := h'.id.trans h.id
  action := h'.action.trans h.action
  parent := h'.parent.trans h.parent
  depth := h'.depth.trans h.depth
  maxChildren := h'.maxChildren.trans h.maxChildren
  priority := h'.priority.trans h.priority
  appraisal a ha := h'.appraisal a (h.appraisal a ha)

end Node.Persists

namespace Search

variable {α σ ω : Type} {s s' : Search α σ ω} {i id : Nat} {n : Node α}

theorem node?_lt (h : s.node? i = some n) : i < s.nodes.size := (Array.getElem?_eq_some_iff.1 h).1

theorem exists_node?_eq (h : i < s.nodes.size) : ∃ n, s.node? i = some n :=
  ⟨s.nodes[i], Array.getElem?_eq_getElem h⟩

/-- The swap that led to a node. -/
def actionOf (s : Search α σ ω) (id : Nat) : Option Swap := (s.node? id).bind Node.action

/-- The node `n` with the id `i` hangs below the node `m` with the id `p`. -/
structure Hangs (s : Search α σ ω) (i : Nat) (n : Node α) (p : Nat) (m : Node α) : Prop where
  parent : n.parent = some p
  older : p < i
  node : s.node? p = some m
  depth : n.depth = m.depth + 1
  maxChildren : n.maxChildren = m.maxChildren
  swap : ∃ action, n.action = some action ∧
    (m.priority.apply action : Except (ModelError α) Priority) = .ok n.priority
  once : m.children.count i = 1
  only : ∀ q other, s.node? q = some other → i ∈ other.children → q = p

/-- The nodes form a tree with the root at 0. -/
structure IsTree (s : Search α σ ω) : Prop where
  id_eq : ∀ i n, s.node? i = some n → n.id = i
  root : ∃ n, s.node? 0 = some n ∧ n.parent = none ∧ n.action = none ∧ n.depth = 0
  hangs : ∀ i n, s.node? i = some n → i ≠ 0 → ∃ p m, s.Hangs i n p m
  children : ∀ i n, s.node? i = some n → n.children = [] ∨
    ∃ a, n.appraisal = some a ∧ a.actions.Nodup ∧ n.children.map s.actionOf = a.actions.map some

namespace IsTree

theorem size_pos (h : s.IsTree) : 0 < s.nodes.size := by
  obtain ⟨n, hn, -⟩ := h.root
  exact node?_lt hn

/-- A child is a node, and not the root. -/
theorem exists_child (h : s.IsTree) {c : Nat} (hn : s.node? i = some n) (hc : c ∈ n.children) :
    ∃ m, s.node? c = some m ∧ c ≠ 0 := by
  rcases h.children i n hn with hnil | ⟨a, -, -, hactions⟩
  · simp [hnil] at hc
  · have hmem : s.actionOf c ∈ n.children.map s.actionOf := List.mem_map_of_mem hc
    rw [hactions] at hmem
    obtain ⟨action, -, haction⟩ := List.mem_map.1 hmem
    obtain ⟨m, hm, hled⟩ := Option.bind_eq_some_iff.1 haction.symm
    refine ⟨m, hm, ?_⟩
    rintro rfl
    obtain ⟨r, hr, -, hnone, -⟩ := h.root
    rw [hm] at hr
    simp [Option.some.inj hr, hnone] at hled

/-- A child hangs below the node it is a child of. -/
theorem hangs_of_mem (h : s.IsTree) {c : Nat} (hn : s.node? i = some n) (hc : c ∈ n.children) :
    ∃ m, s.node? c = some m ∧ s.Hangs c m i n := by
  obtain ⟨m, hm, hne⟩ := h.exists_child hn hc
  obtain ⟨p, parent, hp⟩ := h.hangs c m hm hne
  obtain rfl : i = p := hp.only i n hn hc
  obtain rfl : parent = n := Option.some.inj (hp.node.symm.trans hn)
  exact ⟨m, hm, hp⟩

theorem lt_of_mem_children (h : s.IsTree) {c : Nat} (hn : s.node? i = some n) (hc : c ∈ n.children) :
    i < c ∧ c < s.nodes.size := by
  obtain ⟨m, hm, hp⟩ := h.hangs_of_mem hn hc
  exact ⟨hp.older, node?_lt hm⟩

theorem nodup_children (h : s.IsTree) (hn : s.node? i = some n) : n.children.Nodup := by
  refine List.nodup_iff_count_le_one.2 fun c => ?_
  by_cases hc : c ∈ n.children
  · obtain ⟨m, -, hp⟩ := h.hangs_of_mem hn hc
    exact hp.once.le
  · rw [List.count_eq_zero_of_not_mem hc]
    exact Nat.zero_le 1

/-- A node with children has been appraised, with a candidate for each. -/
theorem appraisal_of_children (h : s.IsTree) (hn : s.node? i = some n) (hne : n.children ≠ []) :
    ∃ a, n.appraisal = some a ∧ a.actions ≠ [] ∧ n.children.map s.actionOf = a.actions.map some := by
  rcases h.children i n hn with hnil | ⟨a, ha, -, hactions⟩
  · exact absurd hnil hne
  · refine ⟨a, ha, ?_, hactions⟩
    rintro hnil
    rw [hnil, List.map_nil, List.map_eq_nil_iff] at hactions
    exact hne hactions

end IsTree

/-! ### Searches with the same tree -/

/-- `s'` has the tree of `s`: the same nodes with the same children, of which some may have been appraised. -/
structure SameTree (s s' : Search α σ ω) : Prop where
  size : s'.nodes.size = s.nodes.size
  node : ∀ i n, s.node? i = some n → ∃ n', s'.node? i = some n' ∧ n.Persists n' ∧ n'.children = n.children

theorem SameTree.node_of (h : s.SameTree s') {n' : Node α} (hn' : s'.node? i = some n') :
    ∃ n, s.node? i = some n ∧ n.Persists n' ∧ n'.children = n.children := by
  obtain ⟨n, hn⟩ := exists_node?_eq (s := s) (h.size ▸ node?_lt hn')
  obtain ⟨n'', hn'', hsame⟩ := h.node i n hn
  obtain rfl : n'' = n' := Option.some.inj (hn''.symm.trans hn')
  exact ⟨n, hn, hsame⟩

theorem SameTree.actionOf_eq (h : s.SameTree s') (i : Nat) : s'.actionOf i = s.actionOf i := by
  by_cases hi : i < s.nodes.size
  · obtain ⟨n, hn⟩ := exists_node?_eq hi
    obtain ⟨n', hn', hpersists, -⟩ := h.node i n hn
    simp only [actionOf, hn, hn', Option.bind_some, hpersists.action]
  · have hi' : ¬i < s'.nodes.size := h.size ▸ hi
    simp only [actionOf, node?, Array.getElem?_eq_none (Nat.le_of_not_lt hi),
      Array.getElem?_eq_none (Nat.le_of_not_lt hi')]

theorem Hangs.sameTree {p : Nat} {m n' : Node α} (h : s.Hangs i n p m) (hsame : s.SameTree s')
    (hpersists : n.Persists n') : ∃ m', s'.Hangs i n' p m' := by
  obtain ⟨m', hm', hmp, hchildren⟩ := hsame.node p m h.node
  obtain ⟨action, haction, happly⟩ := h.swap
  refine ⟨m', hpersists.parent.trans h.parent, h.older, hm', ?_, ?_, ⟨action, ?_, ?_⟩, ?_, ?_⟩
  · rw [hpersists.depth, hmp.depth, h.depth]
  · rw [hpersists.maxChildren, hmp.maxChildren, h.maxChildren]
  · rw [hpersists.action, haction]
  · rw [hmp.priority, happly, hpersists.priority]
  · rw [hchildren, h.once]
  · intro q other hother hmem
    obtain ⟨old, hold, -, hold'⟩ := hsame.node_of hother
    exact h.only q old hold (hold' ▸ hmem)

theorem IsTree.sameTree (h : s.IsTree) (hsame : s.SameTree s') : s'.IsTree where
  id_eq i n' hn' := by
    obtain ⟨n, hn, hpersists, -⟩ := hsame.node_of hn'
    rw [hpersists.id, h.id_eq i n hn]
  root := by
    obtain ⟨n, hn, hparent, haction, hdepth⟩ := h.root
    obtain ⟨n', hn', hpersists, -⟩ := hsame.node 0 n hn
    exact ⟨n', hn', hpersists.parent.trans hparent, hpersists.action.trans haction, hpersists.depth.trans hdepth⟩
  hangs i n' hn' hne := by
    obtain ⟨n, hn, hpersists, -⟩ := hsame.node_of hn'
    obtain ⟨p, m, hp⟩ := h.hangs i n hn hne
    exact ⟨p, hp.sameTree hsame hpersists⟩
  children i n' hn' := by
    obtain ⟨n, hn, hpersists, hchildren⟩ := hsame.node_of hn'
    rw [hchildren, funext hsame.actionOf_eq]
    rcases h.children i n hn with hnil | ⟨a, ha, hrest⟩
    · exact .inl hnil
    · exact .inr ⟨a, hpersists.appraisal a ha, hrest⟩

end Search

end LinkPriority

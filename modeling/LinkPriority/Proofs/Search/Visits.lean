import LinkPriority.Proofs.Search.Iteration
import LinkPriority.Proofs.Search.Subtree

/-! Which nodes iterations appraise. An iteration appraises at most the leaf it descends to and the leaf's first
child, and rewards one of the two, the child if there is one; the other is on the way up from it, as are only nodes
that have children and so have been appraised. Below the root, a node is therefore appraised exactly if a reward
has passed through it. -/

namespace LinkPriority.Search

variable {α σ ω : Type} {s s' : Search α σ ω} {i id : Nat} {n : Node α}

/-- Below the root, the appraised nodes are the rewarded ones. -/
def Tallied (s : Search α σ ω) : Prop :=
  ∀ i n, s.node? i = some n → i ≠ 0 → (n.appraisal.isSome = true ↔ 0 < n.visits)

/-- The nodes above an appraised node are appraised, as they have children. -/
theorem IsTree.exists_appraisal_of_mem_lineage (h : s.IsTree) (hn : s.node? id = some n)
    (ha : n.appraisal.isSome = true) (hi : i ∈ lineage s.nodes id) :
    ∃ m, s.node? i = some m ∧ m.appraisal.isSome = true := by
  rcases eq_or_parent_of_mem_lineage hi with rfl | ⟨c, -, hc⟩
  · exact ⟨n, hn, ha⟩
  · have hmem := h.mem_childrenOf_of_parent hc
    obtain ⟨m, _, hm, -, -⟩ := h.hangs_of_mem_childrenOf hmem
    rw [childrenOf_eq hm] at hmem
    obtain ⟨a, ha, -, -⟩ := h.appraisal_of_children hm (List.ne_nil_of_mem hmem)
    exact ⟨m, hm, by rw [ha, Option.isSome_some]⟩

/-- Where any node is appraised, the root is. -/
theorem IsTree.exists_root_appraisal (h : s.IsTree) (hn : s.node? id = some n) {a : Appraisal α}
    (ha : n.appraisal = some a) : ∃ root b, s.node? 0 = some root ∧ root.appraisal = some b := by
  obtain ⟨root, hroot, hknown⟩ := h.exists_appraisal_of_mem_lineage hn (by rw [ha, Option.isSome_some])
    (h.zero_mem_lineage (node?_lt hn))
  obtain ⟨b, hb⟩ := Option.isSome_iff_exists.1 hknown
  exact ⟨root, b, hroot, hb⟩

variable [Scalar α]

theorem node?_rewarded (s : Search α σ ω) (id : Nat) (amount : α) (i : Nat) :
    (s.rewarded id amount).node? i =
      if i ∈ lineage s.nodes id then (s.node? i).map fun n => n.record amount else s.node? i :=
  node?_backpropagate s id amount i

/-- A reward at an appraised node keeps the account, if apart from its way up the search has only got new nodes. -/
theorem Tallied.rewarded (h : s.Tallied) (htree : s'.IsTree) (hn : s'.node? id = some n)
    (ha : n.appraisal.isSome = true) (hrest : ∀ i m, s'.node? i = some m → i ∉ lineage s'.nodes id →
      s.node? i = some m ∨ m.appraisal = none ∧ m.visits = 0) (amount : α) : (s'.rewarded id amount).Tallied := by
  intro i m hm hi
  rw [node?_rewarded] at hm
  split at hm
  · next hup =>
    obtain ⟨k, hk, hka⟩ := htree.exists_appraisal_of_mem_lineage hn ha hup
    obtain ⟨k', hk', rfl⟩ := Option.map_eq_some_iff.1 hm
    obtain rfl : k = k' := Option.some.inj (hk.symm.trans hk')
    exact iff_of_true hka (Nat.succ_pos k.visits)
  · next hup =>
    rcases hrest i m hm hup with hold | ⟨hnone, hzero⟩
    · exact h i m hold hi
    · simp [hnone, hzero]

variable [IndexSource σ]

/-- The root is not on the account. -/
theorem Tallied.appraises_root {a : Appraisal α} (h : s.Tallied) (ha : s.Appraises 0 s' a) : s'.Tallied := by
  intro i n hn hi
  rw [ha.node?_of_ne hi] at hn
  exact h i n hn hi

theorem Advances.tallied (h : s.Advances id s') (hs : s.Sound) (ht : s.Tallied) : s'.Tallied := by
  cases h with
  | @terminal _ s₁ a hleaf ha hactions =>
    obtain ⟨m, hm, hm₁⟩ := ha.exists_node
    refine ht.rewarded (hs.appraises ha).tree hm₁ rfl (fun i k hk hup => .inl ?_) a.objective
    have hne : i ≠ id := fun heq => hup (heq ▸ mem_lineage_self _ _)
    rw [← ha.node?_of_ne hne, hk]
  | @child leaf s₁ s₂ s₃ a b m hleaf ha hactions hm hchildless hknown hb hchild =>
    have hs₁ := hs.appraises ha
    have hs₂ := hs₁.branches hm hchildless hknown hb
    have hs₃ := hs₂.appraises hchild
    obtain ⟨k, hk, hk₃⟩ := hchild.exists_node
    refine ht.rewarded hs₃.tree hk₃ rfl (fun i j hj hup => ?_) b.objective
    have hne : i ≠ s₁.nodes.size := fun heq => hup (heq ▸ mem_lineage_self _ _)
    have hsame : s₃.childrenOf leaf = s₂.childrenOf leaf := by
      rw [childrenOf, hchild.node?_of_ne (node?_lt hm).ne, ← childrenOf]
    obtain ⟨hparent, hlt⟩ := hs₃.tree.parent_of_mem_childrenOf (hsame ▸ hb.mem_childrenOf hactions)
    have hne' : i ≠ leaf := fun heq => hup (heq ▸ mem_lineage_of_parent hparent hlt)
    rw [hchild.node?_of_ne hne] at hj
    rcases hb.node_cases hj with ⟨heq, -⟩ | ⟨-, hold⟩ | ⟨_, _, _, -, -, -, rfl⟩
    · exact absurd heq hne'
    · exact .inl (by rw [← ha.node?_of_ne hne', hold])
    · exact .inr ⟨rfl, rfl⟩

theorem Appraises.exists_rewarded {a : Appraisal α} (h : s.Appraises id s' a) (amount : α) :
    ∃ n, (s'.rewarded id amount).node? id = some n ∧ n.appraisal = some a := by
  obtain ⟨n, -, hn⟩ := h.exists_node
  obtain ⟨n', hn', hpersists⟩ := (changes_rewarded s' id amount).exists_persists hn
  exact ⟨n', hn', hpersists.appraisal a rfl⟩

/-- The node an iteration returns is appraised, and its objective was the reward. -/
theorem Advances.exists_appraisal (h : s.Advances id s') : ∃ n a, s'.node? id = some n ∧ n.appraisal = some a := by
  cases h with
  | terminal _ ha _ =>
    obtain ⟨n, hn, hknown⟩ := ha.exists_rewarded _
    exact ⟨n, _, hn, hknown⟩
  | child _ _ _ _ _ _ _ hchild =>
    obtain ⟨n, hn, hknown⟩ := hchild.exists_rewarded _
    exact ⟨n, _, hn, hknown⟩

/-- An iteration leaves an appraised root. -/
theorem Advances.exists_root_appraisal (h : s.Advances id s') (hs : s.Sound) :
    ∃ root a, s'.node? 0 = some root ∧ root.appraisal = some a := by
  obtain ⟨n, a, hn, ha⟩ := h.exists_appraisal
  exact (h.changes.sound hs).tree.exists_root_appraisal hn ha

theorem Iterates.tallied {count : Nat} (h : Iterates count s s') (hs : s.Sound) (ht : s.Tallied) : s'.Tallied := by
  induction h with
  | zero => exact ht
  | succ h _ ih => exact ih (h.changes.sound hs) (h.tallied hs ht)

end LinkPriority.Search

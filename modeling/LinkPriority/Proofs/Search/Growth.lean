import LinkPriority.Proofs.Indices
import LinkPriority.Proofs.Search.Completion
import LinkPriority.Proofs.Search.Turns

/-! How large a search grows. A descent only passes nodes that are appraised and ends at a childless one, so an
iteration runs the model for its leaf and for the first of the children it adds, and for nothing else. It adds children
to one node, one level further down, and not more than are selected for it. -/

namespace LinkPriority

namespace Search

variable {α σ ω : Type}

/-- How many swaps are selected for a node at most. -/
def breadth (s : Search α σ ω) : Nat := s.settings.maxChildren + extraCount s.settings.maxChildren

/-- What a search has at most after so many iterations: nodes, levels, and something to try from each node. -/
structure Grown (s : Search α σ ω) (count : Nat) : Prop where
  maxChildren : ∀ i n, s.node? i = some n → n.maxChildren = s.settings.maxChildren
  actions : ∀ i n a, s.node? i = some n → n.appraisal = some a → a.actions.length ≤ s.breadth
  size : s.nodes.size ≤ 1 + count * s.breadth
  depth : ∀ i n, s.node? i = some n → n.depth ≤ count

variable {s s' : Search α σ ω} {id count : Nat} {n : Node α}

namespace Grown

theorem mono (h : s.Grown count) : s.Grown (count + 1) where
  maxChildren := h.maxChildren
  actions := h.actions
  size := h.size.trans (Nat.add_le_add_left (Nat.mul_le_mul_right _ (Nat.le_succ count)) 1)
  depth i n hn := (h.depth i n hn).trans (Nat.le_succ count)

/-- Whatever keeps the tree keeps its growth, if not too much can be tried from what was appraised. -/
theorem sameTree (h : s.Grown count) (hsame : s.SameTree s') (hsettings : s'.settings = s.settings)
    (hactions : ∀ i n a, s'.node? i = some n → n.appraisal = some a → a.actions.length ≤ s.breadth) :
    s'.Grown count := by
  have hbreadth : s'.breadth = s.breadth := by rw [breadth, breadth, hsettings]
  refine ⟨fun i n' hn' => ?_, hbreadth ▸ hactions, ?_, fun i n' hn' => ?_⟩
  · obtain ⟨n, hn, hpersists, -⟩ := hsame.node_of hn'
    rw [hpersists.maxChildren, hsettings, h.maxChildren i n hn]
  · rw [hsame.size, hbreadth]
    exact h.size
  · obtain ⟨n, hn, hpersists, -⟩ := hsame.node_of hn'
    exact hpersists.depth ▸ h.depth i n hn

/-- A node has at most as many children as there are swaps selected for it. -/
theorem length_children_le (h : s.Grown count) (htree : s.IsTree) {i : Nat} (hn : s.node? i = some n) :
    n.children.length ≤ s.breadth := by
  rcases htree.children i n hn with hnil | ⟨a, ha, -, hactions⟩
  · rw [hnil]
    exact Nat.zero_le _
  · calc n.children.length = a.actions.length := by simpa using congrArg List.length hactions
      _ ≤ s.breadth := h.actions i n a hn ha

end Grown

variable [Scalar α]

theorem grown_start {d : Demand α} {p : Priority} {settings : Settings} {choices : σ} {observer : Observer α ω}
    (h : Search.start d p settings choices observer = .ok s) : s.Grown 0 := by
  have hroot := fun {i n} => eq_root_of_start (i := i) (n := n) h
  obtain ⟨-, -, -, rfl⟩ := start_eq_ok.1 h
  refine ⟨fun i n hn => ?_, fun i n a hn ha => ?_, ?_, fun i n hn => ?_⟩
  · rw [(hroot hn).2]
    rfl
  · rw [(hroot hn).2] at ha
    exact nomatch ha
  · rw [Nat.zero_mul]
    exact Nat.le_refl 1
  · rw [(hroot hn).2]
    exact Nat.le_refl 0

namespace Grown

theorem rewarded (h : s.Grown count) (id : Nat) (amount : α) : (s.rewarded id amount).Grown count := by
  obtain ⟨hsize, hnode⟩ := sameTree_backpropagate s id amount
  refine h.sameTree ⟨hsize, hnode⟩ rfl fun i n' a hn' ha => ?_
  have hold : (s.backpropagate id amount).node? i = some n' := hn'
  rw [node?_backpropagate] at hold
  split_ifs at hold
  · obtain ⟨n, hn, rfl⟩ := Option.map_eq_some_iff.1 hold
    exact h.actions i n a hn ha
  · exact h.actions i n' a hold ha

/-- Each candidate of an appraised node may become a child, one level further down. -/
theorem branches {a : Appraisal α} (h : s.Grown count) (hn : s.node? id = some n) (ha : n.appraisal = some a)
    (hb : s.Branches s' id n a.actions) : s'.Grown (count + 1) := by
  have hsettings : s'.settings = s.settings := by rw [hb.rest]
  have hbreadth : s'.breadth = s.breadth := by rw [breadth, breadth, hsettings]
  have hactions : a.actions.length ≤ s.breadth := h.actions id n a hn ha
  refine ⟨fun i m hm => ?_, fun i m b hm hb' => ?_, ?_, fun i m hm => ?_⟩
  · rw [hsettings]
    rcases hb.node_cases hm with ⟨rfl, rfl⟩ | ⟨-, hold⟩ | ⟨_, _, _, -, -, -, rfl⟩
    · exact h.maxChildren i n hn
    · exact h.maxChildren i m hold
    · exact h.maxChildren id n hn
  · rw [hbreadth]
    rcases hb.node_cases hm with ⟨rfl, rfl⟩ | ⟨-, hold⟩ | ⟨_, _, _, -, -, -, rfl⟩
    · exact h.actions i n b hn hb'
    · exact h.actions i m b hold hb'
    · exact nomatch hb'
  · rw [hbreadth]
    calc s'.nodes.size = s.nodes.size + a.actions.length := hb.size
      _ ≤ 1 + count * s.breadth + s.breadth := Nat.add_le_add h.size hactions
      _ = 1 + (count + 1) * s.breadth := by rw [Nat.succ_mul, Nat.add_assoc]
  · rcases hb.node_cases hm with ⟨rfl, rfl⟩ | ⟨-, hold⟩ | ⟨_, _, _, -, -, -, rfl⟩
    · exact (h.depth i n hn).trans (Nat.le_succ count)
    · exact (h.depth i m hold).trans (Nat.le_succ count)
    · exact Nat.succ_le_succ (h.depth id n hn)

variable [IndexSource σ] [SizedIndexSource σ] {a : Appraisal α}

/-- What is selected for a node that is appraised is not too much. -/
theorem appraises (h : s.Grown count) (ha : s.Appraises id s' a) : s'.Grown count := by
  refine h.sameTree ha.sameTree ha.settings_eq fun i m b hm hb => ?_
  cases ha with
  | known => exact h.actions i m b hm hb
  | @fresh n _ after hn hpending hanswers =>
    rw [node?_appraised hn] at hm
    split_ifs at hm with hi
    · obtain rfl : { n with appraisal := some a } = m := Option.some.inj hm
      obtain rfl : a = b := Option.some.inj hb
      obtain ⟨e, -, hselected⟩ := hanswers.selected
      rw [breadth, ← h.maxChildren id n hn]
      exact length_le_of_selectSwaps hselected
    · exact h.actions i m b hm hb

end Grown

/-! ### Evaluations -/

section Evaluations

variable [IndexSource σ] {a : Appraisal α}

theorem Appraises.evaluations_le (h : s.Appraises id s' a) : s'.evaluations ≤ s.evaluations + 1 := by
  cases h with
  | known => exact Nat.le_succ _
  | fresh => exact Nat.le_refl _

/-- An iteration runs the model for its leaf and for one child at most. -/
theorem Advances.evaluations_le_of_leaf (h : s.Advances id s') {most : Nat}
    (hleaf : ∀ leaf s₁ a, s.Descends 0 leaf → s.Appraises leaf s₁ a → s₁.evaluations ≤ most) :
    s'.evaluations ≤ most + 1 := by
  cases h with
  | terminal hdescends ha _ => exact (hleaf _ _ _ hdescends ha).trans (Nat.le_succ most)
  | @child leaf s₁ s₂ s₃ a b n hdescends ha _ _ _ _ hb hchild =>
    have hbranch : s₂.evaluations = s₁.evaluations := by rw [hb.rest]
    calc s₃.evaluations ≤ s₂.evaluations + 1 := hchild.evaluations_le
      _ = s₁.evaluations + 1 := by rw [hbranch]
      _ ≤ most + 1 := Nat.succ_le_succ (hleaf _ _ _ hdescends ha)

theorem Advances.evaluations_le (h : s.Advances id s') : s'.evaluations ≤ s.evaluations + 2 :=
  h.evaluations_le_of_leaf fun _ _ _ _ ha => ha.evaluations_le

/-- The leaf of the first iteration is the root, for which the model need not be run again. -/
theorem Advances.evaluations_le_of_root (h : s.Advances id s') (hn : s.node? 0 = some n) (hleaf : n.children = [])
    (ha : n.appraisal = some a) : s'.evaluations ≤ s.evaluations + 1 := by
  refine h.evaluations_le_of_leaf fun leaf s₁ b hdescends happraises => ?_
  obtain rfl : leaf = 0 := by
    cases hdescends with
    | here => rfl
    | down hm hne =>
      obtain rfl := Option.some.inj (hn.symm.trans hm)
      exact absurd hleaf hne
  cases happraises with
  | known => exact Nat.le_refl _
  | fresh hm hpending =>
    obtain rfl := Option.some.inj (hn.symm.trans hm)
    rw [ha] at hpending
    exact nomatch hpending

theorem Iterates.evaluations_le (h : Iterates count s s') : s'.evaluations ≤ s.evaluations + 2 * count := by
  induction h with
  | zero => exact Nat.le_refl _
  | succ h _ ih =>
    have hfirst := h.evaluations_le
    omega

end Evaluations

/-! ### Iterations -/

variable [IndexSource σ] [SizedIndexSource σ]

theorem Advances.grown (h : s.Advances id s') (hs : s.Grown count) : s'.Grown (count + 1) := by
  cases h with
  | terminal _ ha _ => exact ((hs.appraises ha).rewarded _ _).mono
  | child _ ha _ hn _ hknown hb hchild =>
    exact (((hs.appraises ha).branches hn hknown hb).appraises hchild).rewarded _ _

theorem Iterates.grown {more : Nat} (h : Iterates more s s') (hs : s.Grown count) : s'.Grown (count + more) := by
  induction h generalizing count with
  | zero => exact hs
  | @succ more _ _ _ _ h _ ih =>
    rw [Nat.add_comm more, ← Nat.add_assoc]
    exact ih (h.grown hs)

end Search

variable {α σ ω : Type} [Scalar α] [OrderedScalar α] [IndexSource σ]

/-- In a run the model has been run for the root before the first iteration, which then saves that run. -/
theorem Completes.evaluations_le {s₀ : Search α σ ω} {n : Nat} {t : Session α σ ω} (h : Completes s₀ n t)
    (hs : s₀.Sound) (hn : 1 ≤ n) (hstart : s₀.evaluations = 0)
    (hleaf : ∀ root, s₀.node? 0 = some root → root.children = []) : t.search.evaluations ≤ 2 * n := by
  obtain ⟨s₁, rfl | ⟨a, ha⟩, hiterates⟩ := h.exists_iterates hs
  · have hle := hiterates.evaluations_le
    rwa [hstart, Nat.zero_add] at hle
  · obtain ⟨root, hroot, hroot₁⟩ := ha.exists_node
    have happraised := ha.evaluations_le
    cases hiterates with
    | zero => omega
    | succ hfirst hrest =>
      have hone := hfirst.evaluations_le_of_root hroot₁ (hleaf root hroot) rfl
      have hothers := hrest.evaluations_le
      omega

omit [OrderedScalar α] in
theorem Returns.steps {ids : List Nat} {t t' : Session α σ ω} (h : Returns ids t t') : Steps ids.length t t' := by
  induction h with
  | nil t => exact .zero t
  | cons h _ ih => exact .succ h ih

/-- After one iteration or more, asked for one by one or in a run, the model has been run at most twice for each, no
node has more children than the swaps that are selected for it, none is further down than there were iterations, and
the nodes are at most the root and so many children for each iteration. -/
theorem evaluations_nodes_and_depth_le [SizedIndexSource σ] {d : Demand α} {root : Priority} {settings : Settings}
    {choices : σ} {observer : Observer α ω} {s₀ : Search α σ ω} {n : Nat} {t : Session α σ ω} (hn : 1 ≤ n)
    (hstart : Search.start d root settings choices observer = .ok s₀) (hcompletes : Completes s₀ n t) :
    t.search.evaluations ≤ 2 * n ∧
    (∀ i node, t.search.node? i = some node →
      node.children.length ≤ settings.maxChildren + settings.maxChildren / 2 + 1 ∧ node.depth ≤ n) ∧
    t.search.nodes.size ≤ 1 + n * (settings.maxChildren + settings.maxChildren / 2 + 1) := by
  have hs₀ := Search.sound_start hstart
  have hs := (hcompletes.changes hs₀).sound hs₀
  have hroot : ∀ node, s₀.node? 0 = some node → node.children = [] := fun node hnode => by
    rw [(Search.eq_root_of_start hstart hnode).2]
    rfl
  have hzero : s₀.evaluations = 0 := by
    obtain ⟨-, -, -, rfl⟩ := Search.start_eq_ok.1 hstart
    rfl
  have hgrown : t.search.Grown n := by
    obtain ⟨s₁, hbegin, hiterates⟩ := hcompletes.exists_iterates hs₀
    have hgrown₁ : s₁.Grown 0 := by
      rcases hbegin with rfl | ⟨a, ha⟩
      · exact Search.grown_start hstart
      · exact (Search.grown_start hstart).appraises ha
    simpa only [Nat.zero_add] using hiterates.grown hgrown₁
  have hbreadth : t.search.breadth = settings.maxChildren + settings.maxChildren / 2 + 1 := by
    obtain ⟨-, -, -, rfl⟩ := Search.start_eq_ok.1 hstart
    rw [Search.breadth, (hcompletes.changes hs₀).settings_eq]
    rfl
  rw [← hbreadth]
  refine ⟨hcompletes.evaluations_le hs₀ hn hzero hroot, fun i node hnode => ?_, hgrown.size⟩
  exact ⟨hgrown.length_children_le hs.tree hnode, hgrown.depth i node hnode⟩

/-- Two iterations for three senders come to both bounds, four evaluations and a node two levels down. -/
theorem evaluations_and_nodes_le_of_sendersSearch :
    ∃ (t : Session Tangent WordStream Unit) (deepest : Node Tangent), Completes (sendersSearch [8, 3, 1]) 2 t ∧
      t.search.node? 3 = some deepest ∧ t.search.evaluations = 2 * 2 ∧ deepest.depth = 2 ∧
      t.search.evaluations ≤ 2 * 2 ∧ t.search.nodes.size ≤ 1 + 2 * 4 ∧
      ∀ i node, t.search.node? i = some node → node.children.length ≤ 4 ∧ node.depth ≤ 2 := by
  have hstart : startSenders [8, 3, 1] = .ok (sendersSearch [8, 3, 1] : Search Tangent WordStream Unit) := by cbv
  have hstepped : ((⟨sendersSearch [8, 3, 1], []⟩ : Session Tangent WordStream Unit).stepped 2).map
      (fun r => (r.1, r.2.search.evaluations, (r.2.search.node? 3).map Node.depth)) =
        some ([1, 3], 4, some 2) := by cbv
  obtain ⟨⟨ids, t⟩, hsteps, hresult⟩ := Option.map_eq_some_iff.1 hstepped
  obtain ⟨rfl, hcounted⟩ := Prod.mk.inj hresult
  obtain ⟨hfour, hdepth⟩ := Prod.mk.inj hcounted
  obtain ⟨deepest, hdeepest, htwo⟩ := Option.map_eq_some_iff.1 hdepth
  have hcompletes : Completes (sendersSearch [8, 3, 1]) 2 t := .inl (Returns.of_stepped hsteps).steps
  obtain ⟨hevaluations, hnodes, hsize⟩ := evaluations_nodes_and_depth_le (by decide) hstart hcompletes
  exact ⟨t, deepest, hcompletes, hdeepest, hfour, htwo, hevaluations, hsize, hnodes⟩

end LinkPriority

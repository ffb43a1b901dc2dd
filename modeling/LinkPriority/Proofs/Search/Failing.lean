import LinkPriority.Proofs.Scalar.Machine
import LinkPriority.Proofs.Search.Bookkeeping
import LinkPriority.Proofs.Search.History
import LinkPriority.Proofs.Search.Walk

/-! What an iteration leaves behind when it fails. It has passed no reward up, so every node has its visits and its
value, and the children it may have added have none. Trying again therefore goes down to the same leaf; if the leaf
has got its children by then, all of them have the same score and the first is taken, which is the one that could not
be appraised. So the next iteration meets the same numbers, fails in the same way and finds nothing left to do. The
answer is not touched either: nothing that the failed iteration appraised has been rewarded. -/

namespace LinkPriority

/-- The score only depends on the visits and the value. -/
theorem Node.score_congr {α : Type} [Scalar α] {n n' : Node α} (hvisits : n'.visits = n.visits)
    (hvalue : n'.value = n.value) (parentVisits : Nat) : n'.score parentVisits = n.score parentVisits := by
  rw [Node.score, Node.score, Node.meanValue, Node.meanValue, hvisits, hvalue]

/-- A node as it goes into a solution, without its children and its appraisal. -/
def Node.bare {α : Type} (n : Node α) : Node α := { n with children := [], appraisal := none }

namespace Search

variable {α σ ω : Type} {s s' s'' : Search α σ ω} {n : Node α}

/-! ### No reward passed -/

section Unrewarded

variable [Scalar α] {id : Nat}

/-- From `s` to `s'` no reward has been passed up: the nodes of `s` have their visits and their values, and those
that are new in `s'` have none. -/
structure Unrewarded (s s' : Search α σ ω) : Prop where
  old : ∀ i n, s.node? i = some n → ∃ n', s'.node? i = some n' ∧ n'.visits = n.visits ∧ n'.value = n.value
  new : ∀ i n', s'.node? i = some n' → s.nodes.size ≤ i → n'.visits = 0 ∧ n'.value = Scalar.zero
  iterations : s'.iterations = s.iterations

namespace Unrewarded

theorem refl (s : Search α σ ω) : s.Unrewarded s where
  old _ n hn := ⟨n, hn, rfl, rfl⟩
  new _ _ hn hle := absurd (node?_lt hn) (not_lt.2 hle)
  iterations := rfl

theorem trans (h : s.Unrewarded s') (h' : s'.Unrewarded s'') : s.Unrewarded s'' where
  old i n hn := by
    obtain ⟨n', hn', hvisits, hvalue⟩ := h.old i n hn
    obtain ⟨n'', hn'', hvisits', hvalue'⟩ := h'.old i n' hn'
    exact ⟨n'', hn'', hvisits'.trans hvisits, hvalue'.trans hvalue⟩
  new i n'' hn'' hle := by
    by_cases hi : i < s'.nodes.size
    · obtain ⟨n', hn'⟩ := exists_node?_eq hi
      obtain ⟨m, hm, hvisits, hvalue⟩ := h'.old i n' hn'
      obtain rfl : m = n'' := Option.some.inj (hm.symm.trans hn'')
      obtain ⟨hzero, hnothing⟩ := h.new i n' hn' hle
      exact ⟨hvisits.trans hzero, hvalue.trans hnothing⟩
    · exact h'.new i n'' hn'' (not_lt.1 hi)
  iterations := h'.iterations.trans h.iterations

theorem branches {actions : List Swap} (hn : s.node? id = some n) (hb : s.Branches s' id n actions) :
    s.Unrewarded s' where
  old i m hm := by
    by_cases hi : i = id
    · subst hi
      obtain rfl : n = m := Option.some.inj (hn.symm.trans hm)
      exact ⟨_, hb.parent, rfl, rfl⟩
    · exact ⟨m, (hb.old i (node?_lt hm) hi).trans hm, rfl, rfl⟩
  new i m hm hle := by
    rcases hb.node_cases hm with ⟨rfl, -⟩ | ⟨-, hold⟩ | ⟨_, _, _, -, -, -, rfl⟩
    · exact absurd (node?_lt hn) (not_lt.2 hle)
    · exact absurd (node?_lt hold) (not_lt.2 hle)
    · exact ⟨rfl, rfl⟩
  iterations := by rw [hb.rest]

theorem appraises [IndexSource σ] {a : Appraisal α} (h : s.Appraises id s' a) : s.Unrewarded s' where
  old i m hm := by
    obtain ⟨n, hn, hn'⟩ := h.exists_node
    by_cases hi : i = id
    · subst hi
      obtain rfl : n = m := Option.some.inj (hn.symm.trans hm)
      exact ⟨_, hn', rfl, rfl⟩
    · exact ⟨m, (h.node?_of_ne hi).trans hm, rfl, rfl⟩
  new i m hm hle := absurd (node?_lt hm) (not_lt.2 (h.sameTree.size ▸ hle))
  iterations := h.iterations_eq

theorem halts [IndexSource σ] {e : SearchError α} (h : s.Halts e s') : s.Unrewarded s' := by
  cases h with
  | leaf => exact refl s
  | child _ ha _ hn _ _ hb _ => exact (appraises ha).trans (branches hn hb)

end Unrewarded

end Unrewarded

/-! ### The way down -/

section Descent

variable [Scalar α] {id leaf : Nat}

/-- A node with the children it had selects the same of them. -/
theorem Unrewarded.select_eq (h : s.Unrewarded s') (htree : s.IsTree) (hn : s.node? id = some n)
    (hsame : s'.childrenOf id = n.children) : s'.select id = s.select id := by
  obtain ⟨n', hn', hvisits, -⟩ := h.old id n hn
  rw [childrenOf_eq hn'] at hsame
  have hscores : s'.scores n' = s.scores n := by
    rw [scores, scores, hsame]
    refine List.filterMap_congr fun c hc => ?_
    obtain ⟨m, hm, -⟩ := htree.exists_child hn hc
    obtain ⟨m', hm', hvisits', hvalue'⟩ := h.old c m hm
    rw [hm, hm', Option.map_some, Option.map_some, hvisits, Node.score_congr hvisits' hvalue']
  simp only [select, hn, hn', hscores]

/-- A descent goes on below the leaf where it ended, if that is all that has got children. -/
theorem Descends.extend {leaf' : Nat} (h : s.Descends id leaf) (htree : s.IsTree) (hkept : s.Unrewarded s')
    (hchildren : ∀ i < s.nodes.size, i ≠ leaf → s'.childrenOf i = s.childrenOf i)
    (hbelow : s'.Descends leaf leaf') : s'.Descends id leaf' := by
  induction h with
  | here => exact hbelow
  | @down id child leaf n hn hne hselect h ih =>
    obtain ⟨m, hm, hchildless⟩ := h.exists_leaf
    have hinner : id ≠ leaf := by
      rintro rfl
      obtain rfl : m = n := Option.some.inj (hm.symm.trans hn)
      exact hne hchildless
    have hsame : s'.childrenOf id = n.children := (hchildren id (node?_lt hn) hinner).trans (childrenOf_eq hn)
    obtain ⟨n', hn', -⟩ := hkept.old id n hn
    refine .down hn' ?_ ((hkept.select_eq htree hn hsame).trans hselect) (ih hchildren hbelow)
    rwa [← childrenOf_eq hn', hsame]

/-- Of new children the first is selected: all have the same score. -/
theorem Branches.select_eq [StrictScalar α] {actions : List Swap} (h : s.Branches s' id n actions)
    (hn : s.node? id = some n) (hchildless : n.children = []) (hne : actions ≠ []) :
    s'.select id = .ok s.nodes.size := by
  obtain ⟨first, hfirst⟩ := h.exists_first hne
  obtain ⟨hvisits, hvalue⟩ := (Unrewarded.branches hn h).new _ _ hfirst le_rfl
  obtain ⟨k, hk⟩ := Nat.exists_eq_succ_of_ne_zero (mt List.length_eq_zero_iff.1 hne)
  have hparent := h.parent
  rw [hchildless, List.nil_append] at hparent
  have hscore : ∀ c ∈ List.range' s.nodes.size actions.length,
      (s'.node? c).map (fun m => (c, m.score n.visits)) = some (c, first.score n.visits) := by
    intro c hc
    obtain ⟨hle, hlt⟩ := List.mem_range'_1.1 hc
    obtain ⟨m, hm⟩ := exists_node?_eq (h.size ▸ hlt)
    obtain ⟨hvisits', hvalue'⟩ := (Unrewarded.branches hn h).new c m hm hle
    rw [hm, Option.map_some, Node.score_congr (hvisits'.trans hvisits.symm) (hvalue'.trans hvalue.symm)]
  have hfavourite : favourite (s'.scores { n with children := List.range' s.nodes.size actions.length }) =
      some (s.nodes.size, first.score n.visits) := by
    have hmap : s'.scores { n with children := List.range' s.nodes.size actions.length } =
        (List.range' s.nodes.size actions.length).map fun c => (c, first.score n.visits) :=
      (List.filterMap_congr hscore).trans (congrFun (List.filterMap_eq_map ..) _)
    rw [hmap, hk, List.range'_succ, List.map_cons, favourite, firstBest, bestFrom_eq_self]
    intro x hx
    obtain ⟨c, -, rfl⟩ := List.mem_map.1 hx
    exact StrictScalar.lt_irrefl _
  simp only [select, hparent, hfavourite]

theorem Descends.unique {leaf' : Nat} (h : s.Descends id leaf) (h' : s.Descends id leaf') : leaf' = leaf := by
  induction h with
  | here hn hleaf =>
    cases h' with
    | here => rfl
    | down hm hne _ _ =>
      obtain rfl := Option.some.inj (hn.symm.trans hm)
      exact absurd hleaf hne
  | down hn hne hselect _ ih =>
    cases h' with
    | here hm hleaf =>
      obtain rfl := Option.some.inj (hn.symm.trans hm)
      exact absurd hleaf hne
    | down _ _ hselect' h' =>
      obtain rfl := Except.ok.inj (hselect.symm.trans hselect')
      exact ih h'

theorem Stuck.unique {e e' : SearchError α} (h : s.Stuck id e) (h' : s.Stuck id e') : e' = e := by
  obtain ⟨hn, -, hfails⟩ := h
  obtain ⟨hm, -, hfails'⟩ := h'
  obtain rfl := Option.some.inj (hn.symm.trans hm)
  exact congrArg SearchError.model (Except.error.inj (hfails'.symm.trans hfails))

/-- Where the model has no answer there is no appraisal. -/
theorem Stuck.not_appraises [IndexSource σ] {e : SearchError α} {a : Appraisal α} (h : s.Stuck id e) :
    ¬s.Appraises id s' a := by
  obtain ⟨hn, hpending, hfails⟩ := h
  rintro (⟨hm, hknown⟩ | ⟨hm, -, hanswers⟩)
  · obtain rfl := Option.some.inj (hn.symm.trans hm)
    exact nomatch hpending.symm.trans hknown
  · obtain rfl := Option.some.inj (hn.symm.trans hm)
    obtain ⟨_, hok, -⟩ := hanswers.isOf.evaluation
    exact nomatch hfails.symm.trans hok

/-- The way down ends at a node that the model has no answer for, and `e` says so. -/
def Blocked (s : Search α σ ω) (e : SearchError α) : Prop := ∃ leaf, s.Descends 0 leaf ∧ s.Stuck leaf e

variable [IndexSource σ]

/-- An iteration that fails leaves the next one at the node that stopped it. -/
theorem Halts.blocked [StrictScalar α] {e : SearchError α} (h : s.Halts e s') (htree : s.IsTree) : s'.Blocked e := by
  have hkept := Unrewarded.halts h
  cases h with
  | @leaf leaf _ hleaf hstuck => exact ⟨leaf, hleaf, hstuck⟩
  | @child leaf s₁ _ a n _ hleaf ha hactions hn hchildless _ hb hstuck =>
    obtain ⟨child, hchild⟩ := hb.exists_first hactions
    have hchild' : child.children = [] := by
      rcases hb.node_cases hchild with ⟨heq, -⟩ | ⟨-, hold⟩ | ⟨_, _, _, -, -, -, rfl⟩
      · exact absurd (node?_lt hn) (heq ▸ lt_irrefl _)
      · exact absurd (node?_lt hold) (lt_irrefl _)
      · rfl
    have hparent : n.children ++ List.range' s₁.nodes.size a.actions.length ≠ [] :=
      List.append_ne_nil_of_right_ne_nil _ (by simpa using hactions)
    refine ⟨s₁.nodes.size, hleaf.extend htree hkept (fun i hi hne => ?_) ?_, hstuck⟩
    · rw [childrenOf, childrenOf, hb.old i (ha.sameTree.size ▸ hi) hne, ha.node?_of_ne hne]
    · exact .down hb.parent hparent (hb.select_eq hn hchildless hactions) (.here hchild hchild')

theorem Blocked.not_advances {e : SearchError α} (h : s.Blocked e) : ¬s.Advances id s' := by
  obtain ⟨leaf, hleaf, hstuck⟩ := h
  rintro (⟨hleaf', ha, -⟩ | ⟨hleaf', ha⟩)
  · obtain rfl := hleaf.unique hleaf'
    exact hstuck.not_appraises ha
  · obtain rfl := hleaf.unique hleaf'
    exact hstuck.not_appraises ha

theorem Blocked.eq_of_halts {e e' : SearchError α} (h : s.Blocked e) (hhalts : s.Halts e' s') : e' = e ∧ s' = s := by
  obtain ⟨leaf, hleaf, hstuck⟩ := h
  cases hhalts with
  | leaf hleaf' hstuck' =>
    obtain rfl := hleaf.unique hleaf'
    exact ⟨hstuck.unique hstuck', rfl⟩
  | child hleaf' ha =>
    obtain rfl := hleaf.unique hleaf'
    exact absurd ha hstuck.not_appraises

end Descent

/-! ### Growing -/

section Growth

variable [Scalar α] {id : Nat}

/-- Every node through which a reward has passed is appraised. -/
def Backed (s : Search α σ ω) : Prop := ∀ i n, s.node? i = some n → 0 < n.visits → n.appraisal.isSome = true

theorem Backed.rewarded (h : s.Backed) (htree : s.IsTree) (hn : s.node? id = some n)
    (ha : n.appraisal.isSome = true) (amount : α) : (s.rewarded id amount).Backed := by
  intro i m hm hvisits
  rw [node?_rewarded] at hm
  split at hm
  · next hup =>
    obtain ⟨k, hk, hknown⟩ := htree.exists_appraisal_of_mem_lineage hn ha hup
    rw [hk, Option.map_some] at hm
    obtain rfl := Option.some.inj hm
    exact hknown
  · exact h i m hm hvisits

variable [IndexSource σ]

theorem Backed.unrewarded (h : s.Backed) (hkept : s.Unrewarded s') (hchanges : Changes s s') : s'.Backed := by
  intro i n' hn' hvisits
  by_cases hi : i < s.nodes.size
  · obtain ⟨n, hn⟩ := exists_node?_eq hi
    obtain ⟨m, hm, hsame, -⟩ := hkept.old i n hn
    obtain ⟨m', hm', hpersists⟩ := hchanges.exists_persists hn
    obtain rfl : m = n' := Option.some.inj (hm.symm.trans hn')
    obtain rfl : m' = m := Option.some.inj (hm'.symm.trans hm)
    obtain ⟨a, ha⟩ := Option.isSome_iff_exists.1 (h i n hn (hsame ▸ hvisits))
    rw [hpersists.appraisal a ha, Option.isSome_some]
  · have hzero := (hkept.new i n' hn' (not_lt.1 hi)).1
    omega

theorem Backed.appraises {a : Appraisal α} (h : s.Backed) (ha : s.Appraises id s' a) : s'.Backed :=
  h.unrewarded (.appraises ha) (.single (.appraise ha))

theorem Advances.backed (h : s.Advances id s') (hs : s.Sound) (hb : s.Backed) : s'.Backed := by
  cases h with
  | terminal _ ha _ =>
    obtain ⟨n, -, hn⟩ := ha.exists_node
    exact (hb.appraises ha).rewarded (hs.appraises ha).tree hn rfl _
  | child _ ha _ hn hchildless hknown hbranches hchild =>
    have hs₁ := hs.appraises ha
    have hs₂ := hs₁.branches hn hchildless hknown hbranches
    have hb₂ := (hb.appraises ha).unrewarded (.branches hn hbranches)
      (.single (.branch hn hchildless hknown hbranches))
    obtain ⟨m, -, hm⟩ := hchild.exists_node
    exact (hb₂.appraises hchild).rewarded (hs₂.appraises hchild).tree hm rfl _

theorem Halts.backed {e : SearchError α} (h : s.Halts e s') (hb : s.Backed) : s'.Backed :=
  hb.unrewarded (.halts h) h.changes

theorem Iterates.backed {count : Nat} (h : Iterates count s s') (hs : s.Sound) (hb : s.Backed) : s'.Backed := by
  induction h with
  | zero => exact hb
  | succ h _ ih => exact ih (h.changes.sound hs) (h.backed hs hb)

/-- What a search adds to the children of a node is new. -/
theorem Change.exists_childrenOf_eq (h : Change s s') (hid : id < s.nodes.size) :
    ∃ new, s'.childrenOf id = s.childrenOf id ++ new ∧ ∀ c ∈ new, s.nodes.size ≤ c := by
  have hsame : s.SameTree s' → s'.childrenOf id = s.childrenOf id ++ [] := fun hsame => by
    rw [hsame.childrenOf_eq, List.append_nil]
  cases h with
  | appraise h => exact ⟨[], hsame h.sameTree, by simp⟩
  | @branch s' p n a hn _ _ hb =>
    by_cases hp : id = p
    · subst hp
      refine ⟨List.range' s.nodes.size a.actions.length, ?_, fun c hc => (List.mem_range'_1.1 hc).1⟩
      rw [childrenOf_eq hn, childrenOf_eq hb.parent]
    · exact ⟨[], by rw [childrenOf, childrenOf, hb.old id hid hp, List.append_nil], by simp⟩
  | reward p amount => exact ⟨[], hsame (sameTree_backpropagate s p amount), by simp⟩
  | count => exact ⟨[], (List.append_nil _).symm, by simp⟩

theorem Changes.exists_childrenOf_eq (h : Changes s s') (hid : id < s.nodes.size) :
    ∃ new, s'.childrenOf id = s.childrenOf id ++ new ∧ ∀ c ∈ new, s.nodes.size ≤ c := by
  induction h with
  | refl => exact ⟨[], (List.append_nil _).symm, by simp⟩
  | @tail s₁ s₂ h hchange ih =>
    obtain ⟨new, heq, hnew⟩ := ih
    obtain ⟨more, heq', hmore⟩ := hchange.exists_childrenOf_eq (hid.trans_le (Changes.size_le h))
    refine ⟨new ++ more, by rw [heq', heq, List.append_assoc], fun c hc => ?_⟩
    rcases List.mem_append.1 hc with hc | hc
    · exact hnew c hc
    · exact (Changes.size_le h).trans (hmore c hc)

/-- Going through a tree that has grown meets the same, as far as the new nodes have nothing to add. -/
theorem Changes.filterMap_subtree_eq {β : Type} {f g : Nat → Option β} (h : Changes s s') (hs : s.Sound)
    (hold : ∀ i < s.nodes.size, g i = f i) (hnew : ∀ i, s.nodes.size ≤ i → g i = none) (hid : id < s.nodes.size) :
    (s'.subtree id).filterMap g = (s.subtree id).filterMap f := by
  have htree' := (h.sound hs).tree
  induction id using hs.tree.induction_up with
  | step id ih =>
    obtain ⟨new, hchildren, hsize⟩ := h.exists_childrenOf_eq hid
    have hskip : ∀ c ∈ new, (s'.subtree c).filterMap g = [] := by
      intro c hc
      refine List.filterMap_eq_nil_iff.2 fun i hi => hnew i ((hsize c hc).trans ?_)
      exact le_of_mem_lineage (htree'.mem_subtree.1 hi)
    have hbelow : (s.childrenOf id).flatMap (fun c => (s'.subtree c).filterMap g) =
        (s.childrenOf id).flatMap fun c => (s.subtree c).filterMap f := by
      refine List.flatMap_congr fun c hc => ih c hc ?_
      obtain ⟨_, m, -, hm, -⟩ := hs.tree.hangs_of_mem_childrenOf hc
      exact node?_lt hm
    rw [htree'.subtree_eq, hs.tree.subtree_eq, hchildren, List.flatMap_append, List.filterMap_cons,
      List.filterMap_cons, hold id hid, List.filterMap_append, List.filterMap_flatMap, List.filterMap_flatMap,
      List.filterMap_flatMap, hbelow, List.flatMap_eq_nil_iff.2 hskip, List.append_nil]

end Growth

/-! ### The answer -/

section Answer

variable [Scalar α] [IndexSource σ] {root : Node α} {a : Appraisal α} (hkept : s.Unrewarded s')
  (hchanges : Changes s s') (hs : s.Sound) (hbacked : s.Backed) (hroot : s.node? 0 = some root)
  (ha : root.appraisal = some a)
include hkept hchanges hs hbacked hroot ha

omit hs in
/-- As long as nothing is rewarded, the nodes that may be the answer stay the same. -/
theorem Unrewarded.offer?_eq {i : Nat} (hi : i < s.nodes.size) :
    (s'.offer? i).map (Prod.map Node.bare id) = (s.offer? i).map (Prod.map Node.bare id) := by
  obtain ⟨n, hn⟩ := exists_node?_eq hi
  obtain ⟨n', hn', hvisits, hvalue⟩ := hkept.old i n hn
  obtain ⟨m, hm, hpersists⟩ := hchanges.exists_persists hn
  obtain rfl : m = n' := Option.some.inj (hm.symm.trans hn')
  have hbare : m.bare = n.bare := by
    rw [Node.bare, Node.bare, hpersists.id, hpersists.action, hpersists.parent, hpersists.depth,
      hpersists.maxChildren, hpersists.priority, hvisits, hvalue]
  rw [offer?, offer?, hm, hn, Option.bind_some, Option.bind_some, hvisits]
  by_cases hor : i = 0 ∨ 0 < n.visits
  · have hknown : n.appraisal.isSome = true := by
      rcases hor with rfl | hpos
      · obtain rfl : root = n := Option.some.inj (hroot.symm.trans hn)
        rw [ha, Option.isSome_some]
      · exact hbacked i n hn hpos
    obtain ⟨b, hb⟩ := Option.isSome_iff_exists.1 hknown
    rw [if_pos hor, if_pos hor, hpersists.appraisal b hb, hb]
    exact congrArg (fun m => some (m, b)) hbare
  · rw [if_neg hor, if_neg hor]

theorem Unrewarded.eligible_eq :
    s'.eligible.map (Prod.map Node.bare id) = s.eligible.map (Prod.map Node.bare id) := by
  have hnew : ∀ i, s.nodes.size ≤ i → (s'.offer? i).map (Prod.map Node.bare id) = none := by
    intro i hle
    refine Option.map_eq_none_iff.2 (Option.eq_none_iff_forall_ne_some.2 fun x hx => ?_)
    obtain ⟨hn, hor, -⟩ := offer?_eq_some.1 hx
    have hzero := (hkept.new i x.1 hn hle).1
    have hpos := hs.tree.size_pos
    omega
  have htree' := (hchanges.sound hs).tree
  rw [eligible_eq_filterMap, eligible_eq_filterMap, List.map_filterMap, List.map_filterMap, htree'.preorder_eq,
    hs.tree.preorder_eq]
  exact hchanges.filterMap_subtree_eq hs
    (fun i hi => hkept.offer?_eq hchanges hbacked hroot ha hi) hnew hs.tree.size_pos

/-- With an appraised root the answer stays the same. -/
theorem Unrewarded.exists_finalize_eq : ∃ solution, s.finalize = .ok solution ∧
    s'.finalize = .ok { solution with nodes := s'.nodes.size, evaluations := s'.evaluations } := by
  obtain ⟨⟨n, b⟩, hbest⟩ := hs.tree.exists_best?_eq hroot ha
  have hmap : s'.best?.map (Prod.map Node.bare id) = s.best?.map (Prod.map Node.bare id) := by
    rw [best?_map, best?_map, hkept.eligible_eq hchanges hs hbacked hroot ha]
  rw [hbest] at hmap
  obtain ⟨⟨n', b'⟩, hbest', hbare⟩ := Option.map_eq_some_iff.1 hmap
  obtain ⟨hnode, rfl⟩ := Prod.mk.inj hbare
  have hfield : ∀ {γ : Type} (f : Node α → γ), f n'.bare = f n.bare := fun f => congrArg f hnode
  have hpriority : n'.priority = n.priority := hfield Node.priority
  have hid : n'.id = n.id := hfield Node.id
  have hdepth : n'.depth = n.depth := hfield Node.depth
  have hvisits : n'.visits = n.visits := hfield Node.visits
  obtain ⟨root', hroot', hpersists⟩ := hchanges.exists_persists hroot
  have hobjective : s'.rootObjective? = s.rootObjective? := by
    rw [rootObjective?, rootObjective?, hroot, hroot', Option.bind_some, Option.bind_some, Node.objective?,
      Node.objective?, ha, hpersists.appraisal a ha]
  refine ⟨_, finalize_eq_ok.2 ⟨n, b', hbest, rfl⟩, finalize_eq_ok.2 ⟨n', b', hbest', ?_⟩⟩
  rw [hpriority, hid, hdepth, hvisits, hobjective, hchanges.demand_eq, hkept.iterations]

end Answer

end Search

section Retry

variable {α σ ω : Type} [Scalar α] [IndexSource σ] [OrderedScalar α] {t : Session α σ ω} {e : SearchError α}

/-- Where the way down is blocked, an iteration fails and leaves the search as it is. -/
theorem Search.Blocked.exists_step_eq (h : t.search.Blocked e) (hs : t.search.Sound) :
    ∃ t', Move.step t = .error e t' ∧ t'.search = t.search := by
  have houtcome := Move.step_outcome hs
  generalize Move.step t = result at houtcome
  cases houtcome with
  | advances hadvances => exact absurd hadvances h.not_advances
  | @halts t' e' hhalts =>
    obtain ⟨rfl, hsame⟩ := h.eq_of_halts hhalts
    exact ⟨t', rfl, hsame⟩

/-- However often the iteration is tried again. -/
theorem Search.Blocked.exists_retry_eq (h : t.search.Blocked e) (hs : t.search.Sound) (count : Nat) :
    ∃ t', Move.step (t.afterAll (List.replicate count .step)) = .error e t' ∧ t'.search = t.search := by
  induction count generalizing t with
  | zero => exact h.exists_step_eq hs
  | succ count ih =>
    obtain ⟨t', hstep, hsame⟩ := h.exists_step_eq hs
    have hafter : t.after .step = t' := by
      rw [Session.after_eq, Call.move, Move.left_discard, hstep, Move.left]
    rw [List.replicate_succ, Session.afterAll, List.foldl_cons, hafter, ← Session.afterAll, ← hsame]
    exact ih (hsame ▸ h) (hsame ▸ hs)

theorem Search.Backed.after (h : t.search.Backed) (hs : t.search.Sound) {c : Call α} (hc : c = .step ∨ c = .run) :
    (t.after c).search.Backed := by
  rw [Session.after_eq]
  rcases hc with rfl | rfl
  · rw [Call.move, Move.left_discard]
    have houtcome := Move.step_outcome hs
    generalize Move.step t = result at houtcome
    cases houtcome with
    | advances hadvances => exact hadvances.backed hs h
    | halts hhalts => exact hhalts.backed h
  · rw [Call.move]
    have houtcome := Move.run_outcome hs
    generalize Move.run t = result at houtcome
    cases houtcome with
    | done ha hiterates => exact hiterates.backed (hs.appraises ha) (h.appraises ha)
    | stuck _ hsame => exact hsame.symm ▸ h
    | halts ha hiterates hhalts => exact hhalts.backed (hiterates.backed (hs.appraises ha) (h.appraises ha))

theorem Search.Backed.afterAll {calls : List (Call α)} (h : t.search.Backed) (hs : t.search.Sound)
    (hcalls : ∀ c ∈ calls, c = .step ∨ c = .run) : (t.afterAll calls).search.Backed := by
  induction calls generalizing t with
  | nil => exact h
  | cons c calls ih =>
    obtain ⟨hc, hrest⟩ := List.forall_mem_cons.1 hcalls
    have hexists : c.Exists t.search := by rcases hc with rfl | rfl <;> trivial
    exact ih (h.after hs hc) ((changes_after hs hexists).sound hs) hrest

/-- An iteration that fails after any iterations and runs has left every node its visits and its value and has not
been counted. The same failure follows however often the iteration is tried again, and never changes the search any
more. If the root is appraised, there is an answer, and if it was before, the answer is the same but for how many
nodes and appraisals there are. -/
theorem failed_step_repeats_and_keeps_answer [StrictScalar α] {d : Demand α} {root : Priority} {settings : Settings}
    {choices : σ} {observer : Observer α ω} {s₀ : Search α σ ω} {calls : List (Call α)} {t' : Session α σ ω}
    (hstart : Search.start d root settings choices observer = .ok s₀) (hcalls : ∀ c ∈ calls, c = .step ∨ c = .run)
    (ht : Session.afterAll ⟨s₀, []⟩ calls = t) (hstep : Move.step t = .error e t') :
    t.search.Unrewarded t'.search ∧
    (∀ count, ∃ t'', Move.step (t'.afterAll (List.replicate count .step)) = .error e t'' ∧
      t''.search = t'.search) ∧
    (t'.search.rootObjective? ≠ none → ∃ solution, t'.search.finalize = .ok solution) ∧
    (t.search.rootObjective? ≠ none → ∃ solution, t.search.finalize = .ok solution ∧
      t'.search.finalize =
        .ok { solution with nodes := t'.search.nodes.size, evaluations := t'.search.evaluations }) := by
  have hs₀ := Search.sound_start hstart
  have hreach : Reachable s₀ t := ht ▸ Reachable.start.after_calls calls
  have hs := hreach.sound hs₀
  have hbacked₀ : s₀.Backed := by
    intro i n hn hvisits
    rw [(Search.eq_root_of_start hstart hn).2] at hvisits
    exact absurd hvisits (lt_irrefl 0)
  have hbacked : t.search.Backed := ht ▸ Search.Backed.afterAll (t := ⟨s₀, []⟩) hbacked₀ hs₀ hcalls
  have hhalts : t.search.Halts e t'.search := by
    have houtcome := Move.step_outcome hs
    rw [hstep] at houtcome
    cases houtcome with
    | halts h => exact h
  have hs' := hhalts.changes.sound hs
  have hkept := Search.Unrewarded.halts hhalts
  refine ⟨hkept, (hhalts.blocked hs.tree).exists_retry_eq hs', fun hknown => ?_, fun hknown => ?_⟩
  · obtain ⟨⟨n, a⟩, hbest⟩ := Option.ne_none_iff_exists'.1 (mt hs'.tree.best?_eq_none.1 hknown)
    exact ⟨_, Search.finalize_eq_ok.2 ⟨n, a, hbest, rfl⟩⟩
  · obtain ⟨root, hroot, -⟩ := hs.tree.root
    obtain ⟨a, ha⟩ := Option.ne_none_iff_exists'.1 (mt (Search.rootObjective?_eq_none hroot).2 hknown)
    exact hkept.exists_finalize_eq hhalts.changes hs hbacked hroot ha

/-- Two jobs on one link. The second does not notice the first ahead of it; the first behind it passes all bounds. -/
def saturatedLink : Demand Binary64 :=
  ⟨⟨2, 1, #[⟨Scalar.one, .ofScientific 1 308⟩, ⟨Scalar.one, Scalar.one⟩]⟩⟩

/-- The search for the saturated link with the first job ahead. -/
def saturatedSearch : Search Binary64 WordStream Unit where
  demand := saturatedLink
  settings := { epochBudget := 1 }
  nodes := #[.root ⟨⟨2, 1, #[0, 1]⟩, rfl⟩ 2]
  choices := .ofSeed 0
  observer := .silent

theorem saturatedSearch_step_fails_after_run :
    Search.start saturatedLink ⟨⟨2, 1, #[0, 1]⟩, rfl⟩ { epochBudget := 1 } (.ofSeed 0) Observer.silent =
      .ok saturatedSearch ∧
    ∃ e t', Move.step (Session.afterAll ⟨saturatedSearch, []⟩ [.run]) = .error e t' ∧ t'.search.nodes.size = 2 ∧
      ∃ solution, t'.search.finalize = .ok solution ∧
        ∀ count, ∃ t'', Move.step (t'.afterAll (List.replicate count .step)) = .error e t'' ∧
          t''.search = t'.search := by
  have hstart : Search.start saturatedLink ⟨⟨2, 1, #[0, 1]⟩, rfl⟩ { epochBudget := 1 } (.ofSeed 0)
      Observer.silent = .ok saturatedSearch :=
    Search.start_eq_ok.2 ⟨by decide +kernel, by decide +kernel,
      Priority.validate_eq_ok.1 (by decide +kernel), rfl⟩
  have hfails : (match Move.step (Session.afterAll ⟨saturatedSearch, []⟩ [.run]) with
      | .ok _ _ => none
      | .error _ t' => some (t'.search.nodes.size, t'.search.rootObjective?.isSome)) = some (2, true) := by
    decide +kernel
  cases hstep : Move.step (Session.afterAll ⟨saturatedSearch, []⟩ [.run]) with
  | ok _ _ => exact nomatch hstep ▸ hfails
  | error e t' =>
    rw [hstep] at hfails
    obtain ⟨hsize, hknown⟩ := Prod.mk.inj (Option.some.inj hfails)
    obtain ⟨-, hretry, hanswer, -⟩ := failed_step_repeats_and_keeps_answer hstart (by simp) rfl hstep
    obtain ⟨solution, hsolution⟩ := hanswer (Option.isSome_iff_ne_none.1 hknown)
    exact ⟨hstart, e, t', rfl, hsize, solution, hsolution, hretry⟩

end Retry

end LinkPriority

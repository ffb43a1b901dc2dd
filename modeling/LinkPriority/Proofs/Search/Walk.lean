import Mathlib
import LinkPriority.Proofs.Search.Readout
import LinkPriority.Proofs.Search.Safety
import LinkPriority.Proofs.Search.Visits

/-! How the best node is found. A walk with a stack takes the topmost node off it and puts the children of that node
in its place; from the root it ends after it has met every node once, each before its children and these in the order
in which they were added. The answer is the first node on this walk that has the smallest objective among those that
may be the answer, so there is one as soon as the root is appraised. -/

namespace LinkPriority

namespace Search

variable {α σ ω : Type} {s s' : Search α σ ω} {i id : Nat} {n : Node α} {a : Appraisal α}

/-! ### The stack -/

/-- Taking ids off the top of a stack, each time putting the children of the id in its place, ends with an empty stack
after just these ids, in this order. -/
inductive Pops (s : Search α σ ω) : (stack ids : List Nat) → Prop where
  | done : Pops s [] []
  | pop {id : Nat} {stack ids : List Nat} (h : Pops s (s.childrenOf id ++ stack) ids) :
    Pops s (id :: stack) (id :: ids)

/-- Ids whose subtrees are gone through before what is below them on the stack. -/
theorem Pops.append {ids above stack : List Nat} (h : s.Pops stack ids)
    (habove : ∀ c ∈ above, ∀ stack ids, s.Pops stack ids → s.Pops (c :: stack) (s.subtree c ++ ids)) :
    s.Pops (above ++ stack) (above.flatMap s.subtree ++ ids) := by
  induction above with
  | nil => exact h
  | cons c above ih =>
    obtain ⟨hhead, hrest⟩ := List.forall_mem_cons.1 habove
    rw [List.flatMap_cons, List.append_assoc]
    exact hhead _ _ (ih hrest)

/-- On top of a stack a node is gone through with its whole subtree. -/
theorem IsTree.pops_subtree (h : s.IsTree) (id : Nat) {stack ids : List Nat} (hrest : s.Pops stack ids) :
    s.Pops (id :: stack) (s.subtree id ++ ids) := by
  induction id using h.induction_up generalizing stack ids with
  | step id ih =>
    rw [h.subtree_eq]
    exact .pop (hrest.append fun c hc _ _ hrest => ih c hc hrest)

/-- The walk from the root ends, and what it has met then is the whole tree. -/
theorem IsTree.pops_preorder (h : s.IsTree) : s.Pops [0] s.preorder := by
  rw [h.preorder_eq, ← List.append_nil (s.subtree 0)]
  exact h.pops_subtree 0 .done

/-! ### The order of children -/

/-- The children of every node stand in the order in which they were added. -/
def InOrder (s : Search α σ ω) : Prop := ∀ i n, s.node? i = some n → n.children.Pairwise (· < ·)

theorem InOrder.sameTree (h : s.InOrder) (hsame : s.SameTree s') : s'.InOrder := by
  intro i n' hn'
  obtain ⟨n, hn, -, hchildren⟩ := hsame.node_of hn'
  rw [hchildren]
  exact h i n hn

theorem InOrder.pairwise_childrenOf (h : s.InOrder) (id : Nat) : (s.childrenOf id).Pairwise (· < ·) := by
  by_cases hid : id < s.nodes.size
  · obtain ⟨n, hn⟩ := exists_node?_eq hid
    rw [childrenOf_eq hn]
    exact h id n hn
  · rw [childrenOf_of_size_le (not_lt.1 hid)]
    exact .nil

section Changes

variable [Scalar α] [IndexSource σ]

theorem Change.inOrder (h : Change s s') (ho : s.InOrder) : s'.InOrder := by
  cases h with
  | appraise h => exact ho.sameTree h.sameTree
  | branch hn hleaf _ hb =>
    intro i m hm
    rcases hb.node_cases hm with ⟨-, rfl⟩ | ⟨-, hold⟩ | ⟨_, _, _, -, -, -, rfl⟩
    · rw [hleaf, List.nil_append]
      exact List.pairwise_lt_range' 1
    · exact ho i m hold
    · exact .nil
  | reward id amount => exact ho.sameTree (sameTree_backpropagate s id amount)
  | count => exact ho

theorem Changes.inOrder (h : Changes s s') (ho : s.InOrder) : s'.InOrder := by
  induction h with
  | refl => exact ho
  | tail _ hchange ih => exact hchange.inOrder ih

omit [IndexSource σ] in
theorem inOrder_start {d : Demand α} {p : Priority} {settings : Settings} {choices : σ} {observer : Observer α ω}
    (h : Search.start d p settings choices observer = .ok s) : s.InOrder := by
  intro i n hn
  rw [(eq_root_of_start h hn).2]
  exact .nil

end Changes

/-! ### The answer -/

/-- The node with this id may be the answer: it is appraised, and it is the root or a reward has passed through it. -/
def MayAnswer (s : Search α σ ω) (id : Nat) (n : Node α) (a : Appraisal α) : Prop :=
  s.node? id = some n ∧ (id = 0 ∨ 0 < n.visits) ∧ n.appraisal = some a

/-- What an id contributes to the eligible nodes. -/
def offer? (s : Search α σ ω) (id : Nat) : Option (Node α × Appraisal α) :=
  (s.node? id).bind fun n => if id = 0 ∨ 0 < n.visits then n.appraisal.map fun a => (n, a) else none

theorem eligible_eq_filterMap (s : Search α σ ω) : s.eligible = s.preorder.filterMap s.offer? := rfl

theorem offer?_eq_some : s.offer? id = some (n, a) ↔ s.MayAnswer id n a := by
  rw [offer?, Option.bind_eq_some_iff]
  constructor
  · rintro ⟨m, hm, hpair⟩
    split at hpair
    · next hor =>
      obtain ⟨b, hb, heq⟩ := Option.map_eq_some_iff.1 hpair
      obtain ⟨rfl, rfl⟩ := Prod.mk.inj heq
      exact ⟨hm, hor, hb⟩
    · exact nomatch hpair
  · rintro ⟨hn, hor, ha⟩
    exact ⟨n, hn, by rw [if_pos hor, ha, Option.map_some]⟩

theorem rootObjective?_eq_none (hroot : s.node? 0 = some n) : s.rootObjective? = none ↔ n.appraisal = none := by
  rw [rootObjective?, hroot, Option.bind_some, Node.objective?, Option.map_eq_none_iff]

variable [Scalar α]

/-- There is an answer exactly if the root is appraised. -/
theorem IsTree.best?_eq_none (h : s.IsTree) : s.best? = none ↔ s.rootObjective? = none := by
  obtain ⟨root, hroot, -⟩ := h.root
  rw [rootObjective?_eq_none hroot]
  constructor
  · intro hnone
    by_contra hpending
    obtain ⟨a, ha⟩ := Option.ne_none_iff_exists'.1 hpending
    obtain ⟨best, hbest⟩ := h.exists_best?_eq hroot ha
    exact nomatch hbest.symm.trans hnone
  · intro hpending
    by_contra hsome
    obtain ⟨⟨n, a⟩, hbest⟩ := Option.ne_none_iff_exists'.1 hsome
    obtain ⟨id, hn, -, ha⟩ := (mem_eligible h).1 (mem_eligible_of_best? hbest)
    obtain ⟨r, b, hr, hb⟩ := h.exists_root_appraisal hn ha
    obtain rfl : root = r := Option.some.inj (hroot.symm.trans hr)
    exact nomatch hpending.symm.trans hb

variable [OrderedScalar α]

/-- On the walk from the root the answer comes after larger objectives only. -/
theorem Sound.exists_preorder_eq_of_best? (hs : s.Sound) (h : s.best? = some (n, a)) :
    s.MayAnswer n.id n a ∧ ∃ before after, s.preorder = before ++ n.id :: after ∧
      ∀ i ∈ before, ∀ m b, s.MayAnswer i m b → Scalar.lt a.objective b.objective = true := by
  obtain ⟨better, worse, hsplit, hbetter, -⟩ := hs.isFirstBest_of_best? h
  rw [eligible_eq_filterMap] at hsplit
  obtain ⟨front, back, hpreorder, hfront, hback⟩ := List.filterMap_eq_append_iff.1 hsplit
  obtain ⟨skipped, id, after, rfl, hskipped, hid, -⟩ := List.filterMap_eq_cons_iff.1 hback
  have hanswer := offer?_eq_some.1 hid
  obtain rfl : n.id = id := hs.tree.id_eq id n hanswer.1
  refine ⟨hanswer, front ++ skipped, after, by rw [hpreorder, List.append_assoc], fun i hi m b hm => ?_⟩
  have hoffer := offer?_eq_some.2 hm
  rcases List.mem_append.1 hi with hi | hi
  · exact hbetter (m, b) (hfront ▸ List.mem_filterMap.2 ⟨i, hi, hoffer⟩)
  · exact nomatch (hskipped i hi).symm.trans hoffer

end Search

variable {α σ ω : Type} [Scalar α] [IndexSource σ] [OrderedScalar α] {d : Demand α}

/-- In every state a caller can reach, the walk for the best node ends after every node has been taken off the stack
once, each before its children and these from the oldest to the youngest. It comes to nothing exactly as long as the
root is not appraised; otherwise it comes to a node that may be the answer, of which no other such node has a smaller
objective and each one earlier on the walk has a larger one. -/
theorem best?_of_reachable {root : Priority} {settings : Settings} {choices : σ} {observer : Observer α ω}
    {s₀ : Search α σ ω} {t : Session α σ ω} (hstart : Search.start d root settings choices observer = .ok s₀)
    (ht : Reachable s₀ t) :
    t.search.Pops [0] t.search.preorder ∧ t.search.preorder.Perm (List.range t.search.nodes.size) ∧
    (t.search.preorder = t.search.subtree 0 ∧
      ∀ id, t.search.subtree id = id :: (t.search.childrenOf id).flatMap t.search.subtree) ∧
    (∀ id, (t.search.childrenOf id).Pairwise (· < ·)) ∧
    (t.search.best? = none ↔ t.search.rootObjective? = none) ∧
    ∀ n a, t.search.best? = some (n, a) → t.search.MayAnswer n.id n a ∧
      (∀ i m b, t.search.MayAnswer i m b → Scalar.le a.objective b.objective = true) ∧
      ∃ before after, t.search.preorder = before ++ n.id :: after ∧
        ∀ i ∈ before, ∀ m b, t.search.MayAnswer i m b → Scalar.lt a.objective b.objective = true := by
  have hs := ht.sound_of_start hstart
  have htree := hs.tree
  have horder := (ht.changes (Search.sound_start hstart)).inOrder (Search.inOrder_start hstart)
  refine ⟨htree.pops_preorder, ?_, ⟨htree.preorder_eq, htree.subtree_eq⟩, horder.pairwise_childrenOf,
    htree.best?_eq_none, ?_⟩
  · rw [htree.preorder_eq]
    exact htree.subtree_zero_perm
  · intro n a hbest
    obtain ⟨hanswer, before, after, hsplit, hbefore⟩ := hs.exists_preorder_eq_of_best? hbest
    refine ⟨hanswer, fun i m b hm => ?_, before, after, hsplit, hbefore⟩
    exact hs.le_of_best? hbest ((Search.mem_eligible htree).2 ⟨i, hm⟩)

theorem best?_of_sharedLinkSearch_after_step :
    Search.start sharedLink (WarmStart.identity.priority sharedLink) { warmStart := .identity } (.ofSeed 0)
      Observer.silent = .ok sharedLinkSearch ∧
    Reachable sharedLinkSearch (Session.after ⟨sharedLinkSearch, []⟩ .step) ∧
    ∃ n a, (Session.after ⟨sharedLinkSearch, []⟩ .step).search.best? = some (n, a) ∧ n.id = 1 ∧
      ∀ i m b, (Session.after ⟨sharedLinkSearch, []⟩ .step).search.MayAnswer i m b →
        Scalar.le a.objective b.objective = true := by
  have hreach : Reachable sharedLinkSearch (Session.after ⟨sharedLinkSearch, []⟩ .step) :=
    .call (c := .step) .start trivial
  have hbest : (Session.after ⟨sharedLinkSearch, []⟩ .step).search.best?.map (fun x => x.1.id) = some 1 := by cbv
  obtain ⟨⟨n, a⟩, hbest, hid⟩ := Option.map_eq_some_iff.1 hbest
  exact ⟨start_sharedLinkSearch, hreach, n, a, hbest, hid,
    ((best?_of_reachable start_sharedLinkSearch hreach).2.2.2.2.2 n a hbest).2.1⟩

end LinkPriority

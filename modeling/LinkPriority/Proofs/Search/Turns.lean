import LinkPriority.Proofs.Scalar.Exact
import LinkPriority.Proofs.Search.History
import LinkPriority.Proofs.Search.Visits
import LinkPriority.Random.Indices

/-! Which nodes the iterations of a search return. An iteration returns the first child that it has just added, or the
leaf it came to if there is nothing to try from there. So a node with something to try is returned once if it is a
first child, and never if it is not; only a terminal node may be returned again. Every visit of a node comes from an
iteration that returned the node itself or passed through one of its children. -/

namespace LinkPriority

namespace Search

variable {α σ ω : Type} {s s' : Search α σ ω} {i id : Nat} {n : Node α} {ids : List Nat} {rewards : List (Reward α)}

/-- There is nothing to try from a node. -/
def IsTerminal (s : Search α σ ω) (id : Nat) : Prop :=
  ∃ n a, s.node? id = some n ∧ n.appraisal = some a ∧ a.actions = []

/-- A node is the oldest child of another. -/
def IsFirstChild (s : Search α σ ω) (id : Nat) : Prop := ∃ p, (s.childrenOf p).head? = some id

/-- How often a node has been visited. -/
def visitsOf (s : Search α σ ω) (id : Nat) : Nat := ((s.node? id).map Node.visits).getD 0

theorem visitsOf_eq (hn : s.node? id = some n) : s.visitsOf id = n.visits := by
  rw [visitsOf, hn, Option.map_some, Option.getD_some]

/-! ### Where visits come from -/

/-- What lies in a subtree is its root, or lies in the subtree of one child. -/
theorem IsTree.countP_subtree (h : s.IsTree) (ids : List Nat) (id : Nat) :
    ids.countP (· ∈ s.subtree id) =
      ((s.childrenOf id).map fun c => ids.countP (· ∈ s.subtree c)).sum + ids.count id := by
  induction ids with
  | nil => simp
  | cons j ids ih =>
    have hcount : ∀ k, (if j ∈ s.subtree k then 1 else 0) = (s.subtree k).count j := fun k =>
      (h.nodup_subtree k).count.symm
    have hone : (if j ∈ s.subtree id then 1 else 0) =
        ((s.childrenOf id).map fun c => if j ∈ s.subtree c then 1 else 0).sum + if j = id then 1 else 0 := by
      simp only [hcount]
      rw [h.subtree_eq, List.count_cons, List.count_flatMap]
      simp only [Function.comp_def, beq_iff_eq, eq_comm (a := id)]
    simp only [List.countP_cons, List.count_cons, decide_eq_true_eq, beq_iff_eq, List.sum_map_add]
    omega

section Visits

variable [Scalar α]

/-- A node has been visited once for each reward that started in its subtree. -/
theorem Recounted.visits_eq_countP (h : s.Recounted rewards) (htree : s.IsTree) (hn : s.node? i = some n) :
    n.visits = (rewards.map Reward.source).countP (· ∈ s.subtree i) := by
  rw [h.visits i n hn, ← htree.received_eq, received, List.length_map, List.countP_map, List.countP_eq_length_filter]
  rfl

/-- The visits of a node are those of its children and the rewards that started from itself. -/
theorem Recounted.visits_eq_sum (h : s.Recounted rewards) (htree : s.IsTree) (hn : s.node? i = some n) :
    n.visits = (n.children.map s.visitsOf).sum + (rewards.map Reward.source).count i := by
  rw [h.visits_eq_countP htree hn, htree.countP_subtree, childrenOf_eq hn]
  refine congrArg (fun below => List.sum below + _) (List.map_congr_left fun c hc => ?_)
  obtain ⟨m, hm, -⟩ := htree.exists_child hn hc
  rw [visitsOf_eq hm, h.visits_eq_countP htree hm]

/-- All rewards have passed through the root. -/
theorem Recounted.visits_root (h : s.Recounted rewards) (htree : s.IsTree) (hn : s.node? 0 = some n) :
    n.visits = rewards.length := by
  rw [h.visits_eq_countP htree hn, List.countP_eq_length.2, List.length_map]
  intro id hid
  obtain ⟨r, hr, rfl⟩ := List.mem_map.1 hid
  exact decide_eq_true (htree.mem_subtree_zero.2 (h.source r hr))

variable [IndexSource σ]

/-- An iteration passes up one reward, the objective of the node that it returns. -/
theorem Advances.exists_recounted (h : s.Advances id s') : ∃ x, s'.objectiveOf id = some x ∧
    ∀ earlier, s.Recounted earlier → s'.Recounted (earlier ++ [⟨id, x⟩]) := by
  have haccount := Account.advances h
  obtain ⟨_, x, -, hx, -⟩ := haccount.rewarded _ (List.mem_singleton_self _)
  refine ⟨x, hx, fun earlier hearlier => ?_⟩
  have hrewards : rewardsOf [(id, s')] = [⟨id, x⟩] := by
    simp only [rewardsOf, List.filterMap_cons, hx, Option.map_some, List.filterMap_nil]
  rw [← hrewards]
  exact haccount.recounted earlier hearlier

end Visits

/-! ### Whose turn it is -/

theorem IsTerminal.persists (h : s.IsTerminal id)
    (hnode : ∀ i n, s.node? i = some n → ∃ n', s'.node? i = some n' ∧ n.Persists n') : s'.IsTerminal id := by
  obtain ⟨n, a, hn, ha, hactions⟩ := h
  obtain ⟨n', hn', hpersists⟩ := hnode id n hn
  exact ⟨n', a, hn', hpersists.appraisal a ha, hactions⟩

/-- The iterations so far have returned `ids`: nodes that are appraised, all first children among them, and each that
is not terminal once and as a first child. -/
structure Returned (s : Search α σ ω) (ids : List Nat) : Prop where
  appraised : ∀ id ∈ ids, ∃ n a, s.node? id = some n ∧ n.appraisal = some a
  first : ∀ id, s.IsFirstChild id → id ∈ ids
  once : ∀ id ∈ ids, s.IsTerminal id ∨ s.IsFirstChild id ∧ ids.count id = 1

/-- Where a childless node has got children, the oldest of them is the only new first child. -/
theorem isFirstChild_iff_of_childrenOf {leaf first k : Nat} (hleaf : s.childrenOf leaf = [])
    (hchildren : ∀ p, s'.childrenOf p = if p = leaf then List.range' first (k + 1) else s.childrenOf p) :
    s'.IsFirstChild i ↔ i = first ∨ s.IsFirstChild i := by
  constructor
  · rintro ⟨p, hp⟩
    rw [hchildren] at hp
    split at hp
    · exact .inl (Option.some.inj hp).symm
    · exact .inr ⟨p, hp⟩
  · rintro (rfl | ⟨p, hp⟩)
    · exact ⟨leaf, by rw [hchildren, if_pos rfl]; rfl⟩
    · refine ⟨p, ?_⟩
      rw [hchildren, if_neg, hp]
      rintro rfl
      simp [hleaf] at hp

section Returned

variable {a : Appraisal α} (hr : s.Returned ids)
include hr

/-- A node returned before keeps its account, unless it is returned again. -/
theorem Returned.once_concat (hnode : ∀ i n, s.node? i = some n → ∃ n', s'.node? i = some n' ∧ n.Persists n')
    (hfirst : s.IsFirstChild i → s'.IsFirstChild i) (hi : i ∈ ids ++ [id]) (hne : i ≠ id) :
    s'.IsTerminal i ∨ s'.IsFirstChild i ∧ (ids ++ [id]).count i = 1 := by
  have hother : i ∉ [id] := by simpa using hne
  have hold := (List.mem_append.1 hi).resolve_right hother
  rw [List.count_append, List.count_eq_zero_of_not_mem hother, Nat.add_zero]
  rcases hr.once i hold with hterminal | ⟨hchild, hone⟩
  · exact .inl (hterminal.persists hnode)
  · exact .inr ⟨hfirst hchild, hone⟩

/-- Of the appraised nodes with something to try, the first children have been returned once and no others. -/
theorem Returned.count_eq (hn : s.node? i = some n) (ha : n.appraisal = some a) (hactions : a.actions ≠ []) :
    (s.IsFirstChild i → ids.count i = 1) ∧ (¬s.IsFirstChild i → ids.count i = 0) := by
  have hnot : ¬s.IsTerminal i := by
    rintro ⟨m, b, hm, hb, hnone⟩
    obtain rfl : n = m := Option.some.inj (hn.symm.trans hm)
    obtain rfl : a = b := Option.some.inj (ha.symm.trans hb)
    exact hactions hnone
  constructor
  · intro hfirst
    exact ((hr.once i (hr.first i hfirst)).resolve_left hnot).2
  · intro hlater
    refine List.count_eq_zero_of_not_mem fun hmem => hlater ?_
    exact ((hr.once i hmem).resolve_left hnot).1

theorem Returned.isTerminal_of_one_lt_count (htwice : 1 < ids.count i) : s.IsTerminal i := by
  have hmem : i ∈ ids := List.count_pos_iff.1 (by omega)
  refine (hr.once i hmem).resolve_right fun ⟨_, hone⟩ => ?_
  omega

end Returned

variable [Scalar α] [IndexSource σ]

/-- What an iteration returns: a terminal leaf, and then the tree is as it was, or the first of the children that it
has added below a childless node. -/
theorem Advances.returned_cases (h : s.Advances id s') :
    s'.IsTerminal id ∧ (∀ p, s'.childrenOf p = s.childrenOf p) ∨
      id = s.nodes.size ∧ ∃ leaf k, s.childrenOf leaf = [] ∧
        ∀ p, s'.childrenOf p = if p = leaf then List.range' id (k + 1) else s.childrenOf p := by
  cases h with
  | @terminal _ s₁ a _ ha hactions =>
    obtain ⟨n, hn, hknown⟩ := ha.exists_rewarded a.objective
    refine .inl ⟨⟨n, a, hn, hknown, hactions⟩, fun p => ?_⟩
    exact ((sameTree_backpropagate s₁ id a.objective).childrenOf_eq p).trans (ha.sameTree.childrenOf_eq p)
  | @child leaf s₁ s₂ s₃ a b n _ ha hactions hn hchildless _ hb hchild =>
    obtain ⟨k, hk⟩ : ∃ k, a.actions.length = k + 1 :=
      Nat.exists_eq_succ_of_ne_zero (mt List.length_eq_zero_iff.1 hactions)
    refine .inr ⟨ha.sameTree.size, leaf, k, ?_, fun p => ?_⟩
    · rw [← ha.sameTree.childrenOf_eq, Search.childrenOf_eq hn, hchildless]
    · have hlast := (sameTree_backpropagate s₃ s₁.nodes.size b.objective).childrenOf_eq p
      rw [← hk, ← ha.sameTree.childrenOf_eq p, ← hb.childrenOf_eq hchildless p, ← hchild.sameTree.childrenOf_eq p]
      exact hlast

/-- What an iteration returns is terminal, or a first child that was not there before. -/
theorem Advances.terminal_or_first (h : s.Advances id s') :
    s'.IsTerminal id ∨ s.node? id = none ∧ s'.IsFirstChild id := by
  rcases h.returned_cases with ⟨hterminal, -⟩ | ⟨rfl, leaf, k, -, hchildren⟩
  · exact .inl hterminal
  · refine .inr ⟨Array.getElem?_eq_none le_rfl, leaf, ?_⟩
    rw [hchildren, if_pos rfl]
    rfl

section Start

variable {d : Demand α} {root : Priority} {settings : Settings} {choices : σ} {observer : Observer α ω}
  (hstart : Search.start d root settings choices observer = .ok s)
include hstart

omit [IndexSource σ] in
theorem childrenOf_start (p : Nat) : s.childrenOf p = [] := by
  by_cases hlt : p < s.nodes.size
  · obtain ⟨n, hn⟩ := exists_node?_eq hlt
    rw [childrenOf_eq hn, (eq_root_of_start hstart hn).2]
    rfl
  · exact childrenOf_of_size_le (not_lt.1 hlt)

omit [IndexSource σ] in
theorem returned_start : s.Returned [] := by
  refine ⟨by simp, ?_, by simp⟩
  rintro id ⟨p, hp⟩
  simp [childrenOf_start hstart] at hp

end Start

/-- One more iteration, one more node returned. -/
theorem Advances.returned (h : s.Advances id s') (hr : s.Returned ids) : s'.Returned (ids ++ [id]) := by
  have hpersists : ∀ i n, s.node? i = some n → ∃ n', s'.node? i = some n' ∧ n.Persists n' := fun i n hn =>
    h.changes.exists_persists hn
  have happraised : ∀ j ∈ ids ++ [id], ∃ n a, s'.node? j = some n ∧ n.appraisal = some a := by
    intro j hj
    rcases List.mem_append.1 hj with hold | hnew
    · obtain ⟨n, a, hn, ha⟩ := hr.appraised j hold
      obtain ⟨n', hn', hsame⟩ := hpersists j n hn
      exact ⟨n', a, hn', hsame.appraisal a ha⟩
    · rw [List.mem_singleton.1 hnew]
      exact h.exists_appraisal
  rcases h.returned_cases with ⟨hterminal, hsame⟩ | ⟨rfl, leaf, k, hleaf, hchildren⟩
  · have hfirst : ∀ j, s'.IsFirstChild j ↔ s.IsFirstChild j := fun j => by simp only [IsFirstChild, hsame]
    refine ⟨happraised, fun j hj => List.mem_append_left _ (hr.first j ((hfirst j).1 hj)), fun j hj => ?_⟩
    by_cases hne : j = id
    · exact .inl (hne ▸ hterminal)
    · exact hr.once_concat hpersists (hfirst j).2 hj hne
  · have hfirst := fun {j} => isFirstChild_iff_of_childrenOf (i := j) hleaf hchildren
    have hnew : s.nodes.size ∉ ids := fun hmem => by
      obtain ⟨n, _, hn, -⟩ := hr.appraised _ hmem
      exact lt_irrefl _ (node?_lt hn)
    refine ⟨happraised, fun j hj => ?_, fun j hj => ?_⟩
    · rcases hfirst.1 hj with rfl | hold
      · exact List.mem_append_right _ (List.mem_singleton_self _)
      · exact List.mem_append_left _ (hr.first j hold)
    · by_cases hne : j = s.nodes.size
      · refine .inr ⟨hfirst.2 (.inl hne), ?_⟩
        rw [hne, List.count_append, List.count_eq_zero_of_not_mem hnew, List.count_singleton_self]
      · exact hr.once_concat hpersists (fun hold => hfirst.2 (.inr hold)) hj hne

end Search

/-! ### Iterations asked for one after the other -/

variable {α σ ω : Type} [Scalar α] [IndexSource σ]

/-- Iterates so often, and lists the nodes returned. -/
def Move.steps : (count : Nat) → Move α σ ω (List Nat)
  | 0 => return []
  | count + 1 => do
    let id ← step
    let ids ← steps count
    return id :: ids

/-- The nodes that so many iterations return, and the session they leave, if all succeed. -/
def Session.stepped (count : Nat) (t : Session α σ ω) : Option (List Nat × Session α σ ω) :=
  match Move.steps count t with
  | .ok ids t' => some (ids, t')
  | .error _ _ => none

/-- Iterations that succeed one after the other, and the nodes they return in turn. -/
inductive Returns : (ids : List Nat) → (t t' : Session α σ ω) → Prop where
  | nil (t : Session α σ ω) : Returns [] t t
  | cons {id : Nat} {ids : List Nat} {t t₁ t' : Session α σ ω} (h : Move.step t = .ok id t₁)
    (hrest : Returns ids t₁ t') : Returns (id :: ids) t t'

namespace Returns

variable {t t' : Session α σ ω} {ids before after : List Nat} {id : Nat}

theorem of_steps {count : Nat} (h : Move.steps count t = .ok ids t') : Returns ids t t' := by
  induction count generalizing t ids with
  | zero =>
    obtain ⟨rfl, rfl⟩ := EStateM.Result.ok.inj h
    exact .nil t
  | succ count ih =>
    obtain ⟨id, t₁, hstep, hrest⟩ := Move.exists_of_bind_eq_ok h
    obtain ⟨ids', t₂, hsteps, hlast⟩ := Move.exists_of_bind_eq_ok hrest
    obtain ⟨rfl, rfl⟩ := EStateM.Result.ok.inj hlast
    exact .cons hstep (ih hsteps)

theorem of_stepped {count : Nat} (h : t.stepped count = some (ids, t')) : Returns ids t t' := by
  rw [Session.stepped] at h
  split at h
  · next hsteps =>
    obtain ⟨rfl, rfl⟩ := Prod.mk.inj (Option.some.inj h)
    exact of_steps hsteps
  · simp at h

/-- Each node that is returned is returned by an iteration, with others before and after. -/
theorem exists_step (h : Returns ids t t') (hids : ids = before ++ id :: after) :
    ∃ t₁ t₂, Returns before t t₁ ∧ Move.step t₁ = .ok id t₂ ∧ Returns after t₂ t' := by
  induction h generalizing before with
  | nil => simp at hids
  | @cons first rest t t₁ t' h hrest ih =>
    cases before with
    | nil =>
      obtain ⟨rfl, rfl⟩ := List.cons.inj hids
      exact ⟨t, t₁, .nil t, h, hrest⟩
    | cons first' before =>
      obtain ⟨rfl, hrest'⟩ := List.cons.inj hids
      obtain ⟨t₂, t₃, hbefore, hstep, hafter⟩ := ih hrest'
      exact ⟨t₂, t₃, .cons h hbefore, hstep, hafter⟩

variable [OrderedScalar α]

theorem changes (h : Returns ids t t') (hs : t.search.Sound) : Search.Changes t.search t'.search := by
  induction h with
  | nil => exact .refl
  | cons h _ ih =>
    have hadvances := Move.advances_of_step hs h
    exact hadvances.changes.trans (ih (hadvances.changes.sound hs))

theorem returned {earlier : List Nat} (h : Returns ids t t') (hs : t.search.Sound)
    (hr : t.search.Returned earlier) : t'.search.Returned (earlier ++ ids) := by
  induction h generalizing earlier with
  | nil => rwa [List.append_nil]
  | cons h _ ih =>
    have hadvances := Move.advances_of_step hs h
    have hrest := ih (hadvances.changes.sound hs) (hadvances.returned hr)
    rwa [List.append_assoc] at hrest

/-- The rewards passed up started from the nodes returned. -/
theorem exists_recounted {earlier : List (Reward α)} (h : Returns ids t t') (hs : t.search.Sound)
    (hr : t.search.Recounted earlier) : ∃ rewards : List (Reward α), rewards.map Reward.source = ids ∧
      t'.search.Recounted (earlier ++ rewards) := by
  induction h generalizing earlier with
  | nil => exact ⟨[], rfl, by rwa [List.append_nil]⟩
  | @cons id _ _ _ _ h _ ih =>
    have hadvances := Move.advances_of_step hs h
    obtain ⟨x, -, hrecounted⟩ := hadvances.exists_recounted
    obtain ⟨rewards, hsources, hrest⟩ := ih (hadvances.changes.sound hs) (hrecounted earlier hr)
    refine ⟨⟨id, x⟩ :: rewards, congrArg (id :: ·) hsources, ?_⟩
    rwa [List.append_assoc] at hrest

end Returns

variable [OrderedScalar α]

/-- After iterations of a new search that returned `ids`, a node has been visited as often as its children together,
and once more each time it was returned. Each node returned was terminal, with nothing to expand, or had just been
created as a first child; so of the appraised nodes with something to try the first children were returned once and
the others never, only a terminal node was returned twice, and the root was visited in every iteration. -/
theorem visits_eq_sum_children_add_returned {d : Demand α} {root : Priority} {settings : Settings} {choices : σ}
    {observer : Observer α ω} {s₀ : Search α σ ω} {t : Session α σ ω} {ids : List Nat}
    (hstart : Search.start d root settings choices observer = .ok s₀) (hreturns : Returns ids ⟨s₀, []⟩ t) :
    (∀ i n, t.search.node? i = some n → n.visits = (n.children.map t.search.visitsOf).sum + ids.count i) ∧
    (∀ before id after, ids = before ++ id :: after → ∃ t₁ t₂, Returns before ⟨s₀, []⟩ t₁ ∧
      Move.step t₁ = .ok id t₂ ∧ Returns after t₂ t ∧
      (t₂.search.IsTerminal id ∧ Move.expand id t₂ = .ok id t₂ ∨
        t₁.search.node? id = none ∧ t₂.search.IsFirstChild id)) ∧
    (∀ i n a, t.search.node? i = some n → n.appraisal = some a → a.actions ≠ [] →
      (t.search.IsFirstChild i → ids.count i = 1) ∧ (¬t.search.IsFirstChild i → ids.count i = 0)) ∧
    (∀ i, 1 < ids.count i → t.search.IsTerminal i) ∧
    ∃ root, t.search.node? 0 = some root ∧ root.visits = ids.length := by
  have hs₀ := Search.sound_start hstart
  have htree := ((hreturns.changes hs₀).sound hs₀).tree
  have hreturned := hreturns.returned hs₀ (Search.returned_start hstart)
  obtain ⟨rewards, hsources, hrecounted⟩ := hreturns.exists_recounted hs₀ (Search.recounted_start hstart)
  rw [List.nil_append] at hreturned hrecounted
  refine ⟨fun i n hn => ?_, fun before id after hids => ?_,
    fun i n a hn ha hactions => hreturned.count_eq hn ha hactions,
    fun i htwice => hreturned.isTerminal_of_one_lt_count htwice, ?_⟩
  · rw [hrecounted.visits_eq_sum htree hn, hsources]
  · obtain ⟨t₁, t₂, hbefore, hstep, hafter⟩ := hreturns.exists_step hids
    have hadvances := Move.advances_of_step ((hbefore.changes hs₀).sound hs₀) hstep
    refine ⟨t₁, t₂, hbefore, hstep, hafter, hadvances.terminal_or_first.imp_left fun hterminal => ⟨hterminal, ?_⟩⟩
    obtain ⟨n, a, hn, ha, hactions⟩ := hterminal
    exact Move.expand_of_terminal hn ha hactions
  · obtain ⟨root, hroot, -⟩ := htree.root
    exact ⟨root, hroot, by rw [hrecounted.visits_root htree hroot, ← hsources, List.length_map]⟩

/-- One link, shared by jobs that compute for 1 and send for the given times. -/
def senders {ln sqrt : ℚ → ℚ} (times : List ℚ) : Demand (Exact ln sqrt) :=
  ⟨⟨times.length, 1, (times.map fun time => ⟨⟨1⟩, ⟨time⟩⟩).toArray⟩⟩

/-- The search for the best order of senders from that of their numbers, with one epoch for the model. -/
def sendersSearch {ln sqrt : ℚ → ℚ} (times : List ℚ) : Search (Exact ln sqrt) WordStream Unit where
  demand := senders times
  settings := { epochBudget := 1, warmStart := .identity }
  nodes := #[.root (WarmStart.identity.priority (senders times : Demand (Exact ln sqrt))) 2]
  choices := .ofSeed 0
  observer := .silent

/-- Starting that search. -/
def startSenders {ln sqrt : ℚ → ℚ} (times : List ℚ) :
    Except (SearchError (Exact ln sqrt)) (Search (Exact ln sqrt) WordStream Unit) :=
  Search.start (senders times) (WarmStart.identity.priority (senders times : Demand (Exact ln sqrt)))
    { epochBudget := 1, warmStart := .identity } (.ofSeed 0) Observer.silent

theorem returned_of_sendersSearch :
    ∃ (t : Session Tangent WordStream Unit) (n root : Node Tangent), Returns [1, 3] ⟨sendersSearch [8, 3, 1], []⟩ t ∧
      t.search.node? 2 = some n ∧ n.visits = 1 ∧
      n.visits = (n.children.map t.search.visitsOf).sum + [1, 3].count 2 ∧ ¬t.search.IsFirstChild 2 ∧
      t.search.node? 0 = some root ∧ root.visits = 2 := by
  have hstart : startSenders [8, 3, 1] = .ok (sendersSearch [8, 3, 1] : Search Tangent WordStream Unit) := by cbv
  have hstepped : ((⟨sendersSearch [8, 3, 1], []⟩ : Session Tangent WordStream Unit).stepped 2).map
      (fun r => (r.1, (r.2.search.node? 2).map fun n => (n.visits, n.appraisal.map fun a => a.actions.isEmpty))) =
        some ([1, 3], some (1, some false)) := by cbv
  obtain ⟨⟨ids, t⟩, hsteps, hresult⟩ := Option.map_eq_some_iff.1 hstepped
  obtain ⟨rfl, hknown⟩ := Prod.mk.inj hresult
  have hreturns := Returns.of_stepped hsteps
  obtain ⟨n, hn, hpair⟩ := Option.map_eq_some_iff.1 hknown
  obtain ⟨hvisits, hactions⟩ := Prod.mk.inj hpair
  obtain ⟨a, ha, hsome⟩ := Option.map_eq_some_iff.1 hactions
  obtain ⟨hsum, -, honce, -, root, hroot, hall⟩ := visits_eq_sum_children_add_returned hstart hreturns
  refine ⟨t, n, root, hreturns, hn, hvisits, hsum 2 n hn, fun hfirst => ?_, hroot, hall⟩
  have hone := (honce 2 n a hn ha (by simpa using hsome)).1 hfirst
  simp at hone

end LinkPriority

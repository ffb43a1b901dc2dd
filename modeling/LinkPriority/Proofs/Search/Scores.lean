import Mathlib.Data.Rat.Cast.Order
import Mathlib.Tactic.Positivity
import LinkPriority.Proofs.FirstBest
import LinkPriority.Proofs.Search.Turns

/-! Which child a search goes on with: the first of those with the highest score. A score is the mean of the rewards
that passed through the child, and a bonus that only depends on how often it and its parent were visited. So, in exact
arithmetic, of children that were visited equally often the one with the largest mean is preferred. The rewards are mean
slowdowns, of which the answer has the smallest; the search turns to where they are largest. -/

namespace LinkPriority

namespace Search

variable {α σ ω : Type} [Scalar α] {s : Search α σ ω} {id : Nat} {n : Node α}

/-- The score of a node among the children of a node with so many visits. -/
def scoreOf (s : Search α σ ω) (parentVisits id : Nat) : α :=
  ((s.node? id).map fun n => n.score parentVisits).getD Scalar.zero

theorem scoreOf_eq (hn : s.node? id = some n) (parentVisits : Nat) :
    s.scoreOf parentVisits id = n.score parentVisits := by
  rw [scoreOf, hn, Option.map_some, Option.getD_some]

theorem IsTree.scores_eq (h : s.IsTree) (hn : s.node? id = some n) :
    s.scores n = n.children.map fun c => (c, s.scoreOf n.visits c) := by
  rw [scores, ← List.filterMap_eq_map]
  refine List.filterMap_congr fun c hc => ?_
  obtain ⟨m, hm, -⟩ := h.exists_child hn hc
  simp only [hm, Option.map_some, Function.comp_apply, scoreOf_eq hm]

theorem mem_childrenOf_of_select {child : Nat} (h : s.select id = .ok child) : child ∈ s.childrenOf id := by
  cases hn : s.node? id with
  | none => simp [select, hn] at h
  | some n =>
    cases hfavourite : favourite (s.scores n) with
    | none => simp [select, hn, hfavourite] at h
    | some best =>
      obtain rfl : best.1 = child := by simpa [select, hn, hfavourite] using h
      obtain ⟨c, hc, hscore⟩ := List.mem_filterMap.1 (firstBest_mem hfavourite)
      obtain ⟨m, -, rfl⟩ := Option.map_eq_some_iff.1 hscore
      rwa [childrenOf_eq hn]

/-- A node with children is left for the first of those with the highest score. -/
theorem IsTree.exists_select_isFirstBest [OrderedScalar α] (h : s.IsTree) (hn : s.node? id = some n)
    (hne : n.children ≠ []) (hfinite : ∀ c ∈ n.children, Scalar.isFinite (s.scoreOf n.visits c) = true) :
    ∃ child, s.select id = .ok child ∧
      IsFirstBest (fun c c' => Scalar.lt (s.scoreOf n.visits c') (s.scoreOf n.visits c)) n.children child := by
  generalize hbetter : (fun c c' => Scalar.lt (s.scoreOf n.visits c') (s.scoreOf n.visits c)) = better
  have hsome : firstBest better n.children ≠ none := mt firstBest_eq_none.1 hne
  obtain ⟨child, hfirst⟩ := Option.ne_none_iff_exists'.1 hsome
  have hfavourite : favourite (s.scores n) = some (child, s.scoreOf n.visits child) := by
    rw [h.scores_eq hn, favourite, firstBest_map, hbetter, hfirst, Option.map_some]
  refine ⟨child, by simp only [select, hn, hfavourite], ?_⟩
  rw [← hbetter] at hfirst ⊢
  exact (ranks_lt (s.scoreOf n.visits)).flip.isFirstBest_of_firstBest hfinite hfirst

end Search

/-! ### Exact scores -/

section Exact

variable {ln sqrt : ℚ → ℚ} {σ ω : Type}

theorem Exact.value_mean (xs : List (Exact ln sqrt)) :
    (Scalar.mean xs).value = (xs.map Exact.value).sum / xs.length := by
  cases xs with
  | nil => simp [Scalar.mean]
  | cons x xs =>
    rw [Scalar.mean, List.isEmpty_cons, if_neg Bool.false_ne_true, Exact.value_div, Exact.value_sum,
      Exact.value_ofNat]

/-- What is added to the mean of a node with `visits` below one with `parentVisits`. -/
def bonus (ln sqrt : ℚ → ℚ) (parentVisits visits : Nat) : ℚ :=
  sqrt (2 * ln (parentVisits + 1) / (visits + 1 / 1000000))

theorem Node.value_score (n : Node (Exact ln sqrt)) (parentVisits : Nat) : (n.score parentVisits).value =
    n.value.value / (n.visits + 1 / 1000000) + bonus ln sqrt parentVisits n.visits := by
  have hoffset : (Node.visitOffset : Exact ln sqrt).value = 1 / 1000000 := by simp [Node.visitOffset]
  have hln : ∀ x : Exact ln sqrt, (Scalar.ln x).value = ln x.value := fun _ => rfl
  have hsqrt : ∀ x : Exact ln sqrt, (Scalar.sqrt x).value = sqrt x.value := fun _ => rfl
  simp only [Node.score, Node.meanValue, Exact.value_add, Exact.value_div, Exact.value_mul, Exact.value_ofNat,
    Exact.value_one, hoffset, hln, hsqrt, bonus, Nat.cast_ofNat]

/-- Between nodes that were visited equally often, the score compares the means. -/
theorem Node.score_lt_iff {n m : Node (Exact ln sqrt)} (h : n.visits = m.visits) (hpos : 1 ≤ m.visits)
    (parentVisits : Nat) : (n.score parentVisits).value < (m.score parentVisits).value ↔
      n.value.value / n.visits < m.value.value / m.visits := by
  have hvisits : (0 : ℚ) < m.visits := Nat.cast_pos.2 hpos
  rw [Node.value_score, Node.value_score, h, add_lt_add_iff_right, div_lt_div_iff_of_pos_right (by positivity),
    div_lt_div_iff_of_pos_right hvisits]

/-- The mean of the rewards received is what a node is worth, shared among its visits. -/
theorem Search.Recounted.value_mean {s : Search (Exact ln sqrt) σ ω} {rewards : List (Reward (Exact ln sqrt))}
    {i : Nat} {n : Node (Exact ln sqrt)} (h : s.Recounted rewards) (htree : s.IsTree) (hn : s.node? i = some n) :
    (Scalar.mean (s.received rewards i)).value = n.value.value / n.visits := by
  have hsum : (Scalar.sum (s.received rewards i)).value = n.value.value := by
    rw [htree.received_eq, h.value i n hn]
    rfl
  rw [Exact.value_mean, ← Exact.value_sum, hsum, htree.received_eq, ← h.visits i n hn]

/-- Where visits are the same, comparing the scores is comparing the means. -/
theorem Search.Recounted.lt_mean_eq {s : Search (Exact ln sqrt) σ ω} {rewards : List (Reward (Exact ln sqrt))}
    {i j : Nat} {n m : Node (Exact ln sqrt)} (h : s.Recounted rewards) (htree : s.IsTree) (hn : s.node? i = some n)
    (hm : s.node? j = some m) (hvisits : n.visits = m.visits) (hpos : 1 ≤ m.visits) (parentVisits : Nat) :
    Scalar.lt (Scalar.mean (s.received rewards i)) (Scalar.mean (s.received rewards j)) =
      Scalar.lt (s.scoreOf parentVisits i) (s.scoreOf parentVisits j) := by
  rw [Bool.eq_iff_iff, Exact.lt_eq_true, Exact.lt_eq_true, h.value_mean htree hn, h.value_mean htree hm,
    Search.scoreOf_eq hn, Search.scoreOf_eq hm, Node.score_lt_iff hvisits hpos]

/-- In exact arithmetic, in whatever state a caller has brought a search, where the children of a node have been visited
equally often and at least once, the child selected is the one with the largest mean of the objectives passed up through
it, and of several the oldest. So a sibling with a smaller mean slowdown is never preferred, and the mean of the child
selected is not larger than any sibling's only where all are the same. Adding the bonus and rounding may tie scores of
different means. -/
theorem select_isFirstBest_mean [IndexSource σ] {d : Demand (Exact ln sqrt)} {root : Priority} {settings : Settings}
    {choices : σ} {observer : Observer (Exact ln sqrt) ω} {s₀ : Search (Exact ln sqrt) σ ω}
    {calls : List (Call (Exact ln sqrt))} (hstart : Search.start d root settings choices observer = .ok s₀)
    (hcalls : Session.Allows ⟨s₀, []⟩ calls) :
    let t := Session.afterAll ⟨s₀, []⟩ calls
    let mean := fun i => Scalar.mean (t.search.received (Session.collect Call.rewards ⟨s₀, []⟩ calls) i)
    ∀ id n visits, t.search.node? id = some n → n.children ≠ [] → 1 ≤ visits →
      (∀ c ∈ n.children, t.search.visitsOf c = visits) →
      ∃ child, t.search.select id = .ok child ∧ (∀ c ∈ n.children, Scalar.le (mean c) (mean child) = true) ∧
        IsFirstBest (fun c c' => Scalar.lt (mean c') (mean c)) n.children child ∧
        ((∀ c ∈ n.children, Scalar.le (mean child) (mean c) = true) ↔ ∀ c ∈ n.children, mean c = mean child) := by
  intro t mean id n visits hn hne hpos hvisits
  have hs := Search.sound_start hstart
  have htree := ((Reachable.start.afterAll hcalls).sound hs).tree
  have hrecounted := (Search.account_calls (t := ⟨s₀, []⟩) hs hcalls).recounted [] (Search.recounted_start hstart)
  rw [List.nil_append] at hrecounted
  obtain ⟨child, hselect, hfirst⟩ := htree.exists_select_isFirstBest hn hne fun _ _ => rfl
  have hcompare : ∀ c ∈ n.children, ∀ c' ∈ n.children,
      Scalar.lt (mean c') (mean c) =
        Scalar.lt (t.search.scoreOf n.visits c') (t.search.scoreOf n.visits c) := by
    intro c hc c' hc'
    obtain ⟨m, hm, -⟩ := htree.exists_child hn hc
    obtain ⟨m', hm', -⟩ := htree.exists_child hn hc'
    have hv : m.visits = visits := (Search.visitsOf_eq hm).symm.trans (hvisits c hc)
    have hv' : m'.visits = visits := (Search.visitsOf_eq hm').symm.trans (hvisits c' hc')
    exact hrecounted.lt_mean_eq htree hm' hm (hv'.trans hv.symm) (hv ▸ hpos) n.visits
  have hfirst' := hfirst.congr hcompare
  have hlargest : ∀ c ∈ n.children, Scalar.le (mean c) (mean child) = true := by
    intro c hc
    have hnot := (ranks_lt mean).flip.not_better_of_isFirstBest (fun _ _ => rfl) hfirst' hc
    rw [Exact.le_eq_true, ← not_lt, ← Exact.lt_eq_true, hnot]
    exact Bool.false_ne_true
  refine ⟨child, hselect, hlargest, hfirst', fun hsmallest c hc => ?_, fun hequal c hc => ?_⟩
  · exact Exact.eq_of_value_eq
      (le_antisymm (Exact.le_eq_true.1 (hlargest c hc)) (Exact.le_eq_true.1 (hsmallest c hc)))
  · rw [hequal c hc, Exact.le_eq_true]

end Exact

/-- Two iterations for three senders. -/
def sendersTwice : Session Tangent WordStream Unit := Session.afterAll ⟨sendersSearch [8, 3, 1], []⟩ [.step, .step]

/-- The mean objective passed up through a node by then. -/
def sendersMean (id : Nat) : Tangent :=
  Scalar.mean (sendersTwice.search.received
    (Session.collect Call.rewards ⟨sendersSearch [8, 3, 1], []⟩ [.step, .step]) id)

theorem select_isFirstBest_of_sendersTwice :
    sendersTwice.search.childrenOf 0 = [1, 2] ∧ [1, 2].map sendersTwice.search.visitsOf = [1, 1] ∧
    ∃ child, sendersTwice.search.select 0 = .ok child ∧
      IsFirstBest (fun c c' => Scalar.lt (sendersMean c') (sendersMean c)) [1, 2] child := by
  have hstart : startSenders [8, 3, 1] = .ok (sendersSearch [8, 3, 1] : Search Tangent WordStream Unit) := by cbv
  have hchildren : sendersTwice.search.childrenOf 0 = [1, 2] := by cbv
  have hvisits : [1, 2].map sendersTwice.search.visitsOf = [1, 1] := by cbv
  have hne : sendersTwice.search.childrenOf 0 ≠ [] := by simp [hchildren]
  obtain ⟨n, hn, hn'⟩ := Search.exists_node?_of_childrenOf hne
  rw [hchildren] at hn'
  have hone : ∀ c ∈ n.children, sendersTwice.search.visitsOf c = 1 := by simpa [hn'] using hvisits
  have hcalls : Session.Allows (⟨sendersSearch [8, 3, 1], []⟩ : Session Tangent WordStream Unit) [.step, .step] :=
    ⟨trivial, trivial, trivial⟩
  obtain ⟨child, hselect, -, hfirst, -⟩ := select_isFirstBest_mean hstart hcalls 0 n 1 hn (by simp [hn']) le_rfl hone
  exact ⟨hchildren, hvisits, child, hselect, hn' ▸ hfirst⟩

/-- Both children of the root have been visited once, by positive rewards, and it is not the one with the smaller mean
that is selected. -/
theorem sendersTwice_selects_larger_mean :
    startSenders [8, 3, 1] = .ok (sendersSearch [8, 3, 1] : Search Tangent WordStream Unit) ∧
    (Session.collect Call.rewards (⟨sendersSearch [8, 3, 1], []⟩ : Session Tangent WordStream Unit)
      [.step, .step]).all (fun r => Scalar.lt Scalar.zero r.amount) = true ∧
    sendersTwice.search.childrenOf 0 = [1, 2] ∧ [1, 2].map sendersTwice.search.visitsOf = [1, 1] ∧
    sendersTwice.search.select 0 = .ok 1 ∧ Scalar.lt (sendersMean 2) (sendersMean 1) = true := by
  refine ⟨?_, ?_, ?_, ?_, ?_, ?_⟩ <;> cbv

end LinkPriority

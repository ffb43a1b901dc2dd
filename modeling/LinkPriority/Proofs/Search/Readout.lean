import LinkPriority.Proofs.FirstBest
import LinkPriority.Proofs.Search.Invariant
import LinkPriority.Proofs.Search.Subtree

/-! What a search answers. The root and the rewarded nodes are eligible as far as they are appraised, and the answer
is the first of them, from the root down, with the smallest objective. -/

namespace LinkPriority.Search

variable {α σ ω : Type} {s : Search α σ ω} {n : Node α} {a : Appraisal α}

theorem mem_eligible (h : s.IsTree) : (n, a) ∈ s.eligible ↔
    ∃ id, s.node? id = some n ∧ (id = 0 ∨ 0 < n.visits) ∧ n.appraisal = some a := by
  rw [eligible, h.preorder_eq, List.mem_filterMap]
  constructor
  · rintro ⟨id, -, hid⟩
    obtain ⟨m, hm, hpair⟩ := Option.bind_eq_some_iff.1 hid
    split at hpair
    · next hor =>
      obtain ⟨b, hb, heq⟩ := Option.map_eq_some_iff.1 hpair
      obtain ⟨rfl, rfl⟩ := Prod.mk.inj heq
      exact ⟨id, hm, hor, hb⟩
    · simp at hpair
  · rintro ⟨id, hn, hor, ha⟩
    refine ⟨id, h.mem_subtree_zero.2 (node?_lt hn), ?_⟩
    rw [hn, Option.bind_some, if_pos hor, ha, Option.map_some]

variable [Scalar α]

/-- Which node is best depends on the objectives only, whatever else is changed of the nodes. -/
theorem best?_map (s : Search α σ ω) (f : Node α → Node α) : s.best?.map (Prod.map f id) =
    firstBest (fun next best => Scalar.lt next.2.objective best.2.objective) (s.eligible.map (Prod.map f id)) := by
  rw [firstBest_map]
  rfl

/-- An appraised root is eligible, so there is an answer. -/
theorem IsTree.exists_best?_eq (h : s.IsTree) (hn : s.node? 0 = some n) (ha : n.appraisal = some a) :
    ∃ best, s.best? = some best := by
  refine Option.ne_none_iff_exists'.1 fun hnone => ?_
  have hmem : (n, a) ∈ s.eligible := (mem_eligible h).2 ⟨0, hn, .inl rfl, ha⟩
  rw [firstBest_eq_none.1 hnone] at hmem
  exact List.not_mem_nil hmem

theorem mem_eligible_of_best? {best : Node α × Appraisal α} (h : s.best? = some best) : best ∈ s.eligible :=
  firstBest_mem h

theorem Sound.isFinite_of_mem_eligible (hs : s.Sound) {x : Node α × Appraisal α} (hx : x ∈ s.eligible) :
    Scalar.isFinite x.2.objective = true := by
  obtain ⟨n, a⟩ := x
  obtain ⟨id, hn, -, ha⟩ := (mem_eligible hs.tree).1 hx
  exact ((hs.node id n hn).isOf a ha).isFinite_objective

/-- The solution is made of the best node and its appraisal. -/
theorem finalize_eq_ok {solution : Solution α} : s.finalize = .ok solution ↔
    ∃ n a, s.best? = some (n, a) ∧ solution = {
      priority := n.priority.clearInactive s.demand
      objective := a.objective
      slowdown := a.slowdown
      warmStartObjective := s.rootObjective?.getD a.objective
      bestNode := n.id
      bestDepth := n.depth
      bestVisits := n.visits
      iterations := s.iterations
      nodes := s.nodes.size
      evaluations := s.evaluations } := by
  rw [finalize]
  cases s.best? with
  | none => simp
  | some best =>
    constructor
    · exact fun h => ⟨best.1, best.2, rfl, (Except.ok.inj h).symm⟩
    · rintro ⟨n, a, hbest, rfl⟩
      rw [Option.some.inj hbest]

/-- The table of the solution fits the demand and has rank 0 in every inactive cell. -/
theorem Sound.priority_of_finalize (hs : s.Sound) {solution : Solution α} (h : s.finalize = .ok solution) :
    solution.priority.Fits s.demand ∧ ∀ job < s.demand.jobs, ∀ link < s.demand.links,
      s.demand.isActive job link = false → solution.priority.rank job link = 0 := by
  obtain ⟨n, a, hbest, rfl⟩ := finalize_eq_ok.1 h
  obtain ⟨id, hn, -, -⟩ := (mem_eligible hs.tree).1 (mem_eligible_of_best? hbest)
  have hfits := (hs.node id n hn).fits
  refine ⟨hfits.clearInactive, fun job hjob link hlink hinactive => ?_⟩
  rw [Priority.rank_clearInactive (hfits.jobs ▸ hjob) (hfits.links ▸ hlink), hinactive, if_neg Bool.false_ne_true]

variable [OrderedScalar α]

/-- The answer is the first eligible node with the smallest objective. -/
theorem Sound.isFirstBest_of_best? (hs : s.Sound) {best : Node α × Appraisal α} (h : s.best? = some best) :
    IsFirstBest (fun x y => Scalar.lt x.2.objective y.2.objective) s.eligible best :=
  (ranks_lt fun x : Node α × Appraisal α => x.2.objective).isFirstBest_of_firstBest
    (fun _ hx => hs.isFinite_of_mem_eligible hx) h

theorem Sound.le_of_best? (hs : s.Sound) {best x : Node α × Appraisal α} (h : s.best? = some best)
    (hx : x ∈ s.eligible) : Scalar.le best.2.objective x.2.objective = true := by
  have hnot := (ranks_lt fun x : Node α × Appraisal α => x.2.objective).not_better
    (fun _ hx => hs.isFinite_of_mem_eligible hx) h hx
  exact Scalar.le_of_not_lt (hs.isFinite_of_mem_eligible hx)
    (hs.isFinite_of_mem_eligible (mem_eligible_of_best? h)) (Bool.eq_false_iff.1 hnot)

end LinkPriority.Search

import LinkPriority.Proofs.Demand
import LinkPriority.Proofs.Scalar.Signs
import LinkPriority.Proofs.Selection
import LinkPriority.Proofs.WarmStart

/-! How a warm start ranks the jobs of a link. An accepted demand gives every active job a positive whole demand, so
its key is its share of communication, be that undefined or infinite; the larger share in the order of sorting goes
first, and of jobs with the same share the smaller number. A share that does not depend on the link puts two jobs in
the same order on all links that they share. -/

namespace LinkPriority

namespace WarmStart

variable {α : Type} [Scalar α] {d : Demand α} {job link a b : Nat}

/-- The part of a job's whole demand that is communication, on the link or on all links. -/
def share (strategy : WarmStart) (d : Demand α) (job link : Nat) : α :=
  match strategy with
  | linkShare => (d.load job link).comm / d.jobTotal job
  | jobShare => d.jobComm job / d.jobTotal job
  | identity => Scalar.zero

/-- One job goes ahead of another on a link: its share is larger in the order of sorting, or both are the same and
its number is smaller. -/
def GoesAhead (strategy : WarmStart) (d : Demand α) (link a b : Nat) : Prop :=
  Scalar.exceeds (strategy.share d a link) (strategy.share d b link) = true ∨
    strategy.share d a link = strategy.share d b link ∧ a < b

variable {strategy : WarmStart}

theorem share_link (h : strategy ≠ .linkShare) (d : Demand α) (job link link' : Nat) :
    strategy.share d job link = strategy.share d job link' := by
  cases strategy with
  | linkShare => exact absurd rfl h
  | jobShare | identity => rfl

/-- An active job of an accepted demand is sorted by its share. -/
theorem key_eq_share [OrderedScalar α] [SummingScalar α] (hd : (d.validate : Except (ModelError α) Unit) = .ok ())
    (hlink : link < d.links) (hactive : d.isActive job link = true) :
    strategy.key d job link = strategy.share d job link := by
  have hpositive := Demand.jobTotal_le_zero_eq_false hd hlink hactive
  cases strategy <;> simp only [key, share, hpositive, Bool.false_eq_true, if_false]

/-- The list of a link is sorted by key, and ties keep the order of the jobs' numbers. -/
theorem pairwise_order [SortedScalar α] (strategy : WarmStart) (d : Demand α) (link : Nat) :
    (strategy.order d link).Pairwise fun a b =>
      Scalar.precedes (strategy.key d b link) (strategy.key d a link) = true ∧
        (Scalar.precedes (strategy.key d a link) (strategy.key d b link) = true → a < b) := by
  have htrans : ∀ x y z : Nat × α, Scalar.precedes y.2 x.2 = true → Scalar.precedes z.2 y.2 = true →
      Scalar.precedes z.2 x.2 = true := fun _ _ _ hxy hyz => SortedScalar.precedes_trans hyz hxy
  have htotal : ∀ x y : Nat × α, (Scalar.precedes y.2 x.2 || Scalar.precedes x.2 y.2) = true := fun x y => by
    simpa using SortedScalar.precedes_total y.2 x.2
  have hnumbers : ((d.activeJobs link).map fun job => (job, strategy.key d job link)).Pairwise
      fun x y => x.1 < y.1 := List.pairwise_map.2 (List.pairwise_lt_range.filter _)
  have hkey : ∀ x ∈ ((d.activeJobs link).map fun job => (job, strategy.key d job link)).mergeSort
      fun x y => Scalar.precedes y.2 x.2, strategy.key d x.1 link = x.2 := by
    intro x hx
    obtain ⟨job, -, rfl⟩ := List.mem_map.1 ((List.mergeSort_perm _ _).mem_iff.1 hx)
    rfl
  rw [order, List.pairwise_map]
  refine (pairwise_mergeSort_of_pairwise htrans htotal hnumbers).imp_of_mem fun {x y} hx hy h => ?_
  rw [hkey x hx, hkey y hy]
  exact h

theorem goesAhead_iff [LinearScalar α] : strategy.GoesAhead d link a b ↔
    Scalar.precedes (strategy.share d b link) (strategy.share d a link) = true ∧
      (Scalar.precedes (strategy.share d a link) (strategy.share d b link) = true → a < b) := by
  simp only [GoesAhead, Scalar.exceeds, Bool.and_eq_true, Bool.not_eq_true']
  constructor
  · rintro (⟨hlarger, hnot⟩ | ⟨hsame, hlt⟩)
    · exact ⟨hlarger, fun h => absurd (hnot.symm.trans h) Bool.false_ne_true⟩
    · rw [hsame]
      exact ⟨by simpa using SortedScalar.precedes_total (strategy.share d b link) (strategy.share d b link),
        fun _ => hlt⟩
  · rintro ⟨hle, hties⟩
    cases hback : Scalar.precedes (strategy.share d a link) (strategy.share d b link) with
    | false => exact .inl ⟨hle, rfl⟩
    | true => exact .inr ⟨LinearScalar.precedes_antisymm hback hle, hties hback⟩

/-- On a link the active jobs are ranked by their shares. -/
theorem rank_lt_iff_goesAhead [OrderedScalar α] [LinearScalar α] [SummingScalar α]
    (hd : (d.validate : Except (ModelError α) Unit) = .ok ()) (hlink : link < d.links) (ha : a ∈ d.activeJobs link)
    (hb : b ∈ d.activeJobs link) :
    (strategy.priority d).rank a link < (strategy.priority d).rank b link ↔ strategy.GoesAhead d link a b := by
  have hmem : ∀ {job}, job ∈ d.activeJobs link ↔ job ∈ strategy.order d link :=
    (order_perm strategy d link).mem_iff.symm
  have hsorted : (strategy.order d link).Pairwise (strategy.GoesAhead d link) := by
    refine (pairwise_order strategy d link).imp_of_mem fun {x y} hx hy h => ?_
    rw [key_eq_share hd hlink (Demand.mem_activeJobs.1 (hmem.2 hx)).2,
      key_eq_share hd hlink (Demand.mem_activeJobs.1 (hmem.2 hy)).2] at h
    exact goesAhead_iff.2 h
  refine (isQueue_priority strategy d hlink).rank_lt_iff_of_pairwise hsorted (fun x y hxy hyx => ?_) (hmem.1 ha)
    (hmem.1 hb)
  rw [goesAhead_iff] at hxy hyx
  exact Nat.lt_asymm (hxy.2 hyx.1) (hyx.2 hxy.1)

end WarmStart

/-- A warm start of an accepted demand validates, leaves inactive cells at rank 0 and ranks the active jobs of every
link by their shares, the larger in the order of sorting first and of jobs with the same share the smaller number.
Sorted by whole jobs, or not at all, two jobs are in the same order on all links that both use. -/
theorem priority_ranks_by_share {α : Type} [Scalar α] [OrderedScalar α] [LinearScalar α] [SummingScalar α]
    (strategy : WarmStart) {d : Demand α} (hd : (d.validate : Except (ModelError α) Unit) = .ok ()) :
    ((strategy.priority d).validate d : Except (ModelError α) Unit) = .ok () ∧
    (∀ job < d.jobs, ∀ link < d.links, d.isActive job link = false → (strategy.priority d).rank job link = 0) ∧
    (∀ link < d.links, ∀ a ∈ d.activeJobs link, ∀ b ∈ d.activeJobs link,
      ((strategy.priority d).rank a link < (strategy.priority d).rank b link ↔
        Scalar.exceeds (strategy.share d a link) (strategy.share d b link) = true ∨
          strategy.share d a link = strategy.share d b link ∧ a < b)) ∧
    (strategy ≠ .linkShare → ∀ link < d.links, ∀ link' < d.links,
      ∀ a, a ∈ d.activeJobs link → a ∈ d.activeJobs link' → ∀ b, b ∈ d.activeJobs link → b ∈ d.activeJobs link' →
        ((strategy.priority d).rank a link < (strategy.priority d).rank b link ↔
          (strategy.priority d).rank a link' < (strategy.priority d).rank b link')) := by
  refine ⟨Priority.validate_eq_ok.2 (strategy.fits_priority d), fun job hjob link hlink hidle =>
    strategy.rank_of_inactive d hjob hlink hidle, fun link hlink a ha b hb =>
    WarmStart.rank_lt_iff_goesAhead hd hlink ha hb, ?_⟩
  intro hstrategy link hlink link' hlink' a ha ha' b hb hb'
  rw [WarmStart.rank_lt_iff_goesAhead hd hlink ha hb, WarmStart.rank_lt_iff_goesAhead hd hlink' ha' hb',
    WarmStart.GoesAhead, WarmStart.GoesAhead, WarmStart.share_link hstrategy d a link link',
    WarmStart.share_link hstrategy d b link link']

/-- Three jobs on two links; the volumes of the first and the last add up to infinity. -/
def overflowingVolumes : Demand Binary64 :=
  let much : Load Binary64 := ⟨⟨0⟩, ⟨0x7fefffffffffffff⟩⟩
  let even : Load Binary64 := ⟨⟨0x3ff0000000000000⟩, ⟨0x3ff0000000000000⟩⟩
  ⟨⟨3, 2, #[much, much, even, even, much, much]⟩⟩

theorem priority_of_overflowingVolumes :
    (overflowingVolumes.validate : Except (ModelError Binary64) Unit) = .ok () ∧
    Scalar.isUndefined (WarmStart.jobShare.share overflowingVolumes 0 1) = true ∧
    let table := WarmStart.jobShare.priority overflowingVolumes
    table.rank 1 1 < table.rank 0 1 ∧ table.rank 0 0 < table.rank 2 0 ∧ table.rank 0 1 < table.rank 2 1 := by
  have hvalid : (overflowingVolumes.validate : Except (ModelError Binary64) Unit) = .ok () := by decide +kernel
  have hactive : ∀ job < 3, ∀ link < 2, job ∈ overflowingVolumes.activeJobs link := by decide +kernel
  obtain ⟨-, -, hranks, hlinks⟩ := priority_ranks_by_share .jobShare hvalid
  have hahead := (hranks 0 (by decide) 0 (hactive 0 (by decide) 0 (by decide)) 2
    (hactive 2 (by decide) 0 (by decide))).2 (.inr ⟨by decide +kernel, by decide⟩)
  refine ⟨hvalid, by decide +kernel, ?_, hahead, ?_⟩
  · exact (hranks 1 (by decide) 1 (hactive 1 (by decide) 1 (by decide)) 0
      (hactive 0 (by decide) 1 (by decide))).2 (.inl (by decide +kernel))
  · exact (hlinks (by decide) 0 (by decide) 1 (by decide) 0 (hactive 0 (by decide) 0 (by decide))
      (hactive 0 (by decide) 1 (by decide)) 2 (hactive 2 (by decide) 0 (by decide))
      (hactive 2 (by decide) 1 (by decide))).1 hahead

end LinkPriority

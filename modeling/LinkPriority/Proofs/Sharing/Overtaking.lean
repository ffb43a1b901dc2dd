import Mathlib.Algebra.BigOperators.Field
import Mathlib.Tactic.FieldSimp
import Mathlib.Tactic.Linarith
import Mathlib.Tactic.Ring
import LinkPriority.Proofs.Sharing.Bounds
import LinkPriority.Proofs.Sharing.Prediction

/-! What an overtaking does to the first epoch, in exact arithmetic. On the link of a swap the promoted job loses
the demoted job from those ahead of it, the demoted job gets the promoted one, and every other job has the same jobs
ahead as before. So one cell loses a factor, one gets a factor and no other changes, and the change of the objective
is what the model predicts for the promoted cell. -/

namespace LinkPriority

open Scalar

/-! ### Who is ahead after a swap -/

namespace Priority

variable {α : Type} [Scalar α] {d : Demand α} {p p' : Priority} {s : Swap} {job link : Nat}

theorem Overtakes.job_ne (h : p.Overtakes d s) : s.promote.job ≠ s.demote.job := by
  intro hsame
  have hadjacent := h.neighbours.rank_promote
  rw [hsame] at hadjacent
  omega

/-- The two jobs of a swap exchange their ranks. -/
theorem Overtakes.ranks (h : p.Overtakes d s) (happly : (p.apply s : Except (ModelError α) Priority) = .ok p') :
    p.rank s.promote.job s.promote.link = p.rank s.demote.job s.promote.link + 1 ∧
      p'.rank s.promote.job s.promote.link = p.rank s.demote.job s.promote.link ∧
      p'.rank s.demote.job s.promote.link = p.rank s.demote.job s.promote.link + 1 := by
  have hadjacent := h.neighbours.rank_promote
  refine ⟨hadjacent, ?_, ?_⟩
  · rw [rank_apply happly h.neighbours.link_lt, if_pos rfl, Equiv.swap_apply_left]
  · rw [rank_apply happly h.neighbours.link_lt, if_pos rfl, Equiv.swap_apply_right, hadjacent]

section Ahead

variable (h : p.Overtakes d s) (hfits : p.Fits d) (happly : (p.apply s : Except (ModelError α) Priority) = .ok p')
include h hfits happly

/-- Every other active job of the link keeps its rank, which is neither of the two. -/
theorem Overtakes.rank_cases (hjob : job < d.jobs) (hactive : d.isActive job s.promote.link = true) :
    job = s.promote.job ∨ job = s.demote.job ∨
      (p'.rank job s.promote.link = p.rank job s.promote.link ∧
        p.rank job s.promote.link ≠ p.rank s.demote.job s.promote.link ∧
        p.rank job s.promote.link ≠ p.rank s.demote.job s.promote.link + 1) := by
  by_cases hpromote : job = s.promote.job
  · exact .inl hpromote
  by_cases hdemote : job = s.demote.job
  · exact .inr (.inl hdemote)
  obtain ⟨hpromote_lt, hdemote_lt, hlink⟩ := h.cells_lt hfits
  obtain ⟨order, hq⟩ := hfits.queue s.promote.link hlink
  have hmem := hq.mem_iff.2 ⟨hjob, hactive⟩
  have hpromote' := hq.mem_iff.2 ⟨hpromote_lt, h.promote⟩
  have hdemote' := hq.mem_iff.2 ⟨hdemote_lt, h.demote⟩
  obtain ⟨hadjacent, -, -⟩ := h.ranks happly
  refine .inr (.inr ⟨?_, fun heq => hdemote (hq.rank_inj hmem hdemote' heq), fun heq => ?_⟩)
  · rw [rank_apply happly h.neighbours.link_lt, if_pos rfl, Equiv.swap_apply_of_ne_of_ne hpromote hdemote]
  · exact hpromote (hq.rank_inj hmem hpromote' (heq.trans hadjacent.symm))

/-- The demoted job leaves those ahead of the promoted one. -/
theorem Overtakes.ahead_promote : (p.ahead d s.promote.job s.promote.link).toFinset =
    insert s.demote.job (p'.ahead d s.promote.job s.promote.link).toFinset := by
  obtain ⟨hadjacent, hpromote, hdemote⟩ := h.ranks happly
  ext other
  rw [Finset.mem_insert, List.mem_toFinset, List.mem_toFinset, mem_ahead, mem_ahead]
  constructor
  · rintro ⟨hother, hlt⟩
    rcases h.rank_cases hfits happly hother.1 hother.2 with rfl | rfl | ⟨hsame, hne, -⟩
    · omega
    · exact .inl rfl
    · exact .inr ⟨hother, by omega⟩
  · rintro (rfl | ⟨hother, hlt⟩)
    · exact ⟨⟨(h.cells_lt hfits).2.1, h.demote⟩, by omega⟩
    · rcases h.rank_cases hfits happly hother.1 hother.2 with rfl | rfl | ⟨hsame, -, -⟩
      · omega
      · omega
      · exact ⟨hother, by omega⟩

/-- The promoted job joins those ahead of the demoted one. -/
theorem Overtakes.ahead_demote : (p'.ahead d s.demote.job s.promote.link).toFinset =
    insert s.promote.job (p.ahead d s.demote.job s.promote.link).toFinset := by
  obtain ⟨hadjacent, hpromote, hdemote⟩ := h.ranks happly
  ext other
  rw [Finset.mem_insert, List.mem_toFinset, List.mem_toFinset, mem_ahead, mem_ahead]
  constructor
  · rintro ⟨hother, hlt⟩
    rcases h.rank_cases hfits happly hother.1 hother.2 with rfl | rfl | ⟨hsame, hne, -⟩
    · exact .inl rfl
    · omega
    · exact .inr ⟨hother, by omega⟩
  · rintro (rfl | ⟨hother, hlt⟩)
    · exact ⟨⟨(h.cells_lt hfits).1, h.promote⟩, by omega⟩
    · rcases h.rank_cases hfits happly hother.1 hother.2 with rfl | rfl | ⟨hsame, -, -⟩
      · omega
      · omega
      · exact ⟨hother, by omega⟩

/-- Ahead of the cells that do not swap nothing changes. -/
theorem Overtakes.ahead_other (hlink : link < d.links) (hjob : job < d.jobs) (hactive : d.isActive job link = true)
    (hother : link = s.promote.link → job ≠ s.promote.job ∧ job ≠ s.demote.job) :
    (p'.ahead d job link).toFinset = (p.ahead d job link).toFinset := by
  ext other
  rw [List.mem_toFinset, List.mem_toFinset, mem_ahead, mem_ahead]
  by_cases hsame : link = s.promote.link
  · subst hsame
    obtain ⟨hnot, hnot'⟩ := hother rfl
    obtain ⟨hadjacent, hpromote, hdemote⟩ := h.ranks happly
    obtain ⟨hself, hne, hne'⟩ := ((h.rank_cases hfits happly hjob hactive).resolve_left hnot).resolve_left hnot'
    refine and_congr_right fun hactive' => ?_
    rcases h.rank_cases hfits happly hactive'.1 hactive'.2 with rfl | rfl | ⟨hkept, -, -⟩ <;> omega
  · rw [rank_apply happly (hfits.links ▸ hlink), rank_apply happly (hfits.links ▸ hlink), if_neg hsame,
      if_neg hsame]

omit hfits in
theorem Overtakes.demote_not_mem_ahead : s.demote.job ∉ (p'.ahead d s.promote.job s.promote.link).toFinset := by
  obtain ⟨-, hpromote, hdemote⟩ := h.ranks happly
  rw [List.mem_toFinset, mem_ahead]
  rintro ⟨-, hlt⟩
  omega

omit hfits in
theorem Overtakes.promote_not_mem_ahead : s.promote.job ∉ (p.ahead d s.demote.job s.promote.link).toFinset := by
  obtain ⟨hadjacent, -, -⟩ := h.ranks happly
  rw [List.mem_toFinset, mem_ahead]
  rintro ⟨-, hlt⟩
  omega

end Ahead

end Priority

/-! ### The times after a swap -/

section Exact

variable {ln sqrt : ℚ → ℚ} {d : Demand (Exact ln sqrt)} {p p' : Priority} {s : Swap} {job link : Nat}
  (h : p.Overtakes d s) (hfits : p.Fits d)
  (happly : (p.apply s : Except (ModelError (Exact ln sqrt)) Priority) = .ok p') (x : Times (Exact ln sqrt))

include h hfits happly

/-- Overtaking, the promoted job is rid of the factor of the demoted one. -/
theorem Times.stretch_promote : (x.stretch d p s.promote.job s.promote.link).value =
    (x.factor s.demote.job s.promote.link).value * (x.stretch d p' s.promote.job s.promote.link).value := by
  rw [value_stretch, value_stretch, h.ahead_promote hfits happly,
    Finset.prod_insert (h.demote_not_mem_ahead happly)]

/-- The demoted job gets the factor of the promoted one. -/
theorem Times.stretch_demote : (x.stretch d p' s.demote.job s.promote.link).value =
    (x.factor s.promote.job s.promote.link).value * (x.stretch d p s.demote.job s.promote.link).value := by
  rw [value_stretch, value_stretch, h.ahead_demote hfits happly,
    Finset.prod_insert (h.promote_not_mem_ahead happly)]

theorem Times.nextComm_other (hlink : link < d.links) (hjob : job < d.jobs)
    (hother : link = s.promote.link → job ≠ s.promote.job ∧ job ≠ s.demote.job) :
    x.nextComm d p' job link = x.nextComm d p job link := by
  rw [nextComm, nextComm]
  split
  · next hactive =>
    refine Exact.eq_of_value_eq ?_
    rw [Exact.value_mul, Exact.value_mul, value_stretch, value_stretch,
      h.ahead_other hfits happly hlink hjob hactive hother]
  · rfl

/-- A job takes longer by its communication on the link of the swap alone. -/
theorem Times.total_sub_total (hjob : job < d.jobs) :
    ((x.next d p').total job).value - ((x.next d p).total job).value =
      (x.nextComm d p' job s.promote.link).value - (x.nextComm d p job s.promote.link).value := by
  rw [value_total_next, value_total_next, add_sub_add_left_eq_sub, ← Finset.sum_sub_distrib]
  refine Finset.sum_eq_single s.promote.link (fun link hlink hne => ?_) fun hnot => ?_
  · rw [x.nextComm_other h hfits happly (Finset.mem_range.1 hlink) hjob (absurd · hne), sub_self]
  · exact absurd (Finset.mem_range.2 (h.cells_lt hfits).2.2) hnot

section Demand

variable (hd : (d.validate : Except (ModelError (Exact ln sqrt)) Unit) = .ok ())
include hd

theorem Times.slowdown_sub_slowdown (hjob : job < d.jobs) (hactive : d.isActive job s.promote.link = true) :
    ((x.next d p').slowdown d job).value - ((x.next d p).slowdown d job).value =
      ((x.nextComm d p' job s.promote.link).value - (x.nextComm d p job s.promote.link).value) /
        (d.jobTotal job).value := by
  have hpos : lt zero (d.jobTotal job) = true := by
    rw [Exact.lt_eq_true, Exact.value_zero]
    exact Demand.jobTotal_pos hd (h.cells_lt hfits).2.2 hactive
  rw [slowdown, slowdown, if_pos hpos, if_pos hpos, Exact.value_div, Exact.value_div, ← sub_div,
    x.total_sub_total h hfits happly hjob]

omit hd in
theorem Times.slowdown_other (hjob : job < d.jobs) (hpromote : job ≠ s.promote.job) (hdemote : job ≠ s.demote.job) :
    (x.next d p').slowdown d job = (x.next d p).slowdown d job := by
  have htotal : (x.next d p').total job = (x.next d p).total job := by
    refine Exact.eq_of_value_eq (sub_eq_zero.1 ?_)
    rw [x.total_sub_total h hfits happly hjob,
      x.nextComm_other h hfits happly (h.cells_lt hfits).2.2 hjob fun _ => ⟨hpromote, hdemote⟩, sub_self]
  rw [slowdown, slowdown, htotal]

variable {x} (hx : x.AtLeastAlone d)
include hx

theorem Times.AtLeastAlone.nextComm_promote : (x.nextComm d p' s.promote.job s.promote.link).value =
    (x.nextComm d p s.promote.job s.promote.link).value / (x.factor s.demote.job s.promote.link).value := by
  have hfactor : (x.factor s.demote.job s.promote.link).value ≠ 0 :=
    (zero_lt_one.trans_le (hx.one_le_factor hd _ _)).ne'
  rw [nextComm, nextComm, if_pos h.promote, if_pos h.promote, Exact.value_mul, Exact.value_mul,
    x.stretch_promote h hfits happly]
  field_simp

omit hd hx in
theorem Times.nextComm_demote : (x.nextComm d p' s.demote.job s.promote.link).value =
    (x.nextComm d p s.demote.job s.promote.link).value * (x.factor s.promote.job s.promote.link).value := by
  rw [nextComm, nextComm, if_pos h.demote, if_pos h.demote, Exact.value_mul, Exact.value_mul,
    x.stretch_demote h hfits happly]
  ring

/-- The mean changes by what the model predicts for the promoted cell. -/
theorem Times.AtLeastAlone.meanSlowdown_sub_meanSlowdown :
    ((x.next d p').meanSlowdown d).value - ((x.next d p).meanSlowdown d).value =
      (overtaking d s.promote.link (x.slot d p s.promote.link s.demote.job)
        (x.slot d p s.promote.link s.promote.job)).2.value / d.jobs := by
  obtain ⟨hpromote, hdemote, -⟩ := h.cells_lt hfits
  rw [value_meanSlowdown, value_meanSlowdown, ← sub_div, ← Finset.sum_sub_distrib,
    Finset.sum_eq_add s.promote.job s.demote.job h.job_ne
      (fun job hjob hother => ?_) (fun hnot => absurd (Finset.mem_range.2 hpromote) hnot)
      fun hnot => absurd (Finset.mem_range.2 hdemote) hnot,
    x.slowdown_sub_slowdown h hfits happly hd hpromote h.promote,
    x.slowdown_sub_slowdown h hfits happly hd hdemote h.demote,
    hx.nextComm_promote h hfits happly hd, x.nextComm_demote h hfits happly]
  · simp only [overtaking, slot, Exact.value_add, Exact.value_sub, Exact.value_mul, Exact.value_div]
  · rw [x.slowdown_other h hfits happly (Finset.mem_range.1 hjob) hother.1 hother.2, sub_self]

/-- The promoted job is not slowed more than before. -/
theorem Times.AtLeastAlone.slowdown_promote_le :
    ((x.next d p').slowdown d s.promote.job).value ≤ ((x.next d p).slowdown d s.promote.job).value := by
  obtain ⟨hpromote, -, hlink⟩ := h.cells_lt hfits
  have htotal := Demand.jobTotal_pos hd hlink h.promote
  have hcomm : 0 ≤ (x.nextComm d p s.promote.job s.promote.link).value :=
    (Demand.load_nonneg hd _ _).2.trans (hx.comm_le_nextComm hd p _ _)
  rw [← sub_nonpos, x.slowdown_sub_slowdown h hfits happly hd hpromote h.promote,
    hx.nextComm_promote h hfits happly hd]
  exact div_nonpos_of_nonpos_of_nonneg (sub_nonpos.2 (div_le_self hcomm (hx.one_le_factor hd _ _))) htotal.le

/-- The demoted job is not slowed less than before. -/
theorem Times.AtLeastAlone.slowdown_le_demote :
    ((x.next d p).slowdown d s.demote.job).value ≤ ((x.next d p').slowdown d s.demote.job).value := by
  obtain ⟨-, hdemote, hlink⟩ := h.cells_lt hfits
  have htotal := Demand.jobTotal_pos hd hlink h.demote
  have hcomm : 0 ≤ (x.nextComm d p s.demote.job s.promote.link).value :=
    (Demand.load_nonneg hd _ _).2.trans (hx.comm_le_nextComm hd p _ _)
  rw [← sub_nonneg, x.slowdown_sub_slowdown h hfits happly hd hdemote h.demote,
    x.nextComm_demote h hfits happly]
  exact div_nonneg (sub_nonneg.2 (le_mul_of_one_le_right hcomm (hx.one_le_factor hd _ _))) htotal.le

end Demand

end Exact

/-! ### The prediction comes true -/

variable {ln sqrt : ℚ → ℚ} {d : Demand (Exact ln sqrt)} {p p' : Priority} {s : Swap} {orders : List (List Nat)}

/-- The cell of the promoted job holds what the model predicts for the swap. -/
theorem Priority.Overtakes.getD_desirability (h : p.Overtakes d s) (hfits : p.Fits d)
    (happly : (p.apply s : Except (ModelError (Exact ln sqrt)) Priority) = .ok p')
    (horders : p.orders d = .ok orders) :
    (desirability d orders).getD s.promote.job s.promote.link zero =
      (overtaking d s.promote.link ((Times.alone d).slot d p s.promote.link s.demote.job)
        ((Times.alone d).slot d p s.promote.link s.promote.job)).2 := by
  obtain ⟨hpromote, hdemote, hlink⟩ := h.cells_lt hfits
  exact LinkPriority.getD_desirability horders hlink ⟨hdemote, h.demote⟩ ⟨hpromote, h.promote⟩ (h.ranks happly).1

theorem pairWithPeers_singleton {cell : Position} (h : overtake? d p cell = .ok (some s)) :
    pairWithPeers d p [cell] = .ok [s] := by
  rw [pairWithPeers, List.foldlM_cons, h]
  rfl

/-- In exact arithmetic the prediction comes true in the first epoch: letting an active cell pass the job ahead of it
changes the objective by the value the model holds for the cell, a job's part of it. The promoted job is not slowed
more for it, the demoted job not less, and no other job otherwise. -/
theorem evaluate_overtaking_eq_prediction (hd : (d.validate : Except (ModelError (Exact ln sqrt)) Unit) = .ok ())
    (hp : (p.validate d : Except (ModelError (Exact ln sqrt)) Unit) = .ok ()) {budget : Nat} (hbudget : 1 ≤ budget)
    {cell : Position} (hjob : cell.job < d.jobs) (hlink : cell.link < d.links)
    (hactive : d.isActive cell.job cell.link = true) (hrank : 1 ≤ p.rankAt cell) :
    ∃ s p' predicted before after, pairWithPeers d p [cell] = .ok [s] ∧ s.promote = cell ∧
      (p.apply s : Except (ModelError (Exact ln sqrt)) Priority) = .ok p' ∧
      evaluate d p budget = .ok predicted ∧ evaluate d p 1 = .ok before ∧ evaluate d p' 1 = .ok after ∧
      after.objective.value - before.objective.value =
        (predicted.desirability.getD cell.job cell.link zero).value / d.jobs ∧
      (∃ old new, before.slowdown[cell.job]? = some old ∧ after.slowdown[cell.job]? = some new ∧
        new.value ≤ old.value) ∧
      (∃ old new, before.slowdown[s.demote.job]? = some old ∧ after.slowdown[s.demote.job]? = some new ∧
        old.value ≤ new.value) ∧
      ∀ job < d.jobs, job ≠ cell.job → job ≠ s.demote.job → after.slowdown[job]? = before.slowdown[job]? := by
  have hjobs := Demand.jobs_ne_zero hd
  have hfits : p.Fits d := Priority.validate_eq_ok.1 hp
  obtain ⟨s, hs, rfl, h⟩ := exists_overtake?_eq hfits ⟨hlink, hjob, hactive, hrank⟩
  obtain ⟨p', happly⟩ := h.apply
  obtain ⟨orders, horders⟩ := Priority.exists_orders_iff.2 hfits
  obtain ⟨orders', horders'⟩ := Priority.exists_orders_iff.2 (hfits.apply happly h.promote h.demote)
  obtain ⟨-, hdemote, -⟩ := h.cells_lt hfits
  have hx := Times.atLeastAlone_alone d
  refine ⟨s, p', _, _, _, pairWithPeers_singleton hs, rfl, happly,
    evaluate_exact_eq horders hjobs (Nat.pos_iff_ne_zero.1 hbudget), evaluate_exact_one horders hjobs,
    evaluate_exact_one horders' hjobs, ?_, ?_, ?_, ?_⟩
  · rw [h.getD_desirability hfits happly horders]
    exact hx.meanSlowdown_sub_meanSlowdown h hfits happly hd
  · exact ⟨_, _, Times.getElem?_slowdowns _ hjob, Times.getElem?_slowdowns _ hjob,
      hx.slowdown_promote_le h hfits happly hd⟩
  · exact ⟨_, _, Times.getElem?_slowdowns _ hdemote, Times.getElem?_slowdowns _ hdemote,
      hx.slowdown_le_demote h hfits happly hd⟩
  · intro job hlt hpromoted hdemoted
    rw [Times.getElem?_slowdowns _ hlt, Times.getElem?_slowdowns _ hlt,
      (Times.alone d).slowdown_other h hfits happly hlt hpromoted hdemoted]

theorem evaluate_contendedLinks_overtaking :
    (contendedLinks.validate : Except (ModelError Tangent) Unit) = .ok () ∧
    (contendedRanks.validate contendedLinks : Except (ModelError Tangent) Unit) = .ok () ∧
    ∃ s p' predicted before after, pairWithPeers contendedLinks contendedRanks [⟨2, 0⟩] = .ok [s] ∧
      (contendedRanks.apply s : Except (ModelError Tangent) Priority) = .ok p' ∧
      evaluate contendedLinks contendedRanks 10 = .ok predicted ∧
      evaluate contendedLinks contendedRanks 1 = .ok before ∧ evaluate contendedLinks p' 1 = .ok after ∧
      (predicted.desirability.getD 2 0 zero).value = -448 / 387 ∧
      after.objective.value - before.objective.value = -448 / 387 / 3 := by
  obtain ⟨s, p', predicted, before, after, hpair, -, happly, hpredicted, hbefore, hafter, hchange, -⟩ :=
    evaluate_overtaking_eq_prediction validate_contendedLinks validate_contendedRanks (show 1 ≤ 10 by decide)
      (show (⟨2, 0⟩ : Position).job < contendedLinks.jobs by decide) (by decide) rfl (by decide)
  have hvalue : (evaluate contendedLinks contendedRanks 10).map (fun e => (e.desirability.getD 2 0 zero).value) =
      .ok (-448 / 387) := by decide +kernel
  rw [hpredicted] at hvalue
  have hcell : (predicted.desirability.getD 2 0 zero).value = -448 / 387 := Except.ok.inj hvalue
  refine ⟨validate_contendedLinks, validate_contendedRanks, s, p', predicted, before, after, hpair, happly,
    hpredicted, hbefore, hafter, hcell, ?_⟩
  rw [hchange, hcell]
  rfl

end LinkPriority

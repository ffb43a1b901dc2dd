import Mathlib.Algebra.Order.BigOperators.Group.Finset
import Mathlib.Algebra.Order.Field.Basic
import Mathlib.Data.Finset.Max
import Mathlib.Tactic.Linarith
import LinkPriority.Proofs.Scalar.Exact
import LinkPriority.Proofs.Sharing.Epochs

/-! The model in exact arithmetic. Sharing only ever costs: in every epoch a cell has at least its volume and a job
at least its time alone, since every factor is at least 1. So no slowdown is below 1, a job that is first on all its
links is not slowed at all, the objective lies between 1 and the largest slowdown, and nothing is divided by zero. -/

namespace LinkPriority

open Scalar

variable {ln sqrt : ℚ → ℚ} {d : Demand (Exact ln sqrt)} {p : Priority} {job link : Nat}

/-! ### Loads -/

namespace Demand

theorem load_nonneg (hd : (d.validate : Except (ModelError (Exact ln sqrt)) Unit) = .ok ()) (job link : Nat) :
    0 ≤ (d.load job link).compute.value ∧ 0 ≤ (d.load job link).comm.value := by
  have hload := isAmount_load hd job link
  simpa [Load.isAmount, isAmount, isFinite] using hload

theorem load_of_inactive (h : d.isActive job link = false) :
    (d.load job link).compute.value = 0 ∧ (d.load job link).comm.value = 0 := by
  simpa [isActive, Load.isActive, Exact.isZero_eq_true] using h

theorem value_jobTotal (d : Demand (Exact ln sqrt)) (job : Nat) : (d.jobTotal job).value =
    ∑ link ∈ Finset.range d.links, ((d.load job link).compute.value + (d.load job link).comm.value) := by
  rw [jobTotal, Grid.row, List.map_map]
  exact Exact.value_sum_range (fun link => (d.load job link).total) d.links

theorem value_jobCompute (d : Demand (Exact ln sqrt)) (job : Nat) :
    (d.jobCompute job).value = ∑ link ∈ Finset.range d.links, (d.load job link).compute.value := by
  rw [jobCompute, Grid.row, List.map_map]
  exact Exact.value_sum_range (fun link => (d.load job link).compute) d.links

/-- The time alone is compute time and volume. -/
theorem value_jobTotal_eq_add (d : Demand (Exact ln sqrt)) (job : Nat) : (d.jobTotal job).value =
    (d.jobCompute job).value + ∑ link ∈ Finset.range d.links, (d.load job link).comm.value := by
  rw [value_jobTotal, value_jobCompute, Finset.sum_add_distrib]

/-- A job that uses a link has something to do. -/
theorem jobTotal_pos (hd : (d.validate : Except (ModelError (Exact ln sqrt)) Unit) = .ok ()) (hlink : link < d.links)
    (hactive : d.isActive job link = true) : 0 < (d.jobTotal job).value := by
  have hnonneg : ∀ link, 0 ≤ (d.load job link).compute.value + (d.load job link).comm.value :=
    fun link => add_nonneg (load_nonneg hd job link).1 (load_nonneg hd job link).2
  rw [value_jobTotal]
  refine Finset.sum_pos' (fun link _ => hnonneg link) ⟨link, Finset.mem_range.2 hlink, ?_⟩
  refine lt_of_le_of_ne (hnonneg link) fun hzero => ?_
  obtain ⟨hcompute, hcomm⟩ := load_nonneg hd job link
  have hidle : d.isActive job link = false := by
    simp only [isActive, Load.isActive, Bool.or_eq_false_iff, Bool.not_eq_false', Exact.isZero_eq_true]
    constructor <;> linarith
  simp [hidle] at hactive

end Demand

/-! ### Times are at least those alone -/

namespace Times

variable {x : Times (Exact ln sqrt)}

/-- Nothing takes less time than alone. -/
structure AtLeastAlone (x : Times (Exact ln sqrt)) (d : Demand (Exact ln sqrt)) : Prop where
  comm : ∀ job link, (d.load job link).comm.value ≤ (x.comm job link).value
  total : ∀ job, (d.jobTotal job).value ≤ (x.total job).value

theorem value_stretch (x : Times (Exact ln sqrt)) (d : Demand (Exact ln sqrt)) (p : Priority) (job link : Nat) :
    (x.stretch d p job link).value = ∏ other ∈ (p.ahead d job link).toFinset, (x.factor other link).value := by
  rw [stretch, Exact.value_foldl_mul, List.map_map, List.prod_toFinset _ (p.nodup_ahead d job link)]
  rfl

theorem value_total_next (x : Times (Exact ln sqrt)) (d : Demand (Exact ln sqrt)) (p : Priority) (job : Nat) :
    ((x.next d p).total job).value =
      (d.jobCompute job).value + ∑ link ∈ Finset.range d.links, (x.nextComm d p job link).value := by
  rw [next, Exact.value_add, Exact.value_sum_range]

section AtLeastAlone

variable (hd : (d.validate : Except (ModelError (Exact ln sqrt)) Unit) = .ok ())
include hd

theorem AtLeastAlone.one_le_factor (h : x.AtLeastAlone d) (job link : Nat) : 1 ≤ (x.factor job link).value := by
  rw [factor]
  split
  · rw [Exact.value_one]
  · next hfree =>
    have hcomm : 0 ≤ (x.comm job link).value := (Demand.load_nonneg hd job link).2.trans (h.comm job link)
    simp only [Exact.le_eq_true, Exact.value_sub, Exact.value_zero, not_le] at hfree
    rw [Exact.value_div, Exact.value_sub, one_le_div hfree]
    linarith

theorem AtLeastAlone.one_le_stretch (h : x.AtLeastAlone d) (p : Priority) (job link : Nat) :
    1 ≤ (x.stretch d p job link).value := by
  rw [value_stretch]
  exact Finset.prod_induction _ (fun product => 1 ≤ product) (fun _ _ => one_le_mul_of_one_le_of_one_le) le_rfl
    fun other _ => h.one_le_factor hd other link

theorem AtLeastAlone.comm_le_nextComm (h : x.AtLeastAlone d) (p : Priority) (job link : Nat) :
    (d.load job link).comm.value ≤ (x.nextComm d p job link).value := by
  rw [nextComm]
  cases hactive : d.isActive job link with
  | true =>
    rw [if_pos rfl, Exact.value_mul]
    exact le_mul_of_one_le_right (Demand.load_nonneg hd job link).2 (h.one_le_stretch hd p job link)
  | false => rw [if_neg Bool.false_ne_true, (Demand.load_of_inactive hactive).2, Exact.value_zero]

omit hd in
theorem atLeastAlone_alone (d : Demand (Exact ln sqrt)) : (alone d).AtLeastAlone d where
  comm _ _ := le_rfl
  total _ := le_rfl

/-- An epoch keeps it so. -/
theorem AtLeastAlone.next (h : x.AtLeastAlone d) (p : Priority) : (x.next d p).AtLeastAlone d where
  comm := h.comm_le_nextComm hd p
  total job := by
    rw [value_total_next, Demand.value_jobTotal_eq_add]
    exact add_le_add_right (Finset.sum_le_sum fun link _ => h.comm_le_nextComm hd p job link) _

theorem atLeastAlone_after (p : Priority) (epochs : Nat) : (after d p epochs).AtLeastAlone d := by
  induction epochs with
  | zero => exact atLeastAlone_alone d
  | succ epochs ih => exact ih.next hd p

end AtLeastAlone

/-! ### Slowdowns -/

theorem AtLeastAlone.one_le_slowdown (h : x.AtLeastAlone d) (job : Nat) : 1 ≤ (x.slowdown d job).value := by
  rw [slowdown]
  split
  · next hpos =>
    rw [Exact.lt_eq_true, Exact.value_zero] at hpos
    rw [Exact.value_div, one_le_div hpos]
    exact h.total job
  · rw [Exact.value_one]

theorem value_meanSlowdown (x : Times (Exact ln sqrt)) (d : Demand (Exact ln sqrt)) :
    (x.meanSlowdown d).value = (∑ job ∈ Finset.range d.jobs, (x.slowdown d job).value) / d.jobs := by
  rw [meanSlowdown, slowdowns, Exact.value_div, Exact.value_sum_range, Exact.value_ofNat]

theorem AtLeastAlone.one_le_meanSlowdown (h : x.AtLeastAlone d) (hjobs : d.jobs ≠ 0) :
    1 ≤ (x.meanSlowdown d).value := by
  have hpos : (0 : ℚ) < d.jobs := Nat.cast_pos.2 (Nat.pos_of_ne_zero hjobs)
  have hsum := Finset.card_nsmul_le_sum (Finset.range d.jobs) (fun job => (x.slowdown d job).value) 1
    fun job _ => h.one_le_slowdown job
  rw [value_meanSlowdown, one_le_div hpos]
  simpa using hsum

/-- Some job is slowed most, and the mean is no larger than its slowdown. -/
theorem exists_largest_slowdown (x : Times (Exact ln sqrt)) (hjobs : d.jobs ≠ 0) :
    ∃ largest ∈ x.slowdowns d, (∀ other ∈ x.slowdowns d, other.value ≤ largest.value) ∧
      (x.meanSlowdown d).value ≤ largest.value := by
  have hpos : (0 : ℚ) < d.jobs := Nat.cast_pos.2 (Nat.pos_of_ne_zero hjobs)
  obtain ⟨worst, hworst, hmax⟩ := Finset.exists_max_image (Finset.range d.jobs)
    (fun job => (x.slowdown d job).value) (Finset.nonempty_range_iff.2 hjobs)
  have hsum := Finset.sum_le_card_nsmul (Finset.range d.jobs) (fun job => (x.slowdown d job).value) _ hmax
  refine ⟨x.slowdown d worst, List.mem_map_of_mem (List.mem_range.2 (Finset.mem_range.1 hworst)), ?_, ?_⟩
  · intro other hother
    obtain ⟨job, hjob, rfl⟩ := List.mem_map.1 hother
    exact hmax job (Finset.mem_range.2 (List.mem_range.1 hjob))
  · rw [value_meanSlowdown, div_le_iff₀ hpos, mul_comm]
    simpa using hsum

/-- A job that is first on every link it uses keeps its time alone. -/
theorem total_next_of_first (x : Times (Exact ln sqrt))
    (hfirst : ∀ link < d.links, d.isActive job link = true → p.rank job link = 0) :
    (x.next d p).total job = d.jobTotal job := by
  refine Exact.eq_of_value_eq ?_
  rw [value_total_next, Demand.value_jobTotal_eq_add]
  refine congrArg ((d.jobCompute job).value + ·) (Finset.sum_congr rfl fun link hlink => ?_)
  rw [nextComm]
  cases hactive : d.isActive job link with
  | true =>
    rw [if_pos rfl, Exact.value_mul, value_stretch,
      p.ahead_of_rank_eq_zero (hfirst link (Finset.mem_range.1 hlink) hactive)]
    exact mul_one _
  | false => rw [if_neg Bool.false_ne_true, (Demand.load_of_inactive hactive).2, Exact.value_zero]

theorem slowdown_eq_one_of_total_eq (h : x.total job = d.jobTotal job) : x.slowdown d job = one := by
  rw [slowdown]
  split
  · next hpos =>
    rw [Exact.lt_eq_true, Exact.value_zero] at hpos
    refine Exact.eq_of_value_eq ?_
    rw [h, Exact.value_div, div_self hpos.ne', Exact.value_one]
  · rfl

theorem slowdown_of_idle (h : (d.jobTotal job).value = 0) : x.slowdown d job = one := by
  rw [slowdown, if_neg]
  simp [h]

theorem slowdown_after_of_first
    (hfirst : ∀ link < d.links, d.isActive job link = true → p.rank job link = 0) (epochs : Nat) :
    (after d p epochs).slowdown d job = one := by
  cases epochs with
  | zero => exact slowdown_eq_one_of_total_eq rfl
  | succ epochs => exact slowdown_eq_one_of_total_eq (total_next_of_first _ hfirst)

end Times

/-- Exact numbers are finite, so the model answers. -/
theorem evaluate_exact_eq {orders : List (List Nat)} {budget : Nat} (horders : p.orders d = .ok orders)
    (hjobs : d.jobs ≠ 0) (hbudget : budget ≠ 0) :
    evaluate d p budget = .ok ⟨(Times.final d p budget).meanSlowdown d, (Times.final d p budget).slowdowns d,
      desirability d orders, Times.lastEpoch d p budget⟩ := by
  rw [evaluate_eq horders hjobs hbudget]
  exact if_pos rfl

theorem evaluate_exact_one {orders : List (List Nat)} (horders : p.orders d = .ok orders) (hjobs : d.jobs ≠ 0) :
    evaluate d p 1 = .ok ⟨((Times.alone d).next d p).meanSlowdown d, ((Times.alone d).next d p).slowdowns d,
      desirability d orders, 1⟩ := by
  rw [evaluate_exact_eq horders hjobs one_ne_zero, Times.final_one]
  rfl

/-! ### Divisors -/

/-- What a run of the model divides by: the share of a link that a job leaves free, where it leaves any; the factors
of the first queues and the times alone of the jobs in them; the time alone of a job that has any; the mean slowdown
of an epoch; and the number of slowdowns. -/
inductive Course.DividesBy {α : Type} [Scalar α] (c : Course α) (d : Demand α) : α → Prop where
  | free {e : Epoch α} {job link : Nat} {order : List Nat} (he : e = .start d ∨ e ∈ c.epochs)
    (horder : c.orders[link]? = some order) (hjob : job ∈ order)
    (hfree : ¬le (e.total job - e.comm.getD job link zero) zero = true) :
    DividesBy c d (e.total job - e.comm.getD job link zero)
  | factor {slots : List (Slot α)} {slot : Slot α} (hslots : slots ∈ (Epoch.start d).queues d c.orders)
    (hslot : slot ∈ slots) : DividesBy c d slot.factor
  | queued {slots : List (Slot α)} {slot : Slot α} (hslots : slots ∈ (Epoch.start d).queues d c.orders)
    (hslot : slot ∈ slots) : DividesBy c d (d.jobTotal slot.job)
  | alone {job : Nat} (hpos : lt zero (d.jobTotal job) = true) : DividesBy c d (d.jobTotal job)
  | previous {e : Epoch α} (he : e ∈ c.epochs) : DividesBy c d (e.objective d)
  | count {e : Epoch α} (he : e ∈ c.epochs) : DividesBy c d (ofNat (e.slowdowns d).length)

section Divisors

variable {budget : Nat} {course : Course (Exact ln sqrt)}
  (hd : (d.validate : Except (ModelError (Exact ln sqrt)) Unit) = .ok ())

theorem Course.exists_hasTimes (hrun : simulate d p budget = .ok course) (hjobs : d.jobs ≠ 0)
    {e : Epoch (Exact ln sqrt)} (he : e ∈ course.epochs) :
    ∃ epochs, e.HasTimes d (Times.after d p epochs) := by
  obtain ⟨-, horders, hepochs⟩ := simulate_eq_ok.1 hrun
  rw [hepochs, epochsFrom_start horders hjobs] at he
  obtain ⟨epochs, -, rfl⟩ := List.mem_map.1 he
  exact ⟨epochs, Epoch.hasTimes_after horders epochs⟩

include hd

/-- The queues before the first epoch hold jobs with something to do, and no factor below 1. -/
theorem Course.slot_of_start (hrun : simulate d p budget = .ok course) {slots : List (Slot (Exact ln sqrt))}
    {slot : Slot (Exact ln sqrt)} (hslots : slots ∈ (Epoch.start d).queues d course.orders) (hslot : slot ∈ slots) :
    1 ≤ slot.factor.value ∧ 0 < (d.jobTotal slot.job).value := by
  obtain ⟨-, horders, -⟩ := simulate_eq_ok.1 hrun
  obtain ⟨link, hlink⟩ := List.mem_iff_getElem?.1 hslots
  obtain ⟨order, horder, rfl⟩ := mem_queues.1 (List.mk_mem_zipIdx_iff_getElem?.2 hlink)
  obtain ⟨hlink, hq⟩ := Priority.isQueue_of_orders horders horder
  rw [(Epoch.hasTimes_start d).queue_eq hlink hq] at hslot
  obtain ⟨job, hjob, rfl⟩ := List.mem_map.1 hslot
  exact ⟨(Times.atLeastAlone_alone d).one_le_factor hd job link,
    Demand.jobTotal_pos hd hlink (hq.mem_iff.1 hjob).2⟩

theorem Course.value_ne_zero_of_dividesBy (hrun : simulate d p budget = .ok course) {x : Exact ln sqrt}
    (hx : course.DividesBy d x) : x.value ≠ 0 := by
  have hjobs := Demand.jobs_ne_zero hd
  cases hx with
  | free _ _ _ hfree =>
    simp only [Exact.le_eq_true, Exact.value_zero, not_le] at hfree
    exact hfree.ne'
  | factor hslots hslot => exact (zero_lt_one.trans_le (slot_of_start hd hrun hslots hslot).1).ne'
  | queued hslots hslot => exact (slot_of_start hd hrun hslots hslot).2.ne'
  | alone hpos =>
    rw [Exact.lt_eq_true, Exact.value_zero] at hpos
    exact hpos.ne'
  | previous he =>
    obtain ⟨epochs, htimes⟩ := exists_hasTimes hrun hjobs he
    rw [htimes.objective_eq hjobs]
    exact (zero_lt_one.trans_le ((Times.atLeastAlone_after hd p epochs).one_le_meanSlowdown hjobs)).ne'
  | count _ =>
    rw [Exact.value_ofNat, Epoch.slowdowns, List.length_map, List.length_range]
    exact Nat.cast_ne_zero.2 hjobs

end Divisors

/-- In exact arithmetic the model answers for every valid table, without a division by zero. No job is faster than
alone; an idle job, or one that is first on all its links, is as fast; and the objective lies between 1 and the
largest slowdown. -/
theorem evaluate_exact_bounds (hd : (d.validate : Except (ModelError (Exact ln sqrt)) Unit) = .ok ())
    (hp : (p.validate d : Except (ModelError (Exact ln sqrt)) Unit) = .ok ()) {budget : Nat} (hbudget : 1 ≤ budget) :
    ∃ course e, simulate d p budget = .ok course ∧ evaluate d p budget = .ok e ∧
      (∀ x, course.DividesBy d x → x.value ≠ 0) ∧
      e.slowdown.length = d.jobs ∧ (∀ x ∈ e.slowdown, 1 ≤ x.value) ∧
      (∀ job < d.jobs, (d.jobTotal job).value = 0 ∨
        (∀ link < d.links, d.isActive job link = true → p.rank job link = 0) → e.slowdown[job]? = some one) ∧
      1 ≤ e.objective.value ∧
      ∃ largest ∈ e.slowdown, (∀ x ∈ e.slowdown, x.value ≤ largest.value) ∧ e.objective.value ≤ largest.value := by
  have hjobs := Demand.jobs_ne_zero hd
  have hpos : budget ≠ 0 := Nat.pos_iff_ne_zero.1 hbudget
  obtain ⟨orders, horders⟩ := Priority.exists_orders_iff.2 (Priority.validate_eq_ok.1 hp)
  obtain ⟨course, hrun⟩ := (Priority.validate_eq_ok.1 hp).exists_simulate_eq hpos
  have hbounds : (Times.final d p budget).AtLeastAlone d := Times.atLeastAlone_after hd p _
  refine ⟨course, _, hrun, evaluate_exact_eq horders hjobs hpos,
    fun x hx => Course.value_ne_zero_of_dividesBy hd hrun hx, Times.length_slowdowns _ d, ?_, ?_,
    hbounds.one_le_meanSlowdown hjobs, Times.exists_largest_slowdown _ hjobs⟩
  · intro x hx
    obtain ⟨job, -, rfl⟩ := List.mem_map.1 hx
    exact hbounds.one_le_slowdown job
  · intro job hjob hfree
    rw [Times.getElem?_slowdowns _ hjob]
    rcases hfree with hidle | hfirst
    · rw [Times.slowdown_of_idle hidle]
    · rw [Times.final, Times.slowdown_after_of_first hfirst]

theorem evaluate_contendedLinks_bounds :
    (contendedLinks.validate : Except (ModelError Tangent) Unit) = .ok () ∧
    (contendedRanks.validate contendedLinks : Except (ModelError Tangent) Unit) = .ok () ∧
    ∃ course e, simulate contendedLinks contendedRanks 10 = .ok course ∧
      evaluate contendedLinks contendedRanks 10 = .ok e ∧ (∀ x, course.DividesBy contendedLinks x → x.value ≠ 0) ∧
      e.slowdown.length = 3 ∧ (∀ x ∈ e.slowdown, 1 ≤ x.value) ∧ 1 ≤ e.objective.value := by
  obtain ⟨course, e, hrun, he, hdivisors, hlength, hslowdown, -, hobjective, -⟩ :=
    evaluate_exact_bounds validate_contendedLinks validate_contendedRanks (show 1 ≤ 10 by decide)
  exact ⟨validate_contendedLinks, validate_contendedRanks, course, e, hrun, he, hdivisors, hlength, hslowdown,
    hobjective⟩

end LinkPriority

import LinkPriority.Proofs.Demand
import LinkPriority.Proofs.Scalar.Exact
import LinkPriority.Proofs.Sharing.Recurrence

/-! The epochs of a run have the times that ranks give: in the queues of an epoch every job stands with its factor
and its next communication, which are the cells of the next epoch. A run stops at the first epoch from the second
on whose mean slowdown is near that of the epoch before, and answers with the slowdowns it has then. -/

namespace LinkPriority

open Scalar

variable {α : Type} [Scalar α] {d : Demand α} {p : Priority} {orders : List (List Nat)} {link job : Nat}
  {order : List Nat}

/-! ### One epoch -/

/-- The epoch `e` has the times `x`. -/
structure Epoch.HasTimes (e : Epoch α) (d : Demand α) (x : Times α) : Prop where
  total : ∀ job < d.jobs, e.total job = x.total job
  comm : ∀ job < d.jobs, ∀ link < d.links, e.comm.getD job link zero = x.comm job link

/-- The place of a job in the queue of a link, in the epoch after one with the times `x`. -/
def Times.slot (x : Times α) (d : Demand α) (p : Priority) (link job : Nat) : Slot α :=
  ⟨job, x.factor job link, x.nextComm d p job link⟩

namespace Epoch

variable {e : Epoch α} {x : Times α}

theorem getElem?_queue (e : Epoch α) (link : Nat) (ahead : α) (order : List Nat) (i : Nat) :
    (queue d e link ahead order)[i]? = order[i]?.map fun job =>
      ⟨job, slackFactor (e.total job) (e.comm.getD job link zero), (d.load job link).comm *
        ((order.take i).map fun other =>
          slackFactor (e.total other) (e.comm.getD other link zero)).foldl (· * ·) ahead⟩ := by
  induction order generalizing ahead i with
  | nil => rfl
  | cons job behind ih =>
    cases i with
    | zero => rfl
    | succ i => exact ih _ i

theorem HasTimes.slackFactor_eq (h : e.HasTimes d x) (hjob : job < d.jobs) (hlink : link < d.links) :
    slackFactor (e.total job) (e.comm.getD job link zero) = x.factor job link := by
  rw [h.total job hjob, h.comm job hjob link hlink]
  rfl

/-- The queue of a link holds every job with its factor and its next communication. -/
theorem HasTimes.queue_eq (h : e.HasTimes d x) (hlink : link < d.links) (hq : p.IsQueue d link order) :
    queue d e link one order = order.map (x.slot d p link) := by
  refine List.ext_getElem? fun i => ?_
  rw [getElem?_queue, List.getElem?_map]
  cases hi : order[i]? with
  | none => rfl
  | some job =>
    obtain ⟨hjob, hactive⟩ := hq.mem_iff.1 (List.mem_of_getElem? hi)
    have hahead : ((order.take i).map fun other => slackFactor (e.total other) (e.comm.getD other link zero)) =
        (p.ahead d job link).map fun other => x.factor other link := by
      rw [hq.ahead_eq hi]
      exact List.map_congr_left fun other hother =>
        h.slackFactor_eq (hq.mem_iff.1 (List.mem_of_mem_take hother)).1 hlink
    rw [Option.map_some, Option.map_some, hahead, h.slackFactor_eq hjob hlink, Times.slot, Times.nextComm,
      if_pos hactive, Times.stretch]

theorem hasTimes_start (d : Demand α) : (start d).HasTimes d (Times.alone d) where
  total job hjob := by simp [Epoch.total, start, Times.alone, hjob]
  comm job hjob link hlink := Grid.getD_tabulate hjob hlink

/-! ### The next epoch -/

/-- The cells of the epoch that queues lead to. -/
def commEntries (queues : List (List (Slot α))) : List (Position × α) :=
  queues.zipIdx.flatMap fun (slots, link) => slots.map fun slot => (⟨slot.job, link⟩, slot.comm)

section Cells

variable (h : e.HasTimes d x) (horders : p.orders d = .ok orders)
include h horders

theorem HasTimes.mem_commEntries {cell : Position} {value : α} :
    (cell, value) ∈ commEntries (e.queues d orders) ↔ cell.link < d.links ∧
      (cell.job < d.jobs ∧ d.isActive cell.job cell.link = true) ∧ value = x.nextComm d p cell.job cell.link := by
  simp only [commEntries, List.mem_flatMap, Prod.exists, List.mem_map, Prod.mk.injEq, mem_queues]
  constructor
  · rintro ⟨slots, link, ⟨order, horder, rfl⟩, slot, hslot, rfl, rfl⟩
    obtain ⟨hlink, hq⟩ := Priority.isQueue_of_orders horders horder
    rw [h.queue_eq hlink hq] at hslot
    obtain ⟨job, hjob, rfl⟩ := List.mem_map.1 hslot
    exact ⟨hlink, hq.mem_iff.1 hjob, rfl⟩
  · rintro ⟨hlink, hjob, rfl⟩
    obtain ⟨order, horder, hq⟩ := Priority.exists_order horders hlink
    refine ⟨_, cell.link, ⟨order, horder, rfl⟩, x.slot d p cell.link cell.job, ?_, rfl, rfl⟩
    rw [h.queue_eq hlink hq]
    exact List.mem_map_of_mem (hq.mem_iff.2 hjob)

omit h in
/-- No cell comes up twice along the queues, however many jobs of each are left out. -/
theorem nodup_queueCells (e : Epoch α) {part : List Nat → List Nat} (hpart : ∀ jobs, (part jobs).Sublist jobs) :
    ((e.queues d orders).zipIdx.flatMap fun row =>
      (part (row.1.map Slot.job)).map fun job => (⟨job, row.2⟩ : Position)).Nodup := by
  refine Grid.nodup_flatMap_cells Prod.snd (fun row : List (Slot α) × Nat => part (row.1.map Slot.job)) ?_
    fun row hrow => ?_
  · rw [List.zipIdx_map_snd]
    exact List.nodup_range'
  · obtain ⟨order, horder, hslots⟩ := mem_queues.1 hrow
    rw [hslots, map_job_queue]
    exact (Priority.isQueue_of_orders horders horder).2.nodup.sublist (hpart order)

omit h in
theorem nodup_commEntries (e : Epoch α) : ((commEntries (e.queues d orders)).map Prod.fst).Nodup := by
  have hcells := nodup_queueCells horders e List.Sublist.refl
  simp only [List.map_map] at hcells
  simp only [commEntries, List.map_flatMap, List.map_map]
  exact hcells

/-- The next epoch has the next communication in every cell. -/
theorem HasTimes.getD_comm_next (hjob : job < d.jobs) (hlink : link < d.links) :
    (e.next d orders).comm.getD job link zero = x.nextComm d p job link := by
  have hlinks : ∀ entry ∈ commEntries (e.queues d orders), entry.1.link < d.links :=
    fun entry hentry => ((h.mem_commEntries horders).1 hentry).1
  change (Grid.ofEntries d.jobs d.links zero (commEntries (e.queues d orders))).getD job link zero = _
  cases hactive : d.isActive job link with
  | true =>
    exact Grid.getD_ofEntries_of_mem hlinks (nodup_commEntries horders e)
      ((h.mem_commEntries horders).2 ⟨hlink, ⟨hjob, hactive⟩, rfl⟩) hjob
  | false =>
    have hnone : ∀ entry ∈ commEntries (e.queues d orders), entry.1 ≠ ⟨job, link⟩ := by
      rintro ⟨cell, value⟩ hentry rfl
      obtain ⟨-, ⟨-, hcell⟩, -⟩ := (h.mem_commEntries horders).1 hentry
      simp [hactive] at hcell
    rw [Times.nextComm, hactive, if_neg Bool.false_ne_true]
    exact Grid.getD_ofEntries_of_forall_ne hlinks hjob hlink hnone

theorem HasTimes.next : (e.next d orders).HasTimes d (x.next d p) where
  total job hjob := by
    have hrow : (e.next d orders).comm.row job zero = (List.range d.links).map (x.nextComm d p job) := by
      have hlinks : (e.next d orders).comm.links = d.links := (Grid.shape_setAll _ _).2
      rw [Grid.row, hlinks]
      exact List.map_congr_left fun link hlink => h.getD_comm_next horders hjob (List.mem_range.1 hlink)
    have htotal : (e.next d orders).total job =
        d.jobCompute job + sum ((e.next d orders).comm.row job zero) := by
      simp [Epoch.total, Epoch.next, ofQueues, hjob]
    rw [htotal, hrow]
    rfl
  comm job hjob link hlink := h.getD_comm_next horders hjob hlink

end Cells

theorem HasTimes.slowdowns_eq (h : e.HasTimes d x) : e.slowdowns d = x.slowdowns d :=
  List.map_congr_left fun job hjob => by rw [h.total job (List.mem_range.1 hjob)]; rfl

/-- Where there are jobs, the objective is the mean slowdown. -/
theorem HasTimes.objective_eq (h : e.HasTimes d x) (hjobs : d.jobs ≠ 0) : e.objective d = x.meanSlowdown d := by
  rw [objective, h.slowdowns_eq, mean, if_neg, x.length_slowdowns, Times.meanSlowdown]
  rw [List.isEmpty_iff, ← List.length_eq_zero_iff, x.length_slowdowns]
  exact hjobs

/-! ### A run -/

/-- The epoch after so many epochs, as if nothing ever settled. -/
def after (d : Demand α) (orders : List (List Nat)) (epochs : Nat) : Epoch α :=
  (Epoch.next d orders)^[epochs] (start d)

theorem after_succ (d : Demand α) (orders : List (List Nat)) (epochs : Nat) :
    after d orders (epochs + 1) = (after d orders epochs).next d orders :=
  Function.iterate_succ_apply' _ _ _

theorem hasTimes_after (horders : p.orders d = .ok orders) (epochs : Nat) :
    (after d orders epochs).HasTimes d (Times.after d p epochs) := by
  induction epochs with
  | zero => exact hasTimes_start d
  | succ epochs ih =>
    rw [after_succ]
    exact ih.next horders

end Epoch

/-- The mean slowdown that an epoch is compared with; the first is not compared. -/
def previousObjective (d : Demand α) (orders : List (List Nat)) : (epochs : Nat) → Option α
  | 0 => none
  | epochs + 1 => some ((Epoch.after d orders (epochs + 1)).objective d)

theorem hasSettled_eq (horders : p.orders d = .ok orders) (hjobs : d.jobs ≠ 0) (epochs : Nat) :
    hasSettled (previousObjective d orders epochs) ((Epoch.after d orders (epochs + 1)).objective d) =
      Times.settles d p (epochs + 1) := by
  cases epochs with
  | zero => rfl
  | succ epochs =>
    rw [previousObjective, hasSettled, (Epoch.hasTimes_after horders _).objective_eq hjobs,
      (Epoch.hasTimes_after horders _).objective_eq hjobs]
    simp [Times.settles, settleTolerance]

/-- The epochs after the first `done` ones go on to the first that settles, or through the budget. -/
theorem exists_epochsFrom_eq (horders : p.orders d = .ok orders) (hjobs : d.jobs ≠ 0) (done budget : Nat) :
    ∃ count, ((List.range' (done + 1) budget).find? (Times.settles d p)).getD (done + budget) = done + count ∧
      epochsFrom d orders (previousObjective d orders done) (Epoch.after d orders done) budget =
        (List.range' (done + 1) count).map (Epoch.after d orders) := by
  induction budget generalizing done with
  | zero => exact ⟨0, rfl, rfl⟩
  | succ budget ih =>
    rw [epochsFrom, ← Epoch.after_succ, hasSettled_eq horders hjobs, List.range'_succ, List.find?_cons]
    cases hsettles : Times.settles d p (done + 1) with
    | true => exact ⟨1, rfl, rfl⟩
    | false =>
      obtain ⟨count, hlast, hepochs⟩ := ih (done + 1)
      refine ⟨count + 1, ?_, ?_⟩
      · rw [show done + (budget + 1) = done + 1 + budget by omega]
        exact hlast.trans (by omega)
      · rw [if_neg Bool.false_ne_true, List.range'_succ, List.map_cons]
        exact congrArg (Epoch.after d orders (done + 1) :: ·) hepochs

/-- The epochs of a run are those up to the first that settles, or all of the budget. -/
theorem epochsFrom_start (horders : p.orders d = .ok orders) (hjobs : d.jobs ≠ 0) (budget : Nat) :
    epochsFrom d orders none (.start d) budget =
      (List.range' 1 (Times.lastEpoch d p budget)).map (Epoch.after d orders) := by
  obtain ⟨count, hlast, hepochs⟩ := exists_epochsFrom_eq horders hjobs 0 budget
  simp only [Nat.zero_add] at hlast hepochs
  rw [Times.lastEpoch, hlast]
  exact hepochs

theorem getLast?_map_range' {β : Type} (f : Nat → β) (count : Nat) :
    (((List.range' 1 count).map f).getLast?).getD (f 0) = f count := by
  cases count with
  | zero => rfl
  | succ count => rw [List.range'_concat, List.map_append, List.map_singleton, List.getLast?_concat,
      Option.getD_some, Nat.one_mul, Nat.add_comm]

/-- The answer of the model: the slowdowns of the last epoch by ranks, unless their mean is not finite. -/
theorem evaluate_eq {budget : Nat} (horders : p.orders d = .ok orders) (hjobs : d.jobs ≠ 0)
    (hbudget : budget ≠ 0) :
    evaluate d p budget =
      if isFinite ((Times.final d p budget).meanSlowdown d) then
        .ok ⟨(Times.final d p budget).meanSlowdown d,
          (Times.final d p budget).slowdowns d, desirability d orders,
          Times.lastEpoch d p budget⟩
      else .error (.numeric ((Times.final d p budget).meanSlowdown d)
        (Times.lastEpoch d p budget)) := by
  have hcourse : simulate d p budget = .ok ⟨orders, epochsFrom d orders none (.start d) budget⟩ :=
    simulate_eq_ok.2 ⟨hbudget, horders, rfl⟩
  have hlast : (((List.range' 1 (Times.lastEpoch d p budget)).map (Epoch.after d orders)).getLast?).getD
      (.start d) = Epoch.after d orders (Times.lastEpoch d p budget) := getLast?_map_range' _ _
  have htimes : (Epoch.after d orders (Times.lastEpoch d p budget)).HasTimes d (Times.final d p budget) :=
    Epoch.hasTimes_after horders _
  simp only [evaluate_of_simulate hcourse, epochsFrom_start horders hjobs, Course.evaluation, hlast,
    htimes.objective_eq hjobs, htimes.slowdowns_eq, List.length_map, List.length_range']

/-- The model computes the recurrence by ranks: its epochs have those times, and its answer is read off the first
that settles, or off the last of the budget. -/
theorem evaluate_eq_recurrence (hd : (d.validate : Except (ModelError α) Unit) = .ok ())
    (hp : (p.validate d : Except (ModelError α) Unit) = .ok ()) (budget : Nat) :
    (budget = 0 → evaluate d p budget = .error .noEpochs) ∧
    (budget ≠ 0 →
      (∃ course, simulate d p budget = .ok course ∧ course.epochs.length = Times.lastEpoch d p budget ∧
        ∀ t (e : Epoch α), course.epochs[t]? = some e → e.HasTimes d (Times.after d p (t + 1))) ∧
      (isFinite ((Times.final d p budget).meanSlowdown d) = true →
        ∃ e, evaluate d p budget = .ok e ∧
          e.slowdown = (Times.final d p budget).slowdowns d ∧
          e.objective = (Times.final d p budget).meanSlowdown d ∧
          e.epochsRun = Times.lastEpoch d p budget) ∧
      (isFinite ((Times.final d p budget).meanSlowdown d) = false →
        evaluate d p budget = .error (.numeric
          ((Times.final d p budget).meanSlowdown d) (Times.lastEpoch d p budget)))) := by
  have hjobs : d.jobs ≠ 0 := Demand.jobs_ne_zero hd
  obtain ⟨orders, horders⟩ := Priority.exists_orders_iff.2 (Priority.validate_eq_ok.1 hp)
  refine ⟨?_, fun hbudget => ⟨?_, ?_, ?_⟩⟩
  · rintro rfl
    rfl
  · refine ⟨⟨orders, epochsFrom d orders none (.start d) budget⟩, simulate_eq_ok.2 ⟨hbudget, horders, rfl⟩, ?_, ?_⟩
    · rw [epochsFrom_start horders hjobs, List.length_map, List.length_range']
    · intro t e he
      rw [epochsFrom_start horders hjobs, List.getElem?_map, Option.map_eq_some_iff] at he
      obtain ⟨k, hk, rfl⟩ := he
      obtain ⟨hlt, rfl⟩ := List.getElem?_eq_some_iff.1 hk
      have hindex : (List.range' 1 (Times.lastEpoch d p budget))[t] = t + 1 := by
        rw [List.getElem_range', Nat.one_mul, Nat.add_comm]
      rw [hindex]
      exact Epoch.hasTimes_after horders (t + 1)
  · intro hfinite
    exact ⟨_, by rw [evaluate_eq horders hjobs hbudget, if_pos hfinite], rfl, rfl, rfl⟩
  · intro hfinite
    rw [evaluate_eq horders hjobs hbudget, hfinite, if_neg Bool.false_ne_true]

theorem evaluate_contendedLinks_eq_recurrence :
    (contendedLinks.validate : Except (ModelError Tangent) Unit) = .ok () ∧
    (contendedRanks.validate contendedLinks : Except (ModelError Tangent) Unit) = .ok () ∧
    Times.lastEpoch contendedLinks contendedRanks 10 = 3 ∧
    ∃ e, evaluate contendedLinks contendedRanks 10 = .ok e ∧
      e.slowdown = (Times.after contendedLinks contendedRanks 3).slowdowns contendedLinks ∧ e.epochsRun = 3 := by
  have hrun : (evaluate contendedLinks contendedRanks 10).map Evaluation.epochsRun = .ok 3 := by decide +kernel
  obtain ⟨-, hanswer, -⟩ :=
    (evaluate_eq_recurrence validate_contendedLinks validate_contendedRanks 10).2 (by decide)
  obtain ⟨e, he, hslowdown, -, hepochs⟩ := hanswer rfl
  rw [he] at hrun
  have hlast : Times.lastEpoch contendedLinks contendedRanks 10 = 3 := hepochs.symm.trans (Except.ok.inj hrun)
  rw [Times.final, hlast] at hslowdown
  exact ⟨validate_contendedLinks, validate_contendedRanks, hlast, e, he, hslowdown, hepochs.trans hlast⟩

end LinkPriority

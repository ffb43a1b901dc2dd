import Mathlib.Data.Set.Basic
import LinkPriority.Proofs.Sharing.Prediction

/-! Jobs that share no link do not slow each other. A group of jobs is set apart if no other job uses a link that one
of the group uses. What the model computes for its jobs then depends on their own rows and ranks alone: those ahead of
such a job are of the group, so their factors, and with them the job's next times, are the same whatever the others
ask for, and so on from epoch to epoch. Only the number of epochs, which the mean of all slowdowns decides, is not the
group's own. -/

namespace LinkPriority

open Scalar

variable {α : Type} [Scalar α] {group : Set Nat} {d d' : Demand α} {p p' : Priority} {job link : Nat}

/-- The jobs of the group ask for the same in both demands, and have their links for themselves in both. -/
structure Demand.SetApart (group : Set Nat) (d d' : Demand α) : Prop where
  jobs : d.jobs = d'.jobs
  links : d.links = d'.links
  load : ∀ job ∈ group, job < d.jobs → ∀ link < d.links, d.load job link = d'.load job link
  others : ∀ job ∈ group, job < d.jobs → ∀ link < d.links, d.isActive job link = true →
    ∀ other < d.jobs, other ∉ group → d.isActive other link = false ∧ d'.isActive other link = false

/-- The jobs of the group have the same rank in both tables wherever they are active. -/
def Priority.AgreeOnGroup (group : Set Nat) (d : Demand α) (p p' : Priority) : Prop :=
  ∀ job ∈ group, job < d.jobs → ∀ link < d.links, d.isActive job link = true → p.rank job link = p'.rank job link

namespace Demand.SetApart

variable (h : Demand.SetApart group d d')
include h

/-! ### The rows of the group -/

theorem row_eq (hjob : job ∈ group) (hlt : job < d.jobs) : d.row job .idle = d'.row job .idle := by
  rw [Grid.row, Grid.row, ← h.links]
  exact List.map_congr_left fun link hlink => h.load job hjob hlt link (List.mem_range.1 hlink)

theorem jobTotal_eq (hjob : job ∈ group) (hlt : job < d.jobs) : d.jobTotal job = d'.jobTotal job := by
  rw [Demand.jobTotal, Demand.jobTotal, h.row_eq hjob hlt]

theorem jobCompute_eq (hjob : job ∈ group) (hlt : job < d.jobs) : d.jobCompute job = d'.jobCompute job := by
  rw [Demand.jobCompute, Demand.jobCompute, h.row_eq hjob hlt]

theorem isActive_eq (hjob : job ∈ group) (hlt : job < d.jobs) (hlink : link < d.links) :
    d.isActive job link = d'.isActive job link := by
  rw [Demand.isActive, Demand.isActive, h.load job hjob hlt link hlink]

/-! ### The links of the group -/

section Link

variable (hjob : job ∈ group) (hlt : job < d.jobs) (hlink : link < d.links) (hactive : d.isActive job link = true)
include hjob hlt hlink hactive

/-- Whoever uses a link of the group is of the group. -/
theorem mem_group {other : Nat} (hother : other ∈ d.activeJobs link) : other ∈ group := by
  obtain ⟨hother, huses⟩ := Demand.mem_activeJobs.1 hother
  by_contra hnot
  have hidle := (h.others job hjob hlt link hlink hactive other hother hnot).1
  simp [huses] at hidle

theorem activeJobs_eq : d.activeJobs link = d'.activeJobs link := by
  rw [Demand.activeJobs, Demand.activeJobs, ← h.jobs]
  apply List.filter_congr
  intro other hother
  have hother' : other < d.jobs := List.mem_range.1 hother
  by_cases hmem : other ∈ group
  · exact h.isActive_eq hmem hother' hlink
  · obtain ⟨hidle, hidle'⟩ := h.others job hjob hlt link hlink hactive other hother' hmem
    rw [hidle, hidle']

/-- A link of the group has one queue under both demands. -/
theorem isQueue (hranks : p.AgreeOnGroup group d p') {order : List Nat} (hq : p.IsQueue d link order) :
    p'.IsQueue d' link order := by
  constructor
  · rw [← h.activeJobs_eq hjob hlt hlink hactive]
    exact hq.perm
  · rw [← hq.ranks]
    apply List.map_congr_left
    intro other hother
    obtain ⟨hother', huses⟩ := hq.mem_iff.1 hother
    have hmem := h.mem_group hjob hlt hlink hactive (hq.perm.mem_iff.1 hother)
    exact (hranks other hmem hother' link hlink huses).symm

theorem ahead_eq (hranks : p.AgreeOnGroup group d p') (hfits : p.Fits d) :
    p.ahead d job link = p'.ahead d' job link := by
  obtain ⟨order, hq⟩ := hfits.queue link hlink
  have hplace := hq.getElem?_rank (hq.mem_iff.2 ⟨hlt, hactive⟩)
  rw [hq.ahead_eq hplace, (h.isQueue hjob hlt hlink hactive hranks hq).ahead_eq hplace]

end Link

end Demand.SetApart

/-! ### The times of the group -/

namespace Times

/-- The times are the same for the jobs of the group. -/
structure AgreeOnGroup (group : Set Nat) (d : Demand α) (x x' : Times α) : Prop where
  total : ∀ job ∈ group, job < d.jobs → x.total job = x'.total job
  comm : ∀ job ∈ group, job < d.jobs → ∀ link < d.links, x.comm job link = x'.comm job link

variable {x x' : Times α} (h : Demand.SetApart group d d')
include h

theorem agreeOnGroup_alone : (alone d).AgreeOnGroup group d (alone d') where
  total _ hjob hlt := h.jobTotal_eq hjob hlt
  comm job hjob hlt link hlink := congrArg Load.comm (h.load job hjob hlt link hlink)

theorem AgreeOnGroup.slowdown_eq (hx : x.AgreeOnGroup group d x') (hjob : job ∈ group) (hlt : job < d.jobs) :
    x.slowdown d job = x'.slowdown d' job := by
  rw [slowdown, slowdown, hx.total job hjob hlt, h.jobTotal_eq hjob hlt]

omit h in
theorem AgreeOnGroup.factor_eq (hx : x.AgreeOnGroup group d x') (hjob : job ∈ group) (hlt : job < d.jobs)
    (hlink : link < d.links) : x.factor job link = x'.factor job link := by
  rw [factor, factor, hx.total job hjob hlt, hx.comm job hjob hlt link hlink]

section Next

variable (hranks : p.AgreeOnGroup group d p') (hfits : p.Fits d)
include hranks hfits

/-- All that stretches a job of the group is of the group. -/
theorem AgreeOnGroup.nextComm_eq (hx : x.AgreeOnGroup group d x') (hjob : job ∈ group) (hlt : job < d.jobs)
    (hlink : link < d.links) : x.nextComm d p job link = x'.nextComm d' p' job link := by
  rw [nextComm, nextComm, ← h.isActive_eq hjob hlt hlink]
  split
  · next hactive =>
    have hfactors : (p.ahead d job link).map (fun other => x.factor other link) =
        (p'.ahead d' job link).map fun other => x'.factor other link := by
      rw [← h.ahead_eq hjob hlt hlink hactive hranks hfits]
      apply List.map_congr_left
      intro other hother
      have huses := (Priority.mem_ahead.1 hother).1
      exact hx.factor_eq (h.mem_group hjob hlt hlink hactive (Demand.mem_activeJobs.2 huses)) huses.1 hlink
    rw [stretch, stretch, hfactors, h.load job hjob hlt link hlink]
  · rfl

theorem AgreeOnGroup.next (hx : x.AgreeOnGroup group d x') : (x.next d p).AgreeOnGroup group d (x'.next d' p') where
  total job hjob hlt := by
    have hrow : (List.range d.links).map (x.nextComm d p job) =
        (List.range d'.links).map (x'.nextComm d' p' job) := by
      rw [← h.links]
      exact List.map_congr_left fun link hlink =>
        hx.nextComm_eq h hranks hfits hjob hlt (List.mem_range.1 hlink)
    show d.jobCompute job + sum ((List.range d.links).map (x.nextComm d p job)) =
      d'.jobCompute job + sum ((List.range d'.links).map (x'.nextComm d' p' job))
    rw [hrow, h.jobCompute_eq hjob hlt]
  comm _ hjob hlt _ hlink := hx.nextComm_eq h hranks hfits hjob hlt hlink

theorem agreeOnGroup_after (epochs : Nat) : (after d p epochs).AgreeOnGroup group d (after d' p' epochs) := by
  induction epochs with
  | zero => exact agreeOnGroup_alone h
  | succ epochs ih => exact ih.next h hranks hfits

theorem slot_alone_eq (hjob : job ∈ group) (hlt : job < d.jobs) (hlink : link < d.links) :
    (alone d).slot d p link job = (alone d').slot d' p' link job := by
  have hx := agreeOnGroup_alone h
  rw [slot, slot, hx.factor_eq hjob hlt hlink, hx.nextComm_eq h hranks hfits hjob hlt hlink]

end Next

end Times

/-! ### The model's word on the group -/

section Desirability

variable {orders orders' : List (List Nat)}

theorem Demand.SetApart.getD_desirability_eq (h : Demand.SetApart group d d')
    (hranks : p.AgreeOnGroup group d p') (horders : p.orders d = .ok orders) (horders' : p'.orders d' = .ok orders')
    (hjob : job ∈ group) (hlt : job < d.jobs) (hlink : link < d.links) :
    (desirability d orders).getD job link zero = (desirability d' orders').getD job link zero := by
  have hfits : p.Fits d := Priority.exists_orders_iff.1 ⟨orders, horders⟩
  have hlt' : job < d'.jobs := h.jobs ▸ hlt
  have hlink' : link < d'.links := h.links ▸ hlink
  have hsame := h.isActive_eq hjob hlt hlink
  by_cases hpromotable : p.Promotable d ⟨job, link⟩
  · have hactive : d.isActive job link = true := hpromotable.active
    -- the job ahead uses the link too, so it is of the group
    obtain ⟨ahead, huses, hrank⟩ := hpromotable.exists_ahead hfits
    have hahead : p.rank job link = p.rank ahead link + 1 := hrank
    have hpeer := h.mem_group hjob hlt hlink hactive (Demand.mem_activeJobs.2 huses)
    have huses' : ahead < d'.jobs ∧ d'.isActive ahead link = true :=
      ⟨h.jobs ▸ huses.1, h.isActive_eq hpeer huses.1 hlink ▸ huses.2⟩
    have hahead' : p'.rank job link = p'.rank ahead link + 1 := by
      rw [← hranks job hjob hlt link hlink hactive, ← hranks _ hpeer huses.1 link hlink huses.2]
      exact hahead
    rw [getD_desirability horders hlink huses ⟨hlt, hactive⟩ hahead,
      getD_desirability horders' hlink' huses' ⟨hlt', hsame ▸ hactive⟩ hahead', overtaking, overtaking,
      Times.slot_alone_eq h hranks hfits hjob hlt hlink,
      Times.slot_alone_eq h hranks hfits hpeer huses.1 hlink]
    exact congrArg₂ (fun own ahead => _ / own + _ / ahead) (h.jobTotal_eq hjob hlt)
      (h.jobTotal_eq hpeer huses.1)
  · have hpromotable' : ¬p'.Promotable d' ⟨job, link⟩ := by
      rintro ⟨-, -, hactive, hpos⟩
      rw [← hsame] at hactive
      refine hpromotable ⟨hlink, hlt, hactive, ?_⟩
      rw [Priority.rankAt, hranks job hjob hlt link hlink hactive]
      exact hpos
    rw [getD_desirability_of_not_promotable horders hlt hlink hpromotable,
      getD_desirability_of_not_promotable horders' hlt' hlink' hpromotable']

end Desirability

/-- An answer of the model is read off its last epoch. -/
theorem exists_orders_of_evaluate {budget : Nat} {e : Evaluation α} (hjobs : d.jobs ≠ 0)
    (he : evaluate d p budget = .ok e) :
    ∃ orders, p.orders d = .ok orders ∧ e.desirability = desirability d orders ∧
      e.slowdown = (Times.after d p e.epochsRun).slowdowns d := by
  obtain ⟨course, hcourse, -⟩ := Except.bind_eq_ok.1 he
  obtain ⟨hbudget, horders, -⟩ := simulate_eq_ok.1 hcourse
  rw [evaluate_eq horders hjobs hbudget] at he
  split at he
  · obtain rfl := Except.ok.inj he
    exact ⟨course.orders, horders, rfl, rfl⟩
  · simp at he

/-- A group of jobs that is set apart is not affected by the others. Whatever these ask for and however they are
ranked, the model predicts the same for every cell of the group, and after as many epochs it has slowed every job of
the group by the same. -/
theorem evaluate_setApart_eq {budget budget' : Nat} {e e' : Evaluation α} (h : Demand.SetApart group d d')
    (hranks : p.AgreeOnGroup group d p') (he : evaluate d p budget = .ok e) (he' : evaluate d' p' budget' = .ok e') :
    (∀ job ∈ group, job < d.jobs → ∀ link < d.links,
      e.desirability.getD job link zero = e'.desirability.getD job link zero) ∧
    (e.epochsRun = e'.epochsRun → ∀ job ∈ group, job < d.jobs →
      ∃ slowdown, e.slowdown[job]? = some slowdown ∧ e'.slowdown[job]? = some slowdown) := by
  constructor
  · intro job hjob hlt link hlink
    have hjobs : d.jobs ≠ 0 := Nat.ne_zero_of_lt hlt
    obtain ⟨orders, horders, hpredicted, -⟩ := exists_orders_of_evaluate hjobs he
    obtain ⟨orders', horders', hpredicted', -⟩ := exists_orders_of_evaluate (h.jobs ▸ hjobs) he'
    rw [hpredicted, hpredicted']
    exact h.getD_desirability_eq hranks horders horders' hjob hlt hlink
  · intro hepochs job hjob hlt
    have hjobs : d.jobs ≠ 0 := Nat.ne_zero_of_lt hlt
    obtain ⟨orders, horders, -, hslowdown⟩ := exists_orders_of_evaluate hjobs he
    obtain ⟨-, -, -, hslowdown'⟩ := exists_orders_of_evaluate (h.jobs ▸ hjobs) he'
    have hfits : p.Fits d := Priority.exists_orders_iff.1 ⟨orders, horders⟩
    refine ⟨(Times.after d p e.epochsRun).slowdown d job, ?_, ?_⟩
    · rw [hslowdown]
      exact Times.getElem?_slowdowns _ hlt
    · rw [hslowdown', ← hepochs,
        (Times.agreeOnGroup_after h hranks hfits e.epochsRun).slowdown_eq h hjob hlt]
      exact Times.getElem?_slowdowns _ (h.jobs ▸ hlt)

/-- Two jobs on one link and two on another, of which the last asks for `last`. -/
def twoPairs (last : Load Tangent) : Demand Tangent :=
  ⟨⟨4, 2, #[⟨⟨10⟩, ⟨30⟩⟩, .idle, ⟨⟨5⟩, ⟨10⟩⟩, .idle, .idle, ⟨⟨20⟩, ⟨40⟩⟩, .idle, last]⟩⟩

/-- The first pair in the order of its numbers, the second with these ranks. -/
def twoPairsRanks (third fourth : Nat) : Priority := ⟨⟨4, 2, #[0, 0, 1, 0, 0, third, 0, fourth]⟩, rfl⟩

theorem evaluate_twoPairs_eq : ∃ e e',
    Demand.SetApart {job | job < 2} (twoPairs ⟨⟨10⟩, ⟨20⟩⟩) (twoPairs ⟨⟨1⟩, ⟨90⟩⟩) ∧
    Priority.AgreeOnGroup {job | job < 2} (twoPairs ⟨⟨10⟩, ⟨20⟩⟩) (twoPairsRanks 0 1) (twoPairsRanks 1 0) ∧
    evaluate (twoPairs ⟨⟨10⟩, ⟨20⟩⟩) (twoPairsRanks 0 1) 10 = .ok e ∧
    evaluate (twoPairs ⟨⟨1⟩, ⟨90⟩⟩) (twoPairsRanks 1 0) 2 = .ok e' ∧ e.epochsRun = e'.epochsRun ∧
    e.slowdown[3]? = some ⟨7 / 3⟩ ∧ e'.slowdown[3]? = some ⟨1⟩ ∧
    e.desirability.getD 1 0 zero = e'.desirability.getD 1 0 zero ∧
    ∃ slowdown, e.slowdown[1]? = some slowdown ∧ e'.slowdown[1]? = some slowdown := by
  have hapart : Demand.SetApart {job | job < 2} (twoPairs ⟨⟨10⟩, ⟨20⟩⟩) (twoPairs ⟨⟨1⟩, ⟨90⟩⟩) := by
    have hfirst : ∀ job < 2, ∀ link < 2, (twoPairs ⟨⟨10⟩, ⟨20⟩⟩).isActive job link = true → link = 0 := by
      decide +kernel
    have hothers : ∀ other < 4, ¬other < 2 → (twoPairs ⟨⟨10⟩, ⟨20⟩⟩).isActive other 0 = false ∧
        (twoPairs ⟨⟨1⟩, ⟨90⟩⟩).isActive other 0 = false := by decide +kernel
    refine ⟨rfl, rfl, ?_, ?_⟩
    · show ∀ job < 2, _
      decide +kernel
    · intro job hjob _ link hlink hactive other hother hnot
      obtain rfl := hfirst job hjob link hlink hactive
      exact hothers other hother hnot
  have hranks : Priority.AgreeOnGroup {job | job < 2} (twoPairs ⟨⟨10⟩, ⟨20⟩⟩) (twoPairsRanks 0 1)
      (twoPairsRanks 1 0) := by
    show ∀ job < 2, _ → ∀ link < 2, _
    decide +kernel
  have hrun : (evaluate (twoPairs ⟨⟨10⟩, ⟨20⟩⟩) (twoPairsRanks 0 1) 10).map
      (fun e => (e.epochsRun, e.slowdown[3]?)) = .ok (2, some ⟨7 / 3⟩) := by decide +kernel
  have hrun' : (evaluate (twoPairs ⟨⟨1⟩, ⟨90⟩⟩) (twoPairsRanks 1 0) 2).map
      (fun e => (e.epochsRun, e.slowdown[3]?)) = .ok (2, some ⟨1⟩) := by decide +kernel
  obtain ⟨e, he, hread⟩ := Except.map_eq_ok.1 hrun
  obtain ⟨e', he', hread'⟩ := Except.map_eq_ok.1 hrun'
  obtain ⟨hepochs, hlast⟩ := Prod.mk.inj hread
  obtain ⟨hepochs', hlast'⟩ := Prod.mk.inj hread'
  obtain ⟨hcells, hslowdowns⟩ := evaluate_setApart_eq hapart hranks he he'
  exact ⟨e, e', hapart, hranks, he, he', hepochs.trans hepochs'.symm, hlast, hlast',
    hcells 1 (show 1 < 2 by decide) (by decide) 0 (by decide),
    hslowdowns (hepochs.trans hepochs'.symm) 1 (show 1 < 2 by decide) (by decide)⟩

end LinkPriority

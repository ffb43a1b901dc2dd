import Mathlib.Algebra.BigOperators.Ring.List
import LinkPriority.Candidates
import LinkPriority.WarmStart
import LinkPriority.Proofs.Demand
import LinkPriority.Proofs.Evaluation
import LinkPriority.Proofs.Scalar.Exact

/-! The unit of time. A demand whose times and volumes are all multiplied by the same positive number is the same
demand in another unit. The times of every epoch are then multiplied by that number too, while factors, slowdowns and
predicted effects are ratios of times and stay what they are; so the model says the same, in exact numbers. -/

namespace LinkPriority

open Scalar

/-! ### Tables with a function applied to every cell -/

private theorem getD_array_map {β γ : Type} {f : β → γ} {value : γ} {default : β} (hdefault : f default = value)
    (xs : Array β) (i : Nat) : (xs.map f).getD i value = f (xs.getD i default) := by
  rw [Array.getD_eq_getD_getElem?, Array.getD_eq_getD_getElem?, Array.getElem?_map, ← hdefault]
  exact Option.getD_map f default xs[i]?

namespace Grid

variable {β γ : Type} {f : β → γ}

def map (f : β → γ) (g : Grid β) : Grid γ := ⟨g.jobs, g.links, g.cells.map f⟩

theorem getD_map {value : γ} {default : β} (hdefault : f default = value) (g : Grid β) (job link : Nat) :
    (g.map f).getD job link value = f (g.getD job link default) :=
  getD_array_map hdefault g.cells (job * g.links + link)

theorem row_map {value : γ} {default : β} (hdefault : f default = value) (g : Grid β) (job : Nat) :
    (g.map f).row job value = (g.row job default).map f := by
  rw [row, row, List.map_map]
  exact List.map_congr_left fun link _ => getD_map hdefault g job link

theorem map_tabulate (jobs links : Nat) (cell : Nat → Nat → β) :
    (tabulate jobs links cell).map f = tabulate jobs links fun job link => f (cell job link) := by
  rw [map, tabulate, tabulate, Array.map_ofFn]
  rfl

theorem map_set (g : Grid β) (job link : Nat) (value : β) :
    (g.set job link value).map f = (g.map f).set job link (f value) := by
  rw [map, set, set, map, Array.map_setIfInBounds]

theorem map_setAll (g : Grid β) (entries : List (Position × β)) :
    (g.setAll entries).map f = (g.map f).setAll (entries.map (Prod.map id f)) := by
  induction entries generalizing g with
  | nil => rfl
  | cons entry rest ih =>
    show ((g.set entry.1.job entry.1.link entry.2).setAll rest).map f = _
    rw [ih, map_set]
    rfl

theorem map_ofEntries (jobs links : Nat) (value : β) (entries : List (Position × β)) :
    (ofEntries jobs links value entries).map f = ofEntries jobs links (f value) (entries.map (Prod.map id f)) := by
  have hfill : (fill jobs links value).map f = fill jobs links (f value) := by
    rw [map, fill, fill, Array.map_replicate]
  rw [ofEntries, ofEntries, map_setAll, hfill]

theorem entries_map (g : Grid β) : (g.map f).entries = g.entries.map (Prod.map id f) := by
  rw [entries, entries, map, Array.toList_map, List.zipIdx_map, List.map_map, List.map_map]
  rfl

end Grid

/-! ### Another unit -/

section Unit

variable {α : Type} [Scalar α]

def Load.scale (c : α) (load : Load α) : Load α := ⟨c * load.compute, c * load.comm⟩

/-- The demand with all times and volumes multiplied by `c`. -/
def Demand.scale (c : α) (d : Demand α) : Demand α := ⟨d.toGrid.map (Load.scale c)⟩

def Epoch.scale (c : α) (e : Epoch α) : Epoch α := ⟨e.totals.map (c * ·), e.comm.map (c * ·)⟩

def Slot.scale (c : α) (slot : Slot α) : Slot α := { slot with comm := c * slot.comm }

def Course.scale (c : α) (course : Course α) : Course α := ⟨course.orders, course.epochs.map (Epoch.scale c)⟩

end Unit

variable {ln sqrt : ℚ → ℚ} {c x y : Exact ln sqrt} {d : Demand (Exact ln sqrt)} {e : Epoch (Exact ln sqrt)}
  {orders : List (List Nat)} {p : Priority} {budget : Nat}

/-! ### Numbers -/

namespace Exact

theorem scaled_zero : c * zero = zero := eq_of_value_eq (by simp)

theorem scaled_add : c * x + c * y = c * (x + y) := eq_of_value_eq (by simp [mul_add])

theorem scaled_sub : c * x - c * y = c * (x - y) := eq_of_value_eq (by simp [mul_sub])

theorem scaled_mul : c * x * y = c * (x * y) := eq_of_value_eq (by simp [mul_assoc])

theorem scaled_over : c * x / y = c * (x / y) := eq_of_value_eq (by simp [mul_div_assoc])

theorem sum_scaled (xs : List (Exact ln sqrt)) : sum (xs.map (c * ·)) = c * sum xs := by
  apply eq_of_value_eq
  rw [value_sum, value_mul, value_sum, List.map_map, ← List.sum_map_mul_left]
  rfl

section Positive

variable (hc : 0 < c.value)
include hc

/-- Ratios do not depend on the unit. -/
theorem scaled_div : c * x / (c * y) = x / y := eq_of_value_eq (by simp [mul_div_mul_left _ _ hc.ne'])

theorem scaled_le_zero : le (c * x) zero = le x zero := by
  rw [Bool.eq_iff_iff, le_eq_true, le_eq_true, value_mul, value_zero, ← not_lt, ← not_lt,
    mul_pos_iff_of_pos_left hc]

theorem zero_le_scaled : le zero (c * x) = le zero x := by
  rw [Bool.eq_iff_iff, le_eq_true, le_eq_true, value_mul, value_zero, mul_nonneg_iff_of_pos_left hc]

theorem zero_lt_scaled : lt zero (c * x) = lt zero x := by
  rw [Bool.eq_iff_iff, lt_eq_true, lt_eq_true, value_mul, value_zero, mul_pos_iff_of_pos_left hc]

theorem isZero_scaled : isZero (c * x) = isZero x := by rw [isZero, isZero, scaled_le_zero hc, zero_le_scaled hc]

theorem isAmount_scaled : isAmount (c * x) = isAmount x := by
  rw [isAmount, isAmount, zero_le_scaled hc]
  rfl

end Positive

end Exact

/-! ### Demands -/

namespace Demand

theorem scale_idle : (Load.idle : Load (Exact ln sqrt)).scale c = .idle :=
  congrArg₂ Load.mk Exact.scaled_zero Exact.scaled_zero

theorem load_scale (job link : Nat) : (d.scale c).load job link = (d.load job link).scale c :=
  Grid.getD_map scale_idle d.toGrid job link

/-- What is a sum over the links of a job is multiplied like its terms. -/
theorem sum_row_scale {part : Load (Exact ln sqrt) → Exact ln sqrt}
    (hpart : ∀ load, part (load.scale c) = c * part load) (job : Nat) :
    sum (((d.scale c).row job .idle).map part) = c * sum ((d.row job .idle).map part) := by
  have hrow : (d.scale c).row job .idle = (d.row job .idle).map (Load.scale c) :=
    Grid.row_map scale_idle d.toGrid job
  have hparts : part ∘ Load.scale c = (c * ·) ∘ part := funext hpart
  rw [hrow, List.map_map, hparts, ← List.map_map, Exact.sum_scaled]

theorem jobTotal_scale (job : Nat) : (d.scale c).jobTotal job = c * d.jobTotal job :=
  sum_row_scale (fun _ => Exact.scaled_add) job

theorem jobComm_scale (job : Nat) : (d.scale c).jobComm job = c * d.jobComm job :=
  sum_row_scale (fun _ => rfl) job

theorem jobCompute_scale (job : Nat) : (d.scale c).jobCompute job = c * d.jobCompute job :=
  sum_row_scale (fun _ => rfl) job

variable (hc : 0 < c.value)
include hc

theorem isActive_scale (job link : Nat) : (d.scale c).isActive job link = d.isActive job link := by
  rw [isActive, isActive, load_scale, Load.isActive, Load.isActive, Load.scale, Exact.isZero_scaled hc,
    Exact.isZero_scaled hc]

theorem activeJobs_scale (link : Nat) : (d.scale c).activeJobs link = d.activeJobs link :=
  List.filter_congr fun job _ => isActive_scale hc job link

/-- In another unit a demand is accepted exactly if it was. -/
theorem validate_scale : ((d.scale c).validate : Except (ModelError (Exact ln sqrt)) Unit) = .ok () ↔
    (d.validate : Except (ModelError (Exact ln sqrt)) Unit) = .ok () := by
  have hamount : ∀ load : Load (Exact ln sqrt), (load.scale c).isAmount = load.isAmount := by
    intro load
    rw [Load.isAmount, Load.isAmount, Load.scale, Exact.isAmount_scaled hc, Exact.isAmount_scaled hc]
  have hentries : (d.scale c).entries = d.entries.map (Prod.map id (Load.scale c)) := Grid.entries_map d.toGrid
  have hsize : (d.scale c).cells.size = d.cells.size := Array.size_map
  rw [validate_eq_ok, validate_eq_ok, hsize, hentries]
  refine and_congr Iff.rfl (and_congr Iff.rfl (and_congr Iff.rfl ⟨fun h cell load hmem => ?_, ?_⟩))
  · rw [← hamount]
    exact h cell _ (List.mem_map_of_mem hmem)
  · intro h cell load hmem
    obtain ⟨⟨cell', load'⟩, hmem', heq⟩ := List.mem_map.1 hmem
    obtain ⟨rfl, rfl⟩ := Prod.mk.inj heq
    rw [hamount]
    exact h _ _ hmem'

end Demand

/-! ### Epochs -/

namespace Epoch

theorem start_scale (d : Demand (Exact ln sqrt)) : start (d.scale c) = (start d).scale c := by
  have htotals : (Array.range d.jobs).map (d.scale c).jobTotal =
      ((Array.range d.jobs).map d.jobTotal).map (c * ·) := by
    rw [Array.map_map]
    exact congrArg (Array.map · _) (funext Demand.jobTotal_scale)
  have hcomm : Grid.tabulate d.jobs d.links (fun job link => ((d.scale c).load job link).comm) =
      (Grid.tabulate d.jobs d.links fun job link => (d.load job link).comm).map (c * ·) := by
    rw [Grid.map_tabulate]
    exact congrArg _ (funext₂ fun job link => congrArg Load.comm (Demand.load_scale job link))
  exact congrArg₂ Epoch.mk htotals hcomm

theorem total_scale (job : Nat) : (e.scale c).total job = c * e.total job :=
  getD_array_map Exact.scaled_zero e.totals job

theorem getD_comm_scale (job link : Nat) : (e.scale c).comm.getD job link zero = c * e.comm.getD job link zero :=
  Grid.getD_map Exact.scaled_zero e.comm job link

theorem ofQueues_scale (queues : List (List (Slot (Exact ln sqrt)))) :
    ofQueues (d.scale c) (queues.map (List.map (Slot.scale c))) = (ofQueues d queues).scale c := by
  have hcells : ((queues.map (List.map (Slot.scale c))).zipIdx.flatMap fun (slots, link) =>
      slots.map fun slot => ((⟨slot.job, link⟩ : Position), slot.comm)) =
      (queues.zipIdx.flatMap fun (slots, link) => slots.map fun slot =>
        ((⟨slot.job, link⟩ : Position), slot.comm)).map (Prod.map id (c * ·)) := by
    rw [List.zipIdx_map, List.flatMap_map, List.map_flatMap]
    refine congrArg (List.flatMap · _) (funext fun ⟨slots, link⟩ => ?_)
    show (slots.map (Slot.scale c)).map (fun slot => (⟨slot.job, link⟩, slot.comm)) =
      (slots.map fun slot => ((⟨slot.job, link⟩ : Position), slot.comm)).map (Prod.map id (c * ·))
    rw [List.map_map, List.map_map]
    rfl
  have hcomm : (ofQueues (d.scale c) (queues.map (List.map (Slot.scale c)))).comm =
      (ofQueues d queues).comm.map (c * ·) := by
    show Grid.ofEntries d.jobs d.links zero _ = (Grid.ofEntries d.jobs d.links zero _).map _
    rw [hcells, Grid.map_ofEntries, Exact.scaled_zero]
  have htotals : (ofQueues (d.scale c) (queues.map (List.map (Slot.scale c)))).totals =
      (ofQueues d queues).totals.map (c * ·) := by
    show (Array.range d.jobs).map (fun job => (d.scale c).jobCompute job +
      sum ((ofQueues (d.scale c) (queues.map (List.map (Slot.scale c)))).comm.row job zero)) =
      ((Array.range d.jobs).map fun job => d.jobCompute job + sum ((ofQueues d queues).comm.row job zero)).map (c * ·)
    rw [Array.map_map, hcomm]
    refine congrArg (Array.map · _) (funext fun job => ?_)
    rw [Grid.row_map Exact.scaled_zero, Exact.sum_scaled, Demand.jobCompute_scale, Exact.scaled_add]
    rfl
  exact congrArg₂ Epoch.mk htotals hcomm

variable (hc : 0 < c.value)
include hc

theorem slackFactor_scaled : slackFactor (c * x) (c * y) = slackFactor x y := by
  rw [slackFactor, slackFactor, Exact.scaled_sub, Exact.scaled_le_zero hc, Exact.scaled_div hc]

theorem queue_scale (link : Nat) (ahead : Exact ln sqrt) (order : List Nat) :
    queue (d.scale c) (e.scale c) link ahead order = (queue d e link ahead order).map (Slot.scale c) := by
  induction order generalizing ahead with
  | nil => rfl
  | cons job behind ih =>
    rw [queue, queue, total_scale, getD_comm_scale, slackFactor_scaled hc, ih, Demand.load_scale]
    exact congrArg (Slot.mk job _ · :: _) Exact.scaled_mul

theorem queues_scale : (e.scale c).queues (d.scale c) orders = (e.queues d orders).map (List.map (Slot.scale c)) := by
  apply List.ext_getElem?
  intro link
  rw [queues, queues, List.getElem?_map, List.getElem?_mapIdx, List.getElem?_mapIdx, Option.map_map]
  exact congrArg (Option.map · _) (funext fun order => queue_scale hc link one order)

theorem next_scale : (e.scale c).next (d.scale c) orders = (e.next d orders).scale c := by
  rw [next, queues_scale hc, ofQueues_scale, next]

theorem slowdown_scaled : slowdown (c * x) (c * y) = slowdown x y := by
  rw [slowdown, slowdown, Exact.zero_lt_scaled hc, Exact.scaled_div hc]

theorem slowdowns_scale : (e.scale c).slowdowns (d.scale c) = e.slowdowns d := by
  refine List.map_congr_left fun job _ => ?_
  rw [total_scale, Demand.jobTotal_scale, slowdown_scaled hc]

theorem objective_scale : (e.scale c).objective (d.scale c) = e.objective d := by
  rw [objective, slowdowns_scale hc, objective]

end Epoch

/-! ### What the model says -/

section Model

variable (hc : 0 < c.value)
include hc

theorem epochsFrom_scale (previous : Option (Exact ln sqrt)) (e : Epoch (Exact ln sqrt)) (budget : Nat) :
    epochsFrom (d.scale c) orders previous (e.scale c) budget =
      (epochsFrom d orders previous e budget).map (Epoch.scale c) := by
  induction budget generalizing previous e with
  | zero => rfl
  | succ budget ih =>
    simp only [epochsFrom, Epoch.next_scale hc, Epoch.objective_scale hc]
    split
    · rfl
    · rw [ih, List.map_cons]

theorem overtakings_scale (link : Nat) (slots : List (Slot (Exact ln sqrt))) :
    overtakings (d.scale c) link (slots.map (Slot.scale c)) = overtakings d link slots := by
  induction slots with
  | nil => rfl
  | cons peer rest ih =>
    cases rest with
    | nil => rfl
    | cons slot behind =>
      have hgain : (c * slot.comm / peer.factor - c * slot.comm) / (d.scale c).jobTotal slot.job =
          (slot.comm / peer.factor - slot.comm) / d.jobTotal slot.job := by
        rw [Exact.scaled_over, Exact.scaled_sub, Demand.jobTotal_scale, Exact.scaled_div hc]
      have hloss : (c * peer.comm * slot.factor - c * peer.comm) / (d.scale c).jobTotal peer.job =
          (peer.comm * slot.factor - peer.comm) / d.jobTotal peer.job := by
        rw [Exact.scaled_mul, Exact.scaled_sub, Demand.jobTotal_scale, Exact.scaled_div hc]
      rw [overtakings, ← ih, ← hgain, ← hloss]
      rfl

theorem predictions_scale : predictions (d.scale c) orders = predictions d orders := by
  rw [predictions, predictions, Epoch.start_scale, Epoch.queues_scale hc, List.zipIdx_map, List.flatMap_map]
  exact congrArg (List.flatMap · _) (funext fun ⟨slots, link⟩ => overtakings_scale hc link slots)

theorem desirability_scale : desirability (d.scale c) orders = desirability d orders := by
  rw [desirability, predictions_scale hc]
  rfl

theorem orders_scale : (p.orders (d.scale c) : Except (ModelError (Exact ln sqrt)) _) = p.orders d := by
  have hlinkOrder : ∀ link, p.linkOrder (d.scale c) link = p.linkOrder d link := by
    intro link
    rw [Priority.linkOrder, Priority.linkOrder, Demand.activeJobs_scale hc]
  rw [Priority.orders, Priority.orders, funext hlinkOrder]
  rfl

/-- The run of the model is the same run, timed in another unit. -/
theorem simulate_scale : simulate (d.scale c) p budget = (simulate d p budget).map (Course.scale c) := by
  rw [simulate, simulate, orders_scale hc]
  split
  · rfl
  · cases p.orders d with
    | error fault => rfl
    | ok orders =>
      show Except.ok (Course.mk orders (epochsFrom (d.scale c) orders none (.start (d.scale c)) budget)) = _
      rw [Epoch.start_scale, epochsFrom_scale hc]
      rfl

namespace Course

variable (course : Course (Exact ln sqrt))

theorem objectives_scale : (course.scale c).objectives (d.scale c) = course.objectives d := by
  rw [objectives, objectives, scale, List.map_map]
  exact List.map_congr_left fun e _ => Epoch.objective_scale hc

theorem evaluation_scale : (course.scale c).evaluation (d.scale c) = course.evaluation d := by
  have hlast : (course.scale c).epochs.getLast?.getD (.start (d.scale c)) =
      (course.epochs.getLast?.getD (.start d)).scale c := by
    rw [scale, List.getLast?_map, Epoch.start_scale]
    exact Option.getD_map _ _ _
  have hlength : (course.scale c).epochs.length = course.epochs.length := List.length_map _
  rw [evaluation, evaluation, hlast, hlength, Epoch.objective_scale hc, Epoch.slowdowns_scale hc,
    desirability_scale hc]
  rfl

end Course

theorem evaluate_scale : evaluate (d.scale c) p budget = evaluate d p budget := by
  cases hcourse : simulate d p budget with
  | error e =>
    have hscaled : simulate (d.scale c) p budget = .error e := by
      rw [simulate_scale hc, hcourse]
      rfl
    simp only [evaluate, hcourse, hscaled, bind, Except.bind]
  | ok course =>
    have hscaled : simulate (d.scale c) p budget = .ok (course.scale c) := by
      rw [simulate_scale hc, hcourse]
      rfl
    rw [evaluate_of_simulate hcourse, evaluate_of_simulate hscaled, Course.evaluation_scale hc]

end Model

/-! ### Where a search starts -/

namespace WarmStart

variable (hc : 0 < c.value) (strategy : WarmStart)
include hc

theorem key_scale (job link : Nat) : strategy.key (d.scale c) job link = strategy.key d job link := by
  simp only [key, Demand.jobTotal_scale, Exact.scaled_le_zero hc, Demand.jobComm_scale, Demand.load_scale]
  split
  · rfl
  · cases strategy with
    | linkShare => exact Exact.scaled_div hc
    | jobShare => exact Exact.scaled_div hc
    | identity => rfl

theorem priority_scale : strategy.priority (d.scale c) = strategy.priority d := by
  have horder : strategy.order (d.scale c) = strategy.order d := by
    funext link
    simp only [order, Demand.activeJobs_scale hc, key_scale hc]
  rw [priority, priority]
  simp only [horder]
  rfl

end WarmStart

/-! ### What a search asks of a demand -/

theorem selectSwaps_scale {σ : Type} [IndexSource σ] (hc : 0 < c.value) (values : Grid (Exact ln sqrt)) (p : Priority)
    (count : Nat) : (selectSwaps values (d.scale c) p count : StateM σ _) = selectSwaps values d p count := by
  have hovertake : overtake? (d.scale c) p = overtake? d p := by
    funext cell
    simp only [overtake?, Priority.jobAt?, Demand.activeJobs_scale hc]
  simp only [selectSwaps, pairWithPeers, hovertake]

theorem clearInactive_scale (hc : 0 < c.value) (p : Priority) : p.clearInactive (d.scale c) = p.clearInactive d := by
  simp only [Priority.clearInactive, Demand.isActive_scale hc]

end LinkPriority

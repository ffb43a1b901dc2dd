import Mathlib.Data.Fin.Basic
import Mathlib.Data.Fin.Rev
import Mathlib.Logic.Equiv.Fin.Rotate
import LinkPriority.Proofs.Sharing.Bounds
import LinkPriority.Proofs.Sharing.Prediction

/-! The numbers of jobs and links carry no meaning. If both tables list the jobs and the links in another order, the
model computes the same times for them: those ahead of a job are the same jobs under their new numbers, so the
product of their factors is the same, and so is every sum over links or jobs. This needs exact arithmetic, where a
sum or a product does not depend on its order; the mean slowdown is then the same in every epoch, and the run stops
at the same one. -/

namespace LinkPriority

open Scalar

/-! ### Renumbered tables -/

/-- A permutation of the numbers below `n`, as one of all numbers that keeps those from `n` on. -/
def onNumbers {n : Nat} (f : Equiv.Perm (Fin n)) : Equiv.Perm Nat := f.extendDomain Fin.equivSubtype

@[simp]
theorem onNumbers_val {n : Nat} (f : Equiv.Perm (Fin n)) (i : Fin n) : onNumbers f i = f i :=
  f.extendDomain_apply_image Fin.equivSubtype i

theorem onNumbers_lt_iff {n : Nat} (f : Equiv.Perm (Fin n)) (i : Nat) : onNumbers f i < n ↔ i < n := by
  by_cases hi : i < n
  · have hval : onNumbers f i = f ⟨i, hi⟩ := onNumbers_val f ⟨i, hi⟩
    rw [hval]
    exact iff_of_true (f ⟨i, hi⟩).isLt hi
  · rw [onNumbers, f.extendDomain_apply_not_subtype Fin.equivSubtype hi]

/-- A sum over a range may be taken in any order. -/
theorem sum_range_renumber {f : Equiv.Perm Nat} {n : Nat} (hlt : ∀ i, f i < n ↔ i < n) {x x' : Nat → ℚ}
    (hx : ∀ i < n, x' i = x (f i)) : ∑ i ∈ Finset.range n, x' i = ∑ i ∈ Finset.range n, x i :=
  Finset.sum_equiv f (fun i => by rw [Finset.mem_range, Finset.mem_range, hlt])
    fun i hi => hx i (Finset.mem_range.1 hi)

section Tables

variable {m n : Nat} (jobs : Equiv.Perm (Fin m)) (links : Equiv.Perm (Fin n))

/-- The table that has in its row `job` and column `link` what was in row `jobs job` and column `links link`. -/
def Grid.renumber {β : Type} (g : Grid β) (default : β) : Grid β :=
  .tabulate g.jobs g.links fun job link => g.getD (onNumbers jobs job) (onNumbers links link) default

theorem Grid.getD_renumber {β : Type} {g : Grid β} {default : β} {job link : Nat} (hjob : job < g.jobs)
    (hlink : link < g.links) : (g.renumber jobs links default).getD job link default =
      g.getD (onNumbers jobs job) (onNumbers links link) default :=
  Grid.getD_tabulate hjob hlink

def Demand.renumber {α : Type} [Scalar α] (d : Demand α) : Demand α := ⟨d.toGrid.renumber jobs links .idle⟩

def Priority.renumber (p : Priority) : Priority := ⟨p.toGrid.renumber jobs links 0, Grid.isFull_tabulate _ _ _⟩

end Tables

/-- Jobs and links of two demands with ranks are the same under other numbers: what is `job` on `link` in the second is
`f job` on `g link` in the first. -/
structure Renumbers {α : Type} [Scalar α] (f g : Equiv.Perm Nat) (d d' : Demand α) (p p' : Priority) : Prop where
  jobs : d'.jobs = d.jobs
  links : d'.links = d.links
  job_lt : ∀ job, f job < d.jobs ↔ job < d.jobs
  link_lt : ∀ link, g link < d.links ↔ link < d.links
  load : ∀ job < d.jobs, ∀ link < d.links, d'.load job link = d.load (f job) (g link)
  rank : ∀ job < d.jobs, ∀ link < d.links, p'.rank job link = p.rank (f job) (g link)

variable {f g : Equiv.Perm Nat} {p p' : Priority} {job link : Nat}

/-! ### Queues -/

namespace Renumbers

section Queues

variable {α : Type} [Scalar α] {d d' : Demand α} (h : Renumbers f g d d' p p')
include h

theorem isActive_eq (hjob : job < d.jobs) (hlink : link < d.links) :
    d'.isActive job link = d.isActive (f job) (g link) := by
  rw [Demand.isActive, Demand.isActive, h.load job hjob link hlink]

/-- A job uses a link exactly if it did so under their old numbers. -/
theorem uses_iff (hlink : link < d.links) : (job < d'.jobs ∧ d'.isActive job link = true) ↔
    f job < d.jobs ∧ d.isActive (f job) (g link) = true := by
  rw [h.jobs, h.job_lt]
  exact and_congr_right fun hjob => by rw [h.isActive_eq hjob hlink]

theorem perm_activeJobs (hlink : link < d.links) : ((d'.activeJobs link).map f).Perm (d.activeJobs (g link)) := by
  have hnodup : ((d'.activeJobs link).map f).Nodup := (d'.nodup_activeJobs link).map f.injective
  refine (List.perm_ext_iff_of_nodup hnodup (d.nodup_activeJobs _)).2 fun job => ?_
  obtain ⟨job, rfl⟩ := f.surjective job
  rw [List.mem_map_of_injective f.injective, Demand.mem_activeJobs, Demand.mem_activeJobs, h.uses_iff hlink]

theorem ranksInRow (hlink : link < d.links) (hranks : p.RanksInRow d (g link)) : p'.RanksInRow d' link := by
  have hperm := h.perm_activeJobs hlink
  have hsame : (d'.activeJobs link).map (fun job => p'.rank job link) =
      ((d'.activeJobs link).map f).map fun job => p.rank job (g link) := by
    rw [List.map_map]
    apply List.map_congr_left
    intro job hjob
    exact h.rank job (h.jobs ▸ (Demand.mem_activeJobs.1 hjob).1) link hlink
  rw [Priority.RanksInRow, hsame, ← List.length_map f, hperm.length_eq]
  exact (hperm.map _).trans hranks

/-- Those ahead of a job are those who were ahead of it. -/
theorem mem_ahead_iff (hjob : job < d.jobs) (hlink : link < d.links) {other : Nat} :
    other ∈ p'.ahead d' job link ↔ f other ∈ p.ahead d (f job) (g link) := by
  rw [Priority.mem_ahead, Priority.mem_ahead, h.uses_iff hlink]
  refine and_congr_right fun hother => ?_
  rw [h.rank job hjob link hlink, h.rank other ((h.job_lt other).1 hother.1) link hlink]

end Queues

/-! ### Demands -/

variable {ln sqrt : ℚ → ℚ} {d d' : Demand (Exact ln sqrt)} (h : Renumbers f g d d' p p')
include h

theorem jobTotal_eq (hjob : job < d.jobs) : d'.jobTotal job = d.jobTotal (f job) := by
  apply Exact.eq_of_value_eq
  rw [Demand.value_jobTotal, Demand.value_jobTotal, h.links]
  exact sum_range_renumber h.link_lt fun link hlink => by rw [h.load job hjob link hlink]

theorem value_jobCompute_eq (hjob : job < d.jobs) : (d'.jobCompute job).value = (d.jobCompute (f job)).value := by
  rw [Demand.value_jobCompute, Demand.value_jobCompute, h.links]
  exact sum_range_renumber h.link_lt fun link hlink => by rw [h.load job hjob link hlink]

end Renumbers

/-! ### Times -/

namespace Times

variable {ln sqrt : ℚ → ℚ} {d d' : Demand (Exact ln sqrt)} {x x' : Times (Exact ln sqrt)}

/-- The times are the same under the numbers of the second demand. -/
structure AgreeUnder (f g : Equiv.Perm Nat) (d : Demand (Exact ln sqrt)) (x x' : Times (Exact ln sqrt)) : Prop where
  total : ∀ job < d.jobs, x'.total job = x.total (f job)
  comm : ∀ job < d.jobs, ∀ link < d.links, x'.comm job link = x.comm (f job) (g link)

theorem AgreeUnder.factor_eq (hx : AgreeUnder f g d x x') (hjob : job < d.jobs) (hlink : link < d.links) :
    x'.factor job link = x.factor (f job) (g link) := by
  rw [factor, factor, hx.total job hjob, hx.comm job hjob link hlink]

section Renumbered

variable (h : Renumbers f g d d' p p')
include h

theorem agreeUnder_alone : AgreeUnder f g d (alone d) (alone d') where
  total _ hjob := h.jobTotal_eq hjob
  comm job hjob link hlink := congrArg Load.comm (h.load job hjob link hlink)

/-- The same jobs stretch a job, in whatever order their factors are multiplied. -/
theorem AgreeUnder.stretch_eq (hx : AgreeUnder f g d x x') (hjob : job < d.jobs) (hlink : link < d.links) :
    x'.stretch d' p' job link = x.stretch d p (f job) (g link) := by
  apply Exact.eq_of_value_eq
  rw [value_stretch, value_stretch]
  refine Finset.prod_equiv f (fun other => ?_) fun other hother => ?_
  · rw [List.mem_toFinset, List.mem_toFinset, h.mem_ahead_iff hjob hlink]
  · have huses := (Priority.mem_ahead.1 (List.mem_toFinset.1 hother)).1
    rw [hx.factor_eq (h.jobs ▸ huses.1) hlink]

theorem AgreeUnder.nextComm_eq (hx : AgreeUnder f g d x x') (hjob : job < d.jobs) (hlink : link < d.links) :
    x'.nextComm d' p' job link = x.nextComm d p (f job) (g link) := by
  rw [nextComm, nextComm, h.isActive_eq hjob hlink, hx.stretch_eq h hjob hlink, h.load job hjob link hlink]

/-- An epoch keeps it so. -/
theorem AgreeUnder.next (hx : AgreeUnder f g d x x') : AgreeUnder f g d (x.next d p) (x'.next d' p') where
  total job hjob := by
    apply Exact.eq_of_value_eq
    rw [value_total_next, value_total_next, h.value_jobCompute_eq hjob, h.links]
    exact congrArg _ (sum_range_renumber h.link_lt fun link hlink => by rw [hx.nextComm_eq h hjob hlink])
  comm _ hjob _ hlink := hx.nextComm_eq h hjob hlink

theorem agreeUnder_after (epochs : Nat) : AgreeUnder f g d (after d p epochs) (after d' p' epochs) := by
  induction epochs with
  | zero => exact agreeUnder_alone h
  | succ epochs ih => exact ih.next h

theorem AgreeUnder.slowdown_eq (hx : AgreeUnder f g d x x') (hjob : job < d.jobs) :
    x'.slowdown d' job = x.slowdown d (f job) := by
  rw [slowdown, slowdown, hx.total job hjob, h.jobTotal_eq hjob]

theorem AgreeUnder.meanSlowdown_eq (hx : AgreeUnder f g d x x') : x'.meanSlowdown d' = x.meanSlowdown d := by
  apply Exact.eq_of_value_eq
  rw [value_meanSlowdown, value_meanSlowdown, h.jobs]
  exact congrArg (· / _) (sum_range_renumber h.job_lt fun job hjob => by rw [hx.slowdown_eq h hjob])

/-- The run stops at the same epoch. -/
theorem lastEpoch_eq_of_renumbers (budget : Nat) : lastEpoch d' p' budget = lastEpoch d p budget := by
  have hmean : ∀ epoch, (after d' p' epoch).meanSlowdown d' = (after d p epoch).meanSlowdown d :=
    fun epoch => (agreeUnder_after h epoch).meanSlowdown_eq h
  have hsettles : settles d' p' = settles d p := by
    funext epoch
    rw [settles, settles, hmean, hmean]
  rw [lastEpoch, lastEpoch, hsettles]

theorem agreeUnder_final (budget : Nat) : AgreeUnder f g d (final d p budget) (final d' p' budget) := by
  rw [final, final, lastEpoch_eq_of_renumbers h]
  exact agreeUnder_after h _

end Renumbered

end Times

/-! ### Predictions -/

section Predictions

variable {ln sqrt : ℚ → ℚ} {d d' : Demand (Exact ln sqrt)} {orders orders' : List (List Nat)}

/-- What is predicted of a cell is what was predicted of it under its old numbers. -/
theorem Renumbers.getD_desirability_eq (h : Renumbers f g d d' p p') (horders : p.orders d = .ok orders)
    (horders' : p'.orders d' = .ok orders') (hjob : job < d.jobs) (hlink : link < d.links) :
    (desirability d' orders').getD job link zero = (desirability d orders).getD (f job) (g link) zero := by
  have hjob' : job < d'.jobs := h.jobs ▸ hjob
  have hlink' : link < d'.links := h.links ▸ hlink
  have hrank : p'.rankAt ⟨job, link⟩ = p.rankAt ⟨f job, g link⟩ := h.rank job hjob link hlink
  by_cases hpromotable : p'.Promotable d' ⟨job, link⟩
  · obtain ⟨ahead, huses, hnext⟩ := hpromotable.exists_ahead (Priority.exists_orders_iff.1 ⟨orders', horders'⟩)
    have hahead : ahead < d.jobs := h.jobs ▸ huses.1
    have hnext' : p.rank (f job) (g link) = p.rank (f ahead) (g link) + 1 := by
      rw [← h.rank ahead hahead link hlink]
      exact hrank.symm.trans hnext
    have hx := Times.agreeUnder_alone h
    rw [getD_desirability horders' hlink' huses ⟨hjob', hpromotable.active⟩ hnext,
      getD_desirability horders ((h.link_lt link).2 hlink) ((h.uses_iff hlink).1 huses)
        ((h.uses_iff hlink).1 ⟨hjob', hpromotable.active⟩) hnext']
    simp only [overtaking, Times.slot, hx.factor_eq hjob hlink, hx.factor_eq hahead hlink,
      hx.nextComm_eq h hjob hlink, hx.nextComm_eq h hahead hlink, h.jobTotal_eq hjob, h.jobTotal_eq hahead]
  · have hpromotable' : ¬p.Promotable d ⟨f job, g link⟩ := by
      rintro ⟨-, hlt, hactive, hpos⟩
      exact hpromotable ⟨hlink', hjob', ((h.uses_iff hlink).2 ⟨hlt, hactive⟩).2, hrank ▸ hpos⟩
    rw [getD_desirability_of_not_promotable horders' hjob' hlink' hpromotable,
      getD_desirability_of_not_promotable horders ((h.job_lt job).2 hjob) ((h.link_lt link).2 hlink) hpromotable']

end Predictions

/-! ### The model's answer -/

section Tables

variable {α : Type} [Scalar α] {d : Demand α} (jobs : Equiv.Perm (Fin d.jobs)) (links : Equiv.Perm (Fin d.links))

theorem Demand.load_renumber (hjob : job < d.jobs) (hlink : link < d.links) :
    (d.renumber jobs links).load job link = d.load (onNumbers jobs job) (onNumbers links link) :=
  Grid.getD_renumber jobs links hjob hlink

theorem Priority.Fits.renumbers (hfits : p.Fits d) :
    Renumbers (onNumbers jobs) (onNumbers links) d (d.renumber jobs links) p (p.renumber jobs links) where
  jobs := rfl
  links := rfl
  job_lt := onNumbers_lt_iff jobs
  link_lt := onNumbers_lt_iff links
  load _ hjob _ hlink := d.load_renumber jobs links hjob hlink
  rank _ hjob _ hlink := Grid.getD_renumber jobs links (hfits.jobs ▸ hjob) (hfits.links ▸ hlink)

/-- Renumbered ranks fit the renumbered demand. -/
theorem Priority.Fits.renumber (hfits : p.Fits d) : (p.renumber jobs links).Fits (d.renumber jobs links) where
  jobs := hfits.jobs
  links := hfits.links
  queue link hlink := by
    have h := hfits.renumbers jobs links
    have hranks := Priority.exists_isQueue_iff.1 (hfits.queue _ ((h.link_lt link).2 hlink))
    exact Priority.exists_isQueue_iff.2 (h.ranksInRow hlink hranks)

/-- An accepted demand is accepted under other numbers. -/
theorem Demand.validate_renumber [OrderedScalar α] (hd : (d.validate : Except (ModelError α) Unit) = .ok ()) :
    ((d.renumber jobs links).validate : Except (ModelError α) Unit) = .ok () := by
  have hfull : d.IsFull := Demand.isFull_of_validate hd
  have hfull' : (d.renumber jobs links).IsFull := Grid.isFull_tabulate _ _ _
  obtain ⟨hjobs, hlinks, hcount, -⟩ := Demand.validate_eq_ok.1 hd
  refine Demand.validate_eq_ok.2 ⟨hjobs, hlinks, hcount.trans (congrArg some (hfull.trans hfull'.symm)), ?_⟩
  intro cell load hmem
  obtain ⟨hjob, hlink, rfl⟩ := (Grid.mem_entries_of_isFull hfull' .idle).1 hmem
  show ((d.renumber jobs links).load cell.job cell.link).isAmount = true
  rw [d.load_renumber jobs links hjob hlink]
  exact Demand.isAmount_load hd _ _

end Tables

section Model

variable {ln sqrt : ℚ → ℚ} {d : Demand (Exact ln sqrt)}

theorem Priority.Fits.desirability_renumber {orders orders' : List (List Nat)} (hfits : p.Fits d)
    (jobs : Equiv.Perm (Fin d.jobs)) (links : Equiv.Perm (Fin d.links)) (horders : p.orders d = .ok orders)
    (horders' : (p.renumber jobs links).orders (d.renumber jobs links) = .ok orders') :
    desirability (d.renumber jobs links) orders' = (desirability d orders).renumber jobs links zero := by
  obtain ⟨hjobs, hlinks⟩ := shape_desirability d orders
  obtain ⟨hjobs', hlinks'⟩ : _ = d.jobs ∧ _ = d.links := shape_desirability (d.renumber jobs links) orders'
  refine Grid.ext_getD zero (isFull_desirability _ _) (Grid.isFull_tabulate _ _ _)
    (hjobs'.trans hjobs.symm) (hlinks'.trans hlinks.symm) fun job hjob link hlink => ?_
  rw [hjobs'] at hjob
  rw [hlinks'] at hlink
  rw [(hfits.renumbers jobs links).getD_desirability_eq horders horders' hjob hlink,
    Grid.getD_renumber jobs links (hjobs ▸ hjob) (hlinks ▸ hlink)]

/-- In exact arithmetic the model does not depend on how jobs and links are numbered. With the rows and the columns of
demand and priority table permuted, the table is valid for the demand if it was, and the model gives the same answer:
the same objective after as many epochs, and the slowdowns and the predictions permuted in the same way. -/
theorem evaluate_renumber (hd : (d.validate : Except (ModelError (Exact ln sqrt)) Unit) = .ok ())
    (hp : (p.validate d : Except (ModelError (Exact ln sqrt)) Unit) = .ok ()) (jobs : Equiv.Perm (Fin d.jobs))
    (links : Equiv.Perm (Fin d.links)) (budget : Nat) :
    (d.IsFull → ((d.renumber jobs links).validate : Except (ModelError (Exact ln sqrt)) Unit) = .ok ()) ∧
    ((p.renumber jobs links).validate (d.renumber jobs links) : Except (ModelError (Exact ln sqrt)) Unit) = .ok () ∧
    (budget = 0 → evaluate d p budget = .error .noEpochs ∧
      evaluate (d.renumber jobs links) (p.renumber jobs links) budget = .error .noEpochs) ∧
    (budget ≠ 0 → ∃ e e', evaluate d p budget = .ok e ∧
      evaluate (d.renumber jobs links) (p.renumber jobs links) budget = .ok e' ∧
      e'.objective = e.objective ∧ e'.epochsRun = e.epochsRun ∧ e'.slowdown.length = d.jobs ∧
      (∀ job : Fin d.jobs, e'.slowdown[(job : Nat)]? = e.slowdown[(jobs job : Nat)]?) ∧
      e'.desirability = e.desirability.renumber jobs links zero) := by
  have hfits : p.Fits d := Priority.validate_eq_ok.1 hp
  have hfits' := hfits.renumber jobs links
  refine ⟨fun _ => Demand.validate_renumber jobs links hd, Priority.validate_eq_ok.2 hfits', ?_, fun hbudget => ?_⟩
  · rintro rfl
    exact ⟨rfl, rfl⟩
  · have h := hfits.renumbers jobs links
    have hjobs : d.jobs ≠ 0 := Demand.jobs_ne_zero hd
    obtain ⟨orders, horders⟩ := Priority.exists_orders_iff.2 hfits
    obtain ⟨orders', horders'⟩ := Priority.exists_orders_iff.2 hfits'
    have hfinal := Times.agreeUnder_final h budget
    refine ⟨_, _, evaluate_exact_eq horders hjobs hbudget, evaluate_exact_eq horders' hjobs hbudget,
      hfinal.meanSlowdown_eq h, Times.lastEpoch_eq_of_renumbers h budget, Times.length_slowdowns _ _, fun job => ?_,
      ?_⟩
    · rw [Times.getElem?_slowdowns _ (show (job : Nat) < (d.renumber jobs links).jobs from job.isLt),
        Times.getElem?_slowdowns _ (jobs job).isLt, hfinal.slowdown_eq h job.isLt, onNumbers_val]
    · exact hfits.desirability_renumber jobs links horders horders'

/-- Three jobs take each other's numbers in a circle. -/
def inCircle : Equiv.Perm (Fin contendedLinks.jobs) := finRotate 3

/-- Two links change places. -/
def exchanged : Equiv.Perm (Fin contendedLinks.links) := Fin.revPerm

theorem evaluate_renumber_contendedLinks :
    (contendedLinks.validate : Except (ModelError Tangent) Unit) = .ok () ∧
    (contendedRanks.validate contendedLinks : Except (ModelError Tangent) Unit) = .ok () ∧
    contendedRanks.renumber inCircle exchanged = ⟨⟨3, 2, #[0, 1, 1, 2, 2, 0]⟩, rfl⟩ ∧
    ∃ e e', evaluate contendedLinks contendedRanks 10 = .ok e ∧
      evaluate (contendedLinks.renumber inCircle exchanged) (contendedRanks.renumber inCircle exchanged) 10 = .ok e' ∧
      e.epochsRun = 3 ∧ e'.epochsRun = e.epochsRun ∧ e'.objective = e.objective ∧
      e'.slowdown[(0 : Nat)]? = e.slowdown[(1 : Nat)]? ∧ e'.slowdown[(2 : Nat)]? = e.slowdown[(0 : Nat)]? := by
  have hrun : (evaluate contendedLinks contendedRanks 10).map Evaluation.epochsRun = .ok 3 := by decide +kernel
  obtain ⟨-, -, -, hanswer⟩ :=
    evaluate_renumber validate_contendedLinks validate_contendedRanks inCircle exchanged 10
  obtain ⟨e, e', he, he', hobjective, hepochs, -, hslowdown, -⟩ := hanswer (by decide)
  have hthree : e.epochsRun = 3 := by
    rw [he] at hrun
    exact Except.ok.inj hrun
  have hfirst : (inCircle ⟨0, by decide⟩ : Nat) = 1 := by decide
  have hlast : (inCircle ⟨2, by decide⟩ : Nat) = 0 := by decide
  exact ⟨validate_contendedLinks, validate_contendedRanks, by decide +kernel, e, e', he, he', hthree, hepochs,
    hobjective, hfirst ▸ hslowdown ⟨0, by decide⟩, hlast ▸ hslowdown ⟨2, by decide⟩⟩

end Model

end LinkPriority

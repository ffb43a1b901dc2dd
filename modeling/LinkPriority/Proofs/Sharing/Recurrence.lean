import Mathlib.Tactic.Common
import Mathlib.Data.List.Range
import LinkPriority.Proofs.Candidates
import LinkPriority.Proofs.Evaluation

/-! Strict-priority sharing stated by ranks. Alone, a job takes its whole demand. In each following epoch the
communication of an active cell is its volume times the factors of the active jobs of smaller rank on the link, in
the order of their ranks, and a job takes its compute time and its communication on all links. The model computes
the same numbers along the queues of the links, in which those ahead of a job are the jobs before it. -/

namespace LinkPriority

open Scalar

variable {α : Type} [Scalar α]

/-! ### The times of an epoch -/

/-- The active jobs of a link that are served before `job`, in the order of their ranks. -/
def Priority.ahead (p : Priority) (d : Demand α) (job link : Nat) : List Nat :=
  ((d.activeJobs link).filter fun other => p.rank other link < p.rank job link).mergeSort
    fun i j => p.rank i link ≤ p.rank j link

/-- How long every job takes, and how much of it is communication on every link. -/
structure Times (α : Type) where
  total : (job : Nat) → α
  comm : (job link : Nat) → α

namespace Times

/-- The times of jobs that have all links for themselves. -/
def alone (d : Demand α) : Times α := ⟨d.jobTotal, fun job link => (d.load job link).comm⟩

/-- By how much a job stretches each job behind it on a link: not at all if the link leaves it no other time. -/
def factor (x : Times α) (job link : Nat) : α :=
  if le (x.total job - x.comm job link) zero then one else x.total job / (x.total job - x.comm job link)

/-- The product of the factors of all jobs ahead of `job`, from the front of the link. -/
def stretch (x : Times α) (d : Demand α) (p : Priority) (job link : Nat) : α :=
  ((p.ahead d job link).map fun other => x.factor other link).foldl (· * ·) one

/-- The communication in the epoch after one with the times `x`. -/
def nextComm (x : Times α) (d : Demand α) (p : Priority) (job link : Nat) : α :=
  if d.isActive job link then (d.load job link).comm * x.stretch d p job link else zero

/-- The times in the epoch after one with the times `x`. -/
def next (x : Times α) (d : Demand α) (p : Priority) : Times α where
  total job := d.jobCompute job + sum ((List.range d.links).map (x.nextComm d p job))
  comm := x.nextComm d p

/-- The times after so many epochs. -/
def after (d : Demand α) (p : Priority) : (epochs : Nat) → Times α
  | 0 => alone d
  | epochs + 1 => (after d p epochs).next d p

/-- A job's time by its time alone; a job without demand counts as not slowed. -/
def slowdown (x : Times α) (d : Demand α) (job : Nat) : α :=
  if lt zero (d.jobTotal job) then x.total job / d.jobTotal job else one

def slowdowns (x : Times α) (d : Demand α) : List α := (List.range d.jobs).map (x.slowdown d)

def meanSlowdown (x : Times α) (d : Demand α) : α := sum (x.slowdowns d) / ofNat d.jobs

/-- Whether the mean slowdown after an epoch, which is not the first, is within three parts in a hundred of that
after the epoch before. -/
def settles (d : Demand α) (p : Priority) (epoch : Nat) : Bool :=
  2 ≤ epoch && isWithin (ofNat 3 / ofNat 100)
    ((after d p epoch).meanSlowdown d / (after d p (epoch - 1)).meanSlowdown d - one)

/-- The first epoch that settles, or the last one of the budget. -/
def lastEpoch (d : Demand α) (p : Priority) (budget : Nat) : Nat :=
  ((List.range' 1 budget).find? (settles d p)).getD budget

/-- The times after that epoch. -/
def final (d : Demand α) (p : Priority) (budget : Nat) : Times α := after d p (lastEpoch d p budget)

theorem final_one (d : Demand α) (p : Priority) : final d p 1 = (alone d).next d p := by
  have hlast : lastEpoch d p 1 = 1 := rfl
  rw [final, hlast]
  rfl

@[simp]
theorem length_slowdowns (x : Times α) (d : Demand α) : (x.slowdowns d).length = d.jobs := by simp [slowdowns]

theorem getElem?_slowdowns {d : Demand α} {job : Nat} (x : Times α) (hjob : job < d.jobs) :
    (x.slowdowns d)[job]? = some (x.slowdown d job) := by
  rw [slowdowns, List.getElem?_map, List.getElem?_range hjob, Option.map_some]

end Times

variable {d : Demand α} {p : Priority} {orders : List (List Nat)} {link job : Nat} {order : List Nat}

/-! ### Queues by ranks -/

namespace Priority

theorem mem_ahead {other : Nat} : other ∈ p.ahead d job link ↔
    (other < d.jobs ∧ d.isActive other link = true) ∧ p.rank other link < p.rank job link := by
  rw [ahead, (List.mergeSort_perm _ _).mem_iff, List.mem_filter, Demand.mem_activeJobs, decide_eq_true_eq]

theorem nodup_ahead (p : Priority) (d : Demand α) (job link : Nat) : (p.ahead d job link).Nodup :=
  (List.mergeSort_perm _ _).nodup_iff.2 ((d.nodup_activeJobs link).filter _)

/-- Nobody is ahead of a job of rank 0. -/
theorem ahead_of_rank_eq_zero (h : p.rank job link = 0) : p.ahead d job link = [] := by
  refine List.eq_nil_iff_forall_not_mem.2 fun other hother => ?_
  have hlt := (mem_ahead.1 hother).2
  omega

/-- Ahead of a job of the queue are those that stand in it before the job. -/
theorem IsQueue.ahead_eq (h : p.IsQueue d link order) {i : Nat} (hi : order[i]? = some job) :
    p.ahead d job link = order.take i := by
  obtain ⟨hlt, rfl⟩ := List.getElem?_eq_some_iff.1 hi
  have hmem : ∀ other, other ∈ p.ahead d order[i] link ↔ other ∈ order.take i := by
    intro other
    rw [mem_ahead, ← h.mem_iff, h.rank_getElem hlt, List.mem_take_iff_getElem]
    constructor
    · rintro ⟨hother, hrank⟩
      obtain ⟨k, hk, rfl⟩ := List.getElem_of_mem hother
      rw [h.rank_getElem hk] at hrank
      exact ⟨k, by omega, rfl⟩
    · rintro ⟨k, hk, rfl⟩
      have hk' : k < order.length := by omega
      rw [h.rank_getElem hk']
      exact ⟨List.getElem_mem hk', by omega⟩
  have hperm : (p.ahead d order[i] link).Perm (order.take i) :=
    (List.perm_ext_iff_of_nodup (nodup_ahead p d _ link) (h.nodup.sublist (List.take_sublist i order))).2 hmem
  -- both lists ascend in rank, and no two jobs of the queue share one
  have hantisymm : ∀ a b, a ∈ p.ahead d order[i] link → b ∈ order.take i → p.rank a link ≤ p.rank b link →
      p.rank b link ≤ p.rank a link → a = b := by
    intro a b ha hb hab hba
    have ha' : a ∈ order := List.mem_of_mem_take ((hmem a).1 ha)
    exact h.rank_inj ha' (List.mem_of_mem_take hb) (by omega)
  have hsorted : (p.ahead d order[i] link).Pairwise fun a b => p.rank a link ≤ p.rank b link := by
    have hmerge : (p.ahead d order[i] link).Pairwise fun a b => decide (p.rank a link ≤ p.rank b link) = true :=
      List.pairwise_mergeSort (by simp only [decide_eq_true_eq]; omega)
        (by simp only [Bool.or_eq_true, decide_eq_true_eq]; omega) _
    simpa only [decide_eq_true_eq] using hmerge
  have hascending : (order.map fun job => p.rank job link).Pairwise (· ≤ ·) := by
    rw [h.ranks]
    exact List.pairwise_lt_range.imp Nat.le_of_lt
  exact hperm.eq_of_pairwise hantisymm hsorted
    ((List.pairwise_map.1 hascending).sublist (List.take_sublist i order))

end Priority

end LinkPriority

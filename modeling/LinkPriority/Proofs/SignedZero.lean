import LinkPriority.Proofs.Scalar.SameNumber
import LinkPriority.Proofs.Shares

/-! Demands that differ in the signs of zeros only. Such demands are numerically equal: they have the same active jobs
and these have the same whole demands. A share of communication is a zero of negative sign only if a volume is, and the
order of sorting sees that sign; so a warm start treats numerically equal demands alike, and breaks numerical ties by
the jobs' numbers, where no active load has such a volume. -/

namespace LinkPriority

open Binary64 (SameNumber IsPositive IsUnsigned)

/-- Numerical equality of loads. -/
def Load.equal {α : Type} [Scalar α] (load other : Load α) : Bool :=
  Scalar.equal load.compute other.compute && Scalar.equal load.comm other.comm

namespace Demand

/-- Numerical equality of demands: the same shape, with numerically equal loads in it. -/
def equal {α : Type} [Scalar α] (d d' : Demand α) : Bool :=
  d.jobs == d'.jobs && d.links == d'.links && d.cells.isEqv d'.cells Load.equal

/-- No active load has a volume that is a zero of negative sign. -/
def HasUnsignedVolumes (d : Demand Binary64) : Prop :=
  ∀ link < d.links, ∀ job ∈ d.activeJobs link, (d.load job link).comm ≠ Binary64.negativeZero

variable {d d' : Demand Binary64} {job link : Nat}

section Unsigned

variable (hd : (d.validate : Except (ModelError Binary64) Unit) = .ok ()) (hlink : link < d.links)
  (hjob : job ∈ d.activeJobs link)
include hd hlink hjob

theorem isPositive_jobTotal : IsPositive (d.jobTotal job).unpacked :=
  Binary64.isPositive_of_le_zero_eq_false (zero_le_jobTotal hd job)
    (jobTotal_le_zero_eq_false hd hlink (mem_activeJobs.1 hjob).2)

variable (hvolumes : d.HasUnsignedVolumes)
include hvolumes

theorem isUnsigned_comm : IsUnsigned (d.load job link).comm.unpacked :=
  Binary64.isUnsigned_of_ne (zero_le_load hd job link).2 (hvolumes link hlink job hjob)

/-- One volume without negative sign is enough for the whole volume of a job to have none. -/
theorem isUnsigned_jobComm : IsUnsigned (d.jobComm job).unpacked := by
  rw [jobComm_eq_sum]
  exact Scalar.sum_of_mem (P := fun x => IsUnsigned x.unpacked) Binary64.isUnsigned_add
    (List.forall_mem_map.2 fun link _ => (zero_le_load hd job link).2) (List.mem_map_of_mem (List.mem_range.2 hlink))
    (isUnsigned_comm hd hlink hjob hvolumes)

end Unsigned

section Equal

variable (heq : d.equal d' = true)
include heq

theorem shape_of_equal : d.jobs = d'.jobs ∧ d.links = d'.links := by
  simp only [equal, Bool.and_eq_true, beq_iff_eq] at heq
  exact heq.1

theorem sameNumber_load (job link : Nat) : SameNumber (d.load job link).compute (d'.load job link).compute ∧
    SameNumber (d.load job link).comm (d'.load job link).comm := by
  obtain ⟨-, hlinks⟩ := shape_of_equal heq
  obtain ⟨hsize, hcells⟩ := Array.isEqv_iff_rel.1 (Bool.and_eq_true_iff.1 heq).2
  rw [load, load, Grid.getD_eq, Grid.getD_eq, ← hlinks]
  by_cases hcell : job * d.links + link < d.cells.size
  · obtain ⟨hcompute, hcomm⟩ := Bool.and_eq_true_iff.1 (hcells _ hcell)
    rw [Array.getElem?_eq_getElem hcell, Array.getElem?_eq_getElem (hsize ▸ hcell)]
    exact ⟨Binary64.sameNumber_of_equal hcompute, Binary64.sameNumber_of_equal hcomm⟩
  · rw [Array.getElem?_eq_none (Nat.le_of_not_lt hcell), Array.getElem?_eq_none (hsize ▸ Nat.le_of_not_lt hcell)]
    exact ⟨.inl rfl, .inl rfl⟩

theorem isActive_of_equal (job link : Nat) : d.isActive job link = d'.isActive job link := by
  obtain ⟨hcompute, hcomm⟩ := sameNumber_load heq job link
  rw [isActive, isActive, Load.isActive, Load.isActive, hcompute.isZero_eq, hcomm.isZero_eq]

theorem activeJobs_of_equal (link : Nat) : d.activeJobs link = d'.activeJobs link := by
  simp only [activeJobs, isActive_of_equal heq, (shape_of_equal heq).1]

variable (hd : (d.validate : Except (ModelError Binary64) Unit) = .ok ())
include hd

/-- An active job has the same whole demand, to the bit. -/
theorem jobTotal_of_equal (hlink : link < d.links) (hjob : job ∈ d.activeJobs link) :
    d.jobTotal job = d'.jobTotal job := by
  have hsame : SameNumber (d.jobTotal job) (d'.jobTotal job) := by
    rw [jobTotal_eq_sum, jobTotal_eq_sum, ← (shape_of_equal heq).2]
    refine SameNumber.sum (fun link _ => ?_) fun link _ => zero_le_total hd job link
    obtain ⟨hcompute, hcomm⟩ := sameNumber_load heq job link
    exact hcompute.add hcomm (zero_le_load hd job link).1 (zero_le_load hd job link).2
  exact hsame.eq_of_isPositive (isPositive_jobTotal hd hlink hjob)

theorem sameNumber_jobComm (job : Nat) : SameNumber (d.jobComm job) (d'.jobComm job) := by
  rw [jobComm_eq_sum, jobComm_eq_sum, ← (shape_of_equal heq).2]
  exact SameNumber.sum (fun link _ => (sameNumber_load heq job link).2) fun link _ => (zero_le_load hd job link).2

end Equal

end Demand

namespace WarmStart

variable {strategy : WarmStart} {d d' : Demand Binary64} {job link : Nat}

/-- Unless it is undefined, a share has no negative sign. -/
theorem isUnsigned_share (hd : (d.validate : Except (ModelError Binary64) Unit) = .ok ()) (hlink : link < d.links)
    (hjob : job ∈ d.activeJobs link) (hsigns : strategy = .identity ∨ d.HasUnsignedVolumes) :
    (strategy.share d job link).unpacked = .notANumber ∨ IsUnsigned (strategy.share d job link).unpacked := by
  cases strategy with
  | identity => exact .inr (.inl Binary64.unpacked_zero)
  | linkShare =>
    have hvolumes := hsigns.resolve_left WarmStart.noConfusion
    exact Binary64.isUnsigned_div (Demand.isUnsigned_comm hd hlink hjob hvolumes)
      (Demand.isPositive_jobTotal hd hlink hjob)
  | jobShare =>
    have hvolumes := hsigns.resolve_left WarmStart.noConfusion
    exact Binary64.isUnsigned_div (Demand.isUnsigned_jobComm hd hlink hjob hvolumes)
      (Demand.isPositive_jobTotal hd hlink hjob)

/-- Shares that are numerically equal are the same. -/
theorem share_eq_of_equal {other : Nat} (hd : (d.validate : Except (ModelError Binary64) Unit) = .ok ())
    (hlink : link < d.links) (hjob : job ∈ d.activeJobs link) (hother : other ∈ d.activeJobs link)
    (hsigns : strategy = .identity ∨ d.HasUnsignedVolumes)
    (htie : Scalar.equal (strategy.share d job link) (strategy.share d other link) = true) :
    strategy.share d job link = strategy.share d other link := by
  have hsame := Binary64.sameNumber_of_equal htie
  rcases hsame with hidentical | ⟨⟨s, hzero⟩, s', hzero'⟩
  · exact hidentical
  · have hfirst := (isUnsigned_share hd hlink hjob hsigns).resolve_left (by rw [hzero]; exact nofun)
    have hsecond := (isUnsigned_share hd hlink hother hsigns).resolve_left (by rw [hzero']; exact nofun)
    exact SameNumber.eq_of_isUnsigned (.inr ⟨⟨s, hzero⟩, s', hzero'⟩) hfirst hsecond

theorem share_of_equal (heq : d.equal d' = true) (hd : (d.validate : Except (ModelError Binary64) Unit) = .ok ())
    (hd' : (d'.validate : Except (ModelError Binary64) Unit) = .ok ()) (hlink : link < d.links)
    (hjob : job ∈ d.activeJobs link)
    (hsigns : strategy = .identity ∨ d.HasUnsignedVolumes ∧ d'.HasUnsignedVolumes) :
    strategy.share d job link = strategy.share d' job link := by
  have htotal := Demand.jobTotal_of_equal heq hd hlink hjob
  have hlink' : link < d'.links := (Demand.shape_of_equal heq).2 ▸ hlink
  have hjob' : job ∈ d'.activeJobs link := Demand.activeJobs_of_equal heq link ▸ hjob
  cases strategy with
  | identity => rfl
  | linkShare =>
    obtain ⟨hvolumes, hvolumes'⟩ := hsigns.resolve_left WarmStart.noConfusion
    rw [share, share, htotal, (Demand.sameNumber_load heq job link).2.eq_of_isUnsigned
      (Demand.isUnsigned_comm hd hlink hjob hvolumes) (Demand.isUnsigned_comm hd' hlink' hjob' hvolumes')]
  | jobShare =>
    obtain ⟨hvolumes, hvolumes'⟩ := hsigns.resolve_left WarmStart.noConfusion
    rw [share, share, htotal, (Demand.sameNumber_jobComm heq hd job).eq_of_isUnsigned
      (Demand.isUnsigned_jobComm hd hlink hjob hvolumes) (Demand.isUnsigned_jobComm hd' hlink' hjob' hvolumes')]

/-- A warm start depends on the shape of a demand and on the order of the jobs on its links only. -/
theorem priority_congr (hjobs : d.jobs = d'.jobs) (hlinks : d.links = d'.links)
    (horder : ∀ link < d.links, strategy.order d link = strategy.order d' link) :
    strategy.priority d = strategy.priority d' := by
  have hentries : ((List.range d.links).flatMap fun link =>
      (strategy.order d link).mapIdx fun rank job => ((⟨job, link⟩ : Position), rank)) =
      (List.range d'.links).flatMap fun link =>
        (strategy.order d' link).mapIdx fun rank job => ((⟨job, link⟩ : Position), rank) := by
    rw [← hlinks]
    refine List.flatMap_congr fun link hmem => ?_
    rw [horder link (List.mem_range.1 hmem)]
  rw [priority, priority, Priority.mk.injEq, hentries, hjobs, hlinks]

theorem order_of_equal (heq : d.equal d' = true) (hd : (d.validate : Except (ModelError Binary64) Unit) = .ok ())
    (hd' : (d'.validate : Except (ModelError Binary64) Unit) = .ok ())
    (hsigns : strategy = .identity ∨ d.HasUnsignedVolumes ∧ d'.HasUnsignedVolumes) (hlink : link < d.links) :
    strategy.order d link = strategy.order d' link := by
  have hlink' : link < d'.links := (Demand.shape_of_equal heq).2 ▸ hlink
  have hkeys : ∀ job ∈ d.activeJobs link, (job, strategy.key d job link) = (job, strategy.key d' job link) := by
    intro job hjob
    have hjob' : job ∈ d'.activeJobs link := Demand.activeJobs_of_equal heq link ▸ hjob
    rw [key_eq_share hd hlink (Demand.mem_activeJobs.1 hjob).2, share_of_equal heq hd hd' hlink hjob hsigns,
      key_eq_share hd' hlink' (Demand.mem_activeJobs.1 hjob').2]
  rw [order, order, List.map_congr_left hkeys, Demand.activeJobs_of_equal heq link]

end WarmStart

/-- A warm start of numerically equal demands is the same, and it ranks jobs whose shares are numerically equal by
their numbers, if the jobs are not sorted at all or no active load has a volume that is a zero of negative sign. -/
theorem priority_of_equal (strategy : WarmStart) {d d' : Demand Binary64}
    (hd : (d.validate : Except (ModelError Binary64) Unit) = .ok ())
    (hd' : (d'.validate : Except (ModelError Binary64) Unit) = .ok ()) (heq : d.equal d' = true)
    (hsigns : strategy = .identity ∨ d.HasUnsignedVolumes ∧ d'.HasUnsignedVolumes) :
    strategy.priority d = strategy.priority d' ∧
      ∀ link < d.links, ∀ a ∈ d.activeJobs link, ∀ b ∈ d.activeJobs link,
        Scalar.equal (strategy.share d a link) (strategy.share d b link) = true →
        ((strategy.priority d).rank a link < (strategy.priority d).rank b link ↔ a < b) := by
  obtain ⟨hjobs, hlinks⟩ := Demand.shape_of_equal heq
  refine ⟨WarmStart.priority_congr hjobs hlinks fun link hlink => WarmStart.order_of_equal heq hd hd' hsigns hlink,
    fun link hlink a ha b hb htie => ?_⟩
  have hsame := WarmStart.share_eq_of_equal hd hlink ha hb (hsigns.imp_right And.left) htie
  rw [WarmStart.rank_lt_iff_goesAhead hd hlink ha hb, WarmStart.GoesAhead, hsame]
  simp [Scalar.exceeds]

/-- Two jobs on one link. -/
def pairOnLink (first second : Load Binary64) : Demand Binary64 := ⟨⟨2, 1, #[first, second]⟩⟩

/-- Two jobs that only send, and one unit each; the compute time of the first is a zero of negative sign. -/
def signedSenders : Demand Binary64 :=
  pairOnLink ⟨Binary64.negativeZero, ⟨0x3ff0000000000000⟩⟩ ⟨⟨0⟩, ⟨0x3ff0000000000000⟩⟩

def unsignedSenders : Demand Binary64 := pairOnLink ⟨⟨0⟩, ⟨0x3ff0000000000000⟩⟩ ⟨⟨0⟩, ⟨0x3ff0000000000000⟩⟩

theorem priority_of_signedSenders :
    (signedSenders.validate : Except (ModelError Binary64) Unit) = .ok () ∧
    (unsignedSenders.validate : Except (ModelError Binary64) Unit) = .ok () ∧
    signedSenders.equal unsignedSenders = true ∧ signedSenders ≠ unsignedSenders ∧
    signedSenders.HasUnsignedVolumes ∧ unsignedSenders.HasUnsignedVolumes ∧
    WarmStart.linkShare.priority signedSenders = WarmStart.linkShare.priority unsignedSenders ∧
    (WarmStart.linkShare.priority signedSenders).rank 0 0 < (WarmStart.linkShare.priority signedSenders).rank 1 0 := by
  have hvalid : (signedSenders.validate : Except (ModelError Binary64) Unit) = .ok () := by decide +kernel
  have hvalid' : (unsignedSenders.validate : Except (ModelError Binary64) Unit) = .ok () := by decide +kernel
  have hequal : signedSenders.equal unsignedSenders = true := by decide +kernel
  have hvolumes : signedSenders.HasUnsignedVolumes := by
    unfold Demand.HasUnsignedVolumes
    decide +kernel
  have hvolumes' : unsignedSenders.HasUnsignedVolumes := by
    unfold Demand.HasUnsignedVolumes
    decide +kernel
  obtain ⟨hsame, hties⟩ := priority_of_equal .linkShare hvalid hvalid' hequal (.inr ⟨hvolumes, hvolumes'⟩)
  refine ⟨hvalid, hvalid', hequal, by decide, hvolumes, hvolumes', hsame, ?_⟩
  exact (hties 0 (by decide) 0 (by decide +kernel) 1 (by decide +kernel) (by decide +kernel)).2 (by decide)

/-- Two jobs that compute for one unit each and send nothing, the first a zero of negative sign. -/
def signedSilence : Demand Binary64 :=
  pairOnLink ⟨⟨0x3ff0000000000000⟩, Binary64.negativeZero⟩ ⟨⟨0x3ff0000000000000⟩, ⟨0⟩⟩

def unsignedSilence : Demand Binary64 := pairOnLink ⟨⟨0x3ff0000000000000⟩, ⟨0⟩⟩ ⟨⟨0x3ff0000000000000⟩, ⟨0⟩⟩

/-- A volume of negative zero moves its job behind one that it ties with. -/
theorem priority_of_signedSilence :
    (signedSilence.validate : Except (ModelError Binary64) Unit) = .ok () ∧
    (unsignedSilence.validate : Except (ModelError Binary64) Unit) = .ok () ∧
    signedSilence.equal unsignedSilence = true ∧
    WarmStart.linkShare.priority signedSilence ≠ WarmStart.linkShare.priority unsignedSilence ∧
    Scalar.equal (WarmStart.linkShare.share signedSilence 0 0) (WarmStart.linkShare.share signedSilence 1 0) = true ∧
    (WarmStart.linkShare.priority signedSilence).rank 1 0 < (WarmStart.linkShare.priority signedSilence).rank 0 0 := by
  have hvalid : (signedSilence.validate : Except (ModelError Binary64) Unit) = .ok () := by decide +kernel
  have hvalid' : (unsignedSilence.validate : Except (ModelError Binary64) Unit) = .ok () := by decide +kernel
  have hbehind : (WarmStart.linkShare.priority signedSilence).rank 1 0 <
      (WarmStart.linkShare.priority signedSilence).rank 0 0 :=
    (WarmStart.rank_lt_iff_goesAhead hvalid (by decide) (by decide +kernel) (by decide +kernel)).2
      (.inl (by decide +kernel))
  have hahead : (WarmStart.linkShare.priority unsignedSilence).rank 0 0 <
      (WarmStart.linkShare.priority unsignedSilence).rank 1 0 :=
    (WarmStart.rank_lt_iff_goesAhead hvalid' (by decide) (by decide +kernel) (by decide +kernel)).2
      (.inr ⟨by decide +kernel, by decide⟩)
  refine ⟨hvalid, hvalid', by decide +kernel, fun hsame => ?_, by decide +kernel, hbehind⟩
  rw [hsame] at hbehind
  exact Nat.lt_asymm hbehind hahead

end LinkPriority

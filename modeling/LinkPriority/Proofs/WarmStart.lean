import LinkPriority.WarmStart
import LinkPriority.Proofs.Grid
import LinkPriority.Proofs.Queue

/-! The table of a warm start. On every link it ranks the active jobs by their place in the sorted list, so that
list is the queue of the link, and it leaves the inactive cells at rank 0. -/

namespace LinkPriority.WarmStart

variable {α : Type} [Scalar α] (strategy : WarmStart) (d : Demand α) {job link : Nat}

theorem order_perm (link : Nat) : (strategy.order d link).Perm (d.activeJobs link) := by
  have hsort := ((List.mergeSort_perm ((d.activeJobs link).map fun job => (job, strategy.key d job link))
    fun a b => Scalar.precedes b.2 a.2).map Prod.fst)
  simpa [order, Function.comp_def] using hsort

/-- The ranks that a warm start writes into the table. -/
private def rankEntries : List (Position × Nat) :=
  (List.range d.links).flatMap fun link =>
    (strategy.order d link).mapIdx fun rank job => (⟨job, link⟩, rank)

private theorem mem_rankEntries {cell : Position} {rank : Nat} :
    (cell, rank) ∈ rankEntries strategy d ↔
      cell.link < d.links ∧ (strategy.order d cell.link)[rank]? = some cell.job := by
  simp only [rankEntries, List.mem_flatMap, List.mem_range, List.mem_mapIdx, Prod.mk.injEq,
    List.getElem?_eq_some_iff]
  constructor
  · rintro ⟨link, hlink, i, hi, rfl, rfl⟩
    exact ⟨hlink, hi, rfl⟩
  · rintro ⟨hlink, hi, hjob⟩
    exact ⟨cell.link, hlink, rank, hi, by rw [hjob], rfl⟩

private theorem nodup_rankEntries : ((rankEntries strategy d).map Prod.fst).Nodup := by
  have hcells : (rankEntries strategy d).map Prod.fst =
      (List.range d.links).flatMap fun link => (strategy.order d link).map fun job => ⟨job, link⟩ := by
    rw [rankEntries, List.map_flatMap]
    refine congrArg (List.flatMap · _) (funext fun link => List.ext_getElem (by simp) fun i _ _ => ?_)
    simp only [List.getElem_map, List.getElem_mapIdx]
  rw [hcells]
  refine Grid.nodup_flatMap_cells id (strategy.order d) (by simpa using List.nodup_range) fun link _ => ?_
  exact (order_perm strategy d link).nodup_iff.2 (d.nodup_activeJobs link)

/-- The sorted active jobs of a link are its queue. -/
theorem isQueue_priority (hlink : link < d.links) :
    (strategy.priority d).IsQueue d link (strategy.order d link) := by
  refine ⟨order_perm strategy d link, List.ext_getElem (by simp) fun i hi _ => ?_⟩
  rw [List.length_map] at hi
  have hmem : (⟨(strategy.order d link)[i], link⟩, i) ∈ rankEntries strategy d :=
    (mem_rankEntries strategy d).2 ⟨hlink, List.getElem?_eq_getElem hi⟩
  have hjob : (strategy.order d link)[i] < d.jobs :=
    (Demand.mem_activeJobs.1 ((order_perm strategy d link).mem_iff.1 (List.getElem_mem hi))).1
  rw [List.getElem_map, List.getElem_range]
  exact Grid.getD_ofEntries_of_mem (fun e he => ((mem_rankEntries strategy d).1 he).1)
    (nodup_rankEntries strategy d) hmem hjob

/-- A warm start fits its demand. -/
theorem fits_priority : (strategy.priority d).Fits d :=
  ⟨(Grid.shape_setAll _ _).1, (Grid.shape_setAll _ _).2, fun _ hlink => ⟨_, isQueue_priority strategy d hlink⟩⟩

theorem rank_of_inactive (hjob : job < d.jobs) (hlink : link < d.links) (h : d.isActive job link = false) :
    (strategy.priority d).rank job link = 0 := by
  have hnone : ∀ e ∈ rankEntries strategy d, e.1 ≠ ⟨job, link⟩ := by
    rintro ⟨cell, rank⟩ he rfl
    obtain ⟨-, hrank⟩ := (mem_rankEntries strategy d).1 he
    have hactive := (Demand.mem_activeJobs.1
      ((order_perm strategy d link).mem_iff.1 (List.mem_of_getElem? hrank))).2
    simp [h] at hactive
  exact Grid.getD_ofEntries_of_forall_ne (fun e he => ((mem_rankEntries strategy d).1 he).1) hjob hlink hnone

end LinkPriority.WarmStart

import LinkPriority.Proofs.Sharing.Epochs

/-! What the model predicts of an overtaking. Each cell with a job ahead of it holds one number, made of the factors
and the communication of the first epoch: what the promoted job gains by losing the factor of the job ahead, and what
that job loses by getting the factor of the promoted one, each as a part of the job's time alone. -/

namespace LinkPriority

open Scalar

variable {α : Type} [Scalar α] {d : Demand α} {p : Priority} {orders : List (List Nat)} {link : Nat}

/-- The predicted effect of letting `slot` pass `peer`. -/
def overtaking (d : Demand α) (link : Nat) (peer slot : Slot α) : Position × α :=
  (⟨slot.job, link⟩, (slot.comm / peer.factor - slot.comm) / d.jobTotal slot.job +
    (peer.comm * slot.factor - peer.comm) / d.jobTotal peer.job)

/-- There is one overtaking for each two neighbours. -/
theorem overtakings_eq (link : Nat) (slots : List (Slot α)) :
    overtakings d link slots = List.zipWith (overtaking d link) slots slots.tail := by
  induction slots with
  | nil => rfl
  | cons peer rest ih =>
    cases rest with
    | nil => rfl
    | cons slot behind => exact congrArg (overtaking d link peer slot :: ·) ih

theorem map_fst_overtakings (link : Nat) (slots : List (Slot α)) :
    (overtakings d link slots).map Prod.fst = slots.tail.map fun slot => ⟨slot.job, link⟩ := by
  induction slots with
  | nil => rfl
  | cons peer rest ih =>
    cases rest with
    | nil => rfl
    | cons slot behind => exact congrArg ((⟨slot.job, link⟩ : Position) :: ·) ih

/-- No cell has two predictions. -/
theorem nodup_predictions (horders : p.orders d = .ok orders) : ((predictions d orders).map Prod.fst).Nodup := by
  have hcells := Epoch.nodup_queueCells horders (.start d) List.tail_sublist
  simp only [← List.map_tail, List.map_map] at hcells
  simp only [predictions, List.map_flatMap, map_fst_overtakings]
  exact hcells

/-- The prediction for neighbours of a queue. -/
theorem mem_predictions_of_neighbours (horders : p.orders d = .ok orders) {order : List Nat}
    (horder : orders[link]? = some order) {i peer job : Nat} (hpeer : order[i]? = some peer)
    (hjob : order[i + 1]? = some job) :
    overtaking d link ((Times.alone d).slot d p link peer) ((Times.alone d).slot d p link job) ∈
      predictions d orders := by
  obtain ⟨hlink, hq⟩ := Priority.isQueue_of_orders horders horder
  refine List.mem_flatMap.2 ⟨_, mem_queues.2 ⟨order, horder, rfl⟩, ?_⟩
  show _ ∈ overtakings d link (Epoch.queue d (.start d) link one order)
  rw [(Epoch.hasTimes_start d).queue_eq hlink hq, overtakings_eq]
  refine List.mem_of_getElem? (i := i) ?_
  rw [List.getElem?_zipWith, List.getElem?_tail, List.getElem?_map, List.getElem?_map, hpeer, hjob]
  rfl

/-- The cell of a job right behind `peer` holds the prediction for the two. -/
theorem getD_desirability (horders : p.orders d = .ok orders) (hlink : link < d.links) {peer job : Nat}
    (hpeer : peer < d.jobs ∧ d.isActive peer link = true) (hjob : job < d.jobs ∧ d.isActive job link = true)
    (hrank : p.rank job link = p.rank peer link + 1) :
    (desirability d orders).getD job link zero =
      (overtaking d link ((Times.alone d).slot d p link peer) ((Times.alone d).slot d p link job)).2 := by
  obtain ⟨order, horder, hq⟩ := Priority.exists_order horders hlink
  have hfirst : order[p.rank peer link]? = some peer := hq.getElem?_rank (hq.mem_iff.2 hpeer)
  have hsecond : order[p.rank peer link + 1]? = some job := hrank ▸ hq.getElem?_rank (hq.mem_iff.2 hjob)
  have hlinks : ∀ entry ∈ predictions d orders, entry.1.link < d.links :=
    fun _ hentry => (promotable_of_mem_predictions horders hentry).link_lt
  exact Grid.getD_ofEntries_of_mem hlinks (nodup_predictions horders)
    (mem_predictions_of_neighbours horders horder hfirst hsecond) hjob.1

/-- Nothing is predicted for a cell that is not active or has nobody ahead of it. -/
theorem getD_desirability_of_not_promotable (horders : p.orders d = .ok orders) {job : Nat} (hjob : job < d.jobs)
    (hlink : link < d.links) (hnot : ¬p.Promotable d ⟨job, link⟩) :
    (desirability d orders).getD job link zero = zero := by
  have hpromotable : ∀ entry ∈ predictions d orders, p.Promotable d entry.1 :=
    fun _ hentry => promotable_of_mem_predictions horders hentry
  refine Grid.getD_ofEntries_of_forall_ne (fun entry hentry => (hpromotable entry hentry).link_lt) hjob hlink ?_
  intro entry hentry heq
  exact hnot (heq ▸ hpromotable entry hentry)

end LinkPriority

import LinkPriority.Proofs.Sharing.Prediction

/-! The swaps proposed from the model's own answer. The job ahead of a cell is found in two ways, as the neighbour in
the queue when the model predicts the cell and by its rank when the cell is paired, and both find the same job. So
of the selected cells none is passed over, refused or paired twice, and every swap that is proposed can be carried
out. -/

namespace LinkPriority

open Scalar

variable {α : Type} [Scalar α] {d : Demand α} {p : Priority} {orders : List (List Nat)} {s : Swap}

namespace Priority

/-- `peer` and `slot` are the jobs of the swap where the model predicts their overtaking: right behind one another
in the queue of the first epoch, the promoted job second. -/
structure Meets (p : Priority) (d : Demand α) (s : Swap) (peer slot : Slot α) : Prop where
  peer_job : peer.job = s.demote.job
  slot_job : slot.job = s.promote.job
  consecutive : ∃ order, p.linkOrder d s.promote.link = .ok order ∧
    [peer, slot] <:+: Epoch.queue d (.start d) s.promote.link one order

/-- Nobody but the demoted job holds the rank right ahead of the promoted one. -/
theorem Overtakes.holdsRankAhead_iff (h : p.Overtakes d s) (hfits : p.Fits d) {job : Nat} :
    job < d.jobs ∧ d.isActive job s.promote.link = true ∧ p.rankAt s.promote = p.rank job s.promote.link + 1 ↔
      job = s.demote.job := by
  obtain ⟨-, hdemote, hlink⟩ := h.cells_lt hfits
  obtain ⟨order, hq⟩ := hfits.queue s.promote.link hlink
  have hrank : p.rankAt s.promote = p.rank s.demote.job s.promote.link + 1 := h.neighbours.rank_promote
  constructor
  · rintro ⟨hjob, hactive, hsame⟩
    have heq : p.rank job s.promote.link = p.rank s.demote.job s.promote.link :=
      Nat.succ.inj (hsame.symm.trans hrank)
    exact hq.rank_inj (hq.mem_iff.2 ⟨hjob, hactive⟩) (hq.mem_iff.2 ⟨hdemote, h.demote⟩) heq
  · rintro rfl
    exact ⟨hdemote, h.demote, hrank⟩

/-- The value of the promoted cell is what the model predicts where the two jobs of the swap meet. -/
theorem Overtakes.exists_meets (h : p.Overtakes d s) (horders : p.orders d = .ok orders) :
    ∃ peer slot, p.Meets d s peer slot ∧ overtakings d s.promote.link [peer, slot] =
      [(s.promote, (desirability d orders).getD s.promote.job s.promote.link zero)] := by
  have hfits : p.Fits d := exists_orders_iff.1 ⟨orders, horders⟩
  obtain ⟨hpromote, hdemote, hlink⟩ := h.cells_lt hfits
  obtain ⟨order, hq⟩ := hfits.queue s.promote.link hlink
  obtain ⟨front, behind, rfl⟩ := hq.exists_neighbours (hq.mem_iff.2 ⟨hdemote, h.demote⟩)
    (hq.mem_iff.2 ⟨hpromote, h.promote⟩) h.neighbours.rank_promote
  let slot := (Times.alone d).slot d p s.promote.link
  refine ⟨slot s.demote.job, slot s.promote.job, ⟨rfl, rfl, _, linkOrder_eq_ok.2 hq, ?_⟩, ?_⟩
  · rw [(Epoch.hasTimes_start d).queue_eq hlink hq, List.map_append]
    exact ⟨front.map slot, behind.map slot, by simp [slot]⟩
  · rw [getD_desirability horders hlink ⟨hdemote, h.demote⟩ ⟨hpromote, h.promote⟩ h.neighbours.rank_promote]
    rfl

end Priority

/-- From the model's answer on a table, one swap is proposed for each selected cell, in the order of the cells and no
two the same. It promotes an active cell that is not at the front past the only active job that holds the rank right
ahead of it, which is the job the model has predicted the cell's value with, and it leads to a table that is valid
again. Nothing is proposed only if no cell has a value other than zero. -/
theorem selectSwaps_of_evaluate [OrderedScalar α] {budget : Nat} {e : Evaluation α}
    (he : evaluate d p budget = .ok e) {σ : Type} [IndexSource σ] [LawfulIndexSource σ] (count : Nat) (choices : σ) :
    ∃ swaps, (selectSwaps e.desirability d p count choices).1 = .ok swaps ∧
      swaps.map Swap.promote = (selectCells e.desirability count choices).1 ∧ swaps.Nodup ∧
      (∀ s ∈ swaps, p.Promotable d s.promote ∧ s.demote.link = s.promote.link ∧
        (∀ job, job < d.jobs ∧ d.isActive job s.promote.link = true ∧
          p.rankAt s.promote = p.rank job s.promote.link + 1 ↔ job = s.demote.job) ∧
        (∃ peer slot, p.Meets d s peer slot ∧ overtakings d s.promote.link [peer, slot] =
          [(s.promote, e.desirability.getD s.promote.job s.promote.link zero)]) ∧
        ∃ p', (p.apply s : Except (ModelError α) Priority) = .ok p' ∧
          (p'.validate d : Except (ModelError α) Unit) = .ok ()) ∧
      (swaps = [] ↔ ∀ job < d.jobs, ∀ link < d.links, isZero (e.desirability.getD job link zero) = true) := by
  obtain ⟨orders, horders, hdesirability⟩ := orders_of_evaluate he
  have hfits : p.Fits d := Priority.exists_orders_iff.1 ⟨orders, horders⟩
  have hfull := isFull_desirability d orders
  obtain ⟨swaps, choices', hswaps, hpromote, hnodup, hovertakes⟩ := exists_selectSwaps_eq hfits horders count choices
  rw [eraseDups_of_nodup (nodup_selectCells hfull)] at hpromote
  rw [hdesirability]
  refine ⟨swaps, congrArg Prod.fst hswaps, hpromote, hnodup, fun s hs => ?_, ?_⟩
  · have h := hovertakes s hs
    obtain ⟨p', happly⟩ := h.apply
    exact ⟨h.promotable hfits, h.neighbours.sameLink.symm, fun job => h.holdsRankAhead_iff hfits,
      h.exists_meets horders, p', happly, Priority.validate_eq_ok.2 (hfits.apply happly h.promote h.demote)⟩
  · obtain ⟨hjobs, hlinks⟩ := shape_desirability d orders
    rw [← List.map_eq_nil_iff (f := Swap.promote), hpromote, selectCells_eq_nil_iff hfull]
    constructor
    · intro hnone job hjob link hlink
      by_contra hvalue
      exact hnone ⟨job, link⟩ ⟨hjobs ▸ hjob, hlinks ▸ hlink, Bool.eq_false_iff.2 hvalue⟩
    · intro hzero cell hcell
      have hcellZero := hzero cell.job (hjobs ▸ hcell.job_lt) cell.link (hlinks ▸ hcell.link_lt)
      simp [hcell.isZero_eq] at hcellZero

/-- There are four cells with somebody ahead of them, and each is proposed: three as the smallest, one as drawn. -/
theorem selectSwaps_of_contendedRanks : ∃ e swaps, evaluate contendedLinks contendedRanks 10 = .ok e ∧
    (selectSwaps e.desirability contendedLinks contendedRanks 3 LeastSource.least).1 = .ok swaps ∧
    swaps.length = 4 ∧ swaps.Nodup ∧
    ∀ s ∈ swaps, ∃ p', (contendedRanks.apply s : Except (ModelError Tangent) Priority) = .ok p' ∧
      (p'.validate contendedLinks : Except (ModelError Tangent) Unit) = .ok () := by
  have hcount : (evaluate contendedLinks contendedRanks 10).map (fun e =>
      e.desirability.cells.countP fun v => !isZero v) = .ok 4 := by decide +kernel
  obtain ⟨e, he, hnonzero⟩ := Except.map_eq_ok.1 hcount
  obtain ⟨swaps, hswaps, hpromote, hnodup, hgood, -⟩ := selectSwaps_of_evaluate he 3 LeastSource.least
  have hfull : e.desirability.IsFull := by
    obtain ⟨orders, -, hdesirability⟩ := orders_of_evaluate he
    exact hdesirability ▸ isFull_desirability _ _
  have hlength : swaps.length = 4 := by
    rw [← List.length_map (f := Swap.promote), hpromote, length_selectCells hfull, length_rankedCells, hnonzero]
    rfl
  refine ⟨e, swaps, he, hswaps, hlength, hnodup, fun s hs => ?_⟩
  obtain ⟨-, -, -, -, hvalid⟩ := hgood s hs
  exact hvalid

end LinkPriority

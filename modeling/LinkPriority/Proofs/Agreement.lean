import Mathlib.Data.List.Find
import LinkPriority.Proofs.Candidates
import LinkPriority.Proofs.Evaluation

/-! Ranks of inactive cells mean nothing. Two tables that agree on the active cells of a demand have the same queues
or are refused for the same reason, so the model says the same of them and the same swaps are proposed; a swap of
active cells leads from tables that agree to tables that agree. -/

namespace LinkPriority

variable {α : Type} [Scalar α] {d : Demand α} {p q : Priority} {s : Swap} {cell : Position}

/-- Both tables have the shape of the demand, and the same rank wherever it is active. -/
structure Priority.AgreeOn (d : Demand α) (p q : Priority) : Prop where
  jobs : p.jobs = d.jobs ∧ q.jobs = d.jobs
  links : p.links = d.links ∧ q.links = d.links
  rank : ∀ job < d.jobs, ∀ link < d.links, d.isActive job link = true → p.rank job link = q.rank job link

/-- The swap is of two active cells of one link. -/
structure Swap.IsActive (d : Demand α) (s : Swap) : Prop where
  sameLink : s.promote.link = s.demote.link
  promote_lt : s.promote.job < d.jobs
  demote_lt : s.demote.job < d.jobs
  link_lt : s.promote.link < d.links
  promote : d.isActive s.promote.job s.promote.link = true
  demote : d.isActive s.demote.job s.promote.link = true

namespace Priority

theorem Overtakes.isActive (h : p.Overtakes d s) (hjobs : p.jobs = d.jobs) (hlinks : p.links = d.links) :
    s.IsActive d where
  sameLink := h.neighbours.sameLink
  promote_lt := hjobs ▸ h.neighbours.promote_lt
  demote_lt := hjobs ▸ h.neighbours.demote_lt
  link_lt := hlinks ▸ h.neighbours.link_lt
  promote := h.promote
  demote := h.demote

/-- Only swaps of active cells are proposed. -/
theorem isActive_of_selectSwaps [OrderedScalar α] {σ : Type} [IndexSource σ] {orders : List (List Nat)}
    (horders : p.orders d = .ok orders) {count : Nat} {choices after : σ} {swaps : List Swap}
    (hselect : selectSwaps (desirability d orders) d p count choices = (.ok swaps, after)) :
    ∀ s ∈ swaps, s.IsActive d := by
  obtain ⟨hjobs, hlinks, -⟩ := orders_eq_ok.1 horders
  obtain ⟨swaps', _, hswaps, -, -, hovertakes⟩ :=
    exists_selectSwaps_eq (exists_orders_iff.1 ⟨orders, horders⟩) horders count choices
  rw [hselect] at hswaps
  obtain rfl : swaps = swaps' := Except.ok.inj (Prod.mk.inj hswaps).1
  exact fun s hs => (hovertakes s hs).isActive hjobs hlinks

namespace AgreeOn

variable (h : p.AgreeOn d q)
include h

/-! ### Queues and the model's word -/

theorem linkOrder_eq {link : Nat} (hlink : link < d.links) : p.linkOrder d link = q.linkOrder d link := by
  have hseats : ∀ job ∈ d.activeJobs link, ∀ places,
      seat places job (p.rank job link) = seat places job (q.rank job link) := by
    intro job hjob places
    obtain ⟨hlt, hactive⟩ := Demand.mem_activeJobs.1 hjob
    rw [h.rank job hlt link hlink hactive]
  simp only [linkOrder, Except.foldlM_congr hseats]

theorem orders_eq : p.orders d = q.orders d := by
  have hlinkOrder : ∀ link ∈ List.range d.links, p.linkOrder d link = q.linkOrder d link :=
    fun link hlink => h.linkOrder_eq (List.mem_range.1 hlink)
  simp only [orders, h.jobs.1, h.jobs.2, h.links.1, h.links.2, Except.mapM_congr hlinkOrder]

theorem validate_eq : p.validate d = q.validate d := by rw [validate, validate, h.orders_eq]

theorem simulate_eq (budget : Nat) : simulate d p budget = simulate d q budget := by
  rw [simulate, simulate, h.orders_eq]

theorem evaluate_eq (budget : Nat) : evaluate d p budget = evaluate d q budget := by
  rw [evaluate, evaluate, h.simulate_eq]

theorem clearInactive_eq : p.clearInactive d = q.clearInactive d := by
  have hgrid : (p.clearInactive d).toGrid = (q.clearInactive d).toGrid := by
    refine Grid.ext_getD 0 (p.clearInactive d).isFull (q.clearInactive d).isFull (h.jobs.1.trans h.jobs.2.symm)
      (h.links.1.trans h.links.2.symm) fun job hjob link hlink => ?_
    have hp := rank_clearInactive (p := p) (d := d) hjob hlink
    have hq := rank_clearInactive (p := q) (d := d) (h.jobs.2.trans h.jobs.1.symm ▸ hjob)
      (h.links.2.trans h.links.1.symm ▸ hlink)
    have hcell : (p.clearInactive d).rank job link = (q.clearInactive d).rank job link := by
      rw [hp, hq]
      split
      · next hactive => exact h.rank job (h.jobs.1 ▸ hjob) link (h.links.1 ▸ hlink) hactive
      · rfl
    exact hcell
  simpa only [clearInactive, mk.injEq] using hgrid

/-! ### Swaps -/

theorem overtake?_eq (hjob : cell.job < d.jobs) (hlink : cell.link < d.links)
    (hactive : d.isActive cell.job cell.link = true) : overtake? d p cell = overtake? d q cell := by
  have hrank : p.rankAt cell = q.rankAt cell := h.rank cell.job hjob cell.link hlink hactive
  have hjobAt : ∀ ahead, p.jobAt? d cell.link ahead = q.jobAt? d cell.link ahead := by
    intro ahead
    refine List.find?_congr fun job hmem => ?_
    obtain ⟨hlt, hactive⟩ := Demand.mem_activeJobs.1 hmem
    rw [h.rank job hlt cell.link hlink hactive]
  simp only [overtake?, hrank, hjobAt]

theorem selectSwaps_eq [OrderedScalar α] {σ : Type} [IndexSource σ] {orders : List (List Nat)}
    (horders : p.orders d = .ok orders) (count : Nat) (choices : σ) :
    selectSwaps (desirability d orders) d p count choices =
      selectSwaps (desirability d orders) d q count choices := by
  have hpairs : pairWithPeers d p (selectCells (desirability d orders) count choices).1 =
      pairWithPeers d q (selectCells (desirability d orders) count choices).1 := by
    refine Except.foldlM_congr (fun cell hcell swaps => ?_) []
    have hpromotable := promotable_of_mem_selectCells horders hcell
    rw [h.overtake?_eq hpromotable.job_lt hpromotable.link_lt hpromotable.active]
  exact Prod.ext hpairs rfl

theorem rankAt_eq (hs : s.IsActive d) :
    p.rankAt s.promote = q.rankAt s.promote ∧ p.rankAt s.demote = q.rankAt s.demote := by
  refine ⟨h.rank _ hs.promote_lt _ hs.link_lt hs.promote, h.rank _ hs.demote_lt _ (hs.sameLink ▸ hs.link_lt) ?_⟩
  rw [← hs.sameLink]
  exact hs.demote

/-- After a swap of active cells the tables still agree, as the swap does not move inactive cells. -/
theorem apply {p' q' : Priority} (hs : s.IsActive d) (hp : (p.apply s : Except (ModelError α) Priority) = .ok p')
    (hq : (q.apply s : Except (ModelError α) Priority) = .ok q') : p'.AgreeOn d q' where
  jobs := ⟨(jobs_apply hp).trans h.jobs.1, (jobs_apply hq).trans h.jobs.2⟩
  links := ⟨(links_apply hp).trans h.links.1, (links_apply hq).trans h.links.2⟩
  rank job hjob link hlink hactive := by
    rw [rank_apply hp (h.links.1 ▸ hlink), rank_apply hq (h.links.2 ▸ hlink)]
    split
    · next hsame =>
      -- the swap exchanges active jobs, so it takes active jobs to active jobs
      subst hsame
      rw [Equiv.swap_apply_def]
      split
      · exact h.rank _ hs.demote_lt _ hlink hs.demote
      · split
        · exact h.rank _ hs.promote_lt _ hlink hs.promote
        · exact h.rank job hjob _ hlink hactive
    · exact h.rank job hjob link hlink hactive

theorem apply_alike (hs : s.IsActive d) :
    Except.Alike (AgreeOn d) (p.apply s : Except (ModelError α) Priority) (q.apply s) := by
  have hsame : (p.apply s : Except (ModelError α) Priority).map (fun _ => ()) = (q.apply s).map fun _ => () := by
    obtain ⟨hpromote, hdemote⟩ := h.rankAt_eq hs
    simp only [Priority.apply, applyUnder, h.jobs.1, h.jobs.2, h.links.1, h.links.2, hpromote, hdemote]
    split_ifs <;> rfl
  cases hp : (p.apply s : Except (ModelError α) Priority) with
  | error e =>
    rw [hp] at hsame
    rw [Except.map_eq_error.1 hsame.symm]
    exact .error e
  | ok p' =>
    rw [hp] at hsame
    obtain ⟨q', hq, -⟩ := Except.map_eq_ok.1 hsame.symm
    rw [hq]
    exact .ok (h.apply hs hp hq)

end AgreeOn

end Priority

end LinkPriority

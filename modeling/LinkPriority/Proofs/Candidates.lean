import LinkPriority.Candidates
import LinkPriority.Proofs.Pairing
import LinkPriority.Proofs.Selection

/-! Which swaps are proposed for a table that fits its demand. Only a cell with a job ahead of it gets a value
other than zero, whatever the numbers are, so only such cells are selected; pairing one of them with the job
ahead cannot fail, and gives a swap of two active neighbours. -/

namespace LinkPriority

open Scalar

variable {α : Type} [Scalar α] {d : Demand α} {p : Priority} {orders : List (List Nat)} {cell : Position}

namespace Priority

/-- An active cell of the table with somebody ahead of it. -/
structure Promotable (p : Priority) (d : Demand α) (cell : Position) : Prop where
  link_lt : cell.link < d.links
  job_lt : cell.job < d.jobs
  active : d.isActive cell.job cell.link = true
  rank_pos : 0 < p.rankAt cell

/-- The swap lets an active job pass the active job right ahead of it. -/
structure Overtakes (p : Priority) (d : Demand α) (s : Swap) : Prop where
  neighbours : p.Neighbours s
  promote : d.isActive s.promote.job s.promote.link = true
  demote : d.isActive s.demote.job s.promote.link = true

theorem Overtakes.apply (h : p.Overtakes d s) :
    ∃ p' : Priority, (p.apply s : Except (ModelError α) Priority) = .ok p' := ⟨_, h.neighbours.apply⟩

theorem Overtakes.cells_lt (h : p.Overtakes d s) (hfits : p.Fits d) :
    s.promote.job < d.jobs ∧ s.demote.job < d.jobs ∧ s.promote.link < d.links :=
  ⟨hfits.jobs ▸ h.neighbours.promote_lt, hfits.jobs ▸ h.neighbours.demote_lt, hfits.links ▸ h.neighbours.link_lt⟩

theorem Overtakes.promotable (h : p.Overtakes d s) (hfits : p.Fits d) : p.Promotable d s.promote := by
  obtain ⟨hpromote, -, hlink⟩ := h.cells_lt hfits
  exact ⟨hlink, hpromote, h.promote, h.neighbours.rank_eq ▸ Nat.succ_pos _⟩

end Priority

/-! ### Cells with a value -/

theorem map_job_queue (e : Epoch α) (link : Nat) (ahead : α) (order : List Nat) :
    (Epoch.queue d e link ahead order).map Slot.job = order := by
  induction order generalizing ahead with
  | nil => rfl
  | cons job behind ih => rw [Epoch.queue, List.map_cons, ih]

theorem mem_overtakings {link : Nat} {slots : List (Slot α)} {value : α}
    (h : (cell, value) ∈ overtakings d link slots) :
    cell.link = link ∧ ∃ i, (slots.map Slot.job)[i + 1]? = some cell.job := by
  induction slots with
  | nil => simp [overtakings] at h
  | cons peer rest ih =>
    cases rest with
    | nil => simp [overtakings] at h
    | cons slot behind =>
      rw [overtakings, List.mem_cons] at h
      rcases h with heq | hrest
      · obtain ⟨rfl, -⟩ := Prod.mk.inj heq
        exact ⟨rfl, 0, rfl⟩
      · obtain ⟨hlink, i, hi⟩ := ih hrest
        exact ⟨hlink, i + 1, hi⟩

theorem mem_queues {e : Epoch α} {slots : List (Slot α)} {link : Nat} :
    (slots, link) ∈ (e.queues d orders).zipIdx ↔
      ∃ order, orders[link]? = some order ∧ slots = Epoch.queue d e link one order := by
  rw [List.mk_mem_zipIdx_iff_getElem?, Epoch.queues, List.getElem?_mapIdx, Option.map_eq_some_iff]
  simp only [eq_comm]

theorem mem_predictions {value : α} (h : (cell, value) ∈ predictions d orders) :
    ∃ order i, orders[cell.link]? = some order ∧ order[i + 1]? = some cell.job := by
  obtain ⟨⟨slots, link⟩, hslots, he⟩ := List.mem_flatMap.1 h
  obtain ⟨order, horder, rfl⟩ := mem_queues.1 hslots
  obtain ⟨rfl, i, hi⟩ := mem_overtakings he
  rw [map_job_queue] at hi
  exact ⟨order, i, horder, hi⟩

/-- Only cells with somebody ahead of them have a prediction. -/
theorem promotable_of_mem_predictions (horders : p.orders d = .ok orders) {value : α}
    (h : (cell, value) ∈ predictions d orders) : p.Promotable d cell := by
  obtain ⟨order, i, horder, hi⟩ := mem_predictions h
  obtain ⟨hlink, hq⟩ := Priority.isQueue_of_orders horders horder
  obtain ⟨hplace, hi⟩ := List.getElem?_eq_some_iff.1 hi
  obtain ⟨hjob, hactive⟩ := hq.mem_iff.1 (hi ▸ List.getElem_mem hplace)
  have hrank : p.rankAt cell = i + 1 := by
    rw [Priority.rankAt, ← hi]
    exact hq.rank_getElem hplace
  exact ⟨hlink, hjob, hactive, by omega⟩

theorem isFull_desirability (d : Demand α) (orders : List (List Nat)) : (desirability d orders).IsFull :=
  Grid.isFull_ofEntries _ _ _ _

theorem shape_desirability (d : Demand α) (orders : List (List Nat)) :
    (desirability d orders).jobs = d.jobs ∧ (desirability d orders).links = d.links :=
  Grid.shape_setAll _ _

variable [OrderedScalar α]

/-- A cell whose predicted effect is not zero has somebody ahead of it. -/
theorem promotable_of_hasValue (horders : p.orders d = .ok orders) (h : (desirability d orders).HasValue cell) :
    p.Promotable d cell := by
  obtain ⟨⟨_, value⟩, hentry, rfl⟩ := List.mem_map.1 ((mem_map_nonzeroCells (isFull_desirability d orders)).2 h)
  obtain ⟨hmem, hvalue⟩ := List.mem_filter.1 hentry
  have hlinks : ∀ entry ∈ predictions d orders, entry.1.link < d.links :=
    fun _ hentry => (promotable_of_mem_predictions horders hentry).link_lt
  rcases Grid.eq_or_mem_of_mem_ofEntries hlinks hmem with rfl | hpredicted
  · simp [isZero_zero] at hvalue
  · exact promotable_of_mem_predictions horders hpredicted

/-! ### Pairing -/

section Pair

omit [OrderedScalar α]

namespace Priority

/-- In a queue somebody is right ahead of everyone but the first. -/
theorem Promotable.exists_ahead (hcell : p.Promotable d cell) (hfits : p.Fits d) :
    ∃ other, (other < d.jobs ∧ d.isActive other cell.link = true) ∧ p.rankAt cell = p.rank other cell.link + 1 := by
  obtain ⟨order, hq⟩ := hfits.queue cell.link hcell.link_lt
  have hrank : p.rankAt cell < order.length := hq.rank_lt (hq.mem_iff.2 ⟨hcell.job_lt, hcell.active⟩)
  have hlt : p.rankAt cell - 1 < order.length := by omega
  have hpos := hcell.rank_pos
  refine ⟨order[p.rankAt cell - 1], hq.mem_iff.1 (List.getElem_mem hlt), ?_⟩
  rw [hq.rank_getElem hlt]
  omega

theorem Promotable.not_nobodyAhead (hcell : p.Promotable d cell) (hfits : p.Fits d) : ¬p.NobodyAhead d cell := by
  intro hnobody
  obtain ⟨other, ⟨hother, hactive⟩, hrank⟩ := hcell.exists_ahead hfits
  exact hnobody.nobody other hother hactive (by omega)

/-- An active cell passes its neighbour. -/
theorem PassesFirst.overtakes (h : p.PassesFirst d s) (hcell : p.Promotable d s.promote) (hfits : p.Fits d) :
    p.Overtakes d s :=
  ⟨h.neighbours hfits.jobs (hfits.jobs ▸ hcell.job_lt) (hfits.links ▸ hcell.link_lt), hcell.active, h.active⟩

end Priority

/-- A cell with somebody ahead of it has a swap. -/
theorem exists_overtake?_eq (hfits : p.Fits d) (hcell : p.Promotable d cell) :
    ∃ s, overtake? d p cell = .ok (some s) ∧ s.promote = cell ∧ p.Overtakes d s := by
  obtain ⟨swap?, hswap⟩ := exists_overtake?_iff.2 (hcell.not_nobodyAhead hfits)
  cases swap? with
  | none => exact absurd (overtake?_eq_none.1 hswap) (Nat.pos_iff_ne_zero.1 hcell.rank_pos)
  | some s =>
    obtain ⟨rfl, hpasses⟩ := overtake?_eq_some.1 hswap
    exact ⟨s, hswap, rfl, hpasses.overtakes hcell hfits⟩

/-- Pairing cells that have somebody ahead of them succeeds, with different swaps of neighbours, one for each different
cell. -/
theorem exists_pairWithPeers_eq {cells : List Position} (hfits : p.Fits d)
    (hcells : ∀ cell ∈ cells, p.Promotable d cell) :
    ∃ swaps, pairWithPeers d p cells = .ok swaps ∧ swaps.map Swap.promote = cells.eraseDups ∧ swaps.Nodup ∧
      ∀ s ∈ swaps, p.Overtakes d s := by
  obtain ⟨swaps, hswaps⟩ :=
    exists_pairWithPeers_of_forall fun cell hcell => (hcells cell hcell).not_nobodyAhead hfits
  obtain ⟨-, hpromote, hpasses⟩ := of_pairWithPeers_eq_ok hswaps
  rw [List.filter_eq_self.2 fun cell hcell => decide_eq_true (hcells cell hcell).rank_pos] at hpromote
  refine ⟨swaps, hswaps, hpromote, .of_map Swap.promote (hpromote ▸ nodup_eraseDups cells), fun s hs => ?_⟩
  have hlisted : s.promote ∈ cells := List.mem_eraseDups.1 (hpromote ▸ List.mem_map_of_mem hs)
  exact (hpasses s hs).overtakes (hcells _ hlisted) hfits

end Pair

/-- A selected cell has somebody ahead of it. -/
theorem promotable_of_mem_selectCells {σ : Type} [IndexSource σ] (horders : p.orders d = .ok orders) {count : Nat}
    {choices : σ} (hcell : cell ∈ (selectCells (desirability d orders) count choices).1) :
    p.Promotable d cell :=
  promotable_of_hasValue horders (hasValue_of_mem_selectCells (isFull_desirability d orders) hcell)

/-- The swaps proposed for a table that fits are different swaps of neighbours, one for each different cell. -/
theorem exists_selectSwaps_eq {σ : Type} [IndexSource σ] (hfits : p.Fits d) (horders : p.orders d = .ok orders)
    (count : Nat) (choices : σ) : ∃ swaps choices',
    selectSwaps (desirability d orders) d p count choices = (.ok swaps, choices') ∧
      swaps.map Swap.promote = (selectCells (desirability d orders) count choices).1.eraseDups ∧ swaps.Nodup ∧
      ∀ s ∈ swaps, p.Overtakes d s := by
  have hcells : ∀ cell ∈ (selectCells (desirability d orders) count choices).1, p.Promotable d cell :=
    fun _ => promotable_of_mem_selectCells horders
  obtain ⟨swaps, hswaps, hpromote, hnodup, hovertakes⟩ := exists_pairWithPeers_eq hfits hcells
  exact ⟨swaps, (selectCells (desirability d orders) count choices).2, Prod.ext hswaps rfl, hpromote, hnodup,
    hovertakes⟩

end LinkPriority

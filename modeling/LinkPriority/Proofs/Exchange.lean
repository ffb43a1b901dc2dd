import Mathlib.Logic.Equiv.Basic
import LinkPriority.Proofs.Grid
import LinkPriority.Proofs.Queue

/-! What a swap does to a priority table. Of the ranks only those of its two cells change, and they change
places. If both cells are active, the queue of their link is the old one with the two jobs exchanged and the
other queues stay, so a table that fits a demand still fits it. -/

namespace LinkPriority.Priority

variable {α : Type} {overflow : Overflow} {p p' : Priority} {s : Swap} {job link : Nat}

theorem rank_setRank (p : Priority) {job' link' rank : Nat} (hjob : job < p.jobs) (hlink : link < p.links)
    (hlink' : link' < p.links) :
    (p.setRank job link rank).rank job' link' = if job' = job ∧ link' = link then rank else p.rank job' link' :=
  Grid.getD_set p.isFull hjob hlink hlink'

/-- The cells of a swap are neighbours: on one link of the table, the promoted one right behind the demoted. -/
structure Neighbours (p : Priority) (s : Swap) : Prop where
  sameLink : s.promote.link = s.demote.link
  promote_lt : s.promote.job < p.jobs
  demote_lt : s.demote.job < p.jobs
  link_lt : s.promote.link < p.links
  rank_eq : p.rankAt s.promote = p.rankAt s.demote + 1

theorem Neighbours.rank_promote (h : p.Neighbours s) :
    p.rank s.promote.job s.promote.link = p.rank s.demote.job s.promote.link + 1 := by
  have hadjacent := h.rank_eq
  rwa [rankAt, rankAt, ← h.sameLink] at hadjacent

theorem applyUnder_eq_ok :
    (p.applyUnder overflow s : Except (ModelError α) Priority) = .ok p' ↔ p.Neighbours s ∧
      p' = (p.setRank s.promote.job s.promote.link (p.rankAt s.demote)).setRank s.demote.job s.demote.link
        (p.rankAt s.promote) := by
  constructor
  · intro h
    unfold applyUnder at h
    split at h
    · simp at h
    · next hlink =>
      split at h
      · simp at h
      · next hrange =>
        simp only at h
        split at h
        · split at h <;> simp at h
        · next hrank =>
          rw [not_not] at hlink hrank
          refine ⟨⟨hlink, by omega, by omega, by omega, hrank⟩, ?_⟩
          rw [Except.ok.injEq] at h
          rw [← h, hrank, Nat.add_sub_cancel]
  · rintro ⟨⟨hlink, hpromote, hdemote, hlt, hrank⟩, rfl⟩
    have hrange : ¬(p.jobs ≤ s.promote.job ∨ p.jobs ≤ s.demote.job ∨ p.links ≤ s.promote.link) := by omega
    unfold applyUnder
    rw [if_neg (not_not.2 hlink), if_neg hrange]
    simp only [hrank, ne_eq, not_true, if_false, Nat.add_sub_cancel]

theorem apply_eq_ok :
    (p.apply s : Except (ModelError α) Priority) = .ok p' ↔ p.Neighbours s ∧
      p' = (p.setRank s.promote.job s.promote.link (p.rankAt s.demote)).setRank s.demote.job s.demote.link
        (p.rankAt s.promote) :=
  applyUnder_eq_ok

theorem Neighbours.apply (h : p.Neighbours s) :
    (p.apply s : Except (ModelError α) Priority) = .ok
      ((p.setRank s.promote.job s.promote.link (p.rankAt s.demote)).setRank s.demote.job s.demote.link
        (p.rankAt s.promote)) :=
  apply_eq_ok.2 ⟨h, rfl⟩

private theorem map_swap_neighbours {front behind : List Nat} {ahead job : Nat}
    (hnodup : (front ++ ahead :: job :: behind).Nodup) :
    (front ++ ahead :: job :: behind).map (Equiv.swap job ahead) = front ++ job :: ahead :: behind := by
  have hperm : (front ++ ahead :: job :: behind).Perm (ahead :: job :: (front ++ behind)) :=
    List.perm_middle.trans (List.perm_middle.cons ahead)
  obtain ⟨hahead, hrest⟩ := List.nodup_cons.1 (hperm.nodup_iff.1 hnodup)
  have hjob := (List.nodup_cons.1 hrest).1
  -- whoever is in front of the two or behind them stays
  have hkept : ∀ others : List Nat, others ⊆ front ++ behind → others.map (Equiv.swap job ahead) = others := by
    intro others hothers
    calc others.map (Equiv.swap job ahead) = others.map id := by
          apply List.map_congr_left
          intro other hother
          apply Equiv.swap_apply_of_ne_of_ne
          · rintro rfl
            exact hjob (hothers hother)
          · rintro rfl
            exact hahead (List.mem_cons_of_mem _ (hothers hother))
      _ = others := List.map_id others
  rw [List.map_append, List.map_cons, List.map_cons, Equiv.swap_apply_right, Equiv.swap_apply_left,
    hkept front (List.subset_append_left _ _), hkept behind (List.subset_append_right _ _)]

section Apply

variable (h : (p.apply s : Except (ModelError α) Priority) = .ok p')
include h

theorem jobs_apply : p'.jobs = p.jobs := by
  obtain ⟨-, rfl⟩ := apply_eq_ok.1 h
  rfl

theorem links_apply : p'.links = p.links := by
  obtain ⟨-, rfl⟩ := apply_eq_ok.1 h
  rfl

theorem rank_apply (hlink : link < p.links) :
    p'.rank job link = if link = s.promote.link then p.rank (Equiv.swap s.promote.job s.demote.job job) link
      else p.rank job link := by
  obtain ⟨hn, rfl⟩ := apply_eq_ok.1 h
  have hdemote : s.demote.link < p.links := hn.sameLink ▸ hn.link_lt
  rw [rank_setRank (p.setRank s.promote.job s.promote.link (p.rankAt s.demote)) hn.demote_lt hdemote hlink,
    rank_setRank p hn.promote_lt hn.link_lt hlink]
  by_cases hsame : link = s.promote.link
  · subst hsame
    simp only [hn.sameLink, and_true, if_true, Equiv.swap_apply_def, rankAt]
    by_cases hpromote : job = s.promote.job
    · by_cases hdemote : job = s.demote.job
      · have hrank := hn.rank_eq
        simp only [rankAt, ← hn.sameLink, ← hpromote, ← hdemote] at hrank
        omega
      · rw [if_neg hdemote, if_pos hpromote, if_pos hpromote]
    · rw [if_neg hpromote]
      by_cases hdemote : job = s.demote.job
      · rw [if_pos hdemote, if_pos hdemote, if_neg hpromote]
      · rw [if_neg hdemote, if_neg hdemote, if_neg hpromote]
  · rw [if_neg (fun hc => hsame (hc.2.trans hn.sameLink.symm)), if_neg (fun hc => hsame hc.2), if_neg hsame]

variable [Scalar α] {d : Demand α}

/-- A swap of active cells changes no inactive one. -/
theorem rank_apply_of_inactive (hpromote : d.isActive s.promote.job s.promote.link = true)
    (hdemote : d.isActive s.demote.job s.promote.link = true) (hlink : link < p.links)
    (hinactive : d.isActive job link = false) : p'.rank job link = p.rank job link := by
  rw [rank_apply h hlink]
  split
  · next hsame =>
    subst hsame
    rw [Equiv.swap_apply_of_ne_of_ne]
    · rintro rfl
      simp [hpromote] at hinactive
    · rintro rfl
      simp [hdemote] at hinactive
  · rfl

/-- The link of a swap of active cells has its old queue with the two jobs exchanged. -/
theorem IsQueue.exchange {order : List Nat} (hq : p.IsQueue d s.promote.link order)
    (hpromote : s.promote.job ∈ order) (hdemote : s.demote.job ∈ order) :
    p'.IsQueue d s.promote.link (order.map (Equiv.swap s.promote.job s.demote.job)) := by
  have hlink : s.promote.link < p.links := (apply_eq_ok.1 h).1.link_lt
  constructor
  · have hmap : (order.map (Equiv.swap s.promote.job s.demote.job)).Perm order := by
      have hnodup : (order.map (Equiv.swap s.promote.job s.demote.job)).Nodup :=
        hq.nodup.map (Equiv.injective _)
      refine (List.perm_ext_iff_of_nodup hnodup hq.nodup).2 fun job => ?_
      rw [List.mem_map_of_involutive (Equiv.swap_apply_self _ _), Equiv.swap_apply_def]
      split
      · next heq => simp only [heq, hpromote, hdemote]
      · split
        · next heq => simp only [heq, hpromote, hdemote]
        · rfl
    exact hmap.trans hq.perm
  · rw [List.map_map, List.length_map, ← hq.ranks]
    refine List.map_congr_left fun job _ => ?_
    rw [Function.comp_apply, rank_apply h hlink, if_pos rfl, Equiv.swap_apply_self]

theorem IsQueue.exchange_neighbours {front behind : List Nat}
    (hq : p.IsQueue d s.promote.link (front ++ s.demote.job :: s.promote.job :: behind)) :
    p'.IsQueue d s.promote.link (front ++ s.promote.job :: s.demote.job :: behind) := by
  rw [← map_swap_neighbours hq.nodup]
  exact IsQueue.exchange h hq (by simp) (by simp)

theorem IsQueue.apply_of_ne {order : List Nat} (hq : p.IsQueue d link order) (hlink : link < p.links)
    (hne : link ≠ s.promote.link) : p'.IsQueue d link order := by
  refine ⟨hq.perm, ?_⟩
  rw [← hq.ranks]
  refine List.map_congr_left fun job _ => ?_
  rw [rank_apply h hlink, if_neg hne]

/-- A swap of active cells keeps a table that fits. -/
theorem Fits.apply (hfits : p.Fits d) (hpromote : d.isActive s.promote.job s.promote.link = true)
    (hdemote : d.isActive s.demote.job s.promote.link = true) : p'.Fits d := by
  obtain ⟨hn, -⟩ := apply_eq_ok.1 h
  refine ⟨(jobs_apply h).trans hfits.jobs, (links_apply h).trans hfits.links, fun link hlink => ?_⟩
  obtain ⟨order, hq⟩ := hfits.queue link hlink
  by_cases hsame : link = s.promote.link
  · subst hsame
    have hpromoted : s.promote.job ∈ order := hq.mem_iff.2 ⟨hfits.jobs ▸ hn.promote_lt, hpromote⟩
    have hdemoted : s.demote.job ∈ order := hq.mem_iff.2 ⟨hfits.jobs ▸ hn.demote_lt, hdemote⟩
    exact ⟨_, IsQueue.exchange h hq hpromoted hdemoted⟩
  · exact ⟨order, IsQueue.apply_of_ne h hq (hfits.links ▸ hlink) hsame⟩

end Apply

end LinkPriority.Priority

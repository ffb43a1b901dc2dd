import Mathlib.GroupTheory.Perm.Support
import LinkPriority.Proofs.Exchange
import LinkPriority.Proofs.Scalar.Exact

/-! A swap as a transposition of two cells. The ranks after a swap are the ranks before it with the two cells
exchanged, so the reverse of a swap takes it back and swaps of different cells commute; in the queue of their link two
neighbours change places. Where arithmetic wraps around, whether ranks are neighbours may be decided in 64-bit words,
as the sum that wraps around is 0 and nobody is ahead of rank 0. Where it is checked, the program stops at that sum. -/

namespace LinkPriority

/-- The two cells of a swap. -/
def Swap.cells (s : Swap) : List Position := [s.promote, s.demote]

/-- The exchange of the two cells of a swap. -/
def Swap.exchange (s : Swap) : Equiv.Perm Position := Equiv.swap s.promote s.demote

namespace Swap

variable {s t : Swap} {cell : Position}

theorem mem_cells : cell ∈ s.cells ↔ cell = s.promote ∨ cell = s.demote := by
  simp only [cells, List.mem_cons, List.not_mem_nil, or_false]

theorem exchange_of_not_mem (h : cell ∉ s.cells) : s.exchange cell = cell := by
  rw [mem_cells, not_or] at h
  exact Equiv.swap_apply_of_ne_of_ne h.1 h.2

theorem exchange_reverse (s : Swap) : s.reverse.exchange = s.exchange := Equiv.swap_comm s.demote s.promote

theorem exchange_exchange (s : Swap) (cell : Position) : s.exchange (s.exchange cell) = cell :=
  Equiv.swap_apply_self s.promote s.demote cell

/-- Exchanges of different cells commute. -/
theorem exchange_comm (hs : s.cells.Nodup) (ht : t.cells.Nodup) (h : s.cells.Disjoint t.cells) (cell : Position) :
    s.exchange (t.exchange cell) = t.exchange (s.exchange cell) :=
  congrArg (fun f : Equiv.Perm Position => f cell)
    (Equiv.Perm.disjoint_swap_swap (List.Nodup.append hs ht h)).commute.eq

end Swap

/-- Adding one in 64-bit words comes to a word other than 0 only without wrapping around. -/
theorem toNat_eq_succ_iff {front back : UInt64} :
    back.toNat = front.toNat + 1 ↔ back ≠ 0 ∧ front + 1 = back := by
  have hfront := front.toNat_lt
  have hback := back.toNat_lt
  rw [Ne, ← UInt64.toNat_inj, ← UInt64.toNat_inj, UInt64.toNat_add]
  simp only [UInt64.reduceToNat]
  omega

/-- No word is the one after the last, and adding one to the last wraps around to 0. -/
theorem size_le_succ_iff {front back : UInt64} :
    back.toNat ≠ front.toNat + 1 ∧ back.toNat ≠ 0 ∧ UInt64.size ≤ front.toNat + 1 ↔ back ≠ 0 ∧ front + 1 = 0 := by
  have hfront := front.toNat_lt
  have hback := back.toNat_lt
  rw [Ne, Ne, Ne, ← UInt64.toNat_inj, ← UInt64.toNat_inj, UInt64.toNat_add]
  simp only [UInt64.size, UInt64.reduceToNat]
  omega

namespace Priority

variable {α : Type} {overflow : Overflow} {p p' q : Priority} {s t : Swap} {cell : Position}

/-! ### Ranks -/

theorem Neighbours.nodup_cells (h : p.Neighbours s) : s.cells.Nodup := by
  have hne : s.promote ≠ s.demote := by
    intro hsame
    have hrank := h.rank_eq
    rw [hsame] at hrank
    omega
  simpa [Swap.cells] using hne

/-- A swap exchanges the ranks of its two cells. -/
theorem rankAt_apply (h : (p.apply s : Except (ModelError α) Priority) = .ok p') (hlink : cell.link < p.links) :
    p'.rankAt cell = p.rankAt (s.exchange cell) := by
  have hsame := (apply_eq_ok.1 h).1.sameLink
  obtain ⟨⟨promoted, link⟩, ⟨demoted, _⟩⟩ := s
  obtain rfl : link = _ := hsame
  obtain ⟨job, link'⟩ := cell
  rw [rankAt, rank_apply h hlink]
  by_cases hon : link' = link
  · subst hon
    rw [if_pos rfl, Swap.exchange, rankAt]
    simp only [Equiv.swap_apply_def, Position.mk.injEq, and_true]
    split <;> [rfl; split <;> rfl]
  · rw [if_neg hon, Swap.exchange_of_not_mem]
    · rfl
    · simp [Swap.mem_cells, hon]

/-- The exchange of two cells of one link leaves every cell on its link. -/
theorem Neighbours.link_exchange (h : p.Neighbours s) (cell : Position) : (s.exchange cell).link = cell.link := by
  rw [Swap.exchange, Equiv.swap_apply_def]
  split
  · next heq => rw [heq, h.sameLink]
  · split
    · next heq => rw [heq, h.sameLink]
    · rfl

/-- The cells of a swap are neighbours in the table after it, the other way round. -/
theorem Neighbours.reverse (h : p.Neighbours s) (happly : (p.apply s : Except (ModelError α) Priority) = .ok p') :
    p'.Neighbours s.reverse := by
  have hlink : s.demote.link < p.links := h.sameLink ▸ h.link_lt
  refine ⟨h.sameLink.symm, ?_, ?_, ?_, ?_⟩
  · rw [jobs_apply happly]
    exact h.demote_lt
  · rw [jobs_apply happly]
    exact h.promote_lt
  · rw [links_apply happly]
    exact hlink
  · show p'.rankAt s.demote = p'.rankAt s.promote + 1
    rw [rankAt_apply happly hlink, rankAt_apply happly h.link_lt, Swap.exchange, Equiv.swap_apply_right,
      Equiv.swap_apply_left]
    exact h.rank_eq

/-- The reverse of a swap takes it back. -/
theorem apply_reverse (h : (p.apply s : Except (ModelError α) Priority) = .ok p') :
    (p'.apply s.reverse : Except (ModelError α) Priority) = .ok p := by
  have hs := (apply_eq_ok.1 h).1
  obtain ⟨q, hq⟩ : ∃ q, (p'.apply s.reverse : Except (ModelError α) Priority) = .ok q := ⟨_, (hs.reverse h).apply⟩
  have hlinks : q.links = p.links := (links_apply hq).trans (links_apply h)
  have hback : q = p := by
    refine ext_rank ((jobs_apply hq).trans (jobs_apply h)) hlinks fun job _ link hlink => ?_
    let cell : Position := ⟨job, link⟩
    have hcell : cell.link < p.links := hlinks ▸ hlink
    calc q.rankAt cell = p'.rankAt (s.exchange cell) := by
          rw [rankAt_apply hq (by rwa [links_apply h]), Swap.exchange_reverse]
      _ = p.rankAt (s.exchange (s.exchange cell)) := rankAt_apply h (by rwa [hs.link_exchange])
      _ = p.rankAt cell := by rw [Swap.exchange_exchange]
  rw [hq, hback]

/-- A swap of other cells leaves neighbours what they are. -/
theorem Neighbours.apply_other (ht : p.Neighbours t) (h : (p.apply s : Except (ModelError α) Priority) = .ok p')
    (hdisjoint : s.cells.Disjoint t.cells) : p'.Neighbours t := by
  have hkept : ∀ cell ∈ t.cells, cell.link < p.links → p'.rankAt cell = p.rankAt cell := by
    intro cell hcell hlink
    rw [rankAt_apply h hlink, Swap.exchange_of_not_mem fun hmem => hdisjoint hmem hcell]
  refine ⟨ht.sameLink, ?_, ?_, ?_, ?_⟩
  · rw [jobs_apply h]
    exact ht.promote_lt
  · rw [jobs_apply h]
    exact ht.demote_lt
  · rw [links_apply h]
    exact ht.link_lt
  · rw [hkept _ (Swap.mem_cells.2 (.inl rfl)) ht.link_lt,
      hkept _ (Swap.mem_cells.2 (.inr rfl)) (ht.sameLink ▸ ht.link_lt)]
    exact ht.rank_eq

/-- Swaps of different cells come to the same table in either order. -/
theorem apply_comm {pₛ pₜ : Priority} (hs : (p.apply s : Except (ModelError α) Priority) = .ok pₛ)
    (ht : (p.apply t : Except (ModelError α) Priority) = .ok pₜ) (hdisjoint : s.cells.Disjoint t.cells) :
    ∃ q, (pₛ.apply t : Except (ModelError α) Priority) = .ok q ∧
      (pₜ.apply s : Except (ModelError α) Priority) = .ok q := by
  have hns := (apply_eq_ok.1 hs).1
  have hnt := (apply_eq_ok.1 ht).1
  obtain ⟨q, hq⟩ : ∃ q, (pₛ.apply t : Except (ModelError α) Priority) = .ok q :=
    ⟨_, (hnt.apply_other hs hdisjoint).apply⟩
  obtain ⟨q', hq'⟩ : ∃ q', (pₜ.apply s : Except (ModelError α) Priority) = .ok q' :=
    ⟨_, (hns.apply_other ht hdisjoint.symm).apply⟩
  have hlinks : q.links = p.links := (links_apply hq).trans (links_apply hs)
  have hlinks' : q'.links = p.links := (links_apply hq').trans (links_apply ht)
  have hsame : q = q' := by
    have hjobs : q.jobs = q'.jobs := by rw [jobs_apply hq, jobs_apply hs, jobs_apply hq', jobs_apply ht]
    refine ext_rank hjobs (hlinks.trans hlinks'.symm) fun job _ link hlink => ?_
    let cell : Position := ⟨job, link⟩
    have hcell : cell.link < p.links := hlinks ▸ hlink
    calc q.rankAt cell = pₛ.rankAt (t.exchange cell) := rankAt_apply hq (by rwa [links_apply hs])
      _ = p.rankAt (s.exchange (t.exchange cell)) := rankAt_apply hs (by rwa [hnt.link_exchange])
      _ = p.rankAt (t.exchange (s.exchange cell)) := by
          rw [Swap.exchange_comm hns.nodup_cells hnt.nodup_cells hdisjoint]
      _ = pₜ.rankAt (s.exchange cell) := (rankAt_apply ht (by rwa [hns.link_exchange])).symm
      _ = q'.rankAt cell := (rankAt_apply hq' (by rwa [links_apply ht])).symm
  exact ⟨q, hq, hsame ▸ hq'⟩

/-- A swap is only refused as a swap, unless checked arithmetic stops the program. -/
theorem applyUnder_eq_error {e : ModelError α} (h : p.applyUnder overflow s = .error e) :
    (∃ fault, e = .swap fault) ∨ overflow = .stops ∧ e = .overflow .sum := by
  unfold applyUnder at h
  split at h
  · exact .inl ⟨_, (Except.error.inj h).symm⟩
  · split at h
    · exact .inl ⟨_, (Except.error.inj h).symm⟩
    · simp only at h
      split at h
      · split at h
        · next hstops => exact .inr ⟨hstops.1, (Except.error.inj h).symm⟩
        · exact .inl ⟨_, (Except.error.inj h).symm⟩
      · simp at h

/-- A swap stops the program exactly if no word holds the rank behind the demoted one and that rank is asked for. -/
theorem apply_eq_overflow : (p.apply s : Except (ModelError α) Priority) = .error (.overflow .sum) ↔
    s.promote.link = s.demote.link ∧ s.promote.link < p.links ∧ s.promote.job < p.jobs ∧ s.demote.job < p.jobs ∧
      p.rankAt s.promote ≠ p.rankAt s.demote + 1 ∧ p.rankAt s.promote ≠ 0 ∧
      UInt64.size ≤ p.rankAt s.demote + 1 := by
  unfold apply applyUnder
  split
  · next hlink => simp [hlink]
  · next hlink =>
    rw [not_not] at hlink
    split
    · next hrange =>
      refine iff_of_false (by simp) ?_
      rintro ⟨-, hlt, hpromote, hdemote, -⟩
      omega
    · next hrange =>
      rw [not_or, not_or, not_le, not_le, not_le] at hrange
      obtain ⟨hpromote, hdemote, hlt⟩ := hrange
      dsimp only
      split
      · next hrank =>
        split
        · next hstops => exact iff_of_true rfl ⟨hlink, hlt, hpromote, hdemote, hrank, hstops.2⟩
        · next hrefused => exact iff_of_false (by simp) fun hstops => hrefused ⟨rfl, hstops.2.2.2.2.2⟩
      · next hrank => exact iff_of_false (by simp) fun hstops => hrank hstops.2.2.2.2.1

/-! ### Queues -/

section Queues

variable [Scalar α] {d : Demand α}

/-- A swap of active cells exchanges two neighbours in the queue of their link. -/
theorem exists_linkOrder_apply (hfits : p.Fits d) (h : (p.apply s : Except (ModelError α) Priority) = .ok p')
    (hpromote : d.isActive s.promote.job s.promote.link = true)
    (hdemote : d.isActive s.demote.job s.demote.link = true) :
    ∃ front behind, p.linkOrder d s.promote.link = .ok (front ++ s.demote.job :: s.promote.job :: behind) ∧
      p'.linkOrder d s.promote.link = .ok (front ++ s.promote.job :: s.demote.job :: behind) := by
  have hs := (apply_eq_ok.1 h).1
  obtain ⟨order, hq⟩ := hfits.queue s.promote.link (hfits.links ▸ hs.link_lt)
  have hpromoted : s.promote.job ∈ order := hq.mem_iff.2 ⟨hfits.jobs ▸ hs.promote_lt, hpromote⟩
  have hdemoted : s.demote.job ∈ order := hq.mem_iff.2 ⟨hfits.jobs ▸ hs.demote_lt, hs.sameLink ▸ hdemote⟩
  obtain ⟨front, behind, rfl⟩ := hq.exists_neighbours hdemoted hpromoted hs.rank_promote
  exact ⟨front, behind, linkOrder_eq_ok.2 hq, linkOrder_eq_ok.2 (IsQueue.exchange_neighbours h hq)⟩

/-- The queues of all other links stay. -/
theorem linkOrder_apply_of_ne (hfits : p.Fits d) (h : (p.apply s : Except (ModelError α) Priority) = .ok p')
    {link : Nat} (hlink : link < d.links) (hne : link ≠ s.promote.link) : p'.linkOrder d link = p.linkOrder d link := by
  obtain ⟨order, hq⟩ := hfits.queue link hlink
  rw [linkOrder_eq_ok.2 hq, linkOrder_eq_ok.2 (IsQueue.apply_of_ne h hq (hfits.links ▸ hlink) hne)]

end Queues

/-- A swap is carried out exactly if its cells are on one link of the table and the promoted rank is the one after the
demoted rank; for ranks that are 64-bit words this may be decided in words, rank 0 apart. Otherwise it is refused as a
swap, but checked arithmetic stops the program where the demoted rank is the last word and the promoted rank is not 0.
A swap exchanges the ranks of its two cells and changes no other, its reverse takes it back, and it commutes with
every swap of other cells. A demand that accepts the table and in which both cells are active accepts the new table
too: two neighbours in the queue of the link have changed places and all other queues are as before. -/
theorem swap_exchanges_neighbours [Scalar α] (p : Priority) (s : Swap) :
    ((∃ p', (p.apply s : Except (ModelError α) Priority) = .ok p') ↔
      s.promote.link = s.demote.link ∧ s.promote.link < p.links ∧ s.promote.job < p.jobs ∧ s.demote.job < p.jobs ∧
      p.rankAt s.promote = p.rankAt s.demote + 1) ∧
    (∀ overflow p', (p.applyUnder overflow s : Except (ModelError α) Priority) = .ok p' ↔
      (p.apply s : Except (ModelError α) Priority) = .ok p') ∧
    (∀ front back : UInt64, p.rankAt s.demote = front.toNat → p.rankAt s.promote = back.toNat →
      (p.rankAt s.promote = p.rankAt s.demote + 1 ↔ back ≠ 0 ∧ front + 1 = back) ∧
      ((p.apply s : Except (ModelError α) Priority) = .error (.overflow .sum) ↔
        s.promote.link = s.demote.link ∧ s.promote.link < p.links ∧ s.promote.job < p.jobs ∧ s.demote.job < p.jobs ∧
        back ≠ 0 ∧ front + 1 = 0)) ∧
    (∀ (overflow : Overflow) (e : ModelError α), p.applyUnder overflow s = .error e →
      (∃ fault, e = .swap fault) ∨ overflow = .stops ∧ e = .overflow .sum) ∧
    ∀ p', (p.apply s : Except (ModelError α) Priority) = .ok p' →
      p'.jobs = p.jobs ∧ p'.links = p.links ∧
      p'.rankAt s.promote = p.rankAt s.demote ∧ p'.rankAt s.demote = p.rankAt s.promote ∧
      (∀ cell, cell.job < p.jobs → cell.link < p.links → cell ∉ s.cells → p'.rankAt cell = p.rankAt cell) ∧
      (p'.apply s.reverse : Except (ModelError α) Priority) = .ok p ∧
      (∀ t p'', s.cells.Disjoint t.cells → (p.apply t : Except (ModelError α) Priority) = .ok p'' →
        ∃ q, (p'.apply t : Except (ModelError α) Priority) = .ok q ∧
          (p''.apply s : Except (ModelError α) Priority) = .ok q) ∧
      ∀ d : Demand α, (p.validate d : Except (ModelError α) Unit) = .ok () →
        d.isActive s.promote.job s.promote.link = true → d.isActive s.demote.job s.demote.link = true →
        (p'.validate d : Except (ModelError α) Unit) = .ok () ∧
        (∃ front behind, p.linkOrder d s.promote.link = .ok (front ++ s.demote.job :: s.promote.job :: behind) ∧
          p'.linkOrder d s.promote.link = .ok (front ++ s.promote.job :: s.demote.job :: behind)) ∧
        ∀ link < d.links, link ≠ s.promote.link → p'.linkOrder d link = p.linkOrder d link := by
  refine ⟨⟨?_, ?_⟩, fun _ _ => applyUnder_eq_ok.trans apply_eq_ok.symm, ?_, fun _ _ => applyUnder_eq_error, ?_⟩
  · rintro ⟨p', h⟩
    obtain ⟨hs, -⟩ := apply_eq_ok.1 h
    exact ⟨hs.sameLink, hs.link_lt, hs.promote_lt, hs.demote_lt, hs.rank_eq⟩
  · rintro ⟨hsame, hlink, hpromote, hdemote, hrank⟩
    exact ⟨_, Neighbours.apply ⟨hsame, hpromote, hdemote, hlink, hrank⟩⟩
  · intro front back hfront hback
    rw [apply_eq_overflow, hfront, hback, size_le_succ_iff]
    exact ⟨toNat_eq_succ_iff, Iff.rfl⟩
  · intro p' h
    have hs := (apply_eq_ok.1 h).1
    have hdemote : s.demote.link < p.links := hs.sameLink ▸ hs.link_lt
    refine ⟨jobs_apply h, links_apply h, ?_, ?_, ?_, apply_reverse h, ?_, ?_⟩
    · rw [rankAt_apply h hs.link_lt, Swap.exchange, Equiv.swap_apply_left]
    · rw [rankAt_apply h hdemote, Swap.exchange, Equiv.swap_apply_right]
    · intro cell _ hlink hother
      rw [rankAt_apply h hlink, Swap.exchange_of_not_mem hother]
    · exact fun t p'' hdisjoint ht => apply_comm h ht hdisjoint
    · intro d hvalid hpromoted hdemoted
      have hfits := validate_eq_ok.1 hvalid
      exact ⟨validate_eq_ok.2 (hfits.apply h hpromoted (hs.sameLink ▸ hdemoted)),
        exists_linkOrder_apply hfits h hpromoted hdemoted, fun _ => linkOrder_apply_of_ne hfits h⟩

theorem swap_of_contendedRanks :
    let s : Swap := ⟨⟨2, 0⟩, ⟨1, 0⟩⟩
    let t : Swap := ⟨⟨0, 1⟩, ⟨2, 1⟩⟩
    (contendedRanks.validate contendedLinks : Except (ModelError Tangent) Unit) = .ok () ∧ s.cells.Disjoint t.cells ∧
    ∃ p' p'' q, (contendedRanks.apply s : Except (ModelError Tangent) Priority) = .ok p' ∧
      (contendedRanks.apply t : Except (ModelError Tangent) Priority) = .ok p'' ∧
      (p'.apply s.reverse : Except (ModelError Tangent) Priority) = .ok contendedRanks ∧
      (p'.apply t : Except (ModelError Tangent) Priority) = .ok q ∧
      (p''.apply s : Except (ModelError Tangent) Priority) = .ok q ∧
      (p'.validate contendedLinks : Except (ModelError Tangent) Unit) = .ok () ∧
      p'.linkOrder contendedLinks 1 = contendedRanks.linkOrder contendedLinks 1 := by
  intro s t
  have hdisjoint : s.cells.Disjoint t.cells := by simp [s, t, Swap.cells]
  obtain ⟨hs, -, -, -, hdone⟩ := swap_exchanges_neighbours (α := Tangent) contendedRanks s
  obtain ⟨ht, -⟩ := swap_exchanges_neighbours (α := Tangent) contendedRanks t
  obtain ⟨p', hp'⟩ := hs.2 (by decide)
  obtain ⟨p'', hp''⟩ := ht.2 (by decide)
  obtain ⟨-, -, -, -, -, hback, hcommute, hqueues⟩ := hdone p' hp'
  obtain ⟨q, hq, hq'⟩ := hcommute t p'' hdisjoint hp''
  obtain ⟨hvalid, -, hothers⟩ := hqueues contendedLinks validate_contendedRanks rfl rfl
  exact ⟨validate_contendedRanks, hdisjoint, p', p'', q, hp', hp'', hback, hq, hq', hvalid,
    hothers 1 (by decide) (by decide)⟩

/-- Two jobs of one link. The first has somebody ahead, and the second has the last rank that a word holds. -/
def lastRanks : Priority := ⟨⟨2, 1, #[1, 2 ^ 64 - 1]⟩, rfl⟩

/-- A swap of ranks that are not neighbours is not always refused: with the last rank demoted the program stops, and
only arithmetic that wraps around refuses the swap. -/
theorem apply_of_lastRanks :
    let s : Swap := ⟨⟨0, 0⟩, ⟨1, 0⟩⟩
    lastRanks.rankAt s.promote < UInt64.size ∧ lastRanks.rankAt s.demote < UInt64.size ∧
    lastRanks.rankAt s.promote ≠ lastRanks.rankAt s.demote + 1 ∧
    (lastRanks.apply s : Except (ModelError Tangent) Priority) = .error (.overflow .sum) ∧
    (∀ fault, (lastRanks.apply s : Except (ModelError Tangent) Priority) ≠ .error (.swap fault)) ∧
    (lastRanks.applyUnder .wraps s : Except (ModelError Tangent) Priority) =
      .error (.swap (.notAdjacent s 1 (2 ^ 64 - 1))) := by
  intro s
  have hstops : (lastRanks.apply s : Except (ModelError Tangent) Priority) = .error (.overflow .sum) := rfl
  refine ⟨by decide, by decide, by decide, hstops, fun fault => ?_, rfl⟩
  rw [hstops]
  simp

end Priority

end LinkPriority

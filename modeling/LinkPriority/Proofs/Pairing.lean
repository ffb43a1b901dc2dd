import Mathlib.Data.List.Induction
import LinkPriority.Candidates
import LinkPriority.Proofs.Exchange
import LinkPriority.Proofs.Scalar.Exact

/-! Pairing cells with the jobs ahead of them, on any table of ranks, whether they make queues or not. A cell is passed
over at the front, refused if no active job holds the rank right ahead of it, and else paired with the first active job
that does. So pairing fails at the first cell that is refused; otherwise each cell behind the front gives one swap, the
first time it is met, and all of them can be carried out. -/

namespace LinkPriority

variable {α : Type} [Scalar α] {d : Demand α} {p : Priority} {cell : Position} {s : Swap} {cells : List Position}

namespace Priority

/-! ### One cell -/

theorem jobAt?_eq_none {link rank : Nat} :
    p.jobAt? d link rank = none ↔ ∀ job < d.jobs, d.isActive job link = true → p.rank job link ≠ rank := by
  simp only [jobAt?, List.find?_eq_none, Demand.mem_activeJobs, decide_eq_true_eq, and_imp, ne_eq]

/-- Looking up a rank finds the first active job that holds it. -/
theorem jobAt?_eq_some {link rank job : Nat} :
    p.jobAt? d link rank = some job ↔ job < d.jobs ∧ d.isActive job link = true ∧ p.rank job link = rank ∧
      ∀ other < d.jobs, d.isActive other link = true → p.rank other link = rank → job ≤ other := by
  rw [jobAt?, Demand.activeJobs, List.find?_filter, List.find?_range_eq_some]
  simp only [decide_eq_true_eq, List.mem_range, Bool.not_eq_true', decide_eq_false_iff_not, not_and]
  constructor
  · rintro ⟨⟨hactive, hrank⟩, hlt, hbefore⟩
    exact ⟨hlt, hactive, hrank, fun other _ hother hsame => Nat.le_of_not_lt fun hless => hbefore other hless hother hsame⟩
  · rintro ⟨hlt, hactive, hrank, hfirst⟩
    exact ⟨⟨hactive, hrank⟩, hlt, fun other hless hother hsame =>
      Nat.not_lt_of_le (hfirst other (Nat.lt_trans hless hlt) hother hsame) hless⟩

/-- The cell is behind the front, but no active job holds the rank right ahead of it. -/
structure NobodyAhead (p : Priority) (d : Demand α) (cell : Position) : Prop where
  rank_pos : 0 < p.rankAt cell
  nobody : ∀ job < d.jobs, d.isActive job cell.link = true → p.rank job cell.link ≠ p.rankAt cell - 1

/-- The swap lets a cell pass the first active job of its link that holds the rank right ahead of it. -/
structure PassesFirst (p : Priority) (d : Demand α) (s : Swap) : Prop where
  sameLink : s.demote.link = s.promote.link
  job_lt : s.demote.job < d.jobs
  active : d.isActive s.demote.job s.promote.link = true
  rank_eq : p.rankAt s.promote = p.rank s.demote.job s.promote.link + 1
  first : ∀ job < d.jobs, d.isActive job s.promote.link = true →
    p.rank job s.promote.link = p.rank s.demote.job s.promote.link → s.demote.job ≤ job

/-- What a cell passes is determined by the table. -/
theorem PassesFirst.unique {t : Swap} (hs : p.PassesFirst d s) (ht : p.PassesFirst d t) (h : s.promote = t.promote) :
    s = t := by
  obtain ⟨cell, ⟨job, link⟩⟩ := s
  obtain ⟨_, ⟨job', link'⟩⟩ := t
  obtain rfl : cell = _ := h
  obtain rfl : link = cell.link := hs.sameLink
  obtain rfl : link' = cell.link := ht.sameLink
  have hrank : p.rank job cell.link = p.rank job' cell.link := Nat.succ.inj (hs.rank_eq.symm.trans ht.rank_eq)
  have hjob : job = job' :=
    Nat.le_antisymm (hs.first job' ht.job_lt ht.active hrank.symm) (ht.first job hs.job_lt hs.active hrank)
  rw [hjob]

/-- On a table of the shape of the demand, a cell may pass whom it is paired with. -/
theorem PassesFirst.neighbours (h : p.PassesFirst d s) (hjobs : p.jobs = d.jobs)
    (hjob : s.promote.job < p.jobs) (hlink : s.promote.link < p.links) : p.Neighbours s := by
  refine ⟨h.sameLink.symm, hjob, hjobs ▸ h.job_lt, hlink, ?_⟩
  rw [h.rank_eq, rankAt, h.sameLink]

end Priority

theorem overtake?_eq_none : overtake? d p cell = .ok none ↔ p.rankAt cell = 0 := by
  unfold overtake?
  split
  · next h => simp [h]
  · next ahead h =>
    split <;> simp [h]

theorem overtake?_eq_some : overtake? d p cell = .ok (some s) ↔ s.promote = cell ∧ p.PassesFirst d s := by
  unfold overtake?
  constructor
  · intro h
    split at h
    · simp at h
    · next ahead hahead =>
      split at h
      · next peer hpeer =>
        obtain rfl := Option.some.inj (Except.ok.inj h)
        obtain ⟨hlt, hactive, hrank, hfirst⟩ := Priority.jobAt?_eq_some.1 hpeer
        refine ⟨rfl, rfl, hlt, hactive, ?_, fun job hjob hactive' hsame => ?_⟩
        · rw [hahead, hrank]
        · exact hfirst job hjob hactive' (hsame.trans hrank)
      · simp at h
  · rintro ⟨rfl, h⟩
    have hpeer : p.jobAt? d s.promote.link (p.rank s.demote.job s.promote.link) = some s.demote.job :=
      Priority.jobAt?_eq_some.2 ⟨h.job_lt, h.active, rfl, h.first⟩
    rw [h.rank_eq]
    simp only [hpeer]
    rw [← h.sameLink]

theorem overtake?_eq_error {e : ModelError α} : overtake? d p cell = .error e ↔
    p.NobodyAhead d cell ∧ e = .rankOrder cell.link (.nobodyAhead (p.rankAt cell - 1) cell) := by
  unfold overtake?
  split
  · next h =>
    simp only [reduceCtorEq, false_iff]
    rintro ⟨hnobody, -⟩
    have := hnobody.rank_pos
    omega
  · next ahead h =>
    rw [h, Nat.succ_sub_one]
    split
    · next peer hpeer =>
      simp only [reduceCtorEq, false_iff]
      rintro ⟨hnobody, -⟩
      obtain ⟨hlt, hactive, hrank, -⟩ := Priority.jobAt?_eq_some.1 hpeer
      exact hnobody.nobody peer hlt hactive (by omega)
    · next hpeer =>
      have hnobody : p.NobodyAhead d cell := ⟨by omega, by simpa [h] using Priority.jobAt?_eq_none.1 hpeer⟩
      simp only [hnobody, true_and, Except.error.injEq, eq_comm]

/-- A cell is not refused exactly if it is at the front or somebody is ahead of it. -/
theorem exists_overtake?_iff : (∃ swap?, overtake? d p cell = .ok swap?) ↔ ¬p.NobodyAhead d cell := by
  cases h : overtake? d p cell with
  | ok swap? =>
    refine iff_of_true ⟨swap?, rfl⟩ fun hnobody => ?_
    rw [overtake?_eq_error.2 ⟨hnobody, rfl⟩] at h
    contradiction
  | error e =>
    refine iff_of_false ?_ (not_not.2 (overtake?_eq_error.1 h).1)
    rintro ⟨swap?, heq⟩
    contradiction

/-! ### Many cells -/

section EraseDups

variable {β γ : Type} [DecidableEq β] [DecidableEq γ]

/-- Of a list read from its front, an entry is kept if it is new. -/
theorem eraseDups_concat (xs : List β) (x : β) :
    (xs ++ [x]).eraseDups = if x ∈ xs then xs.eraseDups else xs.eraseDups ++ [x] := by
  rw [List.eraseDups_append, List.removeAll, List.filter_singleton]
  by_cases hx : x ∈ xs <;> simp [hx, List.eraseDups_cons]

/-- Repetitions may be erased before or after a function is applied under which no two entries fall together. -/
theorem map_eraseDups {f : β → γ} {xs : List β} (hinj : ∀ x ∈ xs, ∀ y ∈ xs, f x = f y → x = y) :
    xs.eraseDups.map f = (xs.map f).eraseDups := by
  induction xs using List.reverseRecOn with
  | nil => rfl
  | append_singleton xs x ih =>
    have hmem : f x ∈ xs.map f ↔ x ∈ xs := by
      refine ⟨fun h => ?_, List.mem_map_of_mem⟩
      obtain ⟨y, hy, heq⟩ := List.mem_map.1 h
      exact hinj y (by simp [hy]) x (by simp) heq ▸ hy
    have hrest := ih fun y hy z hz => hinj y (by simp [hy]) z (by simp [hz])
    rw [List.map_append, List.map_cons, List.map_nil, eraseDups_concat, eraseDups_concat, ← hrest]
    simp only [hmem]
    split
    · rfl
    · rw [List.map_append, List.map_cons, List.map_nil]

theorem nodup_eraseDups (xs : List β) : xs.eraseDups.Nodup := by
  induction xs using List.reverseRecOn with
  | nil => simp
  | append_singleton xs x ih =>
    rw [eraseDups_concat]
    split
    · exact ih
    · next hx =>
      rw [List.nodup_append_comm]
      exact List.nodup_cons.2 ⟨fun h => hx (List.mem_eraseDups.1 h), ih⟩

theorem eraseDups_of_nodup {xs : List β} (h : xs.Nodup) : xs.eraseDups = xs := by
  induction xs using List.reverseRecOn with
  | nil => rfl
  | append_singleton xs x ih =>
    have hcons : (x :: xs).Nodup := List.nodup_append_comm.1 h
    obtain ⟨hx, hxs⟩ := List.nodup_cons.1 hcons
    rw [eraseDups_concat, if_neg hx, ih hxs]

end EraseDups

/-- Adding swaps one after the other keeps the first occurrence of each. -/
theorem foldl_addSwap (found : List (Option Swap)) : found.foldl addSwap [] = (found.filterMap id).eraseDups := by
  induction found using List.reverseRecOn with
  | nil => rfl
  | append_singleton found last ih =>
    rw [List.foldl_append, List.foldl_cons, List.foldl_nil, ih, List.filterMap_append]
    cases last with
    | none => simp [addSwap]
    | some s =>
      show addSwap _ (some s) = (found.filterMap id ++ [s]).eraseDups
      simp only [addSwap, List.contains_iff_mem, List.mem_eraseDups, eraseDups_concat]

theorem pairWithPeers_eq_mapM (d : Demand α) (p : Priority) (cells : List Position) :
    pairWithPeers d p cells = (cells.mapM (overtake? d p)).map fun found => (found.filterMap id).eraseDups := by
  simp only [pairWithPeers, Except.foldlM_map, foldl_addSwap]

/-- Cells of which none is refused give one swap each, those at the front none. -/
theorem map_promote_of_forall₂ {found : List (Option Swap)}
    (h : List.Forall₂ (fun cell swap? => overtake? d p cell = .ok swap?) cells found) :
    (found.filterMap id).map Swap.promote = cells.filter (fun cell => 0 < p.rankAt cell) ∧
      ∀ s ∈ found.filterMap id, p.PassesFirst d s := by
  induction h with
  | nil => simp
  | @cons cell swap? cells found hcell _ ih =>
    cases swap? with
    | none =>
      have hfront : p.rankAt cell = 0 := overtake?_eq_none.1 hcell
      simpa [hfront] using ih
    | some s =>
      obtain ⟨rfl, hs⟩ := overtake?_eq_some.1 hcell
      have hbehind : 0 < p.rankAt s.promote := hs.rank_eq ▸ Nat.le_add_left 1 _
      simpa [hbehind, hs] using ih

/-- Pairing fails at the first cell that nobody is ahead of although it is behind the front. -/
theorem pairWithPeers_eq_error {e : ModelError α} : pairWithPeers d p cells = .error e ↔
    ∃ before cell after, cells = before ++ cell :: after ∧ (∀ c ∈ before, ¬p.NobodyAhead d c) ∧
      p.NobodyAhead d cell ∧ e = .rankOrder cell.link (.nobodyAhead (p.rankAt cell - 1) cell) := by
  rw [pairWithPeers_eq_mapM, Except.map_eq_error, Except.mapM_eq_error]
  simp only [exists_overtake?_iff, overtake?_eq_error]

/-- Pairing does not fail if no cell is refused. -/
theorem exists_pairWithPeers_of_forall (h : ∀ cell ∈ cells, ¬p.NobodyAhead d cell) :
    ∃ swaps, pairWithPeers d p cells = .ok swaps := by
  cases hpair : pairWithPeers d p cells with
  | ok swaps => exact ⟨swaps, rfl⟩
  | error e =>
    obtain ⟨before, cell, after, rfl, -, hnobody, -⟩ := pairWithPeers_eq_error.1 hpair
    exact absurd hnobody (h cell (by simp))

/-- Pairing that does not fail has refused no cell, and gives each cell behind the front its swap, once, where it is
first met. -/
theorem of_pairWithPeers_eq_ok {swaps : List Swap} (h : pairWithPeers d p cells = .ok swaps) :
    (∀ cell ∈ cells, ¬p.NobodyAhead d cell) ∧
      swaps.map Swap.promote = (cells.filter fun cell => 0 < p.rankAt cell).eraseDups ∧
      ∀ s ∈ swaps, p.PassesFirst d s := by
  rw [pairWithPeers_eq_mapM, Except.map_eq_ok] at h
  obtain ⟨found, hfound, rfl⟩ := h
  have hall := Except.mapM_eq_ok.1 hfound
  obtain ⟨hpromote, hpasses⟩ := map_promote_of_forall₂ hall
  refine ⟨fun cell hcell => ?_, ?_, fun s hs => hpasses s (List.mem_eraseDups.1 hs)⟩
  · obtain ⟨i, hi, rfl⟩ := List.getElem_of_mem hcell
    exact exists_overtake?_iff.1 ⟨_, hall.get hi (hall.length_eq ▸ hi)⟩
  · rw [map_eraseDups fun s hs t ht => (hpasses s hs).unique (hpasses t ht), hpromote]

/-- Whatever the ranks are, pairing fails exactly if some cell is behind the front although no active job of its link
holds the rank right ahead of it, and reports the first such cell. Otherwise it gives one swap for each different cell
behind the front, in the order in which the cells are first met; the cell passes the first active job that holds the
rank right ahead of it, and the swap can be carried out. -/
theorem pairWithPeers_first_ahead (hjobs : p.jobs = d.jobs) (hlinks : p.links = d.links)
    (hcells : ∀ cell ∈ cells, cell.job < d.jobs ∧ cell.link < d.links) :
    ((∃ e, pairWithPeers d p cells = .error e) ↔ ∃ cell ∈ cells, p.NobodyAhead d cell) ∧
    (∀ e, pairWithPeers d p cells = .error e →
      ∃ before cell after, cells = before ++ cell :: after ∧ (∀ c ∈ before, ¬p.NobodyAhead d c) ∧
        p.NobodyAhead d cell ∧ e = .rankOrder cell.link (.nobodyAhead (p.rankAt cell - 1) cell)) ∧
    ∀ swaps, pairWithPeers d p cells = .ok swaps →
      swaps.map Swap.promote = (cells.filter fun cell => 0 < p.rankAt cell).eraseDups ∧
      ∀ s ∈ swaps, p.PassesFirst d s ∧ ∃ p', (p.apply s : Except (ModelError α) Priority) = .ok p' := by
  refine ⟨⟨?_, ?_⟩, fun e => pairWithPeers_eq_error.1, fun swaps hswaps => ?_⟩
  · rintro ⟨e, he⟩
    obtain ⟨before, cell, after, rfl, -, hnobody, -⟩ := pairWithPeers_eq_error.1 he
    exact ⟨cell, by simp, hnobody⟩
  · rintro ⟨cell, hcell, hnobody⟩
    cases hpair : pairWithPeers d p cells with
    | error e => exact ⟨e, rfl⟩
    | ok swaps => exact absurd hnobody ((of_pairWithPeers_eq_ok hpair).1 cell hcell)
  · obtain ⟨-, hpromote, hpasses⟩ := of_pairWithPeers_eq_ok hswaps
    refine ⟨hpromote, fun s hs => ⟨hpasses s hs, ?_⟩⟩
    have hlisted : s.promote ∈ cells := by
      have hmem := List.mem_map_of_mem (f := Swap.promote) hs
      rw [hpromote, List.mem_eraseDups] at hmem
      exact (List.mem_filter.1 hmem).1
    obtain ⟨hjob, hlink⟩ := hcells _ hlisted
    exact ⟨_, ((hpasses s hs).neighbours hjobs (hjobs ▸ hjob) (hlinks ▸ hlink)).apply⟩

/-- Two jobs share a rank on the first link, and two ranks are missing on the second. -/
def brokenRanks : Priority := ⟨⟨3, 2, #[0, 5, 1, 0, 1, 2]⟩, rfl⟩

theorem pairWithPeers_of_brokenRanks :
    (∃ swaps, pairWithPeers contendedLinks brokenRanks [⟨2, 0⟩, ⟨0, 0⟩, ⟨1, 0⟩, ⟨2, 0⟩] = .ok swaps ∧
      swaps.map Swap.promote = [⟨2, 0⟩, ⟨1, 0⟩] ∧
      ∀ s ∈ swaps, ∃ p', (brokenRanks.apply s : Except (ModelError Tangent) Priority) = .ok p') ∧
    pairWithPeers contendedLinks brokenRanks [⟨1, 0⟩, ⟨2, 1⟩, ⟨0, 1⟩] = .error (.rankOrder 1 (.nobodyAhead 1 ⟨2, 1⟩)) ∧
    ∃ cell ∈ [⟨1, 0⟩, ⟨2, 1⟩, ⟨0, 1⟩], brokenRanks.NobodyAhead contendedLinks cell := by
  have hcells : ∀ cell ∈ [⟨2, 0⟩, ⟨0, 0⟩, ⟨1, 0⟩, ⟨2, 0⟩], Position.job cell < 3 ∧ Position.link cell < 2 := by decide
  have hcells' : ∀ cell ∈ [⟨1, 0⟩, ⟨2, 1⟩, ⟨0, 1⟩], Position.job cell < 3 ∧ Position.link cell < 2 := by decide
  obtain ⟨-, -, hpaired⟩ := pairWithPeers_first_ahead (d := contendedLinks) (p := brokenRanks) rfl rfl hcells
  obtain ⟨hrefused, -, -⟩ := pairWithPeers_first_ahead (d := contendedLinks) (p := brokenRanks) rfl rfl hcells'
  have herror : pairWithPeers contendedLinks brokenRanks [⟨1, 0⟩, ⟨2, 1⟩, ⟨0, 1⟩] =
      .error (.rankOrder 1 (.nobodyAhead 1 ⟨2, 1⟩)) := rfl
  obtain ⟨hpromote, hswaps⟩ := hpaired [⟨⟨2, 0⟩, ⟨0, 0⟩⟩, ⟨⟨1, 0⟩, ⟨0, 0⟩⟩] rfl
  exact ⟨⟨_, rfl, hpromote.trans (by decide), fun s hs => (hswaps s hs).2⟩, herror, hrefused.1 ⟨_, herror⟩⟩

end LinkPriority

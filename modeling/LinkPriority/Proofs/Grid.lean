import Mathlib.Tactic.Common
import Mathlib.Data.List.Nodup
import LinkPriority.Grid

/-! Reading and writing the cells of a full table. The row-major index of a cell tells job and link apart as
long as the link is one of the table, so a cell that is written is read back and no other is touched. -/

namespace LinkPriority.Grid

variable {β : Type} {jobs links job link job' link' : Nat}

theorem index_lt (hjob : job < jobs) (hlink : link < links) : job * links + link < jobs * links := by
  calc job * links + link < job * links + links := Nat.add_lt_add_left hlink _
    _ = (job + 1) * links := (Nat.succ_mul job links).symm
    _ ≤ jobs * links := Nat.mul_le_mul_right links hjob

theorem index_div (hlink : link < links) : (job * links + link) / links = job := by
  rw [Nat.mul_comm, Nat.mul_add_div (Nat.zero_lt_of_lt hlink), Nat.div_eq_of_lt hlink, Nat.add_zero]

theorem index_mod (hlink : link < links) : (job * links + link) % links = link := by
  rw [Nat.mul_comm, Nat.mul_add_mod, Nat.mod_eq_of_lt hlink]

theorem index_inj (hlink : link < links) (hlink' : link' < links) :
    job * links + link = job' * links + link' ↔ job = job' ∧ link = link' := by
  constructor
  · intro h
    have hdiv := congrArg (· / links) h
    have hmod := congrArg (· % links) h
    simp only [index_div hlink, index_div hlink', index_mod hlink, index_mod hlink'] at hdiv hmod
    exact ⟨hdiv, hmod⟩
  · rintro ⟨rfl, rfl⟩
    rfl

/-! ### One cell -/

theorem getD_eq (g : Grid β) (job link : Nat) (default : β) :
    g.getD job link default = g.cells[job * g.links + link]?.getD default := by
  rw [getD, Array.getD_eq_getD_getElem?]

theorem getD_set {g : Grid β} (hg : g.IsFull) {value default : β} (hjob : job < g.jobs) (hlink : link < g.links)
    (hlink' : link' < g.links) :
    (g.set job link value).getD job' link' default =
      if job' = job ∧ link' = link then value else g.getD job' link' default := by
  have hsize : job * g.links + link < g.cells.size := hg ▸ index_lt hjob hlink
  simp only [getD_eq, set, Array.getElem?_setIfInBounds]
  by_cases hsame : job' = job ∧ link' = link
  · obtain ⟨rfl, rfl⟩ := hsame
    simp [hsize]
  · rw [if_neg hsame, if_neg]
    rw [index_inj hlink hlink']
    exact fun h => hsame ⟨h.1.symm, h.2.symm⟩

theorem getD_set_of_ne {g : Grid β} {value default : β} (hlink : link < g.links) (hlink' : link' < g.links)
    (hne : ¬(job' = job ∧ link' = link)) :
    (g.set job link value).getD job' link' default = g.getD job' link' default := by
  have hindex : job * g.links + link ≠ job' * g.links + link' := by
    rw [Ne, index_inj hlink hlink']
    exact fun h => hne ⟨h.1.symm, h.2.symm⟩
  simp only [getD_eq, set, Array.getElem?_setIfInBounds_ne hindex]

theorem getD_tabulate {f : Nat → Nat → β} {default : β} (hjob : job < jobs) (hlink : link < links) :
    (tabulate jobs links f).getD job link default = f job link := by
  have hsize : job * links + link < jobs * links := index_lt hjob hlink
  simp [getD_eq, tabulate, hsize, index_div hlink, index_mod hlink]

/-- Full tables of one shape are equal if they agree on every cell. -/
theorem ext_getD {g h : Grid β} (default : β) (hg : g.IsFull) (hh : h.IsFull) (hjobs : g.jobs = h.jobs)
    (hlinks : g.links = h.links)
    (hcell : ∀ job < g.jobs, ∀ link < g.links, g.getD job link default = h.getD job link default) : g = h := by
  obtain ⟨jobs, links, cells⟩ := g
  obtain ⟨jobs', links', cells'⟩ := h
  obtain rfl : jobs = jobs' := hjobs
  obtain rfl : links = links' := hlinks
  simp only [IsFull] at hg hh
  simp only [mk.injEq, true_and]
  refine Array.ext (hg.trans hh.symm) fun i hi hi' => ?_
  have hpos : 0 < links := Nat.pos_of_mul_pos_left (hg ▸ Nat.zero_lt_of_lt hi)
  have hdiv : i / links < jobs := Nat.div_lt_of_lt_mul (by rw [Nat.mul_comm]; exact hg ▸ hi)
  have hindex : i / links * links + i % links = i := Nat.div_add_mod' i links
  have h := hcell (i / links) hdiv (i % links) (Nat.mod_lt i hpos)
  simpa [getD_eq, hindex, hi, hi'] using h

/-- Rows of one length, laid one after the other, hold each cell in its place in the table. -/
theorem getElem?_flatMap_row {γ : Type} {rows : List γ} {row : γ → List β} {x : γ}
    (hlength : ∀ x ∈ rows, (row x).length = links) (hx : rows[job]? = some x) (hlink : link < links) :
    (rows.flatMap row)[job * links + link]? = (row x)[link]? := by
  induction rows generalizing job with
  | nil => simp at hx
  | cons first rest ih =>
    obtain ⟨hfirst, hrest⟩ := List.forall_mem_cons.1 hlength
    rw [List.flatMap_cons]
    cases job with
    | zero =>
      obtain rfl : first = x := Option.some.inj hx
      rw [Nat.zero_mul, Nat.zero_add, List.getElem?_append_left (hfirst ▸ hlink)]
    | succ job =>
      have hindex : (job + 1) * links + link = links + (job * links + link) := by rw [Nat.succ_mul]; omega
      rw [hindex, List.getElem?_append_right (by omega), hfirst, Nat.add_sub_cancel_left]
      exact ih hrest hx

/-! ### Many cells -/

/-- Cells listed link by link are different if on each link they are of different jobs. -/
theorem nodup_flatMap_cells {γ : Type} {rows : List γ} (linkOf : γ → Nat) (jobsOf : γ → List Nat)
    (hlinks : (rows.map linkOf).Nodup) (hjobs : ∀ row ∈ rows, (jobsOf row).Nodup) :
    (rows.flatMap fun row => (jobsOf row).map fun job => (⟨job, linkOf row⟩ : Position)).Nodup := by
  rw [List.nodup_flatMap]
  constructor
  · intro row hrow
    exact (hjobs row hrow).map fun _ _ h => (Position.mk.inj h).1
  · refine (List.pairwise_map.1 hlinks).imp fun hne => ?_
    intro cell hleft hright
    obtain ⟨_, -, rfl⟩ := List.mem_map.1 hleft
    obtain ⟨_, -, h⟩ := List.mem_map.1 hright
    exact hne (Position.mk.inj h).2.symm

section SetAll

variable {g : Grid β} {entries : List (Position × β)} {value default : β}

theorem getD_setAll_of_forall_ne (hlinks : ∀ e ∈ entries, e.1.link < g.links) (hlink : link < g.links)
    (hne : ∀ e ∈ entries, e.1 ≠ ⟨job, link⟩) :
    (g.setAll entries).getD job link default = g.getD job link default := by
  induction entries generalizing g with
  | nil => rfl
  | cons entry rest ih =>
    obtain ⟨hhead, hrest⟩ := List.forall_mem_cons.1 hlinks
    obtain ⟨hfirst, hothers⟩ := List.forall_mem_cons.1 hne
    have hset : (g.set entry.1.job entry.1.link entry.2).getD job link default = g.getD job link default := by
      refine getD_set_of_ne hhead hlink fun h => hfirst ?_
      rw [h.1, h.2]
    rw [← hset]
    exact ih hrest hlink hothers

/-- Of entries for different cells each is read back. -/
theorem getD_setAll_of_mem (hg : g.IsFull) (hlinks : ∀ e ∈ entries, e.1.link < g.links)
    (hnodup : (entries.map Prod.fst).Nodup) (hmem : (⟨job, link⟩, value) ∈ entries) (hjob : job < g.jobs) :
    (g.setAll entries).getD job link default = value := by
  induction entries generalizing g with
  | nil => simp at hmem
  | cons entry rest ih =>
    obtain ⟨hhead, hrest⟩ := List.forall_mem_cons.1 hlinks
    obtain ⟨hfirst, hothers⟩ := List.nodup_cons.1 hnodup
    rcases List.mem_cons.1 hmem with rfl | hmem
    · have hnot : ∀ e ∈ rest, e.1 ≠ ⟨job, link⟩ := fun e he heq =>
        hfirst (List.mem_map.2 ⟨e, he, heq⟩)
      calc ((g.set job link value).setAll rest).getD job link default
          = (g.set job link value).getD job link default := getD_setAll_of_forall_ne hrest hhead hnot
        _ = value := by rw [getD_set hg hjob hhead hhead, if_pos ⟨rfl, rfl⟩]
    · exact ih (hg.set _ _ _) hrest hothers hmem hjob

/-- What a cell holds after replacements was there before or is one of them. -/
theorem getElem?_setAll {i : Nat} (h : (g.setAll entries).cells[i]? = some value) :
    g.cells[i]? = some value ∨ ∃ e ∈ entries, e.1.job * g.links + e.1.link = i ∧ e.2 = value := by
  induction entries generalizing g with
  | nil => exact .inl h
  | cons entry rest ih =>
    rcases ih h with hset | ⟨e, he, hi, hv⟩
    · simp only [set, Array.getElem?_setIfInBounds] at hset
      split at hset
      · next hi =>
        split at hset
        · exact .inr ⟨entry, List.mem_cons_self, hi, Option.some.inj hset⟩
        · simp at hset
      · exact .inl hset
    · exact .inr ⟨e, List.mem_cons_of_mem _ he, hi, hv⟩

end SetAll

section OfEntries

variable {entries : List (Position × β)} {common value default : β}
  (hlinks : ∀ e ∈ entries, e.1.link < links)
include hlinks

/-- Of entries for different cells each is read back from the table made of them. -/
theorem getD_ofEntries_of_mem (hnodup : (entries.map Prod.fst).Nodup) (hmem : (⟨job, link⟩, value) ∈ entries)
    (hjob : job < jobs) : (ofEntries jobs links common entries).getD job link default = value :=
  getD_setAll_of_mem (isFull_fill jobs links common) hlinks hnodup hmem hjob

theorem getD_ofEntries_of_forall_ne (hjob : job < jobs) (hlink : link < links)
    (hne : ∀ e ∈ entries, e.1 ≠ ⟨job, link⟩) :
    (ofEntries jobs links common entries).getD job link default = common := by
  rw [ofEntries, getD_setAll_of_forall_ne hlinks hlink hne]
  simp [getD_eq, fill, index_lt hjob hlink]

end OfEntries

/-! ### The list of cells -/

theorem mem_entries {g : Grid β} {p : Position} {value : β} :
    (p, value) ∈ g.entries ↔ ∃ i, g.cells[i]? = some value ∧ p = ⟨i / g.links, i % g.links⟩ := by
  simp only [entries, List.mem_map, List.mk_mem_zipIdx_iff_getElem?, Prod.exists, Prod.mk.injEq]
  constructor
  · rintro ⟨v, i, hv, rfl, rfl⟩
    exact ⟨i, by simpa using hv, rfl⟩
  · rintro ⟨i, hv, rfl⟩
    exact ⟨value, i, by simpa using hv, rfl, rfl⟩

theorem map_snd_entries (g : Grid β) : g.entries.map Prod.snd = g.cells.toList := by
  simp only [entries, List.map_map]
  exact List.zipIdx_map_fst 0 g.cells.toList

/-- A full table lists each of its cells with what it holds. -/
theorem mem_entries_of_isFull {g : Grid β} (hg : g.IsFull) {p : Position} {value : β} (default : β) :
    (p, value) ∈ g.entries ↔ p.job < g.jobs ∧ p.link < g.links ∧ g.getD p.job p.link default = value := by
  rw [mem_entries]
  constructor
  · rintro ⟨i, hi, rfl⟩
    have hlt : i < g.jobs * g.links := hg ▸ (Array.getElem?_eq_some_iff.1 hi).1
    have hlinks : 0 < g.links := Nat.pos_of_mul_pos_left (Nat.zero_lt_of_lt hlt)
    refine ⟨Nat.div_lt_of_lt_mul (by rwa [Nat.mul_comm]), Nat.mod_lt i hlinks, ?_⟩
    rw [getD_eq, Nat.div_add_mod', hi, Option.getD_some]
  · rintro ⟨hjob, hlink, rfl⟩
    have hlt : p.job * g.links + p.link < g.cells.size := hg ▸ index_lt hjob hlink
    refine ⟨p.job * g.links + p.link, ?_, ?_⟩
    · rw [getD_eq, Array.getElem?_eq_getElem hlt, Option.getD_some]
    · rw [index_div hlink, index_mod hlink]

/-- The cells are listed row after row. -/
theorem pairwise_entries (g : Grid β) :
    g.entries.Pairwise fun a b => a.1.job * g.links + a.1.link < b.1.job * g.links + b.1.link := by
  rw [List.pairwise_iff_getElem]
  intro i j hi hj hlt
  simpa only [entries, List.getElem_map, List.getElem_zipIdx, Nat.zero_add, Nat.div_add_mod'] using hlt

/-- Replacing one cell replaces one entry. -/
theorem entries_set (g : Grid β) {cell : Position} (hlink : cell.link < g.links) (value : β) :
    (g.set cell.job cell.link value).entries = g.entries.map fun e => (e.1, if e.1 = cell then value else e.2) := by
  refine List.ext_getElem (by simp [entries, set]) fun i hi _ => ?_
  have hsame : cell.job * g.links + cell.link = i ↔ (⟨i / g.links, i % g.links⟩ : Position) = cell := by
    constructor
    · rintro rfl
      rw [index_div hlink, index_mod hlink]
    · rintro rfl
      exact Nat.div_add_mod' i g.links
  simp [entries, set, List.getElem_set, hsame]

/-- Writing one value into some cells replaces their entries. -/
theorem entries_foldl_set {g : Grid β} {taken : List Position} (hlinks : ∀ cell ∈ taken, cell.link < g.links)
    (value : β) : (taken.foldl (fun g cell => g.set cell.job cell.link value) g).entries =
      g.entries.map fun e => (e.1, if e.1 ∈ taken then value else e.2) := by
  induction taken generalizing g with
  | nil => simp
  | cons cell rest ih =>
    obtain ⟨hcell, hrest⟩ := List.forall_mem_cons.1 hlinks
    rw [List.foldl_cons, ih (g := g.set cell.job cell.link value) hrest, entries_set g hcell, List.map_map]
    refine List.map_congr_left fun e _ => ?_
    by_cases hfirst : e.1 = cell <;> by_cases hin : e.1 ∈ rest <;> simp [hfirst, hin]

/-- A table made of entries holds, apart from its common value, nothing else. -/
theorem eq_or_mem_of_mem_ofEntries {entries : List (Position × β)} {p : Position} {value default : β}
    (hlinks : ∀ e ∈ entries, e.1.link < links) (h : (p, value) ∈ (ofEntries jobs links default entries).entries) :
    value = default ∨ (p, value) ∈ entries := by
  obtain ⟨i, hi, rfl⟩ := mem_entries.1 h
  have hshape : (ofEntries jobs links default entries).links = links :=
    (shape_setAll (fill jobs links default) entries).2
  rcases getElem?_setAll hi with hfill | ⟨⟨⟨job, link⟩, v⟩, he, hindex, hv⟩
  · simp only [fill, Array.getElem?_replicate] at hfill
    split at hfill
    · exact .inl (Option.some.inj hfill).symm
    · simp at hfill
  · have hlink : link < links := hlinks _ he
    simp only [fill] at hindex hv
    rw [hshape, ← hindex, index_div hlink, index_mod hlink, ← hv]
    exact .inr he

end LinkPriority.Grid

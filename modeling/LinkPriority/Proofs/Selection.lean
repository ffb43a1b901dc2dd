import Mathlib.Data.List.Pairwise
import LinkPriority.Candidates
import LinkPriority.Proofs.Grid
import LinkPriority.Proofs.Scalar.Machine

/-! Which cells are selected. The cells that are not zero are ranked by value and, among equal values, row after row;
the first of them are taken whatever the source of random choices is, and more are drawn from the others. A stable sort
ranks them that way because the cells come row after row, and a cell that is taken cannot be drawn again because it has
been set to zero. -/

namespace LinkPriority

open Scalar

variable {α : Type} [Scalar α] {values : Grid α} {cell : Position} {count : Nat}

/-- A cell of the table that does not hold zero; an undefined number is not zero. -/
structure Grid.HasValue (values : Grid α) (cell : Position) : Prop where
  job_lt : cell.job < values.jobs
  link_lt : cell.link < values.links
  isZero_eq : isZero (values.getD cell.job cell.link zero) = false

/-- One cell is ranked ahead of another: its value comes first in the order of sorting, or neither does and it comes
first row after row. -/
def Grid.RanksAhead (values : Grid α) (a b : Position) : Prop :=
  precedes (values.getD a.job a.link zero) (values.getD b.job b.link zero) = true ∧
    (precedes (values.getD b.job b.link zero) (values.getD a.job a.link zero) = true →
      a.job * values.links + a.link < b.job * values.links + b.link)

/-! ### Ranking -/

section Stable

variable {β : Type} {le : β → β → Bool} {xs : List β} (htrans : ∀ a b c, le a b = true → le b c = true → le a c = true)
  (htotal : ∀ a b, (le a b || le b a) = true)
include htrans htotal

/-- Sorting leaves the entries that tie with one of them in their order. -/
theorem filter_mergeSort_of_ties (a : β) :
    (xs.mergeSort le).filter (fun x => le x a && le a x) = xs.filter fun x => le x a && le a x := by
  have hties : (xs.filter fun x => le x a && le a x).Pairwise fun x y => le x y = true := by
    refine List.pairwise_of_forall_mem_list fun x hx y hy => ?_
    simp only [List.mem_filter, Bool.and_eq_true] at hx hy
    exact htrans x a y hx.2.1 hy.2.2
  have hsub := List.sublist_mergeSort htrans htotal hties List.filter_sublist
  have hfilter := hsub.filter fun x => le x a && le a x
  rw [List.filter_filter] at hfilter
  simp only [Bool.and_self] at hfilter
  exact (hfilter.eq_of_length ((List.mergeSort_perm xs le).filter _).length_eq.symm).symm

/-- Sorting breaks ties by whatever order the list is in. -/
theorem pairwise_mergeSort_of_pairwise {R : β → β → Prop} (h : xs.Pairwise R) :
    (xs.mergeSort le).Pairwise fun a b => le a b = true ∧ (le b a = true → R a b) := by
  rw [List.pairwise_iff_forall_sublist]
  intro a b hab
  have hle : le a b = true := List.pairwise_iff_forall_sublist.1 (List.pairwise_mergeSort htrans htotal xs) hab
  refine ⟨hle, fun hback => ?_⟩
  have hself : le a a = true := by simpa using htotal a a
  have hties := hab.filter fun x => le x a && le a x
  rw [filter_mergeSort_of_ties htrans htotal] at hties
  simp only [List.filter_cons, List.filter_nil, hself, hle, hback, Bool.and_self, if_true] at hties
  exact List.pairwise_iff_forall_sublist.1 h (hties.trans List.filter_sublist)

end Stable

/-- The cells that are not zero, as ranked. -/
def rankedCells (values : Grid α) : List Position :=
  ((nonzeroCells values).mergeSort fun a b => precedes a.2 b.2).map Prod.fst

theorem smallestCells_eq (values : Grid α) (count : Nat) :
    smallestCells values count = (rankedCells values).take count := rfl

theorem rankedCells_perm (values : Grid α) : (rankedCells values).Perm ((nonzeroCells values).map Prod.fst) :=
  (List.mergeSort_perm _ _).map Prod.fst

theorem nodup_nonzeroCells (values : Grid α) : ((nonzeroCells values).map Prod.fst).Nodup := by
  have hne := (Grid.pairwise_entries values).filter fun e => !isZero e.2
  rw [List.nodup_iff_pairwise_ne, List.pairwise_map]
  refine hne.imp fun hlt heq => ?_
  rw [heq] at hlt
  exact Nat.lt_irrefl _ hlt

theorem nodup_rankedCells (values : Grid α) : (rankedCells values).Nodup :=
  (rankedCells_perm values).nodup_iff.2 (nodup_nonzeroCells values)

/-- There are as many cells that are not zero as the table holds values that are not zero. -/
theorem length_rankedCells (values : Grid α) :
    (rankedCells values).length = values.cells.countP fun v => !isZero v := by
  rw [(rankedCells_perm values).length_eq, List.length_map, ← Array.countP_toList, ← Grid.map_snd_entries,
    List.countP_map, List.countP_eq_length_filter]
  rfl

section Full

variable (hfull : values.IsFull)
include hfull

theorem mem_nonzeroCells {value : α} : (cell, value) ∈ nonzeroCells values ↔
    values.HasValue cell ∧ values.getD cell.job cell.link zero = value := by
  rw [nonzeroCells, List.mem_filter, Grid.mem_entries_of_isFull hfull zero]
  constructor
  · rintro ⟨⟨hjob, hlink, rfl⟩, hvalue⟩
    exact ⟨⟨hjob, hlink, by simpa using hvalue⟩, rfl⟩
  · rintro ⟨⟨hjob, hlink, hvalue⟩, rfl⟩
    exact ⟨⟨hjob, hlink, rfl⟩, by simpa using hvalue⟩

theorem mem_map_nonzeroCells : cell ∈ (nonzeroCells values).map Prod.fst ↔ values.HasValue cell := by
  constructor
  · intro h
    obtain ⟨⟨_, value⟩, hmem, rfl⟩ := List.mem_map.1 h
    exact ((mem_nonzeroCells hfull).1 hmem).1
  · exact fun h => List.mem_map.2 ⟨_, (mem_nonzeroCells hfull).2 ⟨h, rfl⟩, rfl⟩

theorem mem_rankedCells : cell ∈ rankedCells values ↔ values.HasValue cell := by
  rw [(rankedCells_perm values).mem_iff, mem_map_nonzeroCells hfull]

theorem pairwise_rankedCells [SortedScalar α] : (rankedCells values).Pairwise values.RanksAhead := by
  rw [rankedCells, List.pairwise_map]
  have htrans : ∀ a b c : Position × α, precedes a.2 b.2 = true → precedes b.2 c.2 = true →
      precedes a.2 c.2 = true := fun _ _ _ => SortedScalar.precedes_trans
  have htotal : ∀ a b : Position × α, (precedes a.2 b.2 || precedes b.2 a.2) = true := fun a b => by
    simpa using SortedScalar.precedes_total a.2 b.2
  have hsorted := pairwise_mergeSort_of_pairwise htrans htotal
    ((Grid.pairwise_entries values).filter fun e => !isZero e.2)
  refine hsorted.imp_of_mem fun {a b} ha hb h => ?_
  have hvalue : ∀ e ∈ nonzeroCells values, values.getD e.1.job e.1.link zero = e.2 :=
    fun e he => ((mem_nonzeroCells hfull).1 he).2
  rw [Grid.RanksAhead, hvalue a ((List.mergeSort_perm _ _).mem_iff.1 ha),
    hvalue b ((List.mergeSort_perm _ _).mem_iff.1 hb)]
  exact h

end Full

/-! ### Drawing -/

variable [OrderedScalar α]

/-- What is left are the cells that are not zero without those taken. -/
theorem remainingCells_eq {taken : List Position} (hlinks : ∀ cell ∈ taken, cell.link < values.links) :
    remainingCells values taken = ((nonzeroCells values).map Prod.fst).filter fun cell => cell ∉ taken := by
  have hentry : ∀ e : Position × α, (!isZero (if e.1 ∈ taken then zero else e.2)) =
      (decide (e.1 ∉ taken) && !isZero e.2) := by
    intro e
    by_cases htaken : e.1 ∈ taken <;> simp [htaken, isZero_zero]
  rw [remainingCells, nonzeroCells, nonzeroCells, Grid.entries_foldl_set hlinks, List.filter_map, List.filter_map,
    List.filter_filter, List.map_map]
  simp only [Function.comp_def, hentry]

omit [Scalar α] [OrderedScalar α] in
/-- Without its first entries a list of different entries is what comes behind them. -/
theorem filter_not_mem_take {β : Type} [DecidableEq β] {xs : List β} (h : xs.Nodup) (n : Nat) :
    (xs.filter fun x => x ∉ xs.take n) = xs.drop n := by
  have hsplit : (xs.take n ++ xs.drop n).Nodup := by rwa [List.take_append_drop]
  obtain ⟨-, -, hapart⟩ := List.nodup_append.1 hsplit
  have hfront : ((xs.take n).filter fun x => x ∉ xs.take n) = [] := by simp
  have hbehind : ((xs.drop n).filter fun x => x ∉ xs.take n) = xs.drop n :=
    List.filter_eq_self.2 fun x hx => decide_eq_true fun htaken => hapart x htaken x hx rfl
  calc (xs.filter fun x => x ∉ xs.take n) = (xs.take n ++ xs.drop n).filter fun x => x ∉ xs.take n := by
        rw [List.take_append_drop]
    _ = xs.drop n := by rw [List.filter_append, hfront, hbehind, List.nil_append]

/-- The cells that are left are those ranked behind the ones taken, row after row. -/
theorem remainingCells_perm (hfull : values.IsFull) (count : Nat) :
    (remainingCells values (smallestCells values count)).Perm ((rankedCells values).drop count) := by
  have hlinks : ∀ cell ∈ smallestCells values count, cell.link < values.links := fun cell hcell =>
    ((mem_rankedCells hfull).1 (List.mem_of_mem_take hcell)).link_lt
  rw [remainingCells_eq hlinks, ← filter_not_mem_take (nodup_rankedCells values) count, smallestCells_eq]
  exact (rankedCells_perm values).symm.filter _

section Draw

variable {σ : Type} [IndexSource σ] {choices : σ}

/-- The cells that are drawn from those left. -/
def drawnCells (values : Grid α) (count : Nat) (choices : σ) : List Position :=
  let rest := remainingCells values (smallestCells values count)
  (IndexSource.sample rest.length (min (extraCount count) rest.length) choices).1.filterMap (rest[·]?)

omit [OrderedScalar α] in
theorem selectCells_eq (values : Grid α) (count : Nat) (choices : σ) : (selectCells values count choices).1 =
    smallestCells values count ++ drawnCells values count choices := by
  show smallestCells values count ++ _ = _
  simp only [List.getElem?_toArray]
  rfl

theorem mem_ranked_of_mem_drawnCells (hfull : values.IsFull) (h : cell ∈ drawnCells values count choices) :
    cell ∈ (rankedCells values).drop count := by
  obtain ⟨i, -, hi⟩ := List.mem_filterMap.1 h
  exact (remainingCells_perm hfull count).mem_iff.1 (List.mem_of_getElem? hi)

/-- Every selected cell holds a value that is not zero. -/
theorem hasValue_of_mem_selectCells (hfull : values.IsFull) (h : cell ∈ (selectCells values count choices).1) :
    values.HasValue cell := by
  rw [selectCells_eq] at h
  refine (mem_rankedCells hfull).1 ?_
  rcases List.mem_append.1 h with hsmall | hdrawn
  · exact List.mem_of_mem_take hsmall
  · exact List.mem_of_mem_drop (mem_ranked_of_mem_drawnCells hfull hdrawn)

variable [LawfulIndexSource σ]

theorem length_drawnCells (hfull : values.IsFull) : (drawnCells values count choices).length =
    min (extraCount count) ((rankedCells values).length - count) := by
  have hrest := (remainingCells_perm hfull count).length_eq
  rw [List.length_drop] at hrest
  let rest := remainingCells values (smallestCells values count)
  have hall : ∀ i ∈ (IndexSource.sample rest.length (min (extraCount count) rest.length) choices).1,
      (rest[i]?).isSome = true := by
    intro i hi
    rw [List.getElem?_eq_getElem (LawfulIndexSource.lt_of_mem_sample choices (Nat.min_le_right _ _) hi)]
    rfl
  calc (drawnCells values count choices).length
      = (IndexSource.sample rest.length (min (extraCount count) rest.length) choices).1.length :=
        List.filterMap_length_eq_length.2 hall
    _ = min (extraCount count) rest.length := LawfulIndexSource.length_sample choices (Nat.min_le_right _ _)
    _ = min (extraCount count) ((rankedCells values).length - count) := by rw [hrest]

theorem nodup_drawnCells (hfull : values.IsFull) : (drawnCells values count choices).Nodup := by
  have hrest : (remainingCells values (smallestCells values count)).Nodup :=
    (remainingCells_perm hfull count).nodup_iff.2 ((nodup_rankedCells values).sublist (List.drop_sublist _ _))
  refine (LawfulIndexSource.nodup_sample choices (Nat.min_le_right _ _)).filterMap fun i j cell hi hj => ?_
  obtain ⟨hlt, rfl⟩ := List.getElem?_eq_some_iff.1 hi
  obtain ⟨hlt', heq⟩ := List.getElem?_eq_some_iff.1 hj
  exact (hrest.getElem_inj_iff.1 heq).symm

theorem nodup_selectCells (hfull : values.IsFull) : (selectCells values count choices).1.Nodup := by
  have hsplit : ((rankedCells values).take count ++ (rankedCells values).drop count).Nodup := by
    rw [List.take_append_drop]
    exact nodup_rankedCells values
  obtain ⟨hsmall, -, hapart⟩ := List.nodup_append.1 hsplit
  rw [selectCells_eq, List.nodup_append]
  exact ⟨hsmall, nodup_drawnCells hfull, fun a ha b hb => hapart a ha b (mem_ranked_of_mem_drawnCells hfull hb)⟩

theorem length_selectCells (hfull : values.IsFull) : (selectCells values count choices).1.length =
    min count (rankedCells values).length + min (extraCount count) ((rankedCells values).length - count) := by
  rw [selectCells_eq, List.length_append, smallestCells_eq, List.length_take, length_drawnCells hfull]

/-- Nothing is selected only if there is nothing to select, however little is asked for. -/
theorem selectCells_eq_nil_iff (hfull : values.IsFull) :
    (selectCells values count choices).1 = [] ↔ ∀ cell, ¬values.HasValue cell := by
  have hranked : rankedCells values = [] ↔ ∀ cell, ¬values.HasValue cell := by
    simp only [List.eq_nil_iff_forall_not_mem, mem_rankedCells hfull]
  rw [← hranked, ← List.length_eq_zero_iff, ← List.length_eq_zero_iff, length_selectCells hfull, extraCount]
  omega

end Draw

/-- Of the cells that do not hold zero the first are taken in the order of their values and, among equal values, row
after row, whatever the source of random choices is, and all others are ranked behind them; the rest of the selection
is drawn from those. No cell is selected twice, and as many are as there should be. -/
theorem selectCells_smallest_then_drawn [SortedScalar α] (values : Grid α) (hfull : values.IsFull) (count : Nat) :
    let nonzero := values.cells.countP fun v => !isZero v
    ∃ smallest : List Position, smallest.length = min count nonzero ∧ smallest.Pairwise values.RanksAhead ∧
      (∀ cell ∈ smallest, ∀ other, values.HasValue other → other ∉ smallest → values.RanksAhead cell other) ∧
      ∀ (σ : Type) [IndexSource σ] [LawfulIndexSource σ] (choices : σ),
        (selectCells values count choices).1.take (min count nonzero) = smallest ∧
        (selectCells values count choices).1.Nodup ∧
        (∀ cell ∈ (selectCells values count choices).1, values.HasValue cell) ∧
        (selectCells values count choices).1.length =
          min count nonzero + min (count / 2 + 1) (nonzero - min count nonzero) := by
  intro nonzero
  have hnonzero : (rankedCells values).length = nonzero := length_rankedCells values
  have hlength : (smallestCells values count).length = min count nonzero := by
    rw [smallestCells_eq, List.length_take, hnonzero]
  have hranked : ((rankedCells values).take count ++ (rankedCells values).drop count).Pairwise values.RanksAhead := by
    rw [List.take_append_drop]
    exact pairwise_rankedCells hfull
  obtain ⟨hsmall, -, hahead⟩ := List.pairwise_append.1 hranked
  refine ⟨smallestCells values count, hlength, hsmall, fun cell hcell other hother hnot => ?_,
    fun σ _ _ choices => ⟨?_, nodup_selectCells hfull, fun _ => hasValue_of_mem_selectCells hfull, ?_⟩⟩
  · have hmem := (mem_rankedCells hfull).2 hother
    rw [← List.take_append_drop count (rankedCells values), List.mem_append] at hmem
    exact hahead cell hcell other (hmem.resolve_left hnot)
  · rw [selectCells_eq, ← hlength, List.take_left]
  · rw [length_selectCells hfull, hnonzero, extraCount]
    omega

/-- A source that always draws the least there is. -/
inductive LeastSource where
  | least

instance : IndexSource LeastSource where
  sample _ amount := pure (List.range amount)

instance : LawfulIndexSource LeastSource where
  length_sample _ _ := List.length_range
  nodup_sample _ _ := List.nodup_range
  lt_of_mem_sample _ hle hi := Nat.lt_of_lt_of_le (List.mem_range.1 hi) hle

/-- Numbers that are undefined, infinite or a zero of either sign. -/
def extremeValues : Grid Binary64 :=
  ⟨2, 3, #[⟨0x7ff8000000000000⟩, ⟨0x8000000000000000⟩, ⟨0x7ff0000000000000⟩,
    ⟨0xfff8000000000000⟩, ⟨0xfff0000000000000⟩, ⟨0⟩]⟩

theorem selectCells_of_extremeValues : extremeValues.IsFull ∧
    ∃ smallest : List Position, smallest.length = 3 ∧ smallest.Pairwise extremeValues.RanksAhead ∧
      (selectCells extremeValues 3 LeastSource.least).1.take 3 = smallest ∧
      (selectCells extremeValues 3 LeastSource.least).1.Nodup ∧
      (selectCells extremeValues 3 LeastSource.least).1.length = 4 := by
  have hfull : extremeValues.IsFull := rfl
  have hnonzero : extremeValues.cells.countP (fun v => !isZero v) = 4 := by decide +kernel
  obtain ⟨smallest, hlength, hranked, -, hselected⟩ := selectCells_smallest_then_drawn extremeValues hfull 3
  obtain ⟨htake, hnodup, -, hcount⟩ := hselected LeastSource .least
  rw [hnonzero] at hlength htake hcount
  exact ⟨hfull, smallest, hlength, hranked, htake, hnodup, hcount⟩

end LinkPriority

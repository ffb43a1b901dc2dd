import LinkPriority.Demand
import LinkPriority.Scalar.Binary64
import LinkPriority.Proofs.Except
import LinkPriority.Proofs.Grid
import LinkPriority.Proofs.Scalar.Exact
import LinkPriority.Proofs.Scalar.Order

/-! What an accepted demand promises: it has jobs and links, a cell for every job on every link, and every load, also
one read beyond the table, is made of finite amounts that are not negative. A shape whose cells words cannot count is
not accepted, but it is not refused either, as the program stops; with arithmetic that wraps around it would be
accepted with as many cells as the count wraps to. -/

namespace LinkPriority

variable {α : Type} [Scalar α] {d : Demand α}

theorem Load.isActive_idle [OrderedScalar α] : (Load.idle : Load α).isActive = false := by
  rw [Load.isActive, Load.idle, Scalar.isZero_zero, Bool.not_true, Bool.or_self]

theorem Load.isAmount_idle [OrderedScalar α] : (Load.idle : Load α).isAmount = true := by
  have hzero : Scalar.isAmount (Scalar.zero : α) = true := by
    rw [Scalar.isAmount, OrderedScalar.isFinite_zero, Scalar.le_self OrderedScalar.isFinite_zero, Bool.and_self]
  rw [Load.isAmount, Load.idle, hzero, Bool.and_self]

namespace Demand

variable {overflow : Overflow} {jobs links count : Nat}

/-! ### How many cells -/

/-- Where a word holds the product, both ways of counting come to it. -/
theorem cellCount_of_lt (overflow : Overflow) (h : jobs * links < UInt64.size) :
    cellCount overflow jobs links = some (jobs * links) := by
  cases overflow with
  | stops => exact if_pos h
  | wraps => exact congrArg some (Nat.mod_eq_of_lt h)

theorem cellCount_stops_of_le (h : UInt64.size ≤ jobs * links) : cellCount .stops jobs links = none :=
  if_neg (Nat.not_lt.2 h)

theorem cellCount_stops_eq_some : cellCount .stops jobs links = some count ↔
    jobs * links < UInt64.size ∧ jobs * links = count := by
  rw [cellCount, Option.ite_none_right_eq_some, Option.some.injEq]

/-! ### Acceptance -/

theorem validateUnder_eq_ok : (d.validateUnder overflow : Except (ModelError α) Unit) = .ok () ↔
    d.jobs ≠ 0 ∧ d.links ≠ 0 ∧ cellCount overflow d.jobs d.links = some d.cells.size ∧
      ∀ cell load, (cell, load) ∈ d.entries → load.isAmount = true := by
  unfold validateUnder
  split
  · next hjobs => simp [hjobs]
  · next hjobs =>
    split
    · next hlinks => simp [hlinks]
    · next hlinks =>
      split
      · next hcount => simp [hcount]
      · next count hcount =>
        split
        · next hsize => simp [hcount, Ne.symm hsize]
        · next hsize =>
          rw [not_not] at hsize
          split
          · next cell load hfind =>
            refine iff_of_false (by simp) fun haccepted => ?_
            have hgood := haccepted.2.2.2 cell load (List.mem_of_find?_eq_some hfind)
            simpa [hgood] using List.find?_some hfind
          · next hfind =>
            have hnone := List.find?_eq_none.1 hfind
            refine iff_of_true rfl ⟨hjobs, hlinks, hsize ▸ hcount, fun cell load hmem => ?_⟩
            simpa using hnone _ hmem

theorem validate_eq_ok : (d.validate : Except (ModelError α) Unit) = .ok () ↔
    d.jobs ≠ 0 ∧ d.links ≠ 0 ∧ cellCount .stops d.jobs d.links = some d.cells.size ∧
      ∀ cell load, (cell, load) ∈ d.entries → load.isAmount = true :=
  validateUnder_eq_ok

/-- A shape whose cells cannot be counted has both dimensions. -/
theorem dimensions_ne_zero (hcount : UInt64.size ≤ jobs * links) : jobs ≠ 0 ∧ links ≠ 0 := by
  have hpos : 0 < jobs * links := Nat.lt_of_lt_of_le (by decide) hcount
  exact ⟨(Nat.pos_of_mul_pos_right hpos).ne', (Nat.pos_of_mul_pos_left hpos).ne'⟩

/-- Nothing is refused where cells cannot be counted. -/
theorem validate_eq_overflow (hcount : UInt64.size ≤ d.jobs * d.links) :
    (d.validate : Except (ModelError α) Unit) = .error (.overflow .product) := by
  obtain ⟨hjobs, hlinks⟩ := dimensions_ne_zero hcount
  rw [validate, validateUnder, if_neg hjobs, if_neg hlinks, cellCount_stops_of_le hcount]

/-- An accepted demand has a cell for every job on every link. -/
theorem isFull_of_validate (h : (d.validate : Except (ModelError α) Unit) = .ok ()) : d.IsFull := by
  obtain ⟨-, -, hcount, -⟩ := validate_eq_ok.1 h
  exact (cellCount_stops_eq_some.1 hcount).2.symm

theorem jobs_ne_zero (h : (d.validate : Except (ModelError α) Unit) = .ok ()) : d.jobs ≠ 0 :=
  (validate_eq_ok.1 h).1

theorem isAmount_load [OrderedScalar α] (h : (d.validate : Except (ModelError α) Unit) = .ok ())
    (job link : Nat) : (d.load job link).isAmount = true := by
  rw [load, Grid.getD_eq]
  cases hcell : d.cells[job * d.links + link]? with
  | none => exact Load.isAmount_idle
  | some load =>
    rw [Option.getD_some]
    exact (validate_eq_ok.1 h).2.2.2 _ load (Grid.mem_entries.2 ⟨_, hcell, rfl⟩)

theorem zero_le_load [OrderedScalar α] (h : (d.validate : Except (ModelError α) Unit) = .ok ()) (job link : Nat) :
    Scalar.le Scalar.zero (d.load job link).compute = true ∧ Scalar.le Scalar.zero (d.load job link).comm = true := by
  have hamount := isAmount_load h job link
  simp only [Load.isAmount, Scalar.isAmount, Bool.and_eq_true] at hamount
  exact ⟨hamount.1.2, hamount.2.2⟩

theorem jobTotal_eq_sum (d : Demand α) (job : Nat) :
    d.jobTotal job = Scalar.sum ((List.range d.links).map fun link => (d.load job link).total) := by
  rw [jobTotal, Grid.row, List.map_map]
  rfl

theorem jobComm_eq_sum (d : Demand α) (job : Nat) :
    d.jobComm job = Scalar.sum ((List.range d.links).map fun link => (d.load job link).comm) := by
  rw [jobComm, Grid.row, List.map_map]
  rfl

section Positive

variable [OrderedScalar α] [SummingScalar α] (h : (d.validate : Except (ModelError α) Unit) = .ok ())
include h

theorem zero_le_total (job link : Nat) : Scalar.le Scalar.zero (d.load job link).total = true :=
  SummingScalar.zero_le_add (zero_le_load h job link).1 (zero_le_load h job link).2

theorem zero_le_jobTotal (job : Nat) : Scalar.le Scalar.zero (d.jobTotal job) = true := by
  rw [jobTotal_eq_sum]
  exact Scalar.zero_le_sum (List.forall_mem_map.2 fun link _ => zero_le_total h job link)

/-- The whole demand of an active job is positive. -/
theorem jobTotal_le_zero_eq_false {job link : Nat} (hlink : link < d.links) (hactive : d.isActive job link = true) :
    Scalar.le (d.jobTotal job) Scalar.zero = false := by
  rw [jobTotal_eq_sum]
  refine Scalar.sum_pos (List.forall_mem_map.2 fun link _ => zero_le_total h job link)
    (List.mem_map_of_mem (List.mem_range.2 hlink)) ?_
  obtain ⟨hcompute, hcomm⟩ := zero_le_load h job link
  refine SummingScalar.add_pos hcompute hcomm ?_
  simpa [isActive, Load.isActive, Scalar.isZero, hcompute, hcomm] using hactive

end Positive

/-! ### Which demands are accepted -/

variable {cells : List (Load α)}

/-- An accepted demand is the table of its cells. -/
theorem eq_of_ofCellsUnder (h : (ofCellsUnder overflow jobs links cells : Except (ModelError α) (Demand α)) = .ok d) :
    d = ⟨⟨jobs, links, cells.toArray⟩⟩ := by
  obtain ⟨-, -, hd⟩ := Except.map_eq_ok.1 h
  exact hd.symm

theorem ofCells_eq_ok : (ofCells jobs links cells : Except (ModelError α) (Demand α)) = .ok d ↔
    (d.validate : Except (ModelError α) Unit) = .ok () ∧ d = ⟨⟨jobs, links, cells.toArray⟩⟩ := by
  constructor
  · intro h
    obtain rfl := eq_of_ofCellsUnder h
    obtain ⟨_, haccepted, -⟩ := Except.map_eq_ok.1 h
    exact ⟨haccepted, rfl⟩
  · rintro ⟨haccepted, rfl⟩
    exact Except.map_eq_ok.2 ⟨(), haccepted, rfl⟩

/-- What is accepted: dimensions that are not zero, as many cells as are counted, and amounts. -/
theorem exists_ofCellsUnder_eq_iff :
    (∃ d, (ofCellsUnder overflow jobs links cells : Except (ModelError α) (Demand α)) = .ok d) ↔
      jobs ≠ 0 ∧ links ≠ 0 ∧ cellCount overflow jobs links = some cells.length ∧
        ∀ load ∈ cells, load.isAmount = true := by
  have hentries : (∀ cell load, (cell, load) ∈ (⟨jobs, links, cells.toArray⟩ : Grid (Load α)).entries →
      load.isAmount = true) ↔ ∀ load ∈ cells, load.isAmount = true := by
    have hloads : (⟨jobs, links, cells.toArray⟩ : Grid (Load α)).entries.map Prod.snd = cells :=
      Grid.map_snd_entries _
    constructor
    · intro h load hload
      rw [← hloads] at hload
      obtain ⟨⟨cell, _⟩, hmem, rfl⟩ := List.mem_map.1 hload
      exact h cell _ hmem
    · intro h cell load hmem
      exact h load (hloads ▸ List.mem_map_of_mem hmem)
  have hvalidate : (validateUnder overflow ⟨⟨jobs, links, cells.toArray⟩⟩ : Except (ModelError α) Unit) = .ok () ↔ _ :=
    validateUnder_eq_ok
  rw [hentries] at hvalidate
  constructor
  · rintro ⟨d, hd⟩
    obtain ⟨_, hvalid, -⟩ := Except.map_eq_ok.1 hd
    exact hvalidate.1 hvalid
  · intro h
    exact ⟨_, Except.map_eq_ok.2 ⟨(), hvalidate.2 h, rfl⟩⟩

/-- What is not accepted is refused as a demand, if its cells can be counted. -/
theorem exists_fault_of_ofCellsUnder (hcount : jobs * links < UInt64.size) {e : ModelError α}
    (h : ofCellsUnder overflow jobs links cells = .error e) : ∃ fault, e = .demand fault := by
  have hinvalid := Except.map_eq_error.1 h
  rw [validateUnder, cellCount_of_lt overflow hcount] at hinvalid
  dsimp only at hinvalid
  split_ifs at hinvalid with hjobs hlinks hsize
  · exact ⟨_, (Except.error.inj hinvalid).symm⟩
  · exact ⟨_, (Except.error.inj hinvalid).symm⟩
  · exact ⟨_, (Except.error.inj hinvalid).symm⟩
  · split at hinvalid
    · exact ⟨_, (Except.error.inj hinvalid).symm⟩
    · exact nomatch hinvalid

theorem ofCells_eq_overflow (hcount : UInt64.size ≤ jobs * links) :
    (ofCells jobs links cells : Except (ModelError α) (Demand α)) = .error (.overflow .product) :=
  Except.map_eq_error.2 (validate_eq_overflow hcount)

/-- In a demand with all its cells the load of each job on each link is found in row-major order, and no two share a
place. -/
theorem getElem?_cells_of_length {job link : Nat} (hlength : cells.length = jobs * links) (hjob : job < jobs)
    (hlink : link < links) : job * links + link < cells.length ∧
      cells[job * links + link]? = some (load (⟨⟨jobs, links, cells.toArray⟩⟩ : Demand α) job link) := by
  have hindex : job * links + link < cells.length := hlength ▸ Grid.index_lt hjob hlink
  refine ⟨hindex, ?_⟩
  rw [load, Grid.getD_eq, List.getElem?_toArray, List.getElem?_eq_getElem hindex, Option.getD_some]

/-- Where words can count the cells, a demand is accepted exactly if its dimensions are not zero, it has a cell for
every job on every link, and all its amounts are finite and not negative, and it is refused as a demand otherwise. The
cell of each job on each link is then found in row-major order, and no two share one. Where words cannot count them,
the program stops; with arithmetic that wraps around, a demand of amounts is accepted with as many cells as the count
comes to. -/
theorem ofCells_full_of_countable (jobs links : Nat) (cells : List (Load α)) :
    (jobs * links < UInt64.size → ∀ overflow,
      ((∃ d, (ofCellsUnder overflow jobs links cells : Except (ModelError α) (Demand α)) = .ok d) ↔
        jobs ≠ 0 ∧ links ≠ 0 ∧ cells.length = jobs * links ∧ ∀ load ∈ cells,
          (Scalar.isFinite load.compute = true ∧ Scalar.le Scalar.zero load.compute = true) ∧
            Scalar.isFinite load.comm = true ∧ Scalar.le Scalar.zero load.comm = true) ∧
      (∀ e, ofCellsUnder overflow jobs links cells = .error e → ∃ fault, e = .demand fault) ∧
      ∀ d, (ofCellsUnder overflow jobs links cells : Except (ModelError α) (Demand α)) = .ok d →
        d.jobs = jobs ∧ d.links = links ∧ ∀ job < jobs, ∀ link < links,
          job * links + link < d.cells.size ∧ d.cells[job * links + link]? = some (d.load job link) ∧
          cells[job * links + link]? = some (d.load job link) ∧
          ∀ job' < jobs, ∀ link' < links, job * links + link = job' * links + link' → job = job' ∧ link = link') ∧
    (UInt64.size ≤ jobs * links →
      (ofCells jobs links cells : Except (ModelError α) (Demand α)) = .error (.overflow .product) ∧
      ((∃ d, (ofCellsUnder .wraps jobs links cells : Except (ModelError α) (Demand α)) = .ok d) ↔
        cells.length = jobs * links % UInt64.size ∧ ∀ load ∈ cells, load.isAmount = true)) := by
  have hamount : ∀ load : Load α, load.isAmount = true ↔
      (Scalar.isFinite load.compute = true ∧ Scalar.le Scalar.zero load.compute = true) ∧
        Scalar.isFinite load.comm = true ∧ Scalar.le Scalar.zero load.comm = true := by
    simp only [Load.isAmount, Scalar.isAmount, Bool.and_eq_true, implies_true]
  refine ⟨fun hcount overflow => ⟨?_, fun e => exists_fault_of_ofCellsUnder hcount, fun d hd => ?_⟩,
    fun hcount => ⟨?_, ?_⟩⟩
  · rw [exists_ofCellsUnder_eq_iff, cellCount_of_lt overflow hcount, Option.some.injEq, eq_comm (a := jobs * links)]
    simp only [hamount]
  · obtain ⟨-, -, hsize, -⟩ := exists_ofCellsUnder_eq_iff.1 ⟨d, hd⟩
    rw [cellCount_of_lt overflow hcount, Option.some.injEq] at hsize
    obtain rfl := eq_of_ofCellsUnder hd
    refine ⟨rfl, rfl, fun job hjob link hlink => ?_⟩
    obtain ⟨hindex, hcell⟩ := getElem?_cells_of_length hsize.symm hjob hlink
    refine ⟨by rwa [List.size_toArray], by rwa [List.getElem?_toArray], hcell, ?_⟩
    intro job' hjob' link' hlink' hsame
    exact (Grid.index_inj hlink hlink').1 hsame
  · exact ofCells_eq_overflow hcount
  · obtain ⟨hjobs, hlinks⟩ := dimensions_ne_zero hcount
    rw [exists_ofCellsUnder_eq_iff, cellCount, Option.some.injEq, eq_comm (a := jobs * links % UInt64.size)]
    simp only [hjobs, hlinks, ne_eq, not_false_eq_true, true_and]

theorem ofCells_of_contendedLinks :
    3 * 2 < UInt64.size ∧ UInt64.size ≤ 2 ^ 32 * 2 ^ 32 ∧
    (∃ d, (ofCells 3 2 contendedLinks.cells.toList : Except (ModelError Tangent) (Demand Tangent)) = .ok d ∧
      contendedLinks.cells[2 * 2 + 1]? = some (d.load 2 1)) ∧
    (ofCells 3 2 [] : Except (ModelError Tangent) (Demand Tangent)) = .error (.demand (.wrongSize 0 3 2)) ∧
    (ofCells (2 ^ 32) (2 ^ 32) contendedLinks.cells.toList : Except (ModelError Tangent) (Demand Tangent)) =
      .error (.overflow .product) := by
  have hcount : 3 * 2 < UInt64.size := by decide
  have huncounted : UInt64.size ≤ 2 ^ 32 * 2 ^ 32 := by decide
  obtain ⟨haccepted, -, hfull⟩ := (ofCells_full_of_countable 3 2 contendedLinks.cells.toList).1 hcount .stops
  obtain ⟨d, hd⟩ := haccepted.2 ⟨by decide, by decide, rfl, by decide⟩
  obtain ⟨-, -, hcell⟩ := hfull d hd
  obtain ⟨-, -, hload, -⟩ := hcell 2 (by decide) 1 (by decide)
  exact ⟨hcount, huncounted, ⟨d, hd, by rwa [Array.getElem?_toList] at hload⟩, rfl,
    ((ofCells_full_of_countable _ _ contendedLinks.cells.toList).2 huncounted).1⟩

/-- A shape whose cells cannot be counted is not refused for having none of them: the program stops, and without
checked arithmetic it accepts the demand, in which not even the first index is in range. -/
theorem ofCells_without_cells :
    ([] : List (Load Binary64)).length ≠ 2 ^ 32 * 2 ^ 32 ∧
    (ofCells (2 ^ 32) (2 ^ 32) [] : Except (ModelError Binary64) (Demand Binary64)) = .error (.overflow .product) ∧
    (ofCells (2 ^ 32) (2 ^ 32) [] : Except (ModelError Binary64) (Demand Binary64)) ≠
      .error (.demand (.wrongSize 0 (2 ^ 32) (2 ^ 32))) ∧
    (ofCellsUnder .wraps (2 ^ 32) (2 ^ 32) [] : Except (ModelError Binary64) (Demand Binary64)) =
      .ok ⟨⟨2 ^ 32, 2 ^ 32, #[]⟩⟩ ∧
    ¬0 * 2 ^ 32 + 0 < (#[] : Array (Load Binary64)).size := by
  have hstops : (ofCells (2 ^ 32) (2 ^ 32) [] : Except (ModelError Binary64) (Demand Binary64)) =
      .error (.overflow .product) :=
    ofCells_eq_overflow (by decide)
  have hwraps : (validateUnder .wraps (⟨⟨2 ^ 32, 2 ^ 32, #[]⟩⟩ : Demand Binary64) :
      Except (ModelError Binary64) Unit) = .ok () :=
    validateUnder_eq_ok.2 ⟨by decide, by decide, by decide, by simp [Grid.entries]⟩
  refine ⟨by decide, hstops, ?_, ?_, by decide⟩
  · rw [hstops]
    simp
  · rw [ofCellsUnder, hwraps]
    rfl

end Demand

end LinkPriority

import LinkPriority.Proofs.Request
import LinkPriority.Proofs.Scalar.Machine

/-! How a request becomes a table. Rows and columns are the ids in ascending order, so the cells follow one another as
their ids do, by job and then by link: the first cell that is refused is the first load of the request that is, and a
load that the request does not mention is refused nowhere. -/

namespace LinkPriority

variable {α : Type} [Scalar α]

/-- A time or a volume that no job may ask for: infinite, undefined or negative. -/
def Load.IsBad (load : Load α) : Prop :=
  (Scalar.isFinite load.compute = false ∨ Scalar.lt load.compute Scalar.zero = true) ∨
    Scalar.isFinite load.comm = false ∨ Scalar.lt load.comm Scalar.zero = true

section Amounts

variable [OrderedScalar α]

theorem Scalar.isAmount_eq_false {x : α} :
    isAmount x = false ↔ isFinite x = false ∨ lt x zero = true := by
  rw [isAmount, Bool.and_eq_false_iff]
  cases hx : isFinite x with
  | false => simp
  | true => simp [OrderedScalar.lt_iff_not_le hx OrderedScalar.isFinite_zero]

theorem Load.isBad_iff {load : Load α} : load.IsBad ↔ load.isAmount = false := by
  rw [isAmount, Bool.and_eq_false_iff, Scalar.isAmount_eq_false, Scalar.isAmount_eq_false, IsBad]

end Amounts

/-- The first cell with a property, row after row. -/
theorem Grid.find?_entries {β : Type} {g : Grid β} {P : β → Bool} {cell : Position} {value : β} :
    g.entries.find? (fun entry => P entry.2) = some (cell, value) ↔
      ∃ i, g.cells[i]? = some value ∧ cell = ⟨i / g.links, i % g.links⟩ ∧ P value = true ∧
        ∀ k < i, ∀ before, g.cells[k]? = some before → P before = false := by
  have hcells : ∀ i, g.cells[i]? = g.cells.toList[i]? := fun i => Array.getElem?_toList.symm
  simp only [List.find?_eq_some_iff_getElem, entries, List.length_map, List.length_zipIdx, List.getElem_map,
    List.getElem_zipIdx, Nat.zero_add, Prod.mk.injEq, hcells]
  constructor
  · rintro ⟨hvalue, i, hi, ⟨rfl, rfl⟩, hbefore⟩
    refine ⟨i, List.getElem?_eq_getElem hi, rfl, hvalue, fun k hk before hkth => ?_⟩
    obtain ⟨_, rfl⟩ := List.getElem?_eq_some_iff.1 hkth
    simpa using hbefore k hk
  · rintro ⟨i, hith, rfl, hvalue, hbefore⟩
    obtain ⟨hi, rfl⟩ := List.getElem?_eq_some_iff.1 hith
    refine ⟨hvalue, i, hi, ⟨rfl, rfl⟩, fun k hk => ?_⟩
    rw [hbefore k hk _ (List.getElem?_eq_getElem (hk.trans hi)), Bool.not_false]

namespace Demand

variable {jobs links : Nat} {cells : List (Load α)}

/-- Cells of the right number are refused for the first of them that is no amount. -/
theorem ofCells_eq_error (hjobs : jobs ≠ 0) (hlinks : links ≠ 0) (hcount : jobs * links < UInt64.size)
    (hsize : cells.length = jobs * links) {e : ModelError α} : ofCells jobs links cells = .error e ↔
      ∃ i load, cells[i]? = some load ∧ load.isAmount = false ∧
        (∀ k < i, ∀ before, cells[k]? = some before → before.isAmount = true) ∧
        e = .demand (.badLoad (i / links) (i % links) load) := by
  have hfirst : ∀ cell load, (⟨jobs, links, cells.toArray⟩ : Grid (Load α)).entries.find?
      (fun entry => !entry.2.isAmount) = some (cell, load) ↔ ∃ i, cells[i]? = some load ∧
        cell = ⟨i / links, i % links⟩ ∧ load.isAmount = false ∧
        ∀ k < i, ∀ before, cells[k]? = some before → before.isAmount = true := by
    intro cell load
    rw [Grid.find?_entries (P := fun load : Load α => !load.isAmount)]
    simp
  rw [ofCells, ofCellsUnder, Except.map_eq_error]
  simp only [validateUnder, cellCount_of_lt _ hcount, hjobs, hlinks, hsize, List.size_toArray, if_false, ne_eq,
    not_true]
  constructor
  · intro h
    split at h
    · next cell load hfind =>
      obtain ⟨i, hith, rfl, hbad, hbefore⟩ := (hfirst cell load).1 hfind
      exact ⟨i, load, hith, hbad, hbefore, (Except.error.inj h).symm⟩
    · contradiction
  · rintro ⟨i, load, hith, hbad, hbefore, rfl⟩
    have hfind := (hfirst _ load).2 ⟨i, hith, rfl, hbad, hbefore⟩
    rw [hfind]

end Demand

namespace Request

variable {r : Request α}

/-- What can be wrong with a request: it has no jobs, or mentions no links, or has cells that are refused. -/
theorem toDemand_eq_error {fault : RequestFault α} : r.toDemand = .error fault ↔
    r.jobs.ids = [] ∧ fault = .noJobs ∨
    r.jobs.ids ≠ [] ∧ r.layout.links = [] ∧ fault = .noLinks ∨
    r.jobs.ids ≠ [] ∧ r.layout.links ≠ [] ∧ ∃ e, fault = .demand e ∧
      Demand.ofCells r.jobs.ids.length r.layout.links.length r.cells = .error e := by
  have hjobs : r.layout.jobs.isEmpty = true ↔ r.jobs.ids = [] := List.isEmpty_iff
  simp only [toDemand, hjobs, List.isEmpty_iff]
  split_ifs with hids hlinks
  · simp [hids, @eq_comm _ _ fault]
  · simp [hids, hlinks, @eq_comm _ _ fault]
  · split
    · next e hcells =>
      have herror : Demand.ofCells r.jobs.ids.length r.layout.links.length r.cells = .error e := hcells
      rw [herror, Except.error.injEq]
      simp [hids, hlinks, @eq_comm _ _ fault]
    · next d hcells =>
      have hok : Demand.ofCells r.jobs.ids.length r.layout.links.length r.cells = .ok d := hcells
      simp [hok, hids, hlinks]

/-- A load is bad and no load of an earlier job, or of the same job on an earlier link, is. -/
structure FirstBad (r : Request α) (job link : String) (load : Load α) : Prop where
  entry : r.load? job link = some load
  bad : load.IsBad
  first : ∀ job' link' load', r.load? job' link' = some load' → load'.IsBad →
    job < job' ∨ job = job' ∧ (link < link' ∨ link = link')

/-- What a job asks of a link is in the row of the job and the column of the link. -/
theorem exists_place {job link : String} {load : Load α} (h : r.load? job link = some load) :
    ∃ j l, r.jobs.ids[j]? = some job ∧ r.layout.links[l]? = some link ∧
      r.cells[j * r.layout.links.length + l]? = some load := by
  obtain ⟨loads, hjob, -⟩ := Option.bind_eq_some_iff.1 h
  obtain ⟨j, hj⟩ := List.mem_iff_getElem?.1 (IdMap.mem_ids_of_get? hjob)
  obtain ⟨l, hl⟩ := List.mem_iff_getElem?.1 (mem_layout_links.2 (mentions_of_load? h))
  refine ⟨j, l, hj, hl, ?_⟩
  rw [getElem?_cells hj hl, h, Option.getD_some]

/-- Every cell is in the row of a job and the column of a link. -/
theorem exists_ids_of_lt {i : Nat} (hi : i < r.cells.length) :
    ∃ job link, r.jobs.ids[i / r.layout.links.length]? = some job ∧
      r.layout.links[i % r.layout.links.length]? = some link := by
  rw [length_cells] at hi
  have hpos : 0 < r.layout.links.length := Nat.pos_of_mul_pos_left (Nat.zero_lt_of_lt hi)
  have hdiv : i / r.layout.links.length < r.jobs.ids.length := Nat.div_lt_of_lt_mul (by rwa [Nat.mul_comm])
  exact ⟨_, _, List.getElem?_eq_getElem hdiv, List.getElem?_eq_getElem (Nat.mod_lt i hpos)⟩

section Cells

variable [OrderedScalar α]

/-- A cell that is no amount is mentioned: a link that a job does not mention is idle for it. -/
theorem load?_of_cell {j l : Nat} {job link : String} {load : Load α} (hjob : r.jobs.ids[j]? = some job)
    (hlink : r.layout.links[l]? = some link) (hcell : r.cells[j * r.layout.links.length + l]? = some load)
    (hbad : load.isAmount = false) : r.load? job link = some load := by
  rw [getElem?_cells hjob hlink] at hcell
  obtain rfl := Option.some.inj hcell
  cases h : r.load? job link with
  | some load => rfl
  | none =>
    rw [h, Option.getD_none, Load.isAmount_idle] at hbad
    contradiction

/-- The first cell that is no amount is the first bad load, by job and then by link. -/
theorem firstBad_of_cell {i : Nat} {load : Load α} (hcell : r.cells[i]? = some load) (hbad : load.isAmount = false)
    (hbefore : ∀ k < i, ∀ before, r.cells[k]? = some before → before.isAmount = true) :
    ∃ job link, r.jobs.ids[i / r.layout.links.length]? = some job ∧
      r.layout.links[i % r.layout.links.length]? = some link ∧ r.FirstBad job link load := by
  obtain ⟨job, link, hjob, hlink⟩ := exists_ids_of_lt (List.getElem?_eq_some_iff.1 hcell).1
  have hindex := Nat.div_add_mod' i r.layout.links.length
  have hentry : r.load? job link = some load := load?_of_cell hjob hlink (by rwa [hindex]) hbad
  refine ⟨job, link, hjob, hlink, hentry, Load.isBad_iff.2 hbad, fun job' link' load' hentry' hbad' => ?_⟩
  obtain ⟨j', l', hjob', hlink', hcell'⟩ := exists_place hentry'
  have hle : i ≤ j' * r.layout.links.length + l' := by
    by_contra! hlt
    exact absurd (hbefore _ hlt load' hcell') (Bool.not_eq_true _ ▸ Load.isBad_iff.1 hbad')
  have hl' : l' < r.layout.links.length := (List.getElem?_eq_some_iff.1 hlink').1
  have hrow : i / r.layout.links.length ≤ j' := by
    calc i / r.layout.links.length
        ≤ (j' * r.layout.links.length + l') / r.layout.links.length := Nat.div_le_div_right hle
      _ = j' := Grid.index_div hl'
  rcases Nat.lt_or_eq_of_le hrow with hlt | hsame
  · exact .inl ((IdMap.lt_iff_of_ascending (IdMap.ascending_ids _) hjob hjob').2 hlt)
  · rw [hsame] at hjob hindex
    obtain rfl : job = job' := Option.some.inj (hjob.symm.trans hjob')
    have hcolumn : i % r.layout.links.length ≤ l' := by omega
    rcases Nat.lt_or_eq_of_le hcolumn with hlt | heq
    · exact .inr ⟨rfl, .inl ((IdMap.lt_iff_of_ascending (IdMap.ascending_distinctIds _) hlink hlink').2 hlt)⟩
    · rw [heq] at hlink
      exact .inr ⟨rfl, .inr (Option.some.inj (hlink.symm.trans hlink'))⟩

end Cells

theorem toDemand_eq_noJobs : r.toDemand = .error .noJobs ↔ r.jobs.ids = [] := by
  simp [toDemand_eq_error]

theorem toDemand_eq_noLinks : r.toDemand = .error .noLinks ↔
    r.jobs.ids ≠ [] ∧ ∀ job link, r.load? job link = none := by
  simp [toDemand_eq_error, layout_links_eq_nil]

/-- A request that has a demand mentions some link. -/
theorem exists_load?_of_toDemand {d : Demand α} {layout : Layout} (h : r.toDemand = .ok (d, layout)) :
    ∃ job link load, r.load? job link = some load := by
  by_contra! hnone
  by_cases hjobs : r.jobs.ids = []
  · rw [toDemand_eq_noJobs.2 hjobs] at h
    contradiction
  · have hload : ∀ job link, r.load? job link = none := fun job link =>
      Option.eq_none_iff_forall_ne_some.2 (hnone job link)
    rw [toDemand_eq_noLinks.2 ⟨hjobs, hload⟩] at h
    contradiction

/-- A request that mentions something has a demand, unless the demand is refused. -/
theorem toDemand_of_load? {job link : String} {load : Load α} (hentry : r.load? job link = some load) :
    (∃ e, r.toDemand = .error (.demand e)) ∨ ∃ d, r.toDemand = .ok (d, r.layout) := by
  cases h : r.toDemand with
  | ok answer =>
    obtain ⟨d, layout⟩ := answer
    obtain ⟨rfl, -⟩ := toDemand_eq_ok h
    exact .inr ⟨d, rfl⟩
  | error fault =>
    obtain ⟨j, l, hjob, hlink, -⟩ := exists_place hentry
    have hjobs : r.jobs.ids ≠ [] := List.ne_nil_of_mem (List.mem_of_getElem? hjob)
    have hlinks : r.layout.links ≠ [] := List.ne_nil_of_mem (List.mem_of_getElem? hlink)
    obtain ⟨hnil, -⟩ | ⟨-, hnil, -⟩ | ⟨-, -, e, rfl, -⟩ := toDemand_eq_error.1 h
    · exact absurd hnil hjobs
    · exact absurd hnil hlinks
    · exact .inl ⟨e, rfl⟩

section Demand

variable [OrderedScalar α]

/-- The loads of a request that has a demand are all good. -/
theorem not_isBad_of_toDemand {d : Demand α} {layout : Layout} (h : r.toDemand = .ok (d, layout)) {job link : String}
    {load : Load α} (hentry : r.load? job link = some load) : ¬load.IsBad := by
  obtain ⟨j, l, hjob, hlink, -⟩ := exists_place hentry
  have hload : d.load j l = load := by rw [load_toDemand h hjob hlink, hentry, Option.getD_some]
  rw [Load.isBad_iff, ← hload, Demand.isAmount_load (toDemand_eq_ok h).2.1 j l]
  exact Bool.noConfusion

/-- A demand is refused for the first bad load, by its row and its column. -/
theorem firstBad_of_toDemand (hcount : r.jobs.ids.length * r.layout.links.length < UInt64.size) {e : ModelError α}
    (h : r.toDemand = .error (.demand e)) :
    ∃ j l job link load, r.jobs.ids[j]? = some job ∧ r.layout.links[l]? = some link ∧
      r.FirstBad job link load ∧ e = .demand (.badLoad j l load) := by
  obtain ⟨-, ⟨⟩⟩ | ⟨-, -, ⟨⟩⟩ | ⟨hjobs, hlinks, _, ⟨⟩, hcells⟩ := toDemand_eq_error.1 h
  obtain ⟨i, load, hcell, hbad, hbefore, rfl⟩ := (Demand.ofCells_eq_error (mt List.length_eq_zero_iff.1 hjobs)
    (mt List.length_eq_zero_iff.1 hlinks) hcount r.length_cells).1 hcells
  obtain ⟨job, link, hjob, hlink, hfirst⟩ := firstBad_of_cell hcell hbad hbefore
  exact ⟨_, _, job, link, load, hjob, hlink, hfirst, rfl⟩

end Demand

/-- A request is a table of what its jobs ask of its links, whatever the ids are and whichever links a job leaves out.
It is refused if it has no jobs, if no job mentions a link, and otherwise for the first load, by job and then by link,
that is negative, infinite or undefined. If it is not, rows are the jobs and columns the links that any of them mentions,
both in ascending order, and each cell is what the job asks of the link, or nothing. That loads are all it is refused
for, and not the size of the table, takes that words can count the cells. -/
theorem toDemand_flattens [OrderedScalar α] (r : Request α) :
    (r.layout.jobs = r.jobs.ids ∧ r.layout.jobs.Pairwise (· < ·) ∧ r.layout.links.Pairwise (· < ·) ∧
      ∀ link, link ∈ r.layout.links ↔ ∃ job load, r.load? job link = some load) ∧
    (r.toDemand = .error .noJobs ↔ r.jobs.ids = []) ∧
    (r.toDemand = .error .noLinks ↔ r.jobs.ids ≠ [] ∧ ∀ job link, r.load? job link = none) ∧
    (∀ d layout, r.toDemand = .ok (d, layout) → layout = r.layout ∧
      d.jobs = layout.jobs.length ∧ d.links = layout.links.length ∧ d.IsFull ∧
      ∀ j l job link, layout.jobs[j]? = some job → layout.links[l]? = some link →
        d.load j l = (r.load? job link).getD ⟨Scalar.zero, Scalar.zero⟩) ∧
    (r.layout.jobs.length * r.layout.links.length < UInt64.size →
      ((∃ e, r.toDemand = .error (.demand e)) ↔ ∃ job link load, r.load? job link = some load ∧ load.IsBad) ∧
      (∀ e, r.toDemand = .error (.demand e) → ∃ j l job link load, r.layout.jobs[j]? = some job ∧
        r.layout.links[l]? = some link ∧ r.FirstBad job link load ∧ e = .demand (.badLoad j l load)) ∧
      ((∃ d layout, r.toDemand = .ok (d, layout)) ↔
        (∃ job link load, r.load? job link = some load) ∧
          ∀ job link load, r.load? job link = some load → ¬load.IsBad)) := by
  have hbad : (∃ job link load, r.load? job link = some load ∧ load.IsBad) →
      ∃ e, r.toDemand = .error (.demand e) := by
    rintro ⟨job, link, load, hentry, hbad⟩
    refine (toDemand_of_load? hentry).resolve_right ?_
    rintro ⟨d, h⟩
    exact not_isBad_of_toDemand h hentry hbad
  refine ⟨⟨rfl, IdMap.ascending_ids _, IdMap.ascending_distinctIds _, fun link => mem_layout_links.trans mentions_iff⟩,
    toDemand_eq_noJobs, toDemand_eq_noLinks, fun d layout h => ?_, fun hcount => ?_⟩
  · obtain ⟨rfl, hvalid, hjobs, hlinks, -⟩ := toDemand_eq_ok h
    exact ⟨rfl, hjobs, hlinks, Demand.isFull_of_validate hvalid, fun j l job link => load_toDemand h⟩
  · have hfirst : ∀ e, r.toDemand = .error (.demand e) → _ := fun e => firstBad_of_toDemand hcount
    refine ⟨⟨?_, hbad⟩, hfirst, ?_, ?_⟩
    · rintro ⟨e, h⟩
      obtain ⟨-, -, job, link, load, -, -, hentry, -⟩ := hfirst e h
      exact ⟨job, link, load, hentry.entry, hentry.bad⟩
    · rintro ⟨d, layout, h⟩
      exact ⟨exists_load?_of_toDemand h, fun job link load => not_isBad_of_toDemand h⟩
    · rintro ⟨⟨job, link, load, hentry⟩, hgood⟩
      rcases toDemand_of_load? hentry with ⟨e, h⟩ | ⟨d, h⟩
      · obtain ⟨-, -, job, link, load, -, -, hfirst, -⟩ := hfirst e h
        exact absurd hfirst.bad (hgood job link load hfirst.entry)
      · exact ⟨d, _, h⟩

/-- One job mentions no link, one only the second, and one asks the first for a negative time and both for volumes. -/
def raggedRequest : Request Binary64 where
  jobs := ⟨[("a", ⟨[], by simp⟩), ("b", ⟨[("y", ⟨Scalar.ofNat 1, Scalar.ofNat 2⟩)], by simp⟩),
    ("c", ⟨[("x", ⟨Scalar.zero - Scalar.one, Scalar.one⟩), ("y", ⟨Scalar.zero, Scalar.one⟩)], by decide⟩)], by decide⟩

theorem toDemand_raggedRequest : raggedRequest.layout.jobs.length * raggedRequest.layout.links.length < UInt64.size ∧
    raggedRequest.toDemand = .error (.demand (.demand (.badLoad 2 0 ⟨Scalar.zero - Scalar.one, Scalar.one⟩))) ∧
    raggedRequest.FirstBad "c" "x" ⟨Scalar.zero - Scalar.one, Scalar.one⟩ := by
  have hcount : raggedRequest.layout.jobs.length * raggedRequest.layout.links.length < UInt64.size := by
    decide +kernel
  have herror : raggedRequest.toDemand =
      .error (.demand (.demand (.badLoad 2 0 ⟨Scalar.zero - Scalar.one, Scalar.one⟩))) := by
    decide +kernel
  obtain ⟨-, -, -, -, hloads⟩ := toDemand_flattens raggedRequest
  obtain ⟨j, l, job, link, load, hjob, hlink, hfirst, hfault⟩ := (hloads hcount).2.1 _ herror
  cases hfault
  have hplace : raggedRequest.layout.jobs[2]? = some "c" ∧ raggedRequest.layout.links[0]? = some "x" := by
    decide +kernel
  rw [hplace.1] at hjob
  rw [hplace.2] at hlink
  cases hjob
  cases hlink
  exact ⟨hcount, herror, hfirst⟩

end Request

end LinkPriority

import LinkPriority.Proofs.Demand
import LinkPriority.Proofs.Except
import LinkPriority.Proofs.IdMap
import LinkPriority.Request

/-! What a request says of its jobs and links, by their ids, and the demand made of it. Row and column of a demand
are the places of the ids in the layout, so the load in a cell is the one that the request has under the two ids,
and the active jobs of a column are those of its link, in the same order. -/

namespace LinkPriority.Request

variable {α : Type} {r : Request α}

/-- What a job asks of a link, where the request mentions it. -/
def load? (r : Request α) (job link : String) : Option (Load α) :=
  (r.jobs.get? job).bind fun loads => loads.get? link

/-- Some job of the request mentions the link. -/
def Mentions (r : Request α) (link : String) : Prop :=
  ∃ job loads, r.jobs.get? job = some loads ∧ link ∈ loads.ids

/-- A job is active on a link if it asks for a time or a volume there that is not zero. -/
def isActive [Scalar α] (r : Request α) (job link : String) : Bool := (r.load? job link).any Load.isActive

/-- The jobs active on a link, in the order of their ids. -/
def activeJobs [Scalar α] (r : Request α) (link : String) : List String :=
  r.jobs.ids.filter fun job => r.isActive job link

theorem mem_layout_links {link : String} : link ∈ r.layout.links ↔ r.Mentions link := by
  rw [layout, IdMap.mem_distinctIds, List.mem_flatMap]
  constructor
  · rintro ⟨⟨job, loads⟩, hentry, hlink⟩
    exact ⟨job, loads, IdMap.get?_eq_some.2 hentry, hlink⟩
  · rintro ⟨job, loads, hjob, hlink⟩
    exact ⟨(job, loads), IdMap.get?_eq_some.1 hjob, hlink⟩

theorem mentions_of_load? {job link : String} {load : Load α} (h : r.load? job link = some load) :
    r.Mentions link := by
  obtain ⟨loads, hjob, hlink⟩ := Option.bind_eq_some_iff.1 h
  exact ⟨job, loads, hjob, IdMap.mem_ids_of_get? hlink⟩

/-- A link is mentioned if some job asks something of it. -/
theorem mentions_iff {link : String} : r.Mentions link ↔ ∃ job load, r.load? job link = some load := by
  constructor
  · rintro ⟨job, loads, hjob, hlink⟩
    obtain ⟨load, hload⟩ := IdMap.mem_ids.1 hlink
    exact ⟨job, load, Option.bind_eq_some_iff.2 ⟨loads, hjob, IdMap.get?_eq_some.2 hload⟩⟩
  · rintro ⟨job, load, hload⟩
    exact mentions_of_load? hload

theorem layout_links_eq_nil : r.layout.links = [] ↔ ∀ job link, r.load? job link = none := by
  simp only [List.eq_nil_iff_forall_not_mem, mem_layout_links, mentions_iff, Option.eq_none_iff_forall_ne_some, not_exists]
  exact forall_comm

variable [Scalar α]

/-- Nobody is active on a link that is not mentioned. -/
theorem activeJobs_of_not_mentions {link : String} (h : ¬r.Mentions link) : r.activeJobs link = [] := by
  refine List.filter_eq_nil_iff.2 fun job _ hactive => ?_
  obtain ⟨load, hload, -⟩ := (Option.any_eq_true ..).1 hactive
  exact h (mentions_of_load? hload)

/-! ### The demand -/

/-- The loads of all jobs on all links, row after row. -/
def cells (r : Request α) : List (Load α) :=
  r.jobs.entries.flatMap fun entry => r.layout.links.map fun link => (entry.2.get? link).getD .idle

theorem length_cells (r : Request α) : r.cells.length = r.jobs.ids.length * r.layout.links.length := by
  simp [cells, IdMap.ids, List.length_flatMap]

theorem getElem?_cells {j l : Nat} {job link : String} (hjob : r.jobs.ids[j]? = some job)
    (hlink : r.layout.links[l]? = some link) :
    r.cells[j * r.layout.links.length + l]? = some ((r.load? job link).getD .idle) := by
  obtain ⟨⟨id, loads⟩, hentry, rfl⟩ := Option.map_eq_some_iff.1 (List.getElem?_map .. ▸ hjob)
  have hget : r.jobs.get? id = some loads := IdMap.get?_eq_some.2 (List.mem_of_getElem? hentry)
  have hl : l < r.layout.links.length := (List.getElem?_eq_some_iff.1 hlink).1
  rw [cells, Grid.getElem?_flatMap_row (fun _ _ => List.length_map _) hentry hl, List.getElem?_map, hlink, load?, hget]
  rfl

section Demand

variable {d : Demand α} {layout : Layout} (h : r.toDemand = .ok (d, layout))
include h

theorem toDemand_eq_ok : layout = r.layout ∧ (d.validate : Except (ModelError α) Unit) = .ok () ∧
    d.jobs = r.jobs.ids.length ∧ d.links = r.layout.links.length ∧
    d.cells.toList = r.jobs.entries.flatMap fun entry =>
      r.layout.links.map fun link => (entry.2.get? link).getD .idle := by
  simp only [toDemand] at h
  split_ifs at h
  split at h
  · exact nomatch h
  · next d' hcells =>
    obtain ⟨rfl, rfl⟩ := Prod.mk.inj (Except.ok.inj h)
    obtain ⟨hvalid, rfl⟩ := Demand.ofCells_eq_ok.1 hcells
    exact ⟨rfl, hvalid, rfl, rfl, rfl⟩

variable {j l : Nat} {job link : String}

theorem getElem?_ids_of_lt (hj : j < d.jobs) : r.jobs.ids[j]? = some (r.jobs.ids.getD j "") := by
  obtain ⟨-, -, hjobs, -⟩ := toDemand_eq_ok h
  rw [List.getD_eq_getElem?_getD, List.getElem?_eq_getElem (hjobs ▸ hj), Option.getD_some]

/-- A cell holds the load under the ids of its row and its column. -/
theorem load_toDemand (hjob : r.jobs.ids[j]? = some job) (hlink : r.layout.links[l]? = some link) :
    d.load j l = (r.load? job link).getD .idle := by
  obtain ⟨-, -, -, hlinks, hcells⟩ := toDemand_eq_ok h
  have hcell : d.cells[j * d.links + l]? = some ((r.load? job link).getD .idle) := by
    rw [← Array.getElem?_toList, hcells, hlinks]
    exact getElem?_cells hjob hlink
  rw [Demand.load, Grid.getD_eq, hcell, Option.getD_some]

variable [OrderedScalar α]

theorem isActive_toDemand (hjob : r.jobs.ids[j]? = some job) (hlink : r.layout.links[l]? = some link) :
    d.isActive j l = r.isActive job link := by
  rw [Demand.isActive, load_toDemand h hjob hlink, isActive]
  cases r.load? job link with
  | some load => rfl
  | none => exact Load.isActive_idle

/-- The jobs active on a link are those of the active rows in its column. -/
theorem activeJobs_eq (hlink : r.layout.links[l]? = some link) :
    r.activeJobs link = (d.activeJobs l).map fun j => r.jobs.ids.getD j "" := by
  obtain ⟨-, -, hjobs, -⟩ := toDemand_eq_ok h
  -- the ids are read off row by row, so choosing among them is choosing among the rows
  have hids : r.jobs.ids = (List.range d.jobs).map fun j => r.jobs.ids.getD j "" := by
    refine List.ext_getElem (by simp [hjobs]) fun j hj _ => ?_
    simp [hj]
  have hactive : ∀ j ∈ List.range d.jobs, r.isActive (r.jobs.ids.getD j "") link = d.isActive j l :=
    fun j hj => (isActive_toDemand h (getElem?_ids_of_lt h (List.mem_range.1 hj)) hlink).symm
  calc r.activeJobs link
      = ((List.range d.jobs).map fun j => r.jobs.ids.getD j "").filter fun job => r.isActive job link := by
        rw [activeJobs, ← hids]
    _ = (d.activeJobs l).map fun j => r.jobs.ids.getD j "" := by
        rw [List.filter_map, Demand.activeJobs]
        exact congrArg _ (List.filter_congr hactive)

end Demand

end LinkPriority.Request

import LinkPriority.Proofs.Queue
import LinkPriority.Proofs.Request
import LinkPriority.Response

/-! What a response says of a request. The response to a table has the rank of a cell under the ids of its row and
its column. Request and response use one layout, so a queue of rows becomes a queue of jobs: a table that fits the
demand of a request and has no ranks in inactive cells answers that request. -/

namespace LinkPriority.Response

def rank? (response : Response) (job link : String) : Option Nat :=
  (response.ranks.get? job).bind fun row => row.get? link

/-- The response has the jobs of the request, each with all links that occur anywhere in it; on every link the active
jobs have the ranks from 0 on, one each, and the other jobs have rank 0. -/
structure Answers {α : Type} [Scalar α] (response : Response) (r : Request α) : Prop where
  jobs : response.ranks.ids = r.jobs.ids
  links : ∀ job row, response.ranks.get? job = some row → ∀ link, link ∈ row.ids ↔ r.Mentions link
  active : ∀ link, ((r.activeJobs link).map fun job => response.rank? job link).Perm
    ((List.range (r.activeJobs link).length).map some)
  inactive : ∀ job ∈ r.jobs.ids, ∀ link, r.Mentions link → r.isActive job link = false →
    response.rank? job link = some 0

section OfPriority

variable {layout : Layout} (hjobs : layout.jobs.Pairwise (· < ·)) (hlinks : layout.links.Pairwise (· < ·))
  (p : Priority)
include hjobs

theorem ids_ofPriority : (ofPriority layout p).ranks.ids = layout.jobs := IdMap.ids_ofList_mapIdx hjobs _

theorem get?_ofPriority {job : String} {j : Nat} (hj : layout.jobs[j]? = some job) :
    (ofPriority layout p).ranks.get? job = some (.ofList (layout.links.mapIdx fun l link => (link, p.rank j l))) :=
  IdMap.get?_ofList_mapIdx hjobs _ hj

include hlinks

theorem ids_row_ofPriority {job : String} {row : IdMap Nat}
    (hrow : (ofPriority layout p).ranks.get? job = some row) : row.ids = layout.links := by
  have hjob := IdMap.mem_ids_of_get? hrow
  rw [ids_ofPriority hjobs] at hjob
  obtain ⟨j, hj⟩ := List.mem_iff_getElem?.1 hjob
  rw [get?_ofPriority hjobs p hj] at hrow
  rw [← Option.some.inj hrow]
  exact IdMap.ids_ofList_mapIdx hlinks _

theorem rank?_ofPriority {job link : String} {j l : Nat} (hj : layout.jobs[j]? = some job)
    (hl : layout.links[l]? = some link) : (ofPriority layout p).rank? job link = some (p.rank j l) := by
  rw [rank?, get?_ofPriority hjobs p hj, Option.bind_some]
  exact IdMap.get?_ofList_mapIdx hlinks _ hl

end OfPriority

section Answers

variable {α : Type} [Scalar α] [OrderedScalar α] {r : Request α} {d : Demand α} {layout : Layout} {p : Priority}
  (h : r.toDemand = .ok (d, layout))
include h

/-- In the column of a link the queue of the rows gives the active jobs their ranks. -/
theorem perm_rank?_ofPriority {l : Nat} {link : String} {order : List Nat} (hl : layout.links[l]? = some link)
    (horder : p.IsQueue d l order) :
    ((r.activeJobs link).map fun job => (ofPriority layout p).rank? job link).Perm
      ((List.range (r.activeJobs link).length).map some) := by
  obtain ⟨rfl, -⟩ := Request.toDemand_eq_ok h
  have hrank : ∀ j ∈ d.activeJobs l,
      (ofPriority r.layout p).rank? (r.jobs.ids.getD j "") link = some (p.rank j l) :=
    fun j hj => rank?_ofPriority r.jobs.ascending_ids (IdMap.ascending_distinctIds _) p
      (Request.getElem?_ids_of_lt h (Demand.mem_activeJobs.1 hj).1) hl
  have hmap : ((r.activeJobs link).map fun job => (ofPriority r.layout p).rank? job link) =
      ((d.activeJobs l).map fun j => p.rank j l).map some := by
    rw [Request.activeJobs_eq h hl, List.map_map, List.map_map]
    exact List.map_congr_left hrank
  rw [hmap, Request.activeJobs_eq h hl, List.length_map]
  exact horder.perm_ranks.map some

theorem answers_ofPriority (hp : p.Fits d)
    (hzero : ∀ job < d.jobs, ∀ link < d.links, d.isActive job link = false → p.rank job link = 0) :
    (ofPriority layout p).Answers r := by
  obtain ⟨rfl, -, hjobs, hlinks, -⟩ := Request.toDemand_eq_ok h
  have hrows : r.layout.jobs.Pairwise (· < ·) := r.jobs.ascending_ids
  have hcolumns : r.layout.links.Pairwise (· < ·) := IdMap.ascending_distinctIds _
  have hcolumn : ∀ link, r.Mentions link → ∃ l < d.links, r.layout.links[l]? = some link := by
    intro link hmentions
    obtain ⟨l, hl⟩ := List.mem_iff_getElem?.1 (Request.mem_layout_links.2 hmentions)
    exact ⟨l, hlinks ▸ (List.getElem?_eq_some_iff.1 hl).1, hl⟩
  constructor
  case jobs => exact ids_ofPriority hrows p
  case links =>
    intro job row hrow link
    rw [ids_row_ofPriority hrows hcolumns p hrow, Request.mem_layout_links]
  case active =>
    intro link
    by_cases hmentions : r.Mentions link
    · obtain ⟨l, hlt, hl⟩ := hcolumn link hmentions
      obtain ⟨order, horder⟩ := hp.queue l hlt
      exact perm_rank?_ofPriority h hl horder
    · rw [Request.activeJobs_of_not_mentions hmentions]
      exact .refl _
  case inactive =>
    intro job hjob link hmentions hinactive
    obtain ⟨j, hj⟩ := List.mem_iff_getElem?.1 hjob
    obtain ⟨l, hlt, hl⟩ := hcolumn link hmentions
    have hj' : j < d.jobs := hjobs ▸ (List.getElem?_eq_some_iff.1 hj).1
    rw [← Request.isActive_toDemand h hj hl] at hinactive
    rw [rank?_ofPriority hrows hcolumns p hj hl, hzero j hj' l hlt hinactive]

end Answers

end LinkPriority.Response

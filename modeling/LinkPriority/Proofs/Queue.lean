import Mathlib.Data.List.Perm.Basic
import Mathlib.Data.List.Nodup
import LinkPriority.Priority
import LinkPriority.Proofs.Except
import LinkPriority.Proofs.Grid

/-! The queue of a link. A list of jobs is the queue of a link if it consists of the active jobs and the rank
of each is its place. Seating the active jobs one by one finds the queue if there is one and fails otherwise: as
many jobs as places, each in a place of its own, leave no place empty. So a link has a queue exactly if its active
jobs have the ranks from 0 on, one each, and the job of a rank is then the one in that place. -/

namespace LinkPriority

theorem Demand.mem_activeJobs {α : Type} [Scalar α] {d : Demand α} {job link : Nat} :
    job ∈ d.activeJobs link ↔ job < d.jobs ∧ d.isActive job link = true := by
  simp only [activeJobs, List.mem_filter, List.mem_range]

theorem Demand.nodup_activeJobs {α : Type} [Scalar α] (d : Demand α) (link : Nat) : (d.activeJobs link).Nodup :=
  List.nodup_range.filter _

namespace Priority

/-- Tables of one shape are equal if they have the same ranks. -/
theorem ext_rank {p q : Priority} (hjobs : p.jobs = q.jobs) (hlinks : p.links = q.links)
    (hrank : ∀ job < p.jobs, ∀ link < p.links, p.rank job link = q.rank job link) : p = q := by
  have hgrid : p.toGrid = q.toGrid := Grid.ext_getD 0 p.isFull q.isFull hjobs hlinks hrank
  cases p
  cases q
  simpa only [mk.injEq] using hgrid

variable {α : Type} [Scalar α] {p : Priority} {d : Demand α} {link : Nat} {order : List Nat}

/-- The active jobs of a link have the ranks from 0 on, one each. -/
def RanksInRow (p : Priority) (d : Demand α) (link : Nat) : Prop :=
  ((d.activeJobs link).map fun job => p.rank job link).Perm (List.range (d.activeJobs link).length)

/-- `order` is the queue of `link`: its active jobs, each in the place of its rank. -/
structure IsQueue (p : Priority) (d : Demand α) (link : Nat) (order : List Nat) : Prop where
  perm : order.Perm (d.activeJobs link)
  ranks : order.map (fun job => p.rank job link) = List.range order.length

namespace IsQueue

theorem nodup (h : p.IsQueue d link order) : order.Nodup :=
  h.perm.nodup_iff.2 (d.nodup_activeJobs link)

theorem mem_iff (h : p.IsQueue d link order) {job : Nat} :
    job ∈ order ↔ job < d.jobs ∧ d.isActive job link = true := by
  rw [h.perm.mem_iff, Demand.mem_activeJobs]

theorem rank_getElem (h : p.IsQueue d link order) {i : Nat} (hi : i < order.length) : p.rank order[i] link = i := by
  have hmap : (order.map fun job => p.rank job link)[i]? = (List.range order.length)[i]? := by rw [h.ranks]
  simpa [hi] using hmap

theorem rank_lt (h : p.IsQueue d link order) {job : Nat} (hjob : job ∈ order) :
    p.rank job link < order.length := by
  obtain ⟨i, hi, rfl⟩ := List.getElem_of_mem hjob
  rwa [h.rank_getElem hi]

theorem getElem?_rank (h : p.IsQueue d link order) {job : Nat} (hjob : job ∈ order) :
    order[p.rank job link]? = some job := by
  obtain ⟨i, hi, rfl⟩ := List.getElem_of_mem hjob
  rw [h.rank_getElem hi, List.getElem?_eq_getElem hi]

theorem rank_inj (h : p.IsQueue d link order) {job other : Nat} (hjob : job ∈ order) (hother : other ∈ order)
    (heq : p.rank job link = p.rank other link) : job = other := by
  have hjob' := h.getElem?_rank hjob
  rw [heq, h.getElem?_rank hother] at hjob'
  exact (Option.some.inj hjob').symm

/-- In a queue sorted by a strict relation a job is ahead of those that it is related to. -/
theorem rank_lt_iff_of_pairwise {R : Nat → Nat → Prop} (h : p.IsQueue d link order) (hsorted : order.Pairwise R)
    (hasymm : ∀ a b, R a b → ¬R b a) {job other : Nat} (hjob : job ∈ order) (hother : other ∈ order) :
    p.rank job link < p.rank other link ↔ R job other := by
  have hahead : ∀ {a b}, a ∈ order → b ∈ order → p.rank a link < p.rank b link → R a b := by
    intro a b ha hb hlt
    obtain ⟨hranka, hplacea⟩ := List.getElem?_eq_some_iff.1 (h.getElem?_rank ha)
    obtain ⟨hrankb, hplaceb⟩ := List.getElem?_eq_some_iff.1 (h.getElem?_rank hb)
    rw [← hplacea, ← hplaceb]
    exact List.pairwise_iff_getElem.1 hsorted _ _ hranka hrankb hlt
  constructor
  · exact hahead hjob hother
  · intro hrelated
    rcases Nat.lt_trichotomy (p.rank job link) (p.rank other link) with hlt | heq | hgt
    · exact hlt
    · obtain rfl := h.rank_inj hjob hother heq
      exact absurd hrelated (hasymm _ _ hrelated)
    · exact absurd (hahead hother hjob hgt) (hasymm _ _ hrelated)

theorem perm_ranks (h : p.IsQueue d link order) : p.RanksInRow d link := by
  rw [RanksInRow, ← h.perm.length_eq, ← h.ranks]
  exact h.perm.symm.map _

/-- The job right behind another one in rank is right behind it in the queue. -/
theorem exists_neighbours (h : p.IsQueue d link order) {ahead job : Nat} (hahead : ahead ∈ order) (hjob : job ∈ order)
    (hrank : p.rank job link = p.rank ahead link + 1) :
    ∃ front behind, order = front ++ ahead :: job :: behind := by
  have hfirst : order[p.rank ahead link]? = some ahead := h.getElem?_rank hahead
  have hsecond : order[p.rank ahead link + 1]? = some job := hrank ▸ h.getElem?_rank hjob
  generalize p.rank ahead link = place at hfirst hsecond
  obtain ⟨hlt, rfl⟩ := List.getElem?_eq_some_iff.1 hfirst
  obtain ⟨hlt', rfl⟩ := List.getElem?_eq_some_iff.1 hsecond
  refine ⟨order.take place, order.drop (place + 1 + 1), ?_⟩
  rw [← List.drop_eq_getElem_cons hlt', ← List.drop_eq_getElem_cons hlt, List.take_append_drop]

/-- A link has at most one queue. -/
theorem unique (h : p.IsQueue d link order) {order' : List Nat} (h' : p.IsQueue d link order') :
    order = order' := by
  have hlength : order.length = order'.length := h.perm.length_eq.trans h'.perm.length_eq.symm
  refine List.ext_getElem hlength fun i hi hi' => ?_
  have hmem : order'[i] ∈ order := by
    rw [h.mem_iff, ← h'.mem_iff]
    exact List.getElem_mem hi'
  refine h.rank_inj (List.getElem_mem hi) hmem ?_
  rw [h.rank_getElem hi, h'.rank_getElem hi']

end IsQueue

/-! ### Seating -/

/-- The jobs that have a place are `jobs`, and each has the place of its rank. -/
structure Seated (rank : Nat → Nat) (jobs : List Nat) (places : List (Option Nat)) : Prop where
  perm : (places.filterMap id).Perm jobs
  place : ∀ i job, places[i]? = some (some job) → rank job = i

theorem seat_eq_ok {places places' : List (Option Nat)} {job rank : Nat} :
    seat places job rank = .ok places' ↔ places[rank]? = some none ∧ places.set rank (some job) = places' := by
  unfold seat
  cases places[rank]? with
  | none => simp
  | some place => cases place <;> simp

theorem Seated.seat {rank : Nat → Nat} {jobs : List Nat} {places : List (Option Nat)} {job : Nat}
    (h : Seated rank jobs places) (hfree : places[rank job]? = some none) :
    Seated rank (job :: jobs) (places.set (rank job) (some job)) := by
  obtain ⟨hlt, hnone⟩ := List.getElem?_eq_some_iff.1 hfree
  constructor
  · have hset : ((places.set (rank job) (some job)).filterMap id).Perm
        ((some job :: places.eraseIdx (rank job)).filterMap id) :=
      (List.set_perm_cons_eraseIdx hlt (some job)).filterMap id
    have herase : ((none :: places.eraseIdx (rank job)).filterMap id).Perm (places.filterMap id) := by
      have := List.getElem_cons_eraseIdx_perm hlt
      rw [hnone] at this
      exact this.filterMap id
    exact hset.trans ((herase.trans h.perm).cons job)
  · intro i other hi
    by_cases heq : rank job = i
    · subst heq
      rw [List.getElem?_set_self hlt] at hi
      rw [← Option.some.inj (Option.some.inj hi)]
    · rw [List.getElem?_set_ne heq] at hi
      exact h.place i other hi

theorem length_of_foldlM_seat {rank : Nat → Nat} {jobs : List Nat} {places places' : List (Option Nat)}
    (h : jobs.foldlM (fun places job => Priority.seat places job (rank job)) places = .ok places') :
    places'.length = places.length := by
  induction jobs generalizing places with
  | nil =>
    obtain rfl : places = places' := by simpa [pure, Except.pure] using h
    rfl
  | cons job rest ih =>
    rw [List.foldlM_cons, Except.bind_eq_ok] at h
    obtain ⟨next, hseat, hrest⟩ := h
    obtain ⟨-, rfl⟩ := seat_eq_ok.1 hseat
    rw [ih hrest, List.length_set]

theorem Seated.foldlM_seat {rank : Nat → Nat} {jobs done : List Nat} {places places' : List (Option Nat)}
    (h : Seated rank done places)
    (hfold : jobs.foldlM (fun places job => Priority.seat places job (rank job)) places = .ok places') :
    ∃ all, all.Perm (done ++ jobs) ∧ Seated rank all places' := by
  induction jobs generalizing places done with
  | nil =>
    obtain rfl : places = places' := by simpa [pure, Except.pure] using hfold
    exact ⟨done, by simp, h⟩
  | cons job rest ih =>
    rw [List.foldlM_cons, Except.bind_eq_ok] at hfold
    obtain ⟨next, hseat, hrest⟩ := hfold
    obtain ⟨hfree, rfl⟩ := seat_eq_ok.1 hseat
    obtain ⟨all, hall, hseated⟩ := ih (h.seat hfree) hrest
    exact ⟨all, hall.trans List.perm_middle.symm, hseated⟩

/-- Seating cannot fail if the ranks are below the number of places and no two are the same. -/
theorem Seated.exists_foldlM_seat {rank : Nat → Nat} {jobs done : List Nat} {places : List (Option Nat)}
    (h : Seated rank done places) (hlt : ∀ job ∈ jobs, rank job < places.length)
    (hnodup : ((done ++ jobs).map rank).Nodup) :
    ∃ places', jobs.foldlM (fun places job => Priority.seat places job (rank job)) places = .ok places' := by
  induction jobs generalizing places done with
  | nil => exact ⟨places, rfl⟩
  | cons job rest ih =>
    obtain ⟨hhead, hrest⟩ := List.forall_mem_cons.1 hlt
    have hfree : places[rank job]? = some none := by
      rw [List.getElem?_eq_getElem hhead]
      cases hplace : places[rank job] with
      | none => rfl
      | some other =>
        -- whoever sits there is among those seated before and has the same rank
        have hsame : rank other = rank job :=
          h.place _ other (by rw [List.getElem?_eq_getElem hhead, hplace])
        have hdone : other ∈ done := by
          rw [← h.perm.mem_iff]
          exact List.mem_filterMap.2 ⟨some other, hplace ▸ List.getElem_mem hhead, rfl⟩
        rw [List.map_append, List.nodup_append] at hnodup
        exact absurd hsame (hnodup.2.2 _ (List.mem_map_of_mem hdone) _ (by simp))
    have hnodup' : ((job :: done ++ rest).map rank).Nodup :=
      (List.perm_middle.map rank).nodup_iff.1 hnodup
    obtain ⟨places', hplaces'⟩ := ih (h.seat hfree) (by simpa using hrest) hnodup'
    exact ⟨places', by rw [List.foldlM_cons, Except.bind_eq_ok]; exact ⟨_, seat_eq_ok.2 ⟨hfree, rfl⟩, hplaces'⟩⟩

theorem seated_replicate (rank : Nat → Nat) (k : Nat) : Seated rank [] (List.replicate k none) := by
  constructor
  · simp
  · intro i job h
    simp [List.getElem?_replicate] at h

private theorem map_some_filterMap_id {places : List (Option Nat)} (h : ∀ place ∈ places, place.isSome = true) :
    (places.filterMap id).map some = places := by
  induction places with
  | nil => rfl
  | cons place rest ih =>
    obtain ⟨hhead, hrest⟩ := List.forall_mem_cons.1 h
    obtain ⟨job, rfl⟩ := Option.isSome_iff_exists.1 hhead
    exact congrArg (some job :: ·) (ih hrest)

/-- A full row of seats is a queue. -/
theorem Seated.isQueue {places : List (Option Nat)}
    (h : Seated (fun job => p.rank job link) (d.activeJobs link) places)
    (hlength : places.length = (d.activeJobs link).length) : p.IsQueue d link (places.filterMap id) := by
  have hfull : (places.filterMap id).map some = places :=
    map_some_filterMap_id (List.filterMap_length_eq_length.1 (h.perm.length_eq.trans hlength.symm))
  refine ⟨h.perm, List.ext_getElem (by simp) fun i hi _ => ?_⟩
  rw [List.length_map] at hi
  have hplace : places[i]? = some (some (places.filterMap id)[i]) := by
    calc places[i]? = ((places.filterMap id).map some)[i]? := by rw [hfull]
      _ = some (some (places.filterMap id)[i]) := by rw [List.getElem?_map, List.getElem?_eq_getElem hi]; rfl
  rw [List.getElem_map, List.getElem_range]
  exact h.place i _ hplace

/-! ### Link orders and validity -/

/-- Ranks in a row can be seated. -/
theorem RanksInRow.exists_linkOrder_eq (h : p.RanksInRow d link) : ∃ order, p.linkOrder d link = .ok order := by
  have hnodup : ((d.activeJobs link).map fun job => p.rank job link).Nodup := h.nodup_iff.2 List.nodup_range
  have hlt : ∀ job ∈ d.activeJobs link, p.rank job link < (List.replicate (d.activeJobs link).length
      (none : Option Nat)).length := by
    intro job hjob
    rw [List.length_replicate]
    exact List.mem_range.1 (h.mem_iff.1 (List.mem_map_of_mem hjob))
  obtain ⟨places, hplaces⟩ := (seated_replicate _ _).exists_foldlM_seat hlt (by simpa using hnodup)
  exact ⟨places.filterMap id, by simp only [linkOrder, hplaces]⟩

/-- The order computed for a link is its queue, and it is found whenever there is one. -/
theorem linkOrder_eq_ok : p.linkOrder d link = .ok order ↔ p.IsQueue d link order := by
  have hsound : ∀ {found}, p.linkOrder d link = .ok found → p.IsQueue d link found := by
    intro found h
    simp only [linkOrder] at h
    split at h
    · simp at h
    · next places hplaces =>
      obtain rfl : places.filterMap id = found := by simpa using h
      obtain ⟨all, hall, hseated⟩ := (seated_replicate _ _).foldlM_seat hplaces
      have hlength := length_of_foldlM_seat hplaces
      rw [List.length_replicate] at hlength
      exact Seated.isQueue ⟨hseated.perm.trans hall, hseated.place⟩ hlength
  refine ⟨hsound, fun h => ?_⟩
  obtain ⟨found, hok⟩ := h.perm_ranks.exists_linkOrder_eq
  rw [hok, (hsound hok).unique h]

/-- A link has a queue exactly if the ranks of its active jobs are in a row. -/
theorem exists_isQueue_iff : (∃ order, p.IsQueue d link order) ↔ p.RanksInRow d link := by
  constructor
  · rintro ⟨order, h⟩
    exact h.perm_ranks
  · intro h
    obtain ⟨order, hok⟩ := h.exists_linkOrder_eq
    exact ⟨order, linkOrder_eq_ok.1 hok⟩

/-- The table fits the demand: it has its shape, and every link has a queue. -/
structure Fits (p : Priority) (d : Demand α) : Prop where
  jobs : p.jobs = d.jobs
  links : p.links = d.links
  queue : ∀ link < d.links, ∃ order, p.IsQueue d link order

theorem orders_eq_ok {orders : List (List Nat)} :
    p.orders d = .ok orders ↔ p.jobs = d.jobs ∧ p.links = d.links ∧
      List.Forall₂ (fun link order => p.IsQueue d link order) (List.range d.links) orders := by
  unfold Priority.orders
  by_cases hshape : p.jobs = d.jobs ∧ p.links = d.links
  · obtain ⟨hjobs, hlinks⟩ := hshape
    simp only [hjobs, hlinks, ne_eq, not_true, or_self, if_false, Except.mapM_eq_ok, linkOrder_eq_ok, true_and]
  · have hnot : p.jobs ≠ d.jobs ∨ p.links ≠ d.links := by tauto
    rw [if_pos hnot]
    simp only [reduceCtorEq, false_iff]
    tauto

section Orders

variable {orders : List (List Nat)}

theorem length_of_orders (h : p.orders d = .ok orders) : orders.length = d.links := by
  obtain ⟨-, -, hqueues⟩ := orders_eq_ok.1 h
  simpa using hqueues.length_eq.symm

theorem isQueue_of_orders (h : p.orders d = .ok orders) (horder : orders[link]? = some order) :
    link < d.links ∧ p.IsQueue d link order := by
  obtain ⟨-, -, hqueues⟩ := orders_eq_ok.1 h
  obtain ⟨hlt, rfl⟩ := List.getElem?_eq_some_iff.1 horder
  have hlink : link < d.links := length_of_orders h ▸ hlt
  have hget := hqueues.get (i := link) (by simpa using hlink) hlt
  exact ⟨hlink, by simpa using hget⟩

/-- Every link has its queue. -/
theorem exists_order (h : p.orders d = .ok orders) (hlink : link < d.links) :
    ∃ order, orders[link]? = some order ∧ p.IsQueue d link order := by
  have horder : orders[link]? = some (orders.get ⟨link, length_of_orders h ▸ hlink⟩) :=
    List.getElem?_eq_getElem (length_of_orders h ▸ hlink)
  exact ⟨_, horder, (isQueue_of_orders h horder).2⟩

end Orders

theorem exists_orders_iff : (∃ orders, p.orders d = .ok orders) ↔ p.Fits d := by
  constructor
  · rintro ⟨orders, horders⟩
    obtain ⟨hjobs, hlinks, -⟩ := orders_eq_ok.1 horders
    refine ⟨hjobs, hlinks, fun link hlink => ?_⟩
    obtain ⟨order, -, hq⟩ := exists_order horders hlink
    exact ⟨order, hq⟩
  · intro h
    choose! order horder using h.queue
    refine ⟨(List.range d.links).map order, orders_eq_ok.2 ⟨h.jobs, h.links, ?_⟩⟩
    rw [List.forall₂_map_right_iff, List.forall₂_same]
    exact fun link hlink => horder link (List.mem_range.1 hlink)

theorem validate_eq_ok : p.validate d = .ok () ↔ p.Fits d := by
  rw [← exists_orders_iff, validate, Except.map_eq_ok]
  simp

/-- In a queue the job of a rank is the one in its place. -/
theorem IsQueue.jobAt?_eq_some (h : p.IsQueue d link order) {rank job : Nat} :
    p.jobAt? d link rank = some job ↔ job ∈ order ∧ p.rank job link = rank := by
  constructor
  · intro hfind
    have hmem := List.mem_of_find?_eq_some hfind
    have hrank := List.find?_some hfind
    exact ⟨h.perm.mem_iff.2 hmem, by simpa using hrank⟩
  · rintro ⟨hmem, hrank⟩
    cases hfind : p.jobAt? d link rank with
    | none =>
      have hnone := List.find?_eq_none.1 hfind job (h.perm.mem_iff.1 hmem)
      exact absurd hrank (by simpa using hnone)
    | some found =>
      have hfound := List.mem_of_find?_eq_some hfind
      have hsame : p.rank found link = rank := by simpa using List.find?_some hfind
      rw [h.rank_inj (h.perm.mem_iff.2 hfound) hmem (hsame.trans hrank.symm)]

theorem IsQueue.jobAt?_eq_getElem? (h : p.IsQueue d link order) (rank : Nat) :
    p.jobAt? d link rank = order[rank]? := by
  refine Option.ext fun job => ?_
  rw [h.jobAt?_eq_some]
  constructor
  · rintro ⟨hjob, rfl⟩
    exact h.getElem?_rank hjob
  · intro hjob
    obtain ⟨hlt, rfl⟩ := List.getElem?_eq_some_iff.1 hjob
    exact ⟨List.getElem_mem hlt, h.rank_getElem hlt⟩

/-- The order of a link is found exactly if the ranks of its active jobs are in a row. It lists each of them once, the
job in a place has that place for its rank, and looking up a rank finds the job in that place, or nobody behind the
last. A table is valid exactly if it has the shape of the demand and the ranks are in a row on every link. -/
theorem linkOrder_ok_iff_ranksInRow (p : Priority) (d : Demand α) :
    (∀ link, ((∃ order, p.linkOrder d link = .ok order) ↔ p.RanksInRow d link) ∧
      ∀ order, p.linkOrder d link = .ok order →
        order.Nodup ∧ order.length = (d.activeJobs link).length ∧
        (∀ job, job ∈ order ↔ job < d.jobs ∧ d.isActive job link = true) ∧
        (∀ i job, order[i]? = some job → p.rank job link = i) ∧
        ∀ rank, p.jobAt? d link rank = order[rank]?) ∧
    (p.validate d = .ok () ↔ p.jobs = d.jobs ∧ p.links = d.links ∧ ∀ link < d.links, p.RanksInRow d link) := by
  refine ⟨fun link => ⟨?_, fun order horder => ?_⟩, ?_⟩
  · simp only [linkOrder_eq_ok, exists_isQueue_iff]
  · have hq := linkOrder_eq_ok.1 horder
    refine ⟨hq.nodup, hq.perm.length_eq, fun job => hq.mem_iff, fun i job hjob => ?_, hq.jobAt?_eq_getElem?⟩
    obtain ⟨hlt, rfl⟩ := List.getElem?_eq_some_iff.1 hjob
    exact hq.rank_getElem hlt
  · simp only [validate_eq_ok, ← exists_isQueue_iff]
    exact ⟨fun h => ⟨h.jobs, h.links, h.queue⟩, fun h => ⟨h.1, h.2.1, h.2.2⟩⟩

/-! ### Inactive cells -/

theorem rank_clearInactive {job : Nat} (hjob : job < p.jobs) (hlink : link < p.links) :
    (p.clearInactive d).rank job link = if d.isActive job link then p.rank job link else 0 :=
  Grid.getD_tabulate hjob hlink

/-- The ranks of inactive cells do not matter to the queues. -/
theorem Fits.clearInactive (h : p.Fits d) : (p.clearInactive d).Fits d := by
  refine ⟨h.jobs, h.links, fun link hlink => ?_⟩
  obtain ⟨order, horder⟩ := h.queue link hlink
  refine ⟨order, horder.perm, (List.map_congr_left fun job hjob => ?_).trans horder.ranks⟩
  obtain ⟨hlt, hactive⟩ := horder.mem_iff.1 hjob
  rw [rank_clearInactive (h.jobs ▸ hlt) (h.links ▸ hlink), if_pos hactive]

/-- A table without ranks in inactive cells has nothing to clear. -/
theorem clearInactive_eq_self (h : ∀ job < p.jobs, ∀ link < p.links, d.isActive job link = false →
    p.rank job link = 0) : p.clearInactive d = p := by
  refine ext_rank rfl rfl fun job hjob link hlink => ?_
  rw [rank_clearInactive (p := p) hjob hlink]
  cases hactive : d.isActive job link with
  | true => rfl
  | false => rw [h job hjob link hlink hactive, if_neg Bool.false_ne_true]

end Priority

end LinkPriority

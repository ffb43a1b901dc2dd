import Mathlib.Algebra.BigOperators.Group.Finset.Basic
import Mathlib.Data.Nat.Choose.Basic
import LinkPriority.Proofs.Candidates
import LinkPriority.Proofs.Scalar.Exact

/-! Every table that fits a demand can be swapped into every other. The queue of one link is turned into another queue
of the same jobs by bringing one job after the other to its place: the job that is to be next passes those ahead of it
one at a time, which are at most all that have no place yet. So a link with `k` active jobs takes at most
`k (k - 1) / 2` swaps, and the links are done one after the other, as a swap leaves all other links alone. -/

namespace LinkPriority.Priority

variable {α : Type} [Scalar α] {d : Demand α} {p p' q r : Priority} {swaps more : List Swap} {link : Nat}
  {order : List Nat}

/-! ### Routes -/

/-- The swaps lead from one table to another. Each lets an active job pass the active job right ahead of it, and all
tables on the way are accepted for the demand. -/
inductive Route (d : Demand α) : Priority → List Swap → Priority → Prop where
  | here {p : Priority} (hvalid : (p.validate d : Except (ModelError α) Unit) = .ok ()) : Route d p [] p
  | swap {p p' q : Priority} {s : Swap} {swaps : List Swap}
    (hvalid : (p.validate d : Except (ModelError α) Unit) = .ok ()) (hs : p.Overtakes d s)
    (happly : (p.apply s : Except (ModelError α) Priority) = .ok p') (hrest : Route d p' swaps q) :
    Route d p (s :: swaps) q

namespace Route

theorem trans (h : Route d p swaps q) (h' : Route d q more r) : Route d p (swaps ++ more) r := by
  induction h with
  | here => exact h'
  | swap hvalid hs happly _ ih => exact .swap hvalid hs happly (ih h')

theorem fits_right (h : Route d p swaps q) : q.Fits d := by
  induction h with
  | here hvalid => exact validate_eq_ok.1 hvalid
  | swap _ _ _ _ ih => exact ih

/-- Along a route all swaps succeed. -/
theorem foldlM_apply (h : Route d p swaps q) :
    (swaps.foldlM (fun p s => p.apply s) p : Except (ModelError α) Priority) = .ok q := by
  induction h with
  | here => rfl
  | swap _ _ happly _ ih =>
    rw [List.foldlM_cons, happly]
    exact ih

/-- Wherever a route is left, the table is accepted. -/
theorem exists_take (h : Route d p swaps q) (count : Nat) :
    ∃ r, ((swaps.take count).foldlM (fun p s => p.apply s) p : Except (ModelError α) Priority) = .ok r ∧
      (r.validate d : Except (ModelError α) Unit) = .ok () := by
  induction h generalizing count with
  | here hvalid => exact ⟨_, by rw [List.take_nil]; rfl, hvalid⟩
  | swap hvalid _ happly _ ih =>
    cases count with
    | zero => exact ⟨_, rfl, hvalid⟩
    | succ count =>
      obtain ⟨r, hr, hvalid'⟩ := ih count
      refine ⟨r, ?_, hvalid'⟩
      rw [List.take_succ_cons, List.foldlM_cons, happly]
      exact hr

end Route

/-! ### One link -/

/-- `p'` has the ranks of `p`, but perhaps for the active jobs of `link`. -/
structure SameBut (d : Demand α) (link : Nat) (p p' : Priority) : Prop where
  jobs : p'.jobs = p.jobs
  links : p'.links = p.links
  rank : ∀ job, ∀ other < p.links, other ≠ link ∨ d.isActive job other = false → p'.rank job other = p.rank job other

namespace SameBut

theorem refl (d : Demand α) (link : Nat) (p : Priority) : SameBut d link p p := ⟨rfl, rfl, fun _ _ _ _ => rfl⟩

theorem trans (h : SameBut d link p q) (h' : SameBut d link q r) : SameBut d link p r where
  jobs := h'.jobs.trans h.jobs
  links := h'.links.trans h.links
  rank job other hother hidle := by
    rw [h'.rank job other (h.links ▸ hother) hidle, h.rank job other hother hidle]

end SameBut

/-- Tables with the same queue rank its jobs alike. -/
theorem IsQueue.rank_eq (hp : p.IsQueue d link order) (hq : q.IsQueue d link order) {job : Nat} (hjob : job ∈ order) :
    p.rank job link = q.rank job link := by
  obtain ⟨i, hi, rfl⟩ := List.getElem_of_mem hjob
  rw [hp.rank_getElem hi, hq.rank_getElem hi]

/-- Two neighbours of a queue can change places. -/
theorem exists_route_exchange (hfits : p.Fits d) (hlink : link < d.links) {front behind : List Nat}
    {ahead job : Nat} (hq : p.IsQueue d link (front ++ ahead :: job :: behind)) :
    ∃ s p', Route d p [s] p' ∧ p'.IsQueue d link (front ++ job :: ahead :: behind) ∧ SameBut d link p p' := by
  have hrankAhead : p.rank ahead link = front.length := by
    simpa using hq.rank_getElem (i := front.length) (by simp)
  have hrankJob : p.rank job link = front.length + 1 := by
    simpa using hq.rank_getElem (i := front.length + 1) (by simp)
  have hahead : ahead ∈ front ++ ahead :: job :: behind := by simp
  have hjob : job ∈ front ++ ahead :: job :: behind := by simp
  obtain ⟨haheadLt, haheadActive⟩ := hq.mem_iff.1 hahead
  obtain ⟨hjobLt, hjobActive⟩ := hq.mem_iff.1 hjob
  have hs : p.Overtakes d ⟨⟨job, link⟩, ⟨ahead, link⟩⟩ := by
    refine ⟨⟨rfl, hfits.jobs ▸ hjobLt, hfits.jobs ▸ haheadLt, hfits.links ▸ hlink, ?_⟩, hjobActive, haheadActive⟩
    rw [rankAt, rankAt, hrankJob, hrankAhead]
  obtain ⟨p', happly⟩ := hs.apply
  have hfits' := hfits.apply happly hjobActive haheadActive
  refine ⟨_, p', .swap (validate_eq_ok.2 hfits) hs happly (.here (validate_eq_ok.2 hfits')), ?_,
    jobs_apply happly, links_apply happly, ?_⟩
  · exact IsQueue.exchange_neighbours happly hq
  · rintro job' other hother (hne | hidle)
    · rw [rank_apply happly hother, if_neg hne]
    · exact rank_apply_of_inactive happly hjobActive haheadActive hother hidle

/-- A job passes all of `between`, one at a time. -/
theorem exists_route_advance {front between behind : List Nat} {job : Nat} (hfits : p.Fits d) (hlink : link < d.links)
    (hq : p.IsQueue d link (front ++ between ++ job :: behind)) :
    ∃ swaps p', Route d p swaps p' ∧ swaps.length = between.length ∧
      p'.IsQueue d link (front ++ job :: (between ++ behind)) ∧ SameBut d link p p' := by
  induction between using List.reverseRecOn generalizing p behind with
  | nil => exact ⟨[], p, .here (validate_eq_ok.2 hfits), rfl, by simpa using hq, .refl d link p⟩
  | append_singleton between ahead ih =>
    have hq' : p.IsQueue d link ((front ++ between) ++ ahead :: job :: behind) := by simpa using hq
    obtain ⟨s, p₁, hroute, hq₁, hsame⟩ := exists_route_exchange hfits hlink hq'
    obtain ⟨swaps, p', hroute', hlength, hq', hsame'⟩ := ih hroute.fits_right hq₁
    refine ⟨[s] ++ swaps, p', hroute.trans hroute', ?_, by simpa using hq', hsame.trans hsame'⟩
    rw [List.length_append, List.length_append, hlength, Nat.add_comm]
    rfl

/-- Behind the jobs that have their places, the others can be put in any order. -/
theorem exists_route_rearrange {front rest target : List Nat} (hfits : p.Fits d) (hlink : link < d.links)
    (hq : p.IsQueue d link (front ++ rest)) (hperm : rest.Perm target) :
    ∃ swaps p', Route d p swaps p' ∧ swaps.length ≤ target.length * (target.length - 1) / 2 ∧
      p'.IsQueue d link (front ++ target) ∧ SameBut d link p p' := by
  induction target generalizing p front rest with
  | nil =>
    obtain rfl := hperm.eq_nil
    exact ⟨[], p, .here (validate_eq_ok.2 hfits), Nat.zero_le _, hq, .refl d link p⟩
  | cons job target ih =>
    -- the job that goes first is somewhere in the rest, and passes those ahead of it
    obtain ⟨between, behind, rfl⟩ := List.append_of_mem (hperm.mem_iff.2 List.mem_cons_self)
    have hperm' : (between ++ behind).Perm target := (List.perm_middle.symm.trans hperm).cons_inv
    obtain ⟨swaps, p₁, hroute, hlength, hq₁, hsame⟩ :=
      exists_route_advance hfits hlink (by rwa [List.append_assoc])
    have hq₁' : p₁.IsQueue d link ((front ++ [job]) ++ (between ++ behind)) := by simpa using hq₁
    obtain ⟨swaps', p', hroute', hlength', hq', hsame'⟩ := ih hroute.fits_right hq₁' hperm'
    refine ⟨swaps ++ swaps', p', hroute.trans hroute', ?_, by simpa using hq', hsame.trans hsame'⟩
    have hbetween : between.length ≤ target.length := by
      rw [← hperm'.length_eq, List.length_append]
      exact Nat.le_add_right _ _
    calc (swaps ++ swaps').length = between.length + swaps'.length := by rw [List.length_append, hlength]
      _ ≤ target.length + target.length * (target.length - 1) / 2 := Nat.add_le_add hbetween hlength'
      _ = (target.length + 1) * (target.length + 1 - 1) / 2 := by rw [Nat.triangle_succ, Nat.add_comm]

/-! ### All links -/

/-- How many swaps turn any queue of `link` into any other, at most. -/
def exchangeBound (d : Demand α) (link : Nat) : Nat :=
  (d.activeJobs link).length * ((d.activeJobs link).length - 1) / 2

/-- The links can be brought to the order of another table one after the other. -/
theorem exists_route_links (hp : p.Fits d) (hq : q.Fits d)
    (hinactive : ∀ job < d.jobs, ∀ link < d.links, d.isActive job link = false → p.rank job link = q.rank job link)
    {count : Nat} (hcount : count ≤ d.links) :
    ∃ swaps r, Route d p swaps r ∧ swaps.length ≤ ∑ link ∈ Finset.range count, exchangeBound d link ∧
      r.jobs = p.jobs ∧ r.links = p.links ∧
      (∀ job < d.jobs, ∀ link < count, r.rank job link = q.rank job link) ∧
      ∀ job, ∀ link < d.links, count ≤ link → r.rank job link = p.rank job link := by
  induction count with
  | zero => exact ⟨[], p, .here (validate_eq_ok.2 hp), Nat.zero_le _, rfl, rfl, by simp, fun _ _ _ _ => rfl⟩
  | succ link ih =>
    obtain ⟨swaps, r, hroute, hlength, hjobs, hlinks, hdone, hleft⟩ := ih (Nat.le_of_succ_le hcount)
    have hlink : link < d.links := hcount
    obtain ⟨order, horder⟩ := hroute.fits_right.queue link hlink
    obtain ⟨order', horder'⟩ := hq.queue link hlink
    have hwhole : r.IsQueue d link ([] ++ order) := horder
    obtain ⟨swaps', r', hroute', hlength', hqueue, hsame⟩ :=
      exists_route_rearrange hroute.fits_right hlink hwhole (horder.perm.trans horder'.perm.symm)
    rw [List.nil_append] at hqueue
    refine ⟨swaps ++ swaps', r', hroute.trans hroute', ?_, hsame.jobs.trans hjobs, hsame.links.trans hlinks, ?_, ?_⟩
    · rw [List.length_append, Finset.sum_range_succ]
      rw [horder'.perm.length_eq] at hlength'
      exact Nat.add_le_add hlength hlength'
    · intro job hjob other hother
      have hother' : other < r.links := by rw [hlinks, hp.links]; omega
      by_cases hne : other = link
      · subst hne
        cases hactive : d.isActive job other with
        | true => exact hqueue.rank_eq horder' (horder'.mem_iff.2 ⟨hjob, hactive⟩)
        | false =>
          rw [hsame.rank job other hother' (.inr hactive), hleft job other hlink le_rfl,
            hinactive job hjob other hlink hactive]
      · rw [hsame.rank job other hother' (.inl hne)]
        exact hdone job hjob other (by omega)
    · intro job other hother hle
      rw [hsame.rank job other (by rw [hlinks, hp.links]; exact hother) (.inl (by omega))]
      exact hleft job other hother (by omega)

/-- Any two tables that are accepted for a demand and have the same ranks in its inactive cells are connected by
swaps, at most `k (k - 1) / 2` for every link with `k` active jobs. All of them succeed one after the other, and all
tables on the way are accepted too. -/
theorem exists_route (hp : (p.validate d : Except (ModelError α) Unit) = .ok ())
    (hq : (q.validate d : Except (ModelError α) Unit) = .ok ())
    (hinactive : ∀ job < d.jobs, ∀ link < d.links, d.isActive job link = false → p.rank job link = q.rank job link) :
    ∃ swaps : List Swap,
      swaps.length ≤ ∑ link ∈ Finset.range d.links,
        (d.activeJobs link).length * ((d.activeJobs link).length - 1) / 2 ∧
      (swaps.foldlM (fun p s => p.apply s) p : Except (ModelError α) Priority) = .ok q ∧
      ∀ count, ∃ r, ((swaps.take count).foldlM (fun p s => p.apply s) p : Except (ModelError α) Priority) = .ok r ∧
        (r.validate d : Except (ModelError α) Unit) = .ok () := by
  have hp' : p.Fits d := validate_eq_ok.1 hp
  have hq' : q.Fits d := validate_eq_ok.1 hq
  obtain ⟨swaps, r, hroute, hlength, hjobs, hlinks, hdone, -⟩ := exists_route_links hp' hq' hinactive le_rfl
  have hsame : r = q := by
    have hgrid : r.toGrid = q.toGrid := by
      refine Grid.ext_getD 0 r.isFull q.isFull (hjobs.trans (hp'.jobs.trans hq'.jobs.symm))
        (hlinks.trans (hp'.links.trans hq'.links.symm)) fun job hjob link hlink => ?_
      rw [hjobs, hp'.jobs] at hjob
      rw [hlinks, hp'.links] at hlink
      exact hdone job hjob link hlink
    cases r
    cases q
    simpa only [mk.injEq] using hgrid
  subst hsame
  exact ⟨swaps, hlength, hroute.foldlM_apply, hroute.exists_take⟩

theorem exists_route_of_contendedRanks : ∃ (q : Priority) (swaps : List Swap), q ≠ contendedRanks ∧ swaps.length ≤ 6 ∧
    (swaps.foldlM (fun p s => p.apply s) contendedRanks : Except (ModelError Tangent) Priority) = .ok q := by
  have hvalid : (Priority.validate ⟨⟨3, 2, #[2, 0, 1, 2, 0, 1]⟩, rfl⟩ contendedLinks :
      Except (ModelError Tangent) Unit) = .ok () := rfl
  obtain ⟨swaps, hlength, hfold, -⟩ := exists_route validate_contendedRanks hvalid (by decide +kernel)
  have hbound : ∑ link ∈ Finset.range contendedLinks.links, (contendedLinks.activeJobs link).length *
      ((contendedLinks.activeJobs link).length - 1) / 2 = 6 := by decide +kernel
  exact ⟨_, swaps, by decide, hbound ▸ hlength, hfold⟩

end LinkPriority.Priority

import Mathlib
import LinkPriority.Random.Indices
import LinkPriority.Proofs.Scalar.Exact
import LinkPriority.Proofs.Search.Readout
import LinkPriority.Proofs.Search.Tracing
import LinkPriority.Proofs.Search.Visits

/-! Searches after so many iterations, whether a caller asked for them one by one or for a run. Every appraised node
but the root has been rewarded by then, so nothing that was appraised is left out when the answer is read: it has
the smallest of all objectives the observer was told of. -/

namespace LinkPriority

namespace Search

variable {α σ ω : Type}

/-- Where the account is right, every appraised node is eligible. -/
theorem Tallied.mem_eligible {s : Search α σ ω} {i : Nat} {m : Node α} {a : Appraisal α} (h : s.Tallied)
    (htree : s.IsTree) (hm : s.node? i = some m) (ha : m.appraisal = some a) : (m, a) ∈ s.eligible := by
  refine (Search.mem_eligible htree).2 ⟨i, hm, ?_, ha⟩
  by_cases hi : i = 0
  · exact .inl hi
  · exact .inr ((h i m hm hi).1 (by rw [ha, Option.isSome_some]))

variable [Scalar α] {s : Search α σ (Trace α)}

theorem tallied_start {s₀ : Search α σ ω} {d : Demand α} {root : Priority} {settings : Settings} {choices : σ}
    {observer : Observer α ω} (hstart : Search.start d root settings choices observer = .ok s₀) : s₀.Tallied :=
  fun _ _ hm hi => absurd (eq_root_of_start hstart hm).1 hi

theorem Traced.isFinite (h : s.Traced) (hs : s.Sound) {e : Nat × α} (he : e ∈ s.observer.state.entries.toList) :
    Scalar.isFinite e.2 = true := by
  obtain ⟨m, a, hm, ha, hx⟩ := objectiveOf_eq_some.1 ((h.mem e.1 e.2).1 he)
  rw [← hx]
  exact ((hs.node e.1 m hm).isOf a ha).isFinite_objective

/-- The best node has the smallest recorded objective. -/
theorem Traced.smallest_of_best? [OrderedScalar α] (h : s.Traced) (hs : s.Sound) (htallied : s.Tallied)
    {m : Node α} {a : Appraisal α} (hbest : s.best? = some (m, a)) :
    (∃ e ∈ s.observer.state.entries.toList, e.2 = a.objective) ∧
      ∀ e ∈ s.observer.state.entries.toList, Scalar.le a.objective e.2 = true := by
  constructor
  · obtain ⟨i, hm, -, ha⟩ := (mem_eligible hs.tree).1 (mem_eligible_of_best? hbest)
    exact ⟨(i, a.objective), (h.mem i a.objective).2 (objectiveOf_eq_some.2 ⟨m, a, hm, ha, rfl⟩), rfl⟩
  · intro e he
    obtain ⟨k, b, hk, hb, hx⟩ := objectiveOf_eq_some.1 ((h.mem e.1 e.2).1 he)
    rw [← hx]
    exact hs.le_of_best? hbest (htallied.mem_eligible hs.tree hk hb)

end Search

/-! ### So many iterations -/

variable {α σ ω : Type} [Scalar α] [IndexSource σ]

/-- So many iterations, asked for one after the other. -/
inductive Steps : (count : Nat) → (t t' : Session α σ ω) → Prop where
  | zero (t : Session α σ ω) : Steps 0 t t
  | succ {count id : Nat} {t t₁ t' : Session α σ ω} (h : Move.step t = .ok id t₁) (hrest : Steps count t₁ t') :
    Steps (count + 1) t t'

/-- `n` iterations lead from the new search `s₀` to the session `t`. -/
def Completes (s₀ : Search α σ ω) (n : Nat) (t : Session α σ ω) : Prop :=
  Steps n ⟨s₀, []⟩ t ∨ s₀.settings.iterations = n ∧ Move.run ⟨s₀, []⟩ = .ok () t

variable [OrderedScalar α] {s₀ : Search α σ ω} {n : Nat} {t t' : Session α σ ω}

theorem Steps.iterates (h : Steps n t t') (hs : t.search.Sound) : Search.Iterates n t.search t'.search := by
  induction h with
  | zero t => exact .zero t.search
  | succ hstep _ ih =>
    have hadvances := Move.advances_of_step hs hstep
    exact .succ hadvances (ih (hadvances.changes.sound hs))

namespace Completes

/-- The iterations start from the new search, or from it with its root appraised. -/
theorem exists_iterates (h : Completes s₀ n t) (hs : s₀.Sound) :
    ∃ s₁, (s₁ = s₀ ∨ ∃ a, s₀.Appraises 0 s₁ a) ∧ Search.Iterates n s₁ t.search := by
  rcases h with hsteps | ⟨hn, hrun⟩
  · exact ⟨s₀, .inl rfl, hsteps.iterates hs⟩
  · have houtcome := Move.run_outcome (t := ⟨s₀, []⟩) hs
    rw [hrun] at houtcome
    cases houtcome with
    | done ha hiterates => exact ⟨_, .inr ⟨_, ha⟩, hn ▸ hiterates⟩

theorem changes (h : Completes s₀ n t) (hs : s₀.Sound) : Search.Changes s₀ t.search := by
  obtain ⟨s₁, rfl | ⟨a, ha⟩, hiterates⟩ := h.exists_iterates hs
  · exact hiterates.changes
  · exact .head (.appraise ha) hiterates.changes

theorem tallied (h : Completes s₀ n t) (hs : s₀.Sound) (htallied : s₀.Tallied) : t.search.Tallied := by
  obtain ⟨s₁, rfl | ⟨a, ha⟩, hiterates⟩ := h.exists_iterates hs
  · exact hiterates.tallied hs htallied
  · exact hiterates.tallied (hs.appraises ha) (htallied.appraises_root ha)

theorem exists_root_appraisal (h : Completes s₀ n t) (hs : s₀.Sound) (hn : 1 ≤ n) :
    ∃ root a, t.search.node? 0 = some root ∧ root.appraisal = some a := by
  obtain ⟨s₁, hstart, hiterates⟩ := h.exists_iterates hs
  have hs₁ : s₁.Sound := by
    rcases hstart with rfl | ⟨a, ha⟩
    · exact hs
    · exact hs.appraises ha
  cases hiterates with
  | zero => omega
  | succ hadvances hrest =>
    obtain ⟨root, a, hroot, ha⟩ := hadvances.exists_root_appraisal hs₁
    obtain ⟨root', hroot', hpersists⟩ := hrest.changes.exists_persists hroot
    exact ⟨root', a, hroot', hpersists.appraisal a ha⟩

end Completes

/-- After one iteration or more the nodes below the root are appraised exactly if they were rewarded, so the
solution has the smallest objective of all that were computed, in which the running best of a trace ends too. -/
theorem appraised_iff_visited_and_objective_smallest {d : Demand α} {root : Priority} {settings : Settings}
    {choices : σ} (hn : 1 ≤ n) :
    (∀ (observer : Observer α ω) s₀ t, Search.start d root settings choices observer = .ok s₀ → Completes s₀ n t →
      ∀ i m, t.search.node? i = some m → i ≠ 0 → (m.appraisal.isSome = true ↔ 0 < m.visits)) ∧
    ∀ s₀ t, Search.start d root settings choices Observer.tracing = .ok s₀ → Completes s₀ n t →
      ∃ solution best, t.search.finalize = .ok solution ∧
        (∃ e ∈ t.search.observer.state.entries.toList, e.2 = solution.objective) ∧
        (∀ e ∈ t.search.observer.state.entries.toList, Scalar.le solution.objective e.2 = true) ∧
        t.search.observer.state.runningBest.getLast? = some (some best) ∧
        Scalar.equal best solution.objective = true := by
  constructor
  · intro observer s₀ t hstart hcompletes
    exact hcompletes.tallied (Search.sound_start hstart) (Search.tallied_start hstart)
  · intro s₀ t hstart hcompletes
    have hs₀ := Search.sound_start hstart
    have hs := (hcompletes.changes hs₀).sound hs₀
    have htallied := hcompletes.tallied hs₀ (Search.tallied_start hstart)
    have htraced := (hcompletes.changes hs₀).traced (Search.traced_start hstart)
    obtain ⟨root, a₀, hroot, hknown⟩ := hcompletes.exists_root_appraisal hs₀ hn
    obtain ⟨⟨m, a⟩, hbest⟩ := hs.tree.exists_best?_eq hroot hknown
    obtain ⟨⟨e, he, hobjective⟩, hsmallest⟩ := htraced.smallest_of_best? hs htallied hbest
    obtain ⟨best, hlast, ⟨e', he', rfl⟩, hle⟩ := Trace.exists_getLast?_runningBest (List.ne_nil_of_mem he)
      fun _ h => htraced.isFinite hs h
    refine ⟨_, e'.2, Search.finalize_eq_ok.2 ⟨m, a, hbest, rfl⟩, ⟨e, he, hobjective⟩, hsmallest, hlast, ?_⟩
    rw [Scalar.equal, Bool.and_eq_true]
    exact ⟨hobjective ▸ hle e he, hsmallest e' he'⟩

/-- The search for the shared link from the order of the jobs' numbers, with a trace. -/
def tracedSharedLinkSearch : Search Tangent WordStream (Trace Tangent) where
  demand := sharedLink
  settings := { iterations := 1, warmStart := .identity }
  nodes := #[.root (WarmStart.identity.priority sharedLink) 2]
  choices := .ofSeed 0
  observer := .tracing

theorem start_tracedSharedLinkSearch :
    Search.start sharedLink (WarmStart.identity.priority sharedLink) { iterations := 1, warmStart := .identity }
      (.ofSeed 0) Observer.tracing = .ok tracedSharedLinkSearch := by cbv

theorem exists_completes_tracedSharedLinkSearch : ∃ t, Completes tracedSharedLinkSearch 1 t := by
  have hran : EStateM.run' Move.run (⟨tracedSharedLinkSearch, []⟩ : Session Tangent WordStream (Trace Tangent)) =
      some () := by cbv
  cases hrun : Move.run ⟨tracedSharedLinkSearch, []⟩ with
  | error e t => simp [EStateM.run', EStateM.run, hrun] at hran
  | ok u t => exact ⟨t, .inr ⟨rfl, hrun⟩⟩

theorem objective_smallest_of_tracedSharedLinkSearch :
    ∃ (t : Session Tangent WordStream (Trace Tangent)) (solution : Solution Tangent),
      Completes tracedSharedLinkSearch 1 t ∧ t.search.finalize = .ok solution ∧
      ∀ e ∈ t.search.observer.state.entries.toList, Scalar.le solution.objective e.2 = true := by
  obtain ⟨t, hcompletes⟩ := exists_completes_tracedSharedLinkSearch
  obtain ⟨solution, -, hsolution, -, hsmallest, -⟩ :=
    (appraised_iff_visited_and_objective_smallest (ω := Unit) (Nat.le_refl 1)).2 _ t start_tracedSharedLinkSearch
      hcompletes
  exact ⟨t, solution, hcompletes, hsolution, hsmallest⟩

end LinkPriority

import LinkPriority.Proofs.Search.CoupledMoves

/-! Searches side by side. What a search does depends on its demand, its nodes, its choices and its epoch budget
alone: not on how long or how loudly it is asked to run, and not on who observes it. So it does the same as a search
that records a trace, and its own observer is told what the trace holds. -/

namespace LinkPriority

variable {α σ ω β γ : Type}

/-- The settings ask for the same search, if perhaps not for as long or as loudly. -/
structure Settings.Agrees (short long : Settings) : Prop where
  epochBudget : long.epochBudget = short.epochBudget
  maxChildren : long.maxChildren = short.maxChildren
  seed : long.seed = short.seed
  warmStart : long.warmStart = short.warmStart

theorem Settings.Agrees.refl {settings : Settings} : settings.Agrees settings := ⟨rfl, rfl, rfl, rfl⟩

/-! ### Observers and traces -/

/-- The observer after it was told of all `entries`. -/
def Observer.hear (o : Observer α ω) (entries : List (Nat × α)) : Observer α ω :=
  entries.foldl (fun o entry => o.report entry.1 entry.2) o

theorem Observer.hear_concat (o : Observer α ω) (entries : List (Nat × α)) (node : Nat) (objective : α) :
    (o.hear entries).report node objective = o.hear (entries ++ [(node, objective)]) := by
  rw [hear, hear, List.foldl_concat]

theorem Observer.hear_append (o : Observer α ω) (entries more : List (Nat × α)) :
    (o.hear entries).hear more = o.hear (entries ++ more) := by
  rw [hear, hear, hear, List.foldl_append]

/-- A trace holds what its observer was told. -/
theorem Observer.entries_hear {o : Observer α (Trace α)} (hnotify : o.notify = Trace.push)
    (entries : List (Nat × α)) :
    (o.hear entries).state.entries.toList = o.state.entries.toList ++ entries := by
  induction entries generalizing o with
  | nil => exact (List.append_nil _).symm
  | cons entry rest ih =>
    have hstate : (o.report entry.1 entry.2).state = o.state.push entry.1 entry.2 :=
      congrFun (congrFun (congrFun hnotify o.state) entry.1) entry.2
    have hrest := ih (o := o.report entry.1 entry.2) hnotify
    rw [hstate, Trace.push, Array.toList_push, List.append_assoc] at hrest
    exact hrest

namespace Search

/-- `s` is where the traced search `r` is, with an observer that was `o` before it was told what the trace holds. The
two may differ in how long and how loudly they are asked to run. -/
structure Follows (o : Observer α ω) (s : Search α σ ω) (r : Search α σ (Trace α)) : Prop where
  demand : s.demand = r.demand
  epochBudget : s.settings.epochBudget = r.settings.epochBudget
  nodes : s.nodes = r.nodes
  choices : s.choices = r.choices
  evaluations : s.evaluations = r.evaluations
  iterations : s.iterations = r.iterations
  notify : r.observer.notify = Trace.push
  observer : s.observer = o.hear r.observer.state.entries.toList

/-- Searches with the same tables, of which the second records what the observer of the first is told. -/
def following [Scalar α] [IndexSource σ] (o : Observer α ω) (d : Demand α) (settings settings' : Settings)
    (hbudget : settings.epochBudget = settings'.epochBudget) : Coupling α σ ω (Trace α) where
  demand := d
  settings
  settings'
  tables := Eq
  swaps _ := True
  observers s r := r.notify = Trace.push ∧ s = o.hear r.state.entries.toList
  epochBudget := hbudget
  simulate h _ := by rw [h]
  select h _ _ _ _ := by rw [h]
  proposed _ _ _ _ _ _ _ _ _ _ := trivial
  apply h s _ := by
    rw [h]
    exact .refl _
  report h id objective := by
    have hentries := Observer.entries_hear h.1 [(id, objective)]
    refine ⟨h.1, ?_⟩
    rw [h.2, Observer.hear_concat, ← hentries]
    rfl

section Following

variable [Scalar α] [IndexSource σ] {o : Observer α ω} {s : Search α σ ω} {r : Search α σ (Trace α)}

theorem Follows.searches (h : s.Follows o r) :
    (following o r.demand s.settings r.settings h.epochBudget).Searches s r := by
  refine ⟨⟨h.demand, rfl⟩, ⟨rfl, rfl⟩, fun i => ?_, h.choices, h.evaluations, h.iterations, h.notify, h.observer⟩
  rw [h.nodes]
  cases r.nodes[i]? with
  | none => exact .none
  | some n => exact .some ⟨rfl, rfl, fun _ _ _ _ => trivial⟩

theorem follows_of_searches {d : Demand α} {settings settings' : Settings}
    {hbudget : settings.epochBudget = settings'.epochBudget}
    (h : (following o d settings settings' hbudget).Searches s r) : s.Follows o r where
  demand := h.demand.1.trans h.demand.2.symm
  epochBudget := by rw [h.settings.1, h.settings.2]; exact hbudget
  nodes := Array.ext_getElem? fun i => by
    have hi := h.arenas i
    generalize s.nodes[i]? = x at hi
    generalize r.nodes[i]? = y at hi
    cases hi with
    | none => rfl
    | @some n n' hn =>
      have htables : n.priority = n'.priority := hn.tables
      rw [hn.same, ← htables]
  choices := h.choices
  evaluations := h.evaluations
  iterations := h.iterations
  notify := h.observers.1
  observer := h.observers.2

/-- Both have the same answer. -/
theorem Follows.finalize_eq (h : s.Follows o r) : s.finalize = r.finalize :=
  h.searches.finalize_eq fun _ _ htables => congrArg (Priority.clearInactive · _) htables

end Following

/-- Where the settings agree, new searches start side by side. -/
theorem follows_start [Scalar α] {d : Demand α} {short long : Settings} {choices : σ} {o : Observer α ω}
    {s : Search α σ ω} {r : Search α σ (Trace α)} (hagree : short.Agrees long)
    (hs : Search.start d (short.warmStart.priority d) short choices o = .ok s)
    (hr : Search.start d (long.warmStart.priority d) long choices Observer.tracing = .ok r) : s.Follows o r := by
  obtain ⟨-, -, -, rfl⟩ := start_eq_ok.1 hs
  obtain ⟨-, -, -, rfl⟩ := start_eq_ok.1 hr
  refine ⟨rfl, hagree.epochBudget.symm, ?_, rfl, rfl, rfl, rfl, rfl⟩
  rw [hagree.maxChildren, hagree.warmStart]

end Search

/-! ### Moves -/

namespace Move

/-- Both moves succeed with the same value or fail with the same error, and the searches still run side by side. -/
inductive EndsAlike (o : Observer α ω) : EStateM.Result (SearchError α) (Session α σ ω) β →
    EStateM.Result (SearchError α) (Session α σ (Trace α)) β → Prop where
  | ok {t : Session α σ ω} {r : Session α σ (Trace α)} (b : β) (h : t.search.Follows o r.search) :
    EndsAlike o (.ok b t) (.ok b r)
  | error {t : Session α σ ω} {r : Session α σ (Trace α)} (e : SearchError α) (h : t.search.Follows o r.search) :
    EndsAlike o (.error e t) (.error e r)

theorem EndsAlike.exists_left {o : Observer α ω} {x} {b : β} {r : Session α σ (Trace α)}
    (h : EndsAlike o x (.ok b r)) : ∃ t, x = .ok b t ∧ t.search.Follows o r.search := by
  cases h with
  | ok _ h => exact ⟨_, rfl, h⟩

theorem EndsAlike.exists_right {o : Observer α ω} {x} {b : β} {t : Session α σ ω}
    (h : EndsAlike o (.ok b t) x) : ∃ r, x = .ok b r ∧ t.search.Follows o r.search := by
  cases h with
  | ok _ h => exact ⟨_, rfl, h⟩

/-- The move `m` does what `m'` does for a trace. -/
def Parallel (m : Move α σ ω β) (m' : Move α σ (Trace α) β) : Prop :=
  ∀ o t r, t.search.Follows o r.search → EndsAlike o (m t) (m' r)

/-- What searches with the same tables do alike, searches side by side do alike. -/
theorem Parallel.of_moves [Scalar α] [IndexSource σ] {m : Move α σ ω β} {m' : Move α σ (Trace α) β}
    (h : ∀ (o : Observer α ω) d settings settings' hbudget,
      (Search.following o d settings settings' hbudget).Moves Eq m m') : Parallel m m' := by
  intro o t r hfollows
  have hends := h o _ _ _ _ t r hfollows.searches
  generalize m t = result at hends
  generalize m' r = result' at hends
  cases hends with
  | ok hb h =>
    rw [hb]
    exact .ok _ (Search.follows_of_searches h)
  | error e h => exact .error e (Search.follows_of_searches h)

end Move

end LinkPriority

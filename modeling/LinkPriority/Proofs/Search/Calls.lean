import LinkPriority.Proofs.Search.Iteration
import LinkPriority.Search.Solve

/-! Searches in the hands of a caller, who may ask for any move at any time and go on after a move has failed.
All they can reach is made of the changes of a search, so the nodes are a tree of valid tables in every state, and
the numbers of the model's run are the only reason for which a move fails. -/

namespace LinkPriority

/-- What a caller can ask of a search. -/
inductive Call (α : Type) where
  | step
  | run
  | expand (id : Nat)
  | appraise (id : Nat)
  | backpropagate (id : Nat) (amount : α)

namespace Call

variable {α σ ω : Type} [Scalar α] [IndexSource σ]

/-- The node that a call names exists. -/
def Exists : Call α → Search α σ ω → Prop
  | step, _ => True
  | run, _ => True
  | expand id, s => id < s.nodes.size
  | appraise id, s => id < s.nodes.size
  | backpropagate id _, s => id < s.nodes.size

/-- The move a caller asks for; its result is dropped. -/
def move : Call α → Move α σ ω Unit
  | step => do let _ ← Move.step
  | run => Move.run
  | expand id => do let _ ← Move.expand id
  | appraise id => do let _ ← Move.appraisal id
  | backpropagate id amount => Move.update fun s => s.backpropagate id amount

end Call

section Reach

variable {α σ ω : Type} [Scalar α] [IndexSource σ]

/-- The session after a call, also when the call has failed. -/
def Session.after (t : Session α σ ω) (c : Call α) : Session α σ ω :=
  match c.move t with
  | .ok _ t' => t'
  | .error _ t' => t'

/-- The session after a list of calls. -/
def Session.afterAll (t : Session α σ ω) (calls : List (Call α)) : Session α σ ω := calls.foldl after t

/-- Each call names a node that exists by then. -/
def Session.Allows : Session α σ ω → List (Call α) → Prop
  | _, [] => True
  | t, c :: calls => c.Exists t.search ∧ Allows (t.after c) calls

/-- What each of a list of calls gives, one after the other. -/
def Session.collect {β : Type} (f : Call α → Session α σ ω → List β) : Session α σ ω → List (Call α) → List β
  | _, [] => []
  | t, c :: calls => f c t ++ collect f (t.after c) calls

/-- The sessions that a caller can reach from a new search. -/
inductive Reachable (s₀ : Search α σ ω) : Session α σ ω → Prop where
  | start : Reachable s₀ ⟨s₀, []⟩
  | call {t : Session α σ ω} {c : Call α} (h : Reachable s₀ t) (hc : c.Exists t.search) : Reachable s₀ (t.after c)

/-- How a caller's move ends: what it does is made of changes, and the model's numbers are all that can stop it. -/
inductive Ends (t : Session α σ ω) {β : Type} : EStateM.Result (SearchError α) (Session α σ ω) β → Prop where
  | done {t' : Session α σ ω} {b : β} (h : Search.Changes t.search t'.search) : Ends t (.ok b t')
  | failed {t' : Session α σ ω} {objective : α} {epochs : Nat} (h : Search.Changes t.search t'.search) :
    Ends t (.error (.model (.numeric objective epochs)) t')

variable {s₀ : Search α σ ω} {t : Session α σ ω} {c : Call α} {β : Type}

namespace Ends

theorem of_exists_numeric {t' : Session α σ ω} {e : SearchError α}
    (he : ∃ objective epochs, e = .model (.numeric objective epochs)) (h : Search.Changes t.search t'.search) :
    Ends t (.error e t' : EStateM.Result _ _ β) := by
  obtain ⟨objective, epochs, rfl⟩ := he
  exact .failed h

theorem of_stuck {t' : Session α σ ω} {e : SearchError α} {id : Nat} (h : t.search.Stuck id e)
    (hsame : t'.search = t.search) : Ends t (.error e t' : EStateM.Result _ _ β) :=
  of_exists_numeric h.exists_numeric (hsame ▸ .refl)

theorem discard {m : Move α σ ω β} (h : Ends t (m t)) : Ends t ((do let _ ← m : Move α σ ω Unit) t) := by
  generalize hresult : m t = result at h
  cases h with
  | done h =>
    rw [Move.bind_of_ok hresult]
    exact .done h
  | failed h =>
    rw [Move.bind_of_error hresult]
    exact .failed h

variable {id : Nat}

theorem of_appraisal {r} (h : Move.AppraisalOutcome t id r) : Ends t r := by
  cases h with
  | answers ha => exact .done (.single (.appraise ha))
  | stuck h hsame => exact of_stuck h hsame

theorem of_expand {r} (h : Move.ExpandOutcome t id r) : Ends t r := by
  cases h with
  | settled ha => exact .done (.single (.appraise ha))
  | branched ha _ hm hchildless hknown hb =>
    exact .done (.tail (.single (.appraise ha)) (.branch hm hchildless hknown hb))
  | stuck h hsame => exact of_stuck h hsame

theorem of_step {r} (h : Move.StepOutcome t r) : Ends t r := by
  cases h with
  | advances h => exact .done h.changes
  | halts h => exact of_exists_numeric h.exists_numeric h.changes

theorem of_run {r} (h : Move.RunOutcome t r) : Ends t r := by
  cases h with
  | done ha h => exact .done (.head (.appraise ha) h.changes)
  | stuck h hsame => exact of_stuck h hsame
  | halts ha h hhalts =>
    exact of_exists_numeric hhalts.exists_numeric (.head (.appraise ha) (h.changes.trans hhalts.changes))

end Ends

variable [OrderedScalar α]

theorem call_ends (hs : t.search.Sound) (hc : c.Exists t.search) : Ends t (c.move t) := by
  cases c with
  | step => exact (Ends.of_step (Move.step_outcome hs)).discard
  | run => exact .of_run (Move.run_outcome hs)
  | expand id =>
    obtain ⟨n, hn⟩ := Search.exists_node?_eq hc
    exact (Ends.of_expand (Move.expand_outcome hs hn)).discard
  | appraise id =>
    obtain ⟨n, hn⟩ := Search.exists_node?_eq hc
    exact (Ends.of_appraisal (Move.appraisal_outcome hs hn)).discard
  | backpropagate id amount => exact .done (.single (.reward t.search id amount))

theorem changes_after (hs : t.search.Sound) (hc : c.Exists t.search) :
    Search.Changes t.search (t.after c).search := by
  have hends := call_ends hs hc
  rw [Session.after]
  generalize c.move t = result at hends
  cases hends <;> assumption

theorem Reachable.changes (h : Reachable s₀ t) (hs : s₀.Sound) : Search.Changes s₀ t.search := by
  induction h with
  | start => exact .refl
  | call _ hc ih => exact ih.trans (changes_after (ih.sound hs) hc)

theorem Reachable.sound (h : Reachable s₀ t) (hs : s₀.Sound) : t.search.Sound := (h.changes hs).sound hs

omit [OrderedScalar α] in
theorem Reachable.afterAll {calls : List (Call α)} (h : Reachable s₀ t) (hcalls : t.Allows calls) :
    Reachable s₀ (t.afterAll calls) := by
  induction calls generalizing t with
  | nil => exact h
  | cons c calls ih => exact ih (.call h hcalls.1) hcalls.2

end Reach

end LinkPriority

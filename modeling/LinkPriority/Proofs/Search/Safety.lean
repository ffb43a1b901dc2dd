import Mathlib
import LinkPriority.Proofs.Scalar.Exact
import LinkPriority.Proofs.Search.Calls
import LinkPriority.Proofs.Search.Solving

/-! What a caller may rely on in every state. The tables of all nodes are valid, a move fails only because of the
numbers of the model's run, and the nodes form one tree that only grows: a node keeps its place, its table and its
appraisal for good. -/

namespace LinkPriority

variable {α σ ω : Type} [Scalar α] [IndexSource σ] [OrderedScalar α] {d : Demand α}

section Reach

variable {root : Priority} {settings : Settings} {choices : σ} {observer : Observer α ω} {s₀ : Search α σ ω}
  {t : Session α σ ω} (hstart : Search.start d root settings choices observer = .ok s₀) (ht : Reachable s₀ t)
include hstart ht

theorem Reachable.sound_of_start : t.search.Sound := ht.sound (Search.sound_start hstart)

theorem Reachable.validate_eq_ok {i : Nat} {n : Node α} (hn : t.search.node? i = some n) :
    (n.priority.validate d : Except (ModelError α) Unit) = .ok () := by
  have hfits := ((ht.sound_of_start hstart).node i n hn).fits
  have hdemand := (ht.changes (Search.sound_start hstart)).demand_eq
  obtain ⟨-, -, -, rfl⟩ := Search.start_eq_ok.1 hstart
  rw [hdemand] at hfits
  exact Priority.validate_eq_ok.2 hfits

theorem Reachable.exists_numeric_of_error {c : Call α} (hc : c.Exists t.search) {e : SearchError α}
    {t' : Session α σ ω} (he : c.move t = .error e t') :
    ∃ objective epochs, e = .model (.numeric objective epochs) := by
  have hends := call_ends (ht.sound_of_start hstart) hc
  rw [he] at hends
  cases hends with
  | failed _ => exact ⟨_, _, rfl⟩

end Reach

theorem solveWith_error_cases (hd : (d.validate : Except (ModelError α) Unit) = .ok ()) {settings : Settings}
    {choices : σ} {e : SearchError α} (he : (solveWith d settings choices).outcome = .error e) :
    (∃ fault, e = .settings fault) ∨ ∃ objective epochs, e = .model (.numeric objective epochs) := by
  have houtcome := solve_outcome hd settings choices Observer.silent
  rw [solveWith, Except.map_eq_error] at he
  rw [he] at houtcome
  cases houtcome with
  | refused _ => exact .inl ⟨_, rfl⟩
  | failed => exact .inr ⟨_, _, rfl⟩

/-- Whatever a caller asks of a search, in whatever order, all tables stay valid and only the numbers of the
model's run can stop a call; so solving fails only on its settings or on those numbers. -/
theorem tables_validate_and_faults_are_numeric (hd : (d.validate : Except (ModelError α) Unit) = .ok ()) :
    (∀ (settings : Settings) (root : Priority) (choices : σ) (observer : Observer α ω),
      (settings.validate : Except (SearchError α) Unit) = .ok () →
      (root.validate d : Except (ModelError α) Unit) = .ok () →
      ∃ s₀, Search.start d root settings choices observer = .ok s₀ ∧ ∀ t, Reachable s₀ t →
        (∀ i n, t.search.node? i = some n → (n.priority.validate d : Except (ModelError α) Unit) = .ok ()) ∧
        ∀ c : Call α, c.Exists t.search → ∀ e t', c.move t = .error e t' →
          ∃ objective epochs, e = .model (.numeric objective epochs)) ∧
    ∀ (settings : Settings) (choices : σ) (e : SearchError α), (solveWith d settings choices).outcome = .error e →
      (∃ fault, e = .settings fault) ∨ ∃ objective epochs, e = .model (.numeric objective epochs) := by
  constructor
  · intro settings root choices observer hsettings hroot
    obtain ⟨s₀, hstart⟩ := Search.exists_start_eq hsettings hd (Priority.validate_eq_ok.1 hroot) choices observer
    refine ⟨s₀, hstart, fun t ht => ⟨?_, ?_⟩⟩
    · intro i n hn
      exact ht.validate_eq_ok hstart hn
    · intro c hc e t' he
      exact ht.exists_numeric_of_error hstart hc he
  · intro settings choices e he
    exact solveWith_error_cases hd he

/-- The search for the shared link from the order of the jobs' numbers. -/
def sharedLinkSearch : Search Tangent WordStream Unit where
  demand := sharedLink
  settings := { warmStart := .identity }
  nodes := #[.root (WarmStart.identity.priority sharedLink) 2]
  choices := .ofSeed 0
  observer := .silent

/-- What a caller may ask of it, in this order. -/
def sharedLinkCalls : List (Call Tangent) := [.step, .backpropagate 1 ⟨3⟩, .expand 1]

theorem start_sharedLinkSearch :
    Search.start sharedLink (WarmStart.identity.priority sharedLink) { warmStart := .identity } (.ofSeed 0)
      Observer.silent = .ok sharedLinkSearch := by cbv

theorem sharedLink_validates_and_faults_are_numeric :
    let t := Session.afterAll ⟨sharedLinkSearch, []⟩ sharedLinkCalls
    (sharedLink.validate : Except (ModelError Tangent) Unit) = .ok () ∧
    Session.Allows ⟨sharedLinkSearch, []⟩ sharedLinkCalls ∧ t.search.nodes.size = 3 ∧
    (∀ i n, t.search.node? i = some n → (n.priority.validate sharedLink : Except (ModelError Tangent) Unit) = .ok ()) ∧
    (∀ c : Call Tangent, c.Exists t.search → ∀ e t', c.move t = .error e t' →
      ∃ objective epochs, e = .model (.numeric objective epochs)) ∧
    ∀ (settings : Settings) (choices : WordStream) (e : SearchError Tangent),
      (solveWith sharedLink settings choices).outcome = .error e →
        (∃ fault, e = .settings fault) ∨ ∃ objective epochs, e = .model (.numeric objective epochs) := by
  intro t
  have hd : (sharedLink.validate : Except (ModelError Tangent) Unit) = .ok () := by cbv
  have hsize : (Session.after ⟨sharedLinkSearch, []⟩ .step).search.nodes.size = 2 := by cbv
  have hcalls : Session.Allows ⟨sharedLinkSearch, []⟩ sharedLinkCalls := by
    refine ⟨trivial, ?_, ?_, trivial⟩
    · rw [Call.Exists, hsize]
      decide
    · cbv
  have hgrown : (Session.afterAll ⟨sharedLinkSearch, []⟩ sharedLinkCalls).search.nodes.size = 3 := by cbv
  obtain ⟨hreach, hsolve⟩ := tables_validate_and_faults_are_numeric (σ := WordStream) (ω := Unit) hd
  obtain ⟨s₀, hstart, hsafe⟩ := hreach { warmStart := .identity } (WarmStart.identity.priority sharedLink)
    (.ofSeed 0) Observer.silent rfl (by cbv)
  obtain rfl := Except.ok.inj (start_sharedLinkSearch.symm.trans hstart)
  obtain ⟨htables, hfaults⟩ := hsafe t (Reachable.start.afterAll hcalls)
  exact ⟨hd, hcalls, hgrown, htables, hfaults, hsolve⟩

/-- Expanding once more adds nothing. -/
theorem expand_of_expand {t t' : Session α σ ω} {i r : Nat} (hs : t.search.Sound) (hi : i < t.search.nodes.size)
    (h : Move.expand i t = .ok r t') : Move.expand i t' = .ok i t' := by
  obtain ⟨n, hn⟩ := Search.exists_node?_eq hi
  have houtcome := Move.expand_outcome hs hn
  rw [h] at houtcome
  cases houtcome with
  | settled ha hm hknown hor =>
    rcases hor with hchildren | hactions
    · exact Move.expand_of_children (hs.appraises ha).tree hm hchildren
    · exact Move.expand_of_terminal hm hknown hactions
  | branched ha hactions hm hchildless hknown hb =>
    have hs' := (hs.appraises ha).branches hm hchildless hknown hb
    refine Move.expand_of_children hs'.tree hb.parent ?_
    simpa [hchildless] using hactions

/-- In every state a caller can reach the nodes are a tree, in which a node has no children or one for each of its
candidates, so that expanding it again adds nothing; and no call changes what is fixed about a node. -/
theorem isTree_and_nodes_persist {root : Priority} {settings : Settings} {choices : σ} {observer : Observer α ω}
    {s₀ : Search α σ ω} {t : Session α σ ω} (hstart : Search.start d root settings choices observer = .ok s₀)
    (ht : Reachable s₀ t) :
    t.search.IsTree ∧
    (∀ i n, t.search.node? i = some n → n.children ≠ [] → Move.expand i t = .ok i t) ∧
    (∀ i r t', i < t.search.nodes.size → Move.expand i t = .ok r t' → Move.expand i t' = .ok i t') ∧
    ∀ c : Call α, c.Exists t.search → ∀ i n, t.search.node? i = some n →
      ∃ n', (t.after c).search.node? i = some n' ∧ n.Persists n' := by
  have hs := ht.sound_of_start hstart
  refine ⟨hs.tree, ?_, ?_, ?_⟩
  · intro i n hn hchildren
    exact Move.expand_of_children hs.tree hn hchildren
  · intro i r t' hi hexpand
    exact expand_of_expand hs hi hexpand
  · intro c hc i n hn
    exact (changes_after hs hc).exists_persists hn

theorem isTree_sharedLinkSearch_after_step :
    Search.start sharedLink (WarmStart.identity.priority sharedLink) { warmStart := .identity } (.ofSeed 0)
      Observer.silent = .ok sharedLinkSearch ∧
    (Session.after ⟨sharedLinkSearch, []⟩ .step).search.nodes.size = 2 ∧
    (Session.after ⟨sharedLinkSearch, []⟩ .step).search.IsTree := by
  have hsize : (Session.after ⟨sharedLinkSearch, []⟩ .step).search.nodes.size = 2 := by cbv
  exact ⟨start_sharedLinkSearch, hsize,
    (isTree_and_nodes_persist start_sharedLinkSearch (.call (c := .step) .start trivial)).1⟩

end LinkPriority

import Mathlib
import LinkPriority.Proofs.Search.Safety
import LinkPriority.Proofs.Search.Subtree
import LinkPriority.Proofs.Search.Tracing

/-! What a caller's calls have done to the numbers of the nodes. Every iteration that succeeds passes one reward up
from the node it returns, and a caller may pass up others; nothing else changes how often a node was visited or what
it is worth. So both can be read off the rewards so far: a node has been visited once for each that started in its
subtree, and is worth their sum in the order in which they came. -/

namespace LinkPriority

/-- A reward passed up the tree: the node it started from, and how much it was. -/
structure Reward (α : Type) where
  source : Nat
  amount : α

/-! ### Histories -/

section Histories

variable {α σ ω : Type} [Scalar α] [IndexSource σ]

/-- One iteration of a run, and its report of progress. -/
def Move.round : Move α σ ω Nat := do
  let id ← step
  reportProgress
  return id

/-- The iterations of a run of so many, up to the first that fails: each with the node it returned and the search it
left. -/
def Session.iterations : (count : Nat) → Session α σ ω → List (Nat × Search α σ ω)
  | 0, _ => []
  | count + 1, t =>
    match Move.round t with
    | .ok id t' => (id, t'.search) :: Session.iterations count t'
    | .error _ _ => []

/-- The rewards that iterations passed up: from the node that each returned, the objective kept there. -/
def rewardsOf (iterations : List (Nat × Search α σ ω)) : List (Reward α) :=
  iterations.filterMap fun it => (it.2.objectiveOf it.1).map fun amount => ⟨it.1, amount⟩

namespace Call

/-- The iterations that succeed in a call. -/
def iterations : Call α → Session α σ ω → List (Nat × Search α σ ω)
  | step, t => t.iterations 1
  | run, t =>
    match Move.appraisal 0 t with
    | .ok _ t' => t'.iterations t'.search.settings.iterations
    | .error _ _ => []
  | expand _, _ => []
  | appraise _, _ => []
  | backpropagate _ _, _ => []

/-- The rewards that a call passes up. -/
def rewards : Call α → Session α σ ω → List (Reward α)
  | backpropagate id amount, _ => [⟨id, amount⟩]
  | c, t => rewardsOf (c.iterations t)

end Call

end Histories

/-! ### The account of the rewards -/

/-- The amounts of the rewards that started in the subtree of a node. -/
def Search.received {α σ ω : Type} (s : Search α σ ω) (rewards : List (Reward α)) (id : Nat) : List α :=
  (rewards.filter fun r => r.source ∈ s.subtree id).map Reward.amount

namespace Search

variable {α σ ω : Type} {s s' : Search α σ ω} {i id : Nat} {n : Node α} {rewards : List (Reward α)}

/-- The amounts of the rewards that have a node on their way up. -/
def passing (nodes : Array (Node α)) (rewards : List (Reward α)) (id : Nat) : List α :=
  (rewards.filter fun r => id ∈ lineage nodes r.source).map Reward.amount

theorem IsTree.received_eq (h : s.IsTree) (rewards : List (Reward α)) (id : Nat) :
    s.received rewards id = passing s.nodes rewards id := by
  simp only [received, passing, h.mem_subtree]

/-- Where the ways up of all rewards are as they were, the same rewards pass. -/
theorem passing_congr {nodes nodes' : Array (Node α)} (hsource : ∀ r ∈ rewards, r.source < nodes.size)
    (h : ∀ i < nodes.size, nodes'[i]?.bind Node.parent = nodes[i]?.bind Node.parent) (id : Nat) :
    passing nodes' rewards id = passing nodes rewards id := by
  refine congrArg (List.map Reward.amount) (List.filter_congr fun r hr => ?_)
  rw [lineage_congr fun i hi => h i (hi.trans_lt (hsource r hr))]

theorem passing_of_size_le {nodes : Array (Node α)} (hsource : ∀ r ∈ rewards, r.source < nodes.size)
    (hid : nodes.size ≤ id) : passing nodes rewards id = [] := by
  refine List.map_eq_nil_iff.2 (List.filter_eq_nil_iff.2 fun r hr => ?_)
  have hlt := hsource r hr
  have hnot : id ∉ lineage nodes r.source := fun hup => by
    have := le_of_mem_lineage hup
    omega
  simpa using hnot

theorem passing_concat (nodes : Array (Node α)) (rewards : List (Reward α)) (r : Reward α) (id : Nat) :
    passing nodes (rewards ++ [r]) id =
      if id ∈ lineage nodes r.source then passing nodes rewards id ++ [r.amount] else passing nodes rewards id := by
  rw [passing, List.filter_append, List.map_append, List.filter_singleton]
  by_cases hup : id ∈ lineage nodes r.source
  · simp [hup, passing]
  · simp [hup, passing]

variable [Scalar α]

/-- Every node has recorded exactly the rewards that passed it. -/
structure Recounted (s : Search α σ ω) (rewards : List (Reward α)) : Prop where
  source : ∀ r ∈ rewards, r.source < s.nodes.size
  visits : ∀ i n, s.node? i = some n → n.visits = (passing s.nodes rewards i).length
  value : ∀ i n, s.node? i = some n → n.value = (passing s.nodes rewards i).foldl (· + ·) Scalar.zero

theorem recounted_start {d : Demand α} {root : Priority} {settings : Settings} {choices : σ}
    {observer : Observer α ω} (hstart : Search.start d root settings choices observer = .ok s) :
    s.Recounted [] := by
  refine ⟨fun r hr => absurd hr List.not_mem_nil, fun i n hn => ?_, fun i n hn => ?_⟩
  · rw [(eq_root_of_start hstart hn).2]
    rfl
  · rw [(eq_root_of_start hstart hn).2]
    rfl

/-- The account stays right when no reward is passed up: nodes keep their numbers, and new ones have none. -/
theorem Recounted.of_unrewarded (h : s.Recounted rewards) (hsize : s.nodes.size ≤ s'.nodes.size)
    (hnode : ∀ i m, s'.node? i = some m →
      (∃ n, s.node? i = some n ∧ m.parent = n.parent ∧ m.visits = n.visits ∧ m.value = n.value) ∨
        s.nodes.size ≤ i ∧ m.visits = 0 ∧ m.value = Scalar.zero) : s'.Recounted rewards := by
  have hparent : ∀ i < s.nodes.size, s'.nodes[i]?.bind Node.parent = s.nodes[i]?.bind Node.parent := by
    intro i hi
    obtain ⟨m, hm⟩ := exists_node?_eq (hi.trans_le hsize)
    rcases hnode i m hm with ⟨n, hn, hparent, -⟩ | ⟨hle, -⟩
    · have hold : (s.node? i).bind Node.parent = (s'.node? i).bind Node.parent := by
        rw [hn, hm, Option.bind_some, Option.bind_some, hparent]
      exact hold.symm
    · omega
  have hpassing := passing_congr h.source hparent
  refine ⟨fun r hr => (h.source r hr).trans_le hsize, fun i m hm => ?_, fun i m hm => ?_⟩
  · rw [hpassing]
    rcases hnode i m hm with ⟨n, hn, -, hvisits, -⟩ | ⟨hle, hzero, -⟩
    · rw [hvisits, h.visits i n hn]
    · rw [hzero, passing_of_size_le h.source hle, List.length_nil]
  · rw [hpassing]
    rcases hnode i m hm with ⟨n, hn, -, -, hvalue⟩ | ⟨hle, -, hzero⟩
    · rw [hvalue, h.value i n hn]
    · rw [hzero, passing_of_size_le h.source hle, List.foldl_nil]

theorem Recounted.branches {actions : List Swap} (h : s.Recounted rewards) (hn : s.node? id = some n)
    (hb : s.Branches s' id n actions) : s'.Recounted rewards := by
  refine h.of_unrewarded (hb.size ▸ Nat.le_add_right _ _) fun i m hm => ?_
  rcases hb.node_cases hm with ⟨rfl, rfl⟩ | ⟨-, hold⟩ | ⟨j, _, _, rfl, -, -, rfl⟩
  · exact .inl ⟨n, hn, rfl, rfl, rfl⟩
  · exact .inl ⟨m, hold, rfl, rfl, rfl⟩
  · exact .inr ⟨Nat.le_add_right _ _, rfl, rfl⟩

/-- One more reward, recorded once at every node on its way up. -/
theorem Recounted.backpropagate (h : s.Recounted rewards) (hid : id < s.nodes.size) (amount : α) :
    (s.backpropagate id amount).Recounted (rewards ++ [⟨id, amount⟩]) := by
  have hsame := sameTree_backpropagate s id amount
  have hparent : ∀ i < s.nodes.size,
      (s.backpropagate id amount).nodes[i]?.bind Node.parent = s.nodes[i]?.bind Node.parent := by
    intro i hi
    obtain ⟨n, hn⟩ := exists_node?_eq hi
    obtain ⟨n', hn', hpersists, -⟩ := hsame.node i n hn
    have hold : ((s.backpropagate id amount).node? i).bind Node.parent = (s.node? i).bind Node.parent := by
      rw [hn, hn', Option.bind_some, Option.bind_some, hpersists.parent]
    exact hold
  have hsource : ∀ r ∈ rewards ++ [⟨id, amount⟩], r.source < s.nodes.size := by
    intro r hr
    rcases List.mem_append.1 hr with hr | hr
    · exact h.source r hr
    · rw [List.mem_singleton.1 hr]
      exact hid
  have hpassing := passing_congr hsource hparent
  refine ⟨fun r hr => hsame.size ▸ hsource r hr, fun i m hm => ?_, fun i m hm => ?_⟩
  · rw [hpassing, passing_concat]
    rw [node?_backpropagate] at hm
    split at hm
    · next hup =>
      obtain ⟨n, hn, rfl⟩ := Option.map_eq_some_iff.1 hm
      rw [if_pos hup, List.length_append, List.length_singleton, ← h.visits i n hn]
      rfl
    · next hup => rw [if_neg hup, h.visits i m hm]
  · rw [hpassing, passing_concat]
    rw [node?_backpropagate] at hm
    split at hm
    · next hup =>
      obtain ⟨n, hn, rfl⟩ := Option.map_eq_some_iff.1 hm
      rw [if_pos hup, List.foldl_concat, ← h.value i n hn]
      rfl
    · next hup => rw [if_neg hup, h.value i m hm]

theorem Recounted.rewarded (h : s.Recounted rewards) (hid : id < s.nodes.size) (amount : α) :
    (s.rewarded id amount).Recounted (rewards ++ [⟨id, amount⟩]) :=
  ⟨(h.backpropagate hid amount).source, (h.backpropagate hid amount).visits, (h.backpropagate hid amount).value⟩

/-- The iterations and the rewards that lead from one search to another. -/
structure Account (s s' : Search α σ ω) (iterations : List (Nat × Search α σ ω)) (rewards : List (Reward α)) :
    Prop where
  counted : s'.iterations = s.iterations + iterations.length
  rewarded : ∀ it ∈ iterations, ∃ (s₁ : Search α σ ω) (x : α), s₁.objectiveOf it.1 = some x ∧
    it.2.objectiveOf it.1 = some x ∧ it.2 = s₁.rewarded it.1 x
  recounted : ∀ earlier, s.Recounted earlier → s'.Recounted (earlier ++ rewards)

namespace Account

variable {iterations more : List (Nat × Search α σ ω)} {others : List (Reward α)}

/-- Nothing was passed up and no iteration counted. -/
theorem idle (hcounted : s'.iterations = s.iterations)
    (hrecounted : ∀ earlier, s.Recounted earlier → s'.Recounted earlier) : s.Account s' [] [] where
  counted := hcounted
  rewarded _ hit := absurd hit List.not_mem_nil
  recounted earlier h := by rw [List.append_nil]; exact hrecounted earlier h

theorem refl (s : Search α σ ω) : s.Account s [] [] := idle rfl fun _ h => h

theorem append {s'' : Search α σ ω} (h : s.Account s' iterations rewards) (h' : s'.Account s'' more others) :
    s.Account s'' (iterations ++ more) (rewards ++ others) where
  counted := by rw [h'.counted, h.counted, List.length_append, Nat.add_assoc]
  rewarded it hit := (List.mem_append.1 hit).elim (h.rewarded it) (h'.rewarded it)
  recounted earlier hearlier := by
    rw [← List.append_assoc]
    exact h'.recounted _ (h.recounted earlier hearlier)

theorem branches {actions : List Swap} (hn : s.node? id = some n) (hb : s.Branches s' id n actions) :
    s.Account s' [] [] :=
  idle (by rw [hb.rest]) fun _ hearlier => hearlier.branches hn hb

variable [IndexSource σ]

theorem appraises {a : Appraisal α} (h : s.Appraises id s' a) : s.Account s' [] [] := by
  refine idle h.iterations_eq fun earlier hearlier =>
    hearlier.of_unrewarded h.sameTree.size.ge fun i m hm => .inl ?_
  by_cases hi : i = id
  · obtain ⟨n, hn, hn'⟩ := h.exists_node
    subst hi
    obtain rfl := Option.some.inj (hm.symm.trans hn')
    exact ⟨n, hn, rfl, rfl, rfl⟩
  · exact ⟨m, h.node?_of_ne hi ▸ hm, rfl, rfl, rfl⟩

/-- An iteration that ends by rewarding a node it has just appraised. -/
theorem rewards_appraised {a : Appraisal α} (h : s.Appraises id s' a) :
    s'.Account (s'.rewarded id a.objective) [(id, s'.rewarded id a.objective)]
      (rewardsOf [(id, s'.rewarded id a.objective)]) := by
  obtain ⟨n, -, hn⟩ := h.exists_node
  have hobjective : s'.objectiveOf id = some a.objective := objectiveOf_eq_some.2 ⟨_, a, hn, rfl, rfl⟩
  have hkept : (s'.rewarded id a.objective).objectiveOf id = some a.objective :=
    (objectiveOf_backpropagate s' id a.objective id).trans hobjective
  have hrewards : rewardsOf [(id, s'.rewarded id a.objective)] = [⟨id, a.objective⟩] := by
    simp only [rewardsOf, List.filterMap_cons, hkept, Option.map_some, List.filterMap_nil]
  refine ⟨rfl, fun it hit => ?_, fun earlier hearlier => ?_⟩
  · rw [List.mem_singleton.1 hit]
    exact ⟨s', a.objective, hobjective, hkept, rfl⟩
  · rw [hrewards]
    exact hearlier.rewarded (node?_lt hn) a.objective

theorem advances (h : s.Advances id s') : s.Account s' [(id, s')] (rewardsOf [(id, s')]) := by
  cases h with
  | terminal _ ha _ => exact (appraises ha).append (rewards_appraised ha)
  | child _ ha _ hn _ _ hb hchild =>
    exact (appraises ha).append ((branches hn hb).append ((appraises hchild).append (rewards_appraised hchild)))

theorem halts {e : SearchError α} (h : s.Halts e s') : s.Account s' [] [] := by
  cases h with
  | leaf => exact refl s
  | child _ ha _ hn _ _ hb _ => exact (appraises ha).append (branches hn hb)

end Account

end Search

/-! ### Every history is on the account -/

section Moves

variable {α σ ω β : Type} {t t' : Session α σ ω} {c : Call α} {calls : List (Call α)}

/-- The session that a move leaves, also when it fails. -/
def Move.left : EStateM.Result (SearchError α) (Session α σ ω) β → Session α σ ω
  | .ok _ t' => t'
  | .error _ t' => t'

theorem Move.left_discard (m : Move α σ ω β) (t : Session α σ ω) :
    left ((do let _ ← m : Move α σ ω Unit) t) = left (m t) := by
  cases hresult : m t with
  | ok b t' => rw [bind_of_ok hresult]; rfl
  | error e t' => rw [bind_of_error hresult]; rfl

theorem rewardsOf_cons (it : Nat × Search α σ ω) (its : List (Nat × Search α σ ω)) :
    rewardsOf (it :: its) = rewardsOf [it] ++ rewardsOf its := by
  rw [rewardsOf, rewardsOf, rewardsOf, ← List.filterMap_append, List.singleton_append]

variable [Scalar α] [IndexSource σ]

theorem Session.after_eq (t : Session α σ ω) (c : Call α) : t.after c = Move.left (c.move t) := by
  rw [after]
  cases c.move t <;> rfl

/-- An iteration of a run is followed by a report, which does not touch the search. -/
theorem Move.exists_round_eq {id : Nat} (h : Move.step t = .ok id t') :
    ∃ reported, Move.round t = .ok id ⟨t'.search, reported⟩ ∧
      ∀ count, Move.iterate (count + 1) t = Move.iterate count ⟨t'.search, reported⟩ := by
  obtain ⟨reported, hreport⟩ := exists_reportProgress_eq t'
  refine ⟨reported, ?_, fun count => ?_⟩
  · rw [round, bind_of_ok h, bind_of_ok hreport]
    rfl
  · rw [iterate, bind_of_ok h, bind_of_ok hreport]

theorem Session.iterations_of_error {e : SearchError α} (h : Move.step t = .error e t') (count : Nat) :
    t.iterations count = [] := by
  have hround : Move.round t = .error e t' := Move.bind_of_error h
  cases count with
  | zero => rfl
  | succ count => rw [Session.iterations, hround]

variable [OrderedScalar α]

namespace Search

theorem account_step (hs : t.search.Sound) :
    t.search.Account (Move.left (Move.step t)).search (t.iterations 1) (rewardsOf (t.iterations 1)) := by
  generalize hresult : Move.step t = result
  have houtcome := Move.step_outcome hs
  rw [hresult] at houtcome
  cases houtcome with
  | halts h =>
    rw [Session.iterations_of_error hresult]
    exact .halts h
  | @advances t₁ id h =>
    obtain ⟨reported, hround, -⟩ := Move.exists_round_eq hresult
    have hone : t.iterations 1 = [(id, t₁.search)] := by rw [Session.iterations, hround]; rfl
    rw [hone]
    exact .advances h

theorem account_iterate (hs : t.search.Sound) (count : Nat) :
    t.search.Account (Move.left (Move.iterate count t)).search (t.iterations count)
      (rewardsOf (t.iterations count)) := by
  induction count generalizing t with
  | zero => exact .refl t.search
  | succ count ih =>
    generalize hresult : Move.step t = result
    have houtcome := Move.step_outcome hs
    rw [hresult] at houtcome
    cases houtcome with
    | @halts t₁ e h =>
      have hiterate : Move.iterate (count + 1) t = .error e t₁ := Move.bind_of_error hresult
      rw [Session.iterations_of_error hresult, hiterate]
      exact .halts h
    | @advances t₁ id h =>
      obtain ⟨reported, hround, hiterate⟩ := Move.exists_round_eq hresult
      have hiterations : t.iterations (count + 1) =
          (id, t₁.search) :: Session.iterations count ⟨t₁.search, reported⟩ := by
        rw [Session.iterations, hround]
      rw [hiterations, hiterate, rewardsOf_cons]
      exact (Account.advances h).append (ih (t := ⟨t₁.search, reported⟩) (h.changes.sound hs))

theorem account_run (hs : t.search.Sound) :
    t.search.Account (Move.left (Move.run t)).search (Call.run.iterations t)
      (rewardsOf (Call.run.iterations t)) := by
  obtain ⟨root, hroot, -⟩ := hs.tree.root
  generalize hresult : Move.appraisal 0 t = result
  have houtcome := Move.appraisal_outcome hs hroot
  rw [hresult] at houtcome
  cases houtcome with
  | @stuck t₁ e h hsame =>
    have hrun : Move.run t = .error e t₁ := Move.bind_of_error hresult
    rw [Call.iterations, hresult, hrun, Move.left, hsame]
    exact .refl t.search
  | @answers t₁ a ha =>
    have hrun : Move.run t = Move.iterate t₁.search.settings.iterations t₁ := by
      rw [Move.run, Move.bind_of_ok hresult, Move.get_bind]
    rw [Call.iterations, hresult, hrun]
    exact (Account.appraises ha).append (account_iterate (hs.appraises ha) _)

/-- Only iterations and rewards of the caller's own move the numbers of the nodes. -/
theorem account_call (hs : t.search.Sound) (hc : c.Exists t.search) :
    t.search.Account (t.after c).search (c.iterations t) (c.rewards t) := by
  rw [Session.after_eq]
  cases c with
  | step =>
    rw [Call.move, Move.left_discard]
    exact account_step hs
  | run => exact account_run hs
  | expand id =>
    obtain ⟨n, hn⟩ := exists_node?_eq hc
    rw [Call.move, Move.left_discard]
    have houtcome := Move.expand_outcome hs hn
    generalize Move.expand id t = result at houtcome
    cases houtcome with
    | settled ha _ _ _ => exact .appraises ha
    | branched ha _ hn _ _ hb => exact (Account.appraises ha).append (.branches hn hb)
    | stuck _ hsame =>
      rw [Move.left, hsame]
      exact .refl t.search
  | appraise id =>
    obtain ⟨n, hn⟩ := exists_node?_eq hc
    rw [Call.move, Move.left_discard]
    have houtcome := Move.appraisal_outcome hs hn
    generalize Move.appraisal id t = result at houtcome
    cases houtcome with
    | answers ha => exact .appraises ha
    | stuck _ hsame =>
      rw [Move.left, hsame]
      exact .refl t.search
  | backpropagate id amount =>
    exact ⟨rfl, fun _ hit => absurd hit List.not_mem_nil, fun _ h => h.backpropagate hc amount⟩

theorem account_calls (hs : t.search.Sound) (hcalls : t.Allows calls) :
    t.search.Account (t.afterAll calls).search (t.collect Call.iterations calls)
      (t.collect Call.rewards calls) := by
  induction calls generalizing t with
  | nil => exact .refl t.search
  | cons c calls ih =>
    exact (account_call hs hcalls.1).append (ih ((changes_after hs hcalls.1).sound hs) hcalls.2)

end Search

end Moves

/-- Whatever a caller has asked for so far, a node has been visited once for each reward that started in its subtree,
and is worth their sum from zero in the order in which they came. The rewards are the caller's own and one for each
successful iteration, the objective kept of the node it returned, and the iterations counted are those. -/
theorem visits_and_value_eq_received {α σ ω : Type} [Scalar α] [IndexSource σ] [OrderedScalar α] {d : Demand α}
    {root : Priority} {settings : Settings} {choices : σ} {observer : Observer α ω} {s₀ : Search α σ ω}
    {calls : List (Call α)} (hstart : Search.start d root settings choices observer = .ok s₀)
    (hcalls : Session.Allows ⟨s₀, []⟩ calls) :
    let t := Session.afterAll ⟨s₀, []⟩ calls
    let rewards := Session.collect Call.rewards ⟨s₀, []⟩ calls
    let iterations := Session.collect Call.iterations ⟨s₀, []⟩ calls
    (∀ i n, t.search.node? i = some n → n.visits = (t.search.received rewards i).length ∧
      n.value = (t.search.received rewards i).foldl (· + ·) Scalar.zero) ∧
    (∀ it ∈ iterations, ∃ (s₁ : Search α σ ω) (x : α), s₁.objectiveOf it.1 = some x ∧
      it.2.objectiveOf it.1 = some x ∧ it.2 = s₁.rewarded it.1 x) ∧
    t.search.iterations = iterations.length := by
  have hs := Search.sound_start hstart
  have haccount := Search.account_calls (t := ⟨s₀, []⟩) hs hcalls
  have htree := ((Reachable.start.afterAll hcalls).sound hs).tree
  have hrecounted := haccount.recounted [] (Search.recounted_start hstart)
  rw [List.nil_append] at hrecounted
  refine ⟨fun i n hn => ?_, haccount.rewarded, ?_⟩
  · rw [htree.received_eq]
    exact ⟨hrecounted.visits i n hn, hrecounted.value i n hn⟩
  · have hcounted := haccount.counted
    obtain ⟨-, -, -, rfl⟩ := Search.start_eq_ok.1 hstart
    exact hcounted.trans (Nat.zero_add _)

theorem received_sharedLinkSearch_after_step_and_reward :
    Session.Allows ⟨sharedLinkSearch, []⟩ [.step, .backpropagate 1 ⟨3⟩] ∧
    ∃ t n, Session.afterAll ⟨sharedLinkSearch, []⟩ [.step, .backpropagate 1 ⟨3⟩] = t ∧ t.search.node? 0 = some n ∧
      n.visits = 2 ∧ t.search.iterations = 1 ∧ n.visits = (t.search.received (Session.collect Call.rewards
        ⟨sharedLinkSearch, []⟩ [.step, .backpropagate 1 ⟨3⟩]) 0).length := by
  have hsize : (Session.after ⟨sharedLinkSearch, []⟩ .step).search.nodes.size = 2 := by cbv
  have hcalls : Session.Allows ⟨sharedLinkSearch, []⟩ [.step, .backpropagate 1 ⟨3⟩] :=
    ⟨trivial, by rw [Call.Exists, hsize]; decide, trivial⟩
  have hvisits : ((Session.afterAll ⟨sharedLinkSearch, []⟩ [.step, .backpropagate 1 ⟨3⟩]).search.node? 0).map
      Node.visits = some 2 := by cbv
  have hiterations : (Session.afterAll ⟨sharedLinkSearch, []⟩
      [.step, .backpropagate 1 ⟨3⟩]).search.iterations = 1 := by cbv
  obtain ⟨n, hn, htwo⟩ := Option.map_eq_some_iff.1 hvisits
  exact ⟨hcalls, _, n, rfl, hn, htwo, hiterations,
    ((visits_and_value_eq_received start_sharedLinkSearch hcalls).1 0 n hn).1⟩

end LinkPriority

import Mathlib
import LinkPriority.Proofs.Search.Completion
import LinkPriority.Proofs.Search.Lockstep
import LinkPriority.Proofs.Search.Parallel

/-! The books of a search. The model is asked at most once for a node, and each answer is counted once, kept with its
node, told to the observer and paid for with one selection; a call that finds an answer kept, or that the model does
not answer, leaves the books as they are. So in every state the counter, the nodes with an appraisal and the trace
agree, and the choices are those at hand after the selections for the traced nodes. -/

namespace LinkPriority

/-! ### Nodes that do not exist -/

namespace Search

variable {α σ ω : Type} [Scalar α] {s : Search α σ ω} {id : Nat}

/-- From a node that does not exist no reward gets anywhere. -/
theorem backpropagate_of_missing (hid : s.nodes.size ≤ id) (amount : α) : s.backpropagate id amount = s := by
  have hnone : s.nodes[id]? = none := Array.getElem?_eq_none hid
  have hlineage : lineage s.nodes id = [id] := by
    apply lineage_of_top
    rintro ⟨p, hparent, -⟩
    simp [hnone] at hparent
  have hnodes : reward s.nodes id amount = s.nodes := by
    apply Array.ext_getElem?
    intro i
    rw [getElem?_reward, hlineage]
    split
    · next hi =>
      rw [List.mem_singleton.1 hi, hnone]
      rfl
    · rfl
  rw [backpropagate, hnodes]

end Search

section Missing

variable {α σ ω : Type} [Scalar α] [IndexSource σ] {s₀ : Search α σ ω} {t : Session α σ ω} {c : Call α} {id : Nat}

theorem Move.appraisal_of_missing (hid : t.search.nodes.size ≤ id) :
    Move.appraisal id t = .error (.internal (.noSuchNode id)) t := by
  have hnone : t.search.node? id = none := Array.getElem?_eq_none hid
  apply Move.bind_of_error
  rw [Move.node, Move.get_bind, hnone]
  rfl

/-- A call that names no node leaves everything as it is. -/
theorem Session.after_of_missing (hc : ¬c.Exists t.search) : t.after c = t := by
  cases c with
  | step => exact absurd trivial hc
  | run => exact absurd trivial hc
  | expand id =>
    have happraisal : Move.appraisal id t = _ := Move.appraisal_of_missing (not_lt.1 hc)
    have hexpand : Move.expand id t = _ := Move.bind_of_error happraisal
    rw [after, Call.move, Move.bind_of_error hexpand]
  | appraise id => rw [after, Call.move, Move.bind_of_error (Move.appraisal_of_missing (not_lt.1 hc))]
  | backpropagate id amount =>
    show Session.mk (t.search.backpropagate id amount) t.reported = t
    rw [Search.backpropagate_of_missing (not_lt.1 hc)]

/-- Whatever is asked for, existing or not, leads to where a caller can get. -/
theorem Reachable.after_calls (h : Reachable s₀ t) (calls : List (Call α)) : Reachable s₀ (t.afterAll calls) := by
  induction calls generalizing t with
  | nil => exact h
  | cons c calls ih =>
    by_cases hc : c.Exists t.search
    · exact ih (.call h hc)
    · have hsame : t.after c = t := Session.after_of_missing hc
      show Reachable s₀ ((t.after c).afterAll calls)
      rw [hsame]
      exact ih h

end Missing

/-! ### One selection for each answer -/

section Draw

variable {α σ ω : Type} [Scalar α] [IndexSource σ] {d : Demand α} {budget id : Nat} {n : Node α} {a : Appraisal α}
  {choices after : σ}

/-- The choices after the swaps to try at a node are selected; a node the model does not answer for takes none. -/
def Node.draw (n : Node α) (d : Demand α) (budget : Nat) (choices : σ) : σ :=
  match evaluate d n.priority budget with
  | .error _ => choices
  | .ok e => (selectSwaps e.desirability d n.priority n.maxChildren choices).2

theorem Node.Answers.draw_eq (h : n.Answers d budget choices a after) : n.draw d budget choices = after := by
  obtain ⟨e, he, hselect⟩ := h.selected
  rw [Node.draw, he]
  exact congrArg Prod.snd hselect

namespace Search

/-- The choices after the selection for the node `id`. -/
def draw (s : Search α σ ω) (id : Nat) (choices : σ) : σ :=
  match s.node? id with
  | none => choices
  | some n => n.draw s.demand s.settings.epochBudget choices

/-- The choices after a selection for each of the nodes, one after the other. -/
def drawAll (s : Search α σ ω) (ids : List Nat) (choices : σ) : σ :=
  ids.foldl (fun choices id => s.draw id choices) choices

variable {s s' : Search α σ ω}

theorem drawAll_congr {ids : List Nat} (h : ∀ id ∈ ids, ∀ choices : σ, s'.draw id choices = s.draw id choices)
    (choices : σ) : s'.drawAll ids choices = s.drawAll ids choices := by
  induction ids generalizing choices with
  | nil => rfl
  | cons id ids ih =>
    obtain ⟨hhead, hrest⟩ := List.forall_mem_cons.1 h
    rw [drawAll, drawAll, List.foldl_cons, List.foldl_cons, hhead]
    exact ih hrest _

/-- What a node takes is fixed once it exists. -/
theorem Change.draw_eq (h : Change s s') (hn : s.node? id = some n) (choices : σ) :
    s'.draw id choices = s.draw id choices := by
  obtain ⟨n', hn', hpersists⟩ := h.exists_persists hn
  rw [draw, draw, hn, hn']
  show n'.draw s'.demand s'.settings.epochBudget choices = n.draw s.demand s.settings.epochBudget choices
  rw [Node.draw, Node.draw, hpersists.priority, hpersists.maxChildren, h.demand_eq, h.settings_eq]

end Search

end Draw

namespace Search

variable {α σ : Type} [Scalar α] [IndexSource σ] {s s' : Search α σ (Trace α)} {start : σ}

/-- The ids in the trace, in the order of the answers. -/
def tracedIds (s : Search α σ (Trace α)) : List Nat := s.observer.state.entries.toList.map Prod.fst

/-- The choices at hand are those left by the selections for the traced nodes. -/
def Drawn (start : σ) (s : Search α σ (Trace α)) : Prop := s.choices = s.drawAll s.tracedIds start

omit [Scalar α] [IndexSource σ] in
theorem Traced.mem_tracedIds (h : s.Traced) {id : Nat} : id ∈ s.tracedIds ↔ (s.objectiveOf id).isSome = true := by
  rw [tracedIds, List.mem_map, Option.isSome_iff_exists]
  constructor
  · rintro ⟨⟨i, x⟩, hx, rfl⟩
    exact ⟨x, (h.mem i x).1 hx⟩
  · rintro ⟨x, hx⟩
    exact ⟨(id, x), (h.mem id x).2 hx, rfl⟩

theorem Change.drawAll_tracedIds (h : Change s s') (ht : s.Traced) :
    s'.drawAll s.tracedIds start = s.drawAll s.tracedIds start := by
  apply drawAll_congr
  intro id hid choices
  obtain ⟨x, hx⟩ := Option.isSome_iff_exists.1 (ht.mem_tracedIds.1 hid)
  obtain ⟨n, -, hn, -⟩ := objectiveOf_eq_some.1 hx
  exact h.draw_eq hn choices

/-- A change that takes no choice and reports nothing. -/
theorem Drawn.of_change (hdrawn : s.Drawn start) (h : Change s s') (ht : s.Traced) (hchoices : s'.choices = s.choices)
    (hobserver : s'.observer = s.observer) : s'.Drawn start := by
  have hids : s'.tracedIds = s.tracedIds := by rw [tracedIds, hobserver, ← tracedIds]
  rw [Drawn, hids, h.drawAll_tracedIds ht, hchoices]
  exact hdrawn

/-- One more answer, one more selection. -/
theorem Drawn.appraised {id : Nat} {n : Node α} {a : Appraisal α} {after : σ} (hdrawn : s.Drawn start)
    (ht : s.Traced) (hn : s.node? id = some n) (hpending : n.appraisal = none)
    (hanswers : n.Answers s.demand s.settings.epochBudget s.choices a after) :
    (s.appraised id n a after).Drawn start := by
  have hchange : Change s (s.appraised id n a after) := .appraise (.fresh hn hpending hanswers)
  have hids : (s.appraised id n a after).tracedIds = s.tracedIds ++ [id] := by
    rw [tracedIds, ht.entries_appraised, List.map_append]
    rfl
  calc (s.appraised id n a after).choices = n.draw s.demand s.settings.epochBudget s.choices :=
        hanswers.draw_eq.symm
    _ = s.draw id s.choices := by rw [draw, hn]
    _ = (s.appraised id n a after).draw id s.choices := (hchange.draw_eq hn _).symm
    _ = (s.appraised id n a after).drawAll (s.tracedIds ++ [id]) start := by
        rw [drawAll, List.foldl_concat, ← drawAll, hchange.drawAll_tracedIds ht, ← hdrawn]
    _ = _ := by rw [hids]

theorem Change.drawn (h : Change s s') (ht : s.Traced) (hdrawn : s.Drawn start) : s'.Drawn start := by
  have hchange := h
  cases h with
  | appraise h =>
    cases h with
    | known => exact hdrawn
    | fresh hn hpending hanswers => exact hdrawn.appraised ht hn hpending hanswers
  | branch _ _ _ hb => exact hdrawn.of_change hchange ht (by rw [hb.rest]) (by rw [hb.rest])
  | reward => exact hdrawn.of_change hchange ht rfl rfl
  | count => exact hdrawn.of_change hchange ht rfl rfl

theorem Changes.drawn (h : Changes s s') (ht : s.Traced) (hdrawn : s.Drawn start) : s'.Drawn start := by
  induction h with
  | refl => exact hdrawn
  | tail hchanges hchange ih => exact hchange.drawn (Changes.traced hchanges ht) ih

/-! ### One entry for each appraised node -/

omit [IndexSource σ] [Scalar α] in
/-- There are as many entries as nodes with an appraisal. -/
theorem Traced.countP_eq (h : s.Traced) :
    (s.nodes.countP fun n => n.appraisal.isSome) = s.observer.state.entries.size := by
  have hread : s.nodes.toList.map (fun n => n.appraisal.isSome) =
      (List.range s.nodes.size).map fun id => (s.objectiveOf id).isSome := by
    apply List.ext_getElem
    · simp
    · intro id hid _
      have hlt : id < s.nodes.size := by simpa using hid
      have hn : s.node? id = some s.nodes[id] := Array.getElem?_eq_getElem hlt
      rw [List.getElem_map, List.getElem_map, List.getElem_range, objectiveOf, hn]
      simp [Node.objective?]
  have hperm : ((List.range s.nodes.size).filter fun id => (s.objectiveOf id).isSome).Perm s.tracedIds := by
    have hnodup : s.tracedIds.Nodup := h.nodup
    rw [List.perm_ext_iff_of_nodup (List.nodup_range.filter _) hnodup]
    intro id
    rw [h.mem_tracedIds, List.mem_filter, List.mem_range]
    refine ⟨fun hid => hid.2, fun hid => ⟨?_, hid⟩⟩
    obtain ⟨x, hx⟩ := Option.isSome_iff_exists.1 hid
    obtain ⟨n, -, hn, -⟩ := objectiveOf_eq_some.1 hx
    exact node?_lt hn
  calc (s.nodes.countP fun n => n.appraisal.isSome)
      = (s.nodes.toList.map fun n => n.appraisal.isSome).countP id := by
        rw [List.countP_map, Array.countP_toList]
        rfl
    _ = ((List.range s.nodes.size).filter fun id => (s.objectiveOf id).isSome).length := by
        rw [hread, List.countP_map, ← List.countP_eq_length_filter]
        rfl
    _ = s.observer.state.entries.size := by rw [hperm.length_eq, tracedIds, List.length_map, Array.length_toList]

end Search

/-! ### Asking for the first time, and asking in vain -/

section Asking

variable {α σ ω : Type} [Scalar α] [IndexSource σ] [OrderedScalar α] {t : Session α σ ω} {id : Nat} {n : Node α}

/-- Where the model answers for the first time, all books are kept: the answer stays with the node, is counted and
reported, and takes its selection. -/
theorem Move.exists_appraisal_of_pending (hs : t.search.Sound) (hn : t.search.node? id = some n)
    (hpending : n.appraisal = none) {e : Evaluation α}
    (he : evaluate t.search.demand n.priority t.search.settings.epochBudget = .ok e) :
    ∃ a t', Move.appraisal id t = .ok a t' ∧ a.objective = e.objective ∧ a.slowdown = e.slowdown ∧
      a.epochsRun = e.epochsRun ∧ t'.search = t.search.appraised id n a
        (n.draw t.search.demand t.search.settings.epochBudget t.search.choices) := by
  have houtcome := Move.appraisal_outcome hs hn
  generalize Move.appraisal id t = result at houtcome
  cases houtcome with
  | @answers t' a h =>
    obtain ⟨answer, hanswer, hobjective, hslowdown, hepochs⟩ := (h.isOf hs hn).evaluation
    obtain rfl := Except.ok.inj (he.symm.trans hanswer)
    refine ⟨a, t', rfl, hobjective, hslowdown, hepochs, ?_⟩
    generalize t'.search = s' at h
    cases h with
    | known hm ha =>
      obtain rfl := Option.some.inj (hm.symm.trans hn)
      simp [hpending] at ha
    | fresh hm _ hanswers =>
      obtain rfl := Option.some.inj (hm.symm.trans hn)
      rw [hanswers.draw_eq]
  | stuck h _ =>
    obtain ⟨hm, -, hfails⟩ := h
    obtain rfl := Option.some.inj (hm.symm.trans hn)
    rw [Node.Fails, he] at hfails
    simp at hfails

/-- Where the model does not answer, nothing is kept, and asking leaves the search as it is. -/
theorem Move.appraisal_of_error (hs : t.search.Sound) (hn : t.search.node? id = some n) {e : ModelError α}
    (he : evaluate t.search.demand n.priority t.search.settings.epochBudget = .error e) :
    n.appraisal = none ∧ ∃ t', Move.appraisal id t = .error (.model e) t' ∧ t'.search = t.search := by
  have houtcome := Move.appraisal_outcome hs hn
  generalize Move.appraisal id t = result at houtcome
  cases houtcome with
  | answers h =>
    obtain ⟨answer, hanswer, -⟩ := (h.isOf hs hn).evaluation
    rw [he] at hanswer
    simp at hanswer
  | @stuck t' _ h hsame =>
    obtain ⟨hm, hpending, hfails⟩ := h
    obtain rfl := Option.some.inj (hm.symm.trans hn)
    rw [Node.Fails, he] at hfails
    obtain rfl := Except.error.inj hfails
    exact ⟨hpending, t', rfl, hsame⟩

end Asking

/-! ### Beside a trace -/

namespace Search

variable {α σ ω : Type} [Scalar α] [IndexSource σ] {o : Observer α ω} {s : Search α σ ω} {r : Search α σ (Trace α)}

omit [Scalar α] [IndexSource σ] in
theorem Follows.objectiveOf_eq (h : s.Follows o r) (id : Nat) : s.objectiveOf id = r.objectiveOf id := by
  rw [objectiveOf, objectiveOf, node?, node?, h.nodes]

theorem Follows.drawAll_eq (h : s.Follows o r) (ids : List Nat) (choices : σ) :
    s.drawAll ids choices = r.drawAll ids choices := by
  have hdraw : s.draw = r.draw := by
    funext id choices
    rw [draw, draw, node?, node?, h.nodes, h.demand, h.epochBudget]
  rw [drawAll, drawAll, hdraw]

/-- Beside every search one with the same root can record a trace, whatever is asked of the two. -/
theorem exists_follows_of_start {d : Demand α} {root : Priority} {settings : Settings} {choices : σ}
    (hstart : Search.start d root settings choices o = .ok s) :
    ∃ r, Search.start d root settings choices Observer.tracing = .ok r ∧ ∀ calls : List (Call α),
      (Session.afterAll ⟨s, []⟩ calls).search.Follows o (Session.afterAll ⟨r, []⟩ calls).search := by
  obtain ⟨hsettings, hd, hfits, hs⟩ := start_eq_ok.1 hstart
  obtain ⟨r, hr⟩ := exists_start_eq hsettings hd hfits choices Observer.tracing
  obtain ⟨-, -, -, hr'⟩ := start_eq_ok.1 hr
  have hfollows : s.Follows o r := by
    rw [hs, hr']
    exact ⟨rfl, rfl, rfl, rfl, rfl, rfl, rfl, rfl⟩
  have hiterations : s.settings.iterations = r.settings.iterations := by rw [hs, hr']
  refine ⟨r, hr, fun calls => ?_⟩
  exact follows_of_searches
    (Coupling.Searches.calls (t := ⟨s, []⟩) (r := ⟨r, []⟩) hfollows.searches hiterations calls).2

end Search

/-- Whatever a caller has asked for so far, the model's answers that were counted, those that are kept and those the
observer was told of, as a trace records them, are the same, and each took one selection. What is kept is what the
model says of the node's table, and it is finite. Asking for the first time keeps all books, asking again changes
nothing, and asking in vain changes nothing about the search. -/
theorem appraisals_counted_traced_and_kept {α σ ω : Type} [Scalar α] [IndexSource σ] [OrderedScalar α] {d : Demand α}
    {root : Priority} {settings : Settings} {choices : σ} {observer : Observer α ω} {s₀ : Search α σ ω}
    (hstart : Search.start d root settings choices observer = .ok s₀) :
    ∃ r₀, Search.start d root settings choices Observer.tracing = .ok r₀ ∧ ∀ calls : List (Call α),
      let t := Session.afterAll ⟨s₀, []⟩ calls
      let trace := (Session.afterAll ⟨r₀, []⟩ calls).search.observer.state.entries.toList
      t.search.observer = observer.hear trace ∧
      t.search.evaluations = trace.length ∧
      (t.search.nodes.countP fun n => n.appraisal.isSome) = trace.length ∧
      (trace.map Prod.fst).Nodup ∧
      (∀ id x, (id, x) ∈ trace ↔ t.search.objectiveOf id = some x) ∧
      t.search.choices = t.search.drawAll (trace.map Prod.fst) choices ∧
      ∀ id n, t.search.node? id = some n →
        (∀ a, n.appraisal = some a → Scalar.isFinite a.objective = true ∧
          (∃ e, evaluate d n.priority settings.epochBudget = .ok e ∧ a.objective = e.objective ∧
            a.slowdown = e.slowdown ∧ a.epochsRun = e.epochsRun) ∧
          Move.appraisal id t = .ok a t) ∧
        (n.appraisal = none → ∀ e, evaluate d n.priority settings.epochBudget = .ok e →
          ∃ a t', Move.appraisal id t = .ok a t' ∧ a.objective = e.objective ∧ a.slowdown = e.slowdown ∧
            a.epochsRun = e.epochsRun ∧
            t'.search = t.search.appraised id n a (n.draw d settings.epochBudget t.search.choices)) ∧
        ∀ e, evaluate d n.priority settings.epochBudget = .error e → n.appraisal = none ∧
          ∃ t', Move.appraisal id t = .error (.model e) t' ∧ t'.search = t.search := by
  have hs₀ := Search.sound_start hstart
  obtain ⟨r₀, hr, hcalls⟩ := Search.exists_follows_of_start hstart
  have htraced₀ := Search.traced_start hr
  have hdrawn₀ : r₀.Drawn choices := by
    obtain ⟨-, -, -, rfl⟩ := Search.start_eq_ok.1 hr
    rfl
  refine ⟨r₀, hr, fun calls => ?_⟩
  have hfollows := hcalls calls
  have hreach : Reachable s₀ (Session.afterAll ⟨s₀, []⟩ calls) := Reachable.start.after_calls calls
  have hreach' : Reachable r₀ (Session.afterAll ⟨r₀, []⟩ calls) := Reachable.start.after_calls calls
  have hchanges := hreach.changes hs₀
  have hchanges' := hreach'.changes (Search.sound_start hr)
  clear hreach hreach'
  generalize Session.afterAll ⟨s₀, []⟩ calls = t at hfollows hchanges
  generalize Session.afterAll ⟨r₀, []⟩ calls = r at hfollows hchanges'
  -- the trace is in order, and so are the books of the search beside it
  have htraced : r.search.Traced := hchanges'.traced htraced₀
  have hdrawn : r.search.Drawn choices := hchanges'.drawn htraced₀ hdrawn₀
  have hs : t.search.Sound := hchanges.sound hs₀
  have hkept : t.search.demand = d ∧ t.search.settings = settings := by
    obtain ⟨-, -, -, rfl⟩ := Search.start_eq_ok.1 hstart
    exact ⟨hchanges.demand_eq, hchanges.settings_eq⟩
  refine ⟨hfollows.observer, ?_, ?_, htraced.nodup, ?_, ?_, ?_⟩
  · rw [hfollows.evaluations, htraced.count, Array.length_toList]
  · rw [hfollows.nodes, htraced.countP_eq, Array.length_toList]
  · intro id x
    rw [htraced.mem, hfollows.objectiveOf_eq]
  · rw [hfollows.choices, hfollows.drawAll_eq]
    exact hdrawn
  · intro id n hn
    refine ⟨fun a ha => ?_, fun hpending e he => ?_, fun e he => ?_⟩
    · have hof := (hs.node id n hn).isOf a ha
      rw [hkept.1, hkept.2] at hof
      exact ⟨hof.isFinite_objective, hof.evaluation, Move.appraisal_of_known hn ha⟩
    · rw [← hkept.1, ← hkept.2] at he ⊢
      exact Move.exists_appraisal_of_pending hs hn hpending he
    · rw [← hkept.1, ← hkept.2] at he
      exact Move.appraisal_of_error hs hn he

theorem tracedSharedLinkSearch_counted_traced_and_kept :
    Search.start sharedLink (WarmStart.identity.priority sharedLink) { iterations := 1, warmStart := .identity }
      (.ofSeed 0) Observer.tracing = .ok tracedSharedLinkSearch ∧
    ∃ t, Session.afterAll ⟨tracedSharedLinkSearch, []⟩ [.step, .appraise 0, .appraise 9, .step] = t ∧
      t.search.evaluations = 3 ∧ t.search.observer.state.entries.toList.length = 3 ∧
      (t.search.nodes.countP fun n => n.appraisal.isSome) = 3 := by
  have hstart := start_tracedSharedLinkSearch
  have hthree : (Session.afterAll ⟨tracedSharedLinkSearch, []⟩
      [.step, .appraise 0, .appraise 9, .step]).search.evaluations = 3 := by cbv
  obtain ⟨r₀, hr, hbooks⟩ := appraisals_counted_traced_and_kept hstart
  obtain rfl : tracedSharedLinkSearch = r₀ := Except.ok.inj (hstart.symm.trans hr)
  obtain ⟨-, hcounted, hkept, -⟩ := hbooks [.step, .appraise 0, .appraise 9, .step]
  have hlength := hcounted.symm.trans hthree
  exact ⟨hstart, _, rfl, hthree, hlength, hkept.trans hlength⟩

end LinkPriority

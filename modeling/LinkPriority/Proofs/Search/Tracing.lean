import LinkPriority.Proofs.Search.Invariant

/-! What an observer that records everything has recorded: in every state, one entry for each appraised node, with
the objective that the node keeps. Of the recorded objectives the running best ends in one that is at most as large
as any. -/

namespace LinkPriority

namespace Search

section Objective

variable {α σ ω : Type} {s s' : Search α σ ω} {i id : Nat} {n : Node α}

/-- The objective of a node, if it is appraised. -/
def objectiveOf (s : Search α σ ω) (id : Nat) : Option α := (s.node? id).bind Node.objective?

theorem objectiveOf_eq_some {x : α} :
    s.objectiveOf i = some x ↔ ∃ n a, s.node? i = some n ∧ n.appraisal = some a ∧ a.objective = x := by
  rw [objectiveOf, Option.bind_eq_some_iff]
  simp only [Node.objective?, Option.map_eq_some_iff]
  constructor
  · rintro ⟨n, hn, a, ha, hx⟩
    exact ⟨n, a, hn, ha, hx⟩
  · rintro ⟨n, a, hn, ha, hx⟩
    exact ⟨n, hn, a, ha, hx⟩

theorem objectiveOf_appraised {a : Appraisal α} {choices : σ} (hn : s.node? id = some n) (i : Nat) :
    (s.appraised id n a choices).objectiveOf i = if i = id then some a.objective else s.objectiveOf i := by
  rw [objectiveOf, node?_appraised hn]
  split
  · rfl
  · rfl

variable [Scalar α]

theorem objectiveOf_branches {actions : List Swap} (h : s.Branches s' id n actions) (hn : s.node? id = some n)
    (i : Nat) : s'.objectiveOf i = s.objectiveOf i := by
  cases hm : s'.node? i with
  | none =>
    have hnone : s.node? i = none := by
      cases hold : s.node? i with
      | none => rfl
      | some m =>
        obtain ⟨m', hm', -⟩ := h.exists_persists hn hold
        simp [hm] at hm'
    rw [objectiveOf, objectiveOf, hm, hnone]
  | some m =>
    rcases h.node_cases hm with ⟨rfl, rfl⟩ | ⟨-, hold⟩ | ⟨j, _, _, rfl, -, -, rfl⟩
    · rw [objectiveOf, objectiveOf, hm, hn]
      rfl
    · rw [objectiveOf, objectiveOf, hm, hold]
    · have hnone : s.node? (s.nodes.size + j) = none := Array.getElem?_eq_none (Nat.le_add_right _ _)
      rw [objectiveOf, objectiveOf, hm, hnone]
      rfl

theorem objectiveOf_backpropagate (s : Search α σ ω) (id : Nat) (amount : α) (i : Nat) :
    (s.backpropagate id amount).objectiveOf i = s.objectiveOf i := by
  rw [objectiveOf, node?_backpropagate]
  split
  · cases hn : s.node? i with
    | none => rw [objectiveOf, hn, Option.map_none]
    | some n =>
      rw [objectiveOf, hn]
      rfl
  · rfl

end Objective

/-! ### The record -/

variable {α σ : Type} {s s' : Search α σ (Trace α)}

/-- The trace has one entry for each appraised node, with its objective. -/
structure Traced (s : Search α σ (Trace α)) : Prop where
  notify : s.observer.notify = Trace.push
  count : s.evaluations = s.observer.state.entries.size
  nodup : (s.observer.state.entries.toList.map Prod.fst).Nodup
  mem : ∀ id x, (id, x) ∈ s.observer.state.entries.toList ↔ s.objectiveOf id = some x

theorem Traced.congr (h : s.Traced) (hobserver : s'.observer = s.observer)
    (hcount : s'.evaluations = s.evaluations) (hsame : ∀ i, s'.objectiveOf i = s.objectiveOf i) : s'.Traced where
  notify := hobserver ▸ h.notify
  count := by rw [hcount, h.count, hobserver]
  nodup := hobserver ▸ h.nodup
  mem id x := by rw [hobserver, h.mem, hsame]

theorem Traced.entries_appraised {id : Nat} {n : Node α} {a : Appraisal α} {choices : σ} (h : s.Traced) :
    (s.appraised id n a choices).observer.state.entries.toList =
      s.observer.state.entries.toList ++ [(id, a.objective)] := by
  have hstate : (s.appraised id n a choices).observer.state = s.observer.state.push id a.objective :=
    congrFun (congrFun (congrFun h.notify s.observer.state) id) a.objective
  rw [hstate, Trace.push, Array.toList_push]

/-- One more appraisal, one more entry. -/
theorem Traced.appraised {id : Nat} {n : Node α} {a : Appraisal α} {choices : σ} (h : s.Traced)
    (hn : s.node? id = some n) (hpending : n.appraisal = none) : (s.appraised id n a choices).Traced := by
  have hnew : ∀ x, (id, x) ∉ s.observer.state.entries.toList := by
    intro x hx
    have hobjective := (h.mem id x).1 hx
    rw [objectiveOf, hn, Option.bind_some, Node.objective?, hpending] at hobjective
    simp at hobjective
  refine ⟨h.notify, ?_, ?_, fun i x => ?_⟩
  · rw [← Array.length_toList, h.entries_appraised, List.length_append, Array.length_toList, ← h.count]
    rfl
  · rw [h.entries_appraised, List.map_append, List.nodup_append_comm]
    refine List.nodup_cons.2 ⟨fun hmem => ?_, h.nodup⟩
    obtain ⟨⟨i, x⟩, hx, rfl⟩ := List.mem_map.1 hmem
    exact hnew x hx
  · rw [h.entries_appraised, objectiveOf_appraised hn, List.mem_append, List.mem_singleton, h.mem]
    by_cases hi : i = id
    · subst hi
      have hnone : s.objectiveOf i ≠ some x := fun hx => hnew x ((h.mem i x).2 hx)
      simp [hnone, eq_comm]
    · simp [hi]

variable [Scalar α]

theorem traced_start {d : Demand α} {p : Priority} {settings : Settings} {choices : σ}
    (h : Search.start d p settings choices Observer.tracing = .ok s) : s.Traced := by
  have hroot := fun {i n} => eq_root_of_start (i := i) (n := n) h
  obtain ⟨-, -, -, rfl⟩ := start_eq_ok.1 h
  refine ⟨rfl, rfl, List.nodup_nil, fun id x => iff_of_false List.not_mem_nil fun hx => ?_⟩
  obtain ⟨n, a, hn, ha, -⟩ := objectiveOf_eq_some.1 hx
  rw [(hroot hn).2] at ha
  simp [Node.root] at ha

variable [IndexSource σ]

theorem Change.traced (h : Change s s') (ht : s.Traced) : s'.Traced := by
  cases h with
  | appraise h =>
    cases h with
    | known => exact ht
    | fresh hn hpending _ => exact ht.appraised hn hpending
  | branch hn _ _ hb => exact ht.congr (by rw [hb.rest]) (by rw [hb.rest]) (objectiveOf_branches hb hn)
  | reward id amount => exact ht.congr rfl rfl (objectiveOf_backpropagate s id amount)
  | count => exact ht.congr rfl rfl fun _ => rfl

theorem Changes.traced (h : Changes s s') (ht : s.Traced) : s'.Traced := by
  induction h with
  | refl => exact ht
  | tail _ hchange ih => exact hchange.traced ih

end Search

/-! ### The running best -/

section RunningBest

variable {α : Type} [Scalar α]

/-- The running best ends in the smallest of all entries. -/
theorem Trace.getLast?_runningFrom {entries : List (Nat × α)} (best : Option α) (hne : entries ≠ []) :
    (Trace.runningFrom best entries).getLast? = some ((entries.map Prod.snd).foldl Trace.lowest best) := by
  induction entries generalizing best with
  | nil => exact absurd rfl hne
  | cons entry rest ih =>
    cases rest with
    | nil => rfl
    | cons next rest =>
      rw [Trace.runningFrom, List.map_cons, List.foldl_cons,
        ← ih (Trace.lowest best entry.2) (List.cons_ne_nil _ _)]
      exact List.getLast?_cons_cons

variable [OrderedScalar α]

theorem Scalar.smaller_cases {x y : α} (hx : isFinite x = true) (hy : isFinite y = true) :
    (smaller x y = x ∨ smaller x y = y) ∧ le (smaller x y) x = true ∧ le (smaller x y) y = true := by
  rw [smaller, isUndefined_eq_false hy, if_neg Bool.false_ne_true]
  split
  · next hlt => exact ⟨.inl rfl, le_self hx, le_of_lt hx hy hlt⟩
  · next hlt => exact ⟨.inr rfl, le_of_not_lt hx hy hlt, le_self hy⟩

theorem Trace.foldl_lowest_some {b : α} {xs : List α} (hfinite : ∀ y ∈ b :: xs, Scalar.isFinite y = true) :
    ∃ x ∈ b :: xs, xs.foldl Trace.lowest (some b) = some x ∧ ∀ y ∈ b :: xs, Scalar.le x y = true := by
  induction xs generalizing b with
  | nil =>
    refine ⟨b, List.mem_cons_self, rfl, fun y hy => ?_⟩
    rw [List.mem_singleton.1 hy]
    exact Scalar.le_self (hfinite b List.mem_cons_self)
  | cons next rest ih =>
    have hb := hfinite b List.mem_cons_self
    have hnext := hfinite next (List.mem_cons_of_mem _ List.mem_cons_self)
    obtain ⟨hcases, hleft, hright⟩ := Scalar.smaller_cases hb hnext
    have hsmaller : Scalar.isFinite (Scalar.smaller b next) = true := by
      rcases hcases with heq | heq <;> rwa [heq]
    have hfinite' : ∀ y ∈ Scalar.smaller b next :: rest, Scalar.isFinite y = true :=
      List.forall_mem_cons.2 ⟨hsmaller, fun y hy =>
        hfinite y (List.mem_cons_of_mem _ (List.mem_cons_of_mem _ hy))⟩
    obtain ⟨x, hx, hfold, hle⟩ := ih hfinite'
    have hle' := hle _ List.mem_cons_self
    refine ⟨x, ?_, hfold, fun y hy => ?_⟩
    · rcases List.mem_cons.1 hx with rfl | hrest
      · rcases hcases with heq | heq <;> simp [heq]
      · exact List.mem_cons_of_mem _ (List.mem_cons_of_mem _ hrest)
    · rcases List.mem_cons.1 hy with rfl | hy
      · exact OrderedScalar.le_trans (hfinite' x hx) hsmaller hb hle' hleft
      · rcases List.mem_cons.1 hy with rfl | hy
        · exact OrderedScalar.le_trans (hfinite' x hx) hsmaller hnext hle' hright
        · exact hle y (List.mem_cons_of_mem _ hy)

/-- Of finite objectives the running best ends in one that is at most as large as any. -/
theorem Trace.exists_getLast?_runningBest {t : Trace α} (hne : t.entries.toList ≠ [])
    (hfinite : ∀ e ∈ t.entries.toList, Scalar.isFinite e.2 = true) :
    ∃ x, t.runningBest.getLast? = some (some x) ∧ (∃ e ∈ t.entries.toList, e.2 = x) ∧
      ∀ e ∈ t.entries.toList, Scalar.le x e.2 = true := by
  rw [Trace.runningBest, Trace.getLast?_runningFrom none hne]
  generalize t.entries.toList = entries at hne hfinite
  cases entries with
  | nil => exact absurd rfl hne
  | cons first rest =>
    have hfirst : Trace.lowest none first.2 = some first.2 := by
      rw [Trace.lowest, Scalar.isUndefined_eq_false (hfinite first List.mem_cons_self), if_neg Bool.false_ne_true]
    have hall : ∀ y ∈ first.2 :: rest.map Prod.snd, Scalar.isFinite y = true := by
      intro y hy
      obtain ⟨e, he, rfl⟩ := List.mem_map.1 (show y ∈ (first :: rest).map Prod.snd from hy)
      exact hfinite e he
    obtain ⟨x, hx, hfold, hle⟩ := Trace.foldl_lowest_some hall
    refine ⟨x, ?_, List.mem_map.1 (show x ∈ (first :: rest).map Prod.snd from hx), fun e he => ?_⟩
    · rw [List.map_cons, List.foldl_cons, hfirst, hfold]
    · exact hle e.2 (List.mem_map_of_mem (f := Prod.snd) he)

end RunningBest

end LinkPriority

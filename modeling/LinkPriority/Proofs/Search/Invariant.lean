import LinkPriority.Proofs.Search.Change

/-! What holds of a search at all times. The nodes form a tree, their tables fit the demand and their appraisals
are what the model says of them; the changes a search is made of keep this, and they keep what is fixed about
every node that exists. -/

namespace LinkPriority.Search

variable {α σ ω : Type} [Scalar α] {s s' : Search α σ ω} {i id : Nat} {n : Node α}

/-- The nodes form a tree of sound nodes. -/
structure Sound (s : Search α σ ω) : Prop where
  budget : s.settings.epochBudget ≠ 0
  node : ∀ i n, s.node? i = some n → n.Sound s.demand s.settings.epochBudget
  tree : s.IsTree

/-! ### New searches -/

/-- A search that starts is a sound one, made of its root. -/
theorem start_eq_ok {d : Demand α} {p : Priority} {settings : Settings} {choices : σ} {observer : Observer α ω} :
    Search.start d p settings choices observer = .ok s ↔
      (settings.validate : Except (SearchError α) Unit) = .ok () ∧ d.validate = .ok () ∧ p.Fits d ∧
        s = { demand := d, settings, nodes := #[.root p settings.maxChildren], choices, observer } := by
  simp only [start, Except.bind_eq_ok, Except.mapError_eq_ok, ← Priority.validate_eq_ok]
  constructor
  · rintro ⟨_, hsettings, _, hd, _, hp, hs⟩
    exact ⟨hsettings, hd, hp, (Except.ok.inj hs).symm⟩
  · rintro ⟨hsettings, hd, hp, rfl⟩
    exact ⟨(), hsettings, (), hd, (), hp, rfl⟩

theorem exists_start_eq {d : Demand α} {p : Priority} {settings : Settings}
    (hsettings : (settings.validate : Except (SearchError α) Unit) = .ok ()) (hd : d.validate = .ok ())
    (hp : p.Fits d) (choices : σ) (observer : Observer α ω) :
    ∃ s, Search.start d p settings choices observer = .ok s :=
  ⟨_, start_eq_ok.2 ⟨hsettings, hd, hp, rfl⟩⟩

omit [Scalar α] in
theorem epochBudget_ne_zero {settings : Settings}
    (h : (settings.validate : Except (SearchError α) Unit) = .ok ()) : settings.epochBudget ≠ 0 := by
  intro hzero
  simp [Settings.validate, Settings.check, hzero, Except.mapError] at h

section Start

variable {d : Demand α} {p : Priority} {settings : Settings} {choices : σ} {observer : Observer α ω}
  (h : Search.start d p settings choices observer = .ok s)
include h

theorem eq_root_of_start (hn : s.node? i = some n) : i = 0 ∧ n = .root p settings.maxChildren := by
  obtain ⟨-, -, -, rfl⟩ := start_eq_ok.1 h
  obtain ⟨hi, rfl⟩ := Array.getElem?_eq_some_iff.1 hn
  obtain rfl : i = 0 := by simpa using hi
  exact ⟨rfl, rfl⟩

theorem sound_start : s.Sound := by
  have hroot := fun {i n} => eq_root_of_start (i := i) (n := n) h
  obtain ⟨hsettings, -, hp, rfl⟩ := start_eq_ok.1 h
  refine ⟨epochBudget_ne_zero hsettings, fun i n hn => ?_, fun i n hn => ?_, ⟨_, rfl, rfl, rfl, rfl⟩,
    fun i n hn hne => absurd (hroot hn).1 hne, fun i n hn => ?_⟩
  · rw [(hroot hn).2]
    exact Node.sound_root hp _
  · rw [(hroot hn).1, (hroot hn).2]
    rfl
  · rw [(hroot hn).2]
    exact .inl rfl

end Start

/-! ### Changes -/

theorem Sound.branches {a : Appraisal α} (hs : s.Sound) (hn : s.node? id = some n) (hleaf : n.children = [])
    (ha : n.appraisal = some a) (hb : s.Branches s' id n a.actions) : s'.Sound := by
  have hsound := hs.node id n hn
  have hrest := hb.rest
  refine ⟨by rw [hrest]; exact hs.budget, fun i m hm => ?_,
    hs.tree.branches hn hleaf ha (hsound.isOf a ha).nodup hb⟩
  rw [hrest]
  rcases hb.node_cases hm with ⟨rfl, rfl⟩ | ⟨-, hold⟩ | ⟨j, action, p, rfl, hj, hp, rfl⟩
  · exact ⟨hsound.fits, hsound.isOf⟩
  · exact hs.node i m hold
  · obtain ⟨child, hchild, hgood⟩ :=
      hsound.exists_child_eq ha (List.mem_of_getElem? hj) (s.nodes.size + j)
    obtain rfl := Except.ok.inj ((Node.child_eq_ok.2 ⟨p, hp, rfl⟩).symm.trans hchild)
    exact hgood

theorem Sound.sameTree (hs : s.Sound) (hdemand : s'.demand = s.demand) (hsettings : s'.settings = s.settings)
    (hsame : s.SameTree s') (hpending : ∀ i n n', s.node? i = some n → s'.node? i = some n' →
      n'.appraisal = n.appraisal) : s'.Sound := by
  refine ⟨hsettings ▸ hs.budget, fun i n' hn' => ?_, hs.tree.sameTree hsame⟩
  obtain ⟨n, hn, hpersists, -⟩ := hsame.node_of hn'
  rw [hdemand, hsettings]
  refine ⟨hpersists.priority ▸ (hs.node i n hn).fits, fun a ha => ?_⟩
  rw [hpersists.priority]
  exact (hs.node i n hn).isOf a (hpending i n n' hn hn' ▸ ha)

variable [IndexSource σ]

/-- `s'` is `s` with the node `id` appraised: `s` itself if it was, or else `s` after a run of the model. -/
inductive Appraises (s : Search α σ ω) (id : Nat) : Search α σ ω → Appraisal α → Prop where
  | known {n : Node α} {a : Appraisal α} (hn : s.node? id = some n) (ha : n.appraisal = some a) :
    Appraises s id s a
  | fresh {n : Node α} {a : Appraisal α} {after : σ} (hn : s.node? id = some n) (hpending : n.appraisal = none)
    (hanswers : n.Answers s.demand s.settings.epochBudget s.choices a after) :
    Appraises s id (s.appraised id n a after) a

/-- What a search does is made of these changes. -/
inductive Change : Search α σ ω → Search α σ ω → Prop where
  | appraise {s s' : Search α σ ω} {id : Nat} {a : Appraisal α} (h : s.Appraises id s' a) : Change s s'
  | branch {s s' : Search α σ ω} {id : Nat} {n : Node α} {a : Appraisal α} (hn : s.node? id = some n)
    (hleaf : n.children = []) (ha : n.appraisal = some a) (hb : s.Branches s' id n a.actions) : Change s s'
  | reward (s : Search α σ ω) (id : Nat) (amount : α) : Change s (s.backpropagate id amount)
  | count (s : Search α σ ω) : Change s { s with iterations := s.iterations + 1 }

/-- Any number of changes. -/
abbrev Changes : Search α σ ω → Search α σ ω → Prop := Relation.ReflTransGen Change

/-! ### Appraising -/

namespace Appraises

variable {a : Appraisal α}

/-- The node is the same but for its appraisal. -/
theorem exists_node (h : s.Appraises id s' a) :
    ∃ n, s.node? id = some n ∧ s'.node? id = some { n with appraisal := some a } := by
  cases h with
  | @known n _ hn ha => exact ⟨n, hn, by rw [hn, ← ha]⟩
  | @fresh n _ _ hn _ _ => exact ⟨n, hn, by rw [node?_appraised hn, if_pos rfl]⟩

theorem sameTree (h : s.Appraises id s' a) : s.SameTree s' := by
  cases h with
  | known => exact ⟨rfl, fun i n hn => ⟨n, hn, .refl n, rfl⟩⟩
  | fresh hn hpending _ => exact sameTree_appraised hn hpending

theorem demand_eq (h : s.Appraises id s' a) : s'.demand = s.demand := by cases h <;> rfl

theorem settings_eq (h : s.Appraises id s' a) : s'.settings = s.settings := by cases h <;> rfl

theorem iterations_eq (h : s.Appraises id s' a) : s'.iterations = s.iterations := by cases h <;> rfl

/-- No other node is touched. -/
theorem node?_of_ne (h : s.Appraises id s' a) (hne : i ≠ id) : s'.node? i = s.node? i := by
  cases h with
  | known => rfl
  | fresh hn _ _ => rw [node?_appraised hn, if_neg hne]

theorem isOf (h : s.Appraises id s' a) (hs : s.Sound) (hn : s.node? id = some n) :
    a.IsOf s.demand n.priority s.settings.epochBudget := by
  cases h with
  | @known m _ hm ha =>
    obtain rfl : m = n := Option.some.inj (hm.symm.trans hn)
    exact (hs.node id m hm).isOf a ha
  | @fresh m _ _ hm _ hanswers =>
    obtain rfl : m = n := Option.some.inj (hm.symm.trans hn)
    exact hanswers.isOf

end Appraises

/-! ### Soundness is kept -/

theorem Sound.appraises {a : Appraisal α} (hs : s.Sound) (h : s.Appraises id s' a) : s'.Sound := by
  refine ⟨h.settings_eq ▸ hs.budget, fun i m hm => ?_, hs.tree.sameTree h.sameTree⟩
  rw [h.demand_eq, h.settings_eq]
  obtain ⟨n, hn, hn'⟩ := h.exists_node
  by_cases hi : i = id
  · subst hi
    obtain rfl : { n with appraisal := some a } = m := Option.some.inj (hn'.symm.trans hm)
    refine ⟨(hs.node i n hn).fits, fun b hb => ?_⟩
    obtain rfl : a = b := Option.some.inj hb
    have hof := h.isOf hs hn
    exact hof
  · exact hs.node i m (h.node?_of_ne hi ▸ hm)

theorem Change.sound (h : Change s s') (hs : s.Sound) : s'.Sound := by
  cases h with
  | appraise h => exact hs.appraises h
  | branch hn hleaf ha hb => exact hs.branches hn hleaf ha hb
  | reward id amount =>
    refine hs.sameTree rfl rfl (sameTree_backpropagate s id amount) fun i n n' hn hn' => ?_
    rw [node?_backpropagate, hn] at hn'
    split at hn' <;> cases hn' <;> rfl
  | count =>
    refine hs.sameTree rfl rfl ⟨rfl, fun i n hn => ⟨n, hn, .refl n, rfl⟩⟩ fun i n n' hn hn' => ?_
    rw [Option.some.inj (hn.symm.trans hn')]

theorem Changes.sound (h : Changes s s') (hs : s.Sound) : s'.Sound := by
  induction h with
  | refl => exact hs
  | tail _ hchange ih => exact hchange.sound ih

/-! ### Nodes persist -/

theorem Change.exists_persists (h : Change s s') (hn : s.node? i = some n) :
    ∃ n', s'.node? i = some n' ∧ n.Persists n' := by
  cases h with
  | appraise h =>
    obtain ⟨n', hn', hpersists, -⟩ := h.sameTree.node i n hn
    exact ⟨n', hn', hpersists⟩
  | branch hm _ _ hb =>
    obtain ⟨n', hn', hpersists, -⟩ := hb.exists_persists hm hn
    exact ⟨n', hn', hpersists⟩
  | reward id amount =>
    obtain ⟨n', hn', hpersists, -⟩ := (sameTree_backpropagate s id amount).node i n hn
    exact ⟨n', hn', hpersists⟩
  | count => exact ⟨n, hn, .refl n⟩

theorem Changes.exists_persists (h : Changes s s') (hn : s.node? i = some n) :
    ∃ n', s'.node? i = some n' ∧ n.Persists n' := by
  induction h with
  | refl => exact ⟨n, hn, .refl n⟩
  | tail _ hchange ih =>
    obtain ⟨m, hm, hpersists⟩ := ih
    obtain ⟨n', hn', hpersists'⟩ := hchange.exists_persists hm
    exact ⟨n', hn', hpersists.trans hpersists'⟩

theorem Changes.size_le (h : Changes s s') : s.nodes.size ≤ s'.nodes.size := by
  by_contra hlt
  obtain ⟨n, hn⟩ := exists_node?_eq (not_le.1 hlt)
  obtain ⟨n', hn', -⟩ := h.exists_persists hn
  exact absurd (node?_lt hn') (lt_irrefl _)

theorem Change.demand_eq (h : Change s s') : s'.demand = s.demand := by
  cases h with
  | appraise h => exact h.demand_eq
  | branch _ _ _ hb => rw [hb.rest]
  | reward => rfl
  | count => rfl

theorem Change.settings_eq (h : Change s s') : s'.settings = s.settings := by
  cases h with
  | appraise h => exact h.settings_eq
  | branch _ _ _ hb => rw [hb.rest]
  | reward => rfl
  | count => rfl

theorem Changes.demand_eq (h : Changes s s') : s'.demand = s.demand := by
  induction h with
  | refl => rfl
  | tail _ hchange ih => exact hchange.demand_eq.trans ih

theorem Changes.settings_eq (h : Changes s s') : s'.settings = s.settings := by
  induction h with
  | refl => rfl
  | tail _ hchange ih => exact hchange.settings_eq.trans ih

end LinkPriority.Search

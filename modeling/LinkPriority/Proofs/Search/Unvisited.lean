import LinkPriority.Proofs.Scalar.Digits
import LinkPriority.Proofs.Search.Failing
import LinkPriority.Proofs.Search.Scores

/-! Whether every child of a node is visited before any is visited again. An unvisited child has no mean, but a bonus
that is about a thousand times that of a visited sibling. In exact arithmetic, while all rewards stay below the
difference, an iteration that comes to a node with unvisited children goes on to one of them, so nobody's second visit
comes before a sibling's first. The bonus is finite though: a slower child is preferred to an unvisited sibling. -/

namespace LinkPriority

namespace Search

/-! ### Where a reward goes -/

section Way

variable {α σ ω : Type} [Scalar α] {s s' : Search α σ ω} {i id leaf : Nat} {n : Node α}

/-- What is on the way up from a leaf, and not on that from where the descent began, was selected. -/
theorem Descends.exists_select_of_mem_lineage (h : s.Descends id leaf) (htree : s.IsTree)
    (hi : i ∈ lineage s.nodes leaf) : i ∈ lineage s.nodes id ∨ ∃ p, s.select p = .ok i := by
  induction h with
  | here => exact .inl hi
  | @down id child leaf n hn hne hselect _ ih =>
    obtain ⟨c, hc, hselect'⟩ := htree.exists_select_eq hn hne
    obtain rfl : child = c := Except.ok.inj (hselect.symm.trans hselect')
    rw [← childrenOf_eq hn] at hc
    obtain ⟨hparent, hlt⟩ := htree.parent_of_mem_childrenOf hc
    rcases ih hi with hup | hselected
    · rw [lineage_of_parent hparent hlt] at hup
      rcases List.mem_cons.1 hup with rfl | hup
      · exact .inr ⟨id, hselect⟩
      · exact .inl hup
    · exact .inr hselected

theorem Unrewarded.visitsOf_eq (h : s.Unrewarded s') (i : Nat) : s'.visitsOf i = s.visitsOf i := by
  cases hn : s.node? i with
  | some n =>
    obtain ⟨n', hn', hvisits, -⟩ := h.old i n hn
    rw [Search.visitsOf_eq hn, Search.visitsOf_eq hn', hvisits]
  | none =>
    rw [visitsOf, visitsOf, hn]
    cases hn' : s'.node? i with
    | none => rfl
    | some n' => exact (h.new i n' hn' (Array.getElem?_eq_none_iff.1 hn)).1

theorem visitsOf_rewarded_cases (s : Search α σ ω) (id : Nat) (amount : α) (i : Nat) :
    (s.rewarded id amount).visitsOf i = s.visitsOf i ∨
      i ∈ lineage s.nodes id ∧ (s.rewarded id amount).visitsOf i = s.visitsOf i + 1 := by
  rw [visitsOf, visitsOf, node?_rewarded]
  split
  · next hup =>
    cases hn : s.node? i with
    | none => exact .inl rfl
    | some n => exact .inr ⟨hup, rfl⟩
  · exact .inl rfl

variable [IndexSource σ]

/-- The ways up from nodes that exist stay as they are. -/
theorem Changes.lineage_eq (h : Changes s s') (hi : i < s.nodes.size) :
    lineage s'.nodes i = lineage s.nodes i := by
  refine lineage_congr fun j hj => ?_
  obtain ⟨n, hn⟩ := exists_node?_eq (hj.trans_lt hi)
  obtain ⟨n', hn', hpersists⟩ := h.exists_persists hn
  have hparent : (s'.node? j).bind Node.parent = (s.node? j).bind Node.parent := by
    rw [hn, hn', Option.bind_some, Option.bind_some, hpersists.parent]
  exact hparent

theorem Changes.objectiveOf_eq_some {x : α} (h : Changes s s') (hx : s.objectiveOf i = some x) :
    s'.objectiveOf i = some x := by
  obtain ⟨n, a, hn, ha, rfl⟩ := Search.objectiveOf_eq_some.1 hx
  obtain ⟨n', hn', hpersists⟩ := h.exists_persists hn
  exact Search.objectiveOf_eq_some.2 ⟨n', a, hn', hpersists.appraisal a ha, rfl⟩

/-- An iteration ends by rewarding the leaf it descended to, or a new child of it. -/
theorem Advances.exists_rewarded (h : s.Advances id s') (hs : s.Sound) : ∃ s₁ amount leaf,
    Changes s s₁ ∧ s.Unrewarded s₁ ∧ s' = s₁.rewarded id amount ∧ s.Descends 0 leaf ∧
      (id = leaf ∨ s.nodes.size ≤ id ∧ lineage s₁.nodes id = id :: lineage s₁.nodes leaf) := by
  cases h with
  | @terminal _ s₁ a hleaf ha _ =>
    exact ⟨s₁, a.objective, id, .single (.appraise ha), .appraises ha, rfl, hleaf, .inl rfl⟩
  | @child leaf s₁ s₂ s₃ a b n hleaf ha hactions hn hchildless hknown hb hchild =>
    have hchanges : Changes s s₃ :=
      .tail (.tail (.single (.appraise ha)) (.branch hn hchildless hknown hb)) (.appraise hchild)
    have hbelow : s₁.nodes.size ∈ s₃.childrenOf leaf := by
      rw [hchild.sameTree.childrenOf_eq]
      exact hb.mem_childrenOf hactions
    obtain ⟨hparent, hlt⟩ := (hchanges.sound hs).tree.parent_of_mem_childrenOf hbelow
    exact ⟨s₃, b.objective, leaf, hchanges,
      (Unrewarded.appraises ha).trans ((Unrewarded.branches hn hb).trans (.appraises hchild)), rfl, hleaf,
      .inr ⟨ha.sameTree.size.ge, lineage_of_parent hparent hlt⟩⟩

/-- In an iteration a node is visited once more, or not. If it is, and it is neither new nor the root, it was
selected. -/
theorem Advances.visitsOf_cases (h : s.Advances id s') (hs : s.Sound) (i : Nat) :
    s'.visitsOf i = s.visitsOf i ∨
      s'.visitsOf i = s.visitsOf i + 1 ∧ (s.nodes.size ≤ i ∨ i = 0 ∨ ∃ p, s.select p = .ok i) := by
  obtain ⟨s₁, amount, leaf, hchanges, hkept, rfl, hleaf, hid⟩ := h.exists_rewarded hs
  rw [← hkept.visitsOf_eq i]
  refine (visitsOf_rewarded_cases s₁ id amount i).imp_right fun ⟨hup, hvisits⟩ => ⟨hvisits, ?_⟩
  by_cases hi : s.nodes.size ≤ i
  · exact .inl hi
  · have hup' : i ∈ lineage s₁.nodes leaf := by
      rcases hid with rfl | ⟨hnew, hlineage⟩
      · exact hup
      · rw [hlineage] at hup
        exact (List.mem_cons.1 hup).resolve_left (by omega)
    obtain ⟨m, hm, -⟩ := hleaf.exists_leaf
    rw [hchanges.lineage_eq (node?_lt hm)] at hup'
    refine .inr ((hleaf.exists_select_of_mem_lineage hs.tree hup').imp_left fun hroot => ?_)
    exact Nat.le_zero.1 (le_of_mem_lineage hroot)

end Way

/-! ### Mean rewards up to a bound -/

section Exact

variable {ln sqrt : ℚ → ℚ} {σ ω : Type} {s s' : Search (Exact ln sqrt) σ ω} {bound : ℚ} {p c c' id : Nat}
  {n : Node (Exact ln sqrt)}

/-- What the nodes are worth comes from rewards of at most `bound`. -/
def Earned (s : Search (Exact ln sqrt) σ ω) (bound : ℚ) : Prop :=
  ∃ rewards, s.Recounted rewards ∧ ∀ r ∈ rewards, r.amount.value ≤ bound

/-- Beside what a node can get as a mean of rewards up to `bound` and a bonus for the visits that it has, the bonus of
one without visits is larger. -/
def Outbids (ln sqrt : ℚ → ℚ) (bound : ℚ) : Prop :=
  ∀ parentVisits visits, 1 ≤ visits → visits ≤ parentVisits →
    bound + bonus ln sqrt parentVisits visits < bonus ln sqrt parentVisits 0

/-- No child is visited again while a sibling has not been visited. -/
def TakesTurns {α : Type} (s : Search α σ ω) : Prop :=
  ∀ p, ∀ c ∈ s.childrenOf p, ∀ c' ∈ s.childrenOf p, s.visitsOf c = 0 → s.visitsOf c' ≤ 1

namespace Earned

theorem value_le (h : s.Earned bound) (hn : s.node? id = some n) : n.value.value ≤ n.visits * bound := by
  obtain ⟨rewards, hrecounted, hbound⟩ := h
  have hvalue : n.value = Scalar.sum (passing s.nodes rewards id) := hrecounted.value id n hn
  rw [hvalue, Exact.value_sum, hrecounted.visits id n hn, ← nsmul_eq_mul, ← List.length_map (f := Exact.value)]
  refine List.sum_le_card_nsmul _ _ fun x hx => ?_
  obtain ⟨amount, hamount, rfl⟩ := List.mem_map.1 hx
  obtain ⟨r, hr, rfl⟩ := List.mem_map.1 hamount
  exact hbound r (List.mem_of_mem_filter hr)

theorem value_eq_zero (h : s.Earned bound) (hn : s.node? id = some n) (hzero : n.visits = 0) : n.value.value = 0 := by
  obtain ⟨rewards, hrecounted, -⟩ := h
  have hnone : passing s.nodes rewards id = [] :=
    List.length_eq_zero_iff.1 ((hrecounted.visits id n hn).symm.trans hzero)
  rw [hrecounted.value id n hn, hnone]
  rfl

/-- No child has more visits than its parent. -/
theorem visitsOf_le (h : s.Earned bound) (htree : s.IsTree) (hn : s.node? id = some n) (hc : c ∈ n.children) :
    s.visitsOf c ≤ n.visits := by
  obtain ⟨rewards, hrecounted, -⟩ := h
  rw [hrecounted.visits_eq_sum htree hn]
  exact Nat.le_add_right_of_le (List.le_sum_of_mem (List.mem_map_of_mem hc))

/-- An unvisited child outscores every visited sibling. -/
theorem outscores (h : s.Earned bound) (htree : s.IsTree) (hpos : 0 ≤ bound) (hbids : Outbids ln sqrt bound)
    (hn : s.node? p = some n) (hc : c ∈ n.children) (hc' : c' ∈ n.children) (hzero : s.visitsOf c = 0)
    (hvisited : 1 ≤ s.visitsOf c') : Scalar.lt (s.scoreOf n.visits c') (s.scoreOf n.visits c) = true := by
  have hle := h.visitsOf_le htree hn hc'
  obtain ⟨m, hm, -⟩ := htree.exists_child hn hc
  obtain ⟨m', hm', -⟩ := htree.exists_child hn hc'
  rw [visitsOf_eq hm] at hzero
  rw [visitsOf_eq hm'] at hvisited hle
  have hmean : m'.value.value / (m'.visits + 1 / 1000000) ≤ bound := by
    rw [div_le_iff₀ (by positivity)]
    have hvalue := h.value_le hm'
    linarith
  have hgap := hbids n.visits m'.visits hvisited hle
  rw [Exact.lt_eq_true, scoreOf_eq hm, scoreOf_eq hm', Node.value_score, Node.value_score, hzero,
    h.value_eq_zero hm hzero, zero_div, zero_add]
  linarith

/-- A node with unvisited children is left for one of them. -/
theorem visitsOf_select (h : s.Earned bound) (htree : s.IsTree) (hpos : 0 ≤ bound) (hbids : Outbids ln sqrt bound)
    (hc : c ∈ s.childrenOf p) (hzero : s.visitsOf c = 0) (hselect : s.select p = .ok c') : s.visitsOf c' = 0 := by
  obtain ⟨n, _, hn, -, -⟩ := htree.hangs_of_mem_childrenOf hc
  rw [childrenOf_eq hn] at hc
  obtain ⟨child, hchild, hfirst⟩ := htree.exists_select_isFirstBest hn (List.ne_nil_of_mem hc) fun _ _ => rfl
  obtain rfl : c' = child := Except.ok.inj (hselect.symm.trans hchild)
  have hnot := (ranks_lt (s.scoreOf n.visits)).flip.not_better_of_isFirstBest (fun _ _ => rfl) hfirst hc
  by_contra hvisited
  rw [h.outscores htree hpos hbids hn hc hfirst.mem hzero (Nat.one_le_iff_ne_zero.2 hvisited)] at hnot
  exact Bool.false_ne_true hnot.symm

end Earned

variable [IndexSource σ]

theorem Advances.earned (h : s.Advances id s') (he : s.Earned bound)
    (hcap : ∀ x, s'.objectiveOf id = some x → x.value ≤ bound) : s'.Earned bound := by
  obtain ⟨rewards, hrecounted, hbound⟩ := he
  obtain ⟨x, hx, hrecounted'⟩ := h.exists_recounted
  refine ⟨_, hrecounted' rewards hrecounted, fun r hr => ?_⟩
  rcases List.mem_append.1 hr with hr | hr
  · exact hbound r hr
  · rw [List.mem_singleton.1 hr]
    exact hcap x hx

/-- An iteration that visits a child for the second time has selected it, so no sibling was unvisited. -/
theorem Advances.takesTurns (h : s.Advances id s') (hs : s.Sound) (he : s.Earned bound) (hpos : 0 ≤ bound)
    (hbids : Outbids ln sqrt bound) (hturns : s.TakesTurns) : s'.TakesTurns := by
  intro p c hc c' hc' hzero
  have hvisits := h.visitsOf_cases hs c'
  have hzero₀ : s.visitsOf c = 0 := by
    rcases h.visitsOf_cases hs c with heq | ⟨heq, -⟩ <;> omega
  have hsiblings : c ∈ s.childrenOf p ∧ c' ∈ s.childrenOf p ∨ s.nodes.size ≤ c' := by
    rcases h.returned_cases with ⟨-, hsame⟩ | ⟨rfl, leaf, k, -, hchildren⟩
    · exact .inl ⟨hsame p ▸ hc, hsame p ▸ hc'⟩
    · rw [hchildren] at hc hc'
      split at hc'
      · exact .inr (List.mem_range'_1.1 hc').1
      · next hp => exact .inl ⟨by rwa [if_neg hp] at hc, hc'⟩
  rcases hsiblings with ⟨hc, hc'⟩ | hnew
  · have hone := hturns p c hc c' hc' hzero₀
    obtain ⟨hparent, hlt⟩ := hs.tree.parent_of_mem_childrenOf hc'
    obtain ⟨_, m, -, hm, -⟩ := hs.tree.hangs_of_mem_childrenOf hc'
    have hold := node?_lt hm
    rcases hvisits with heq | ⟨heq, hout | hroot | ⟨q, hselect⟩⟩
    · omega
    · omega
    · omega
    · obtain ⟨hparent', -⟩ := hs.tree.parent_of_mem_childrenOf (mem_childrenOf_of_select hselect)
      obtain rfl : q = p := Option.some.inj (hparent'.symm.trans hparent)
      have hnone := he.visitsOf_select hs.tree hpos hbids hc hzero₀ hselect
      omega
  · have hnone : s.visitsOf c' = 0 := by
      rw [visitsOf, node?, Array.getElem?_eq_none hnew]
      rfl
    rcases hvisits with heq | ⟨heq, -⟩ <;> omega

section Start

variable {d : Demand (Exact ln sqrt)} {root : Priority} {settings : Settings} {choices : σ}
  {observer : Observer (Exact ln sqrt) ω} (hstart : Search.start d root settings choices observer = .ok s)
include hstart

omit [IndexSource σ] in
theorem earned_start (bound : ℚ) : s.Earned bound :=
  ⟨[], recounted_start hstart, fun _ hr => absurd hr List.not_mem_nil⟩

omit [IndexSource σ] in
theorem takesTurns_start : s.TakesTurns := by
  intro p c hc
  rw [childrenOf_start hstart] at hc
  exact absurd hc List.not_mem_nil

end Start

end Exact

end Search

/-! ### Accurate functions -/

namespace Accurate

variable {ln sqrt : ℚ → ℚ} (h : Accurate ln sqrt) {parentVisits visits : Nat} {x : ℚ} (hx : 0 ≤ x)
include h hx

/-- The bonus without visits is about a thousand times the square root of twice the logarithm. -/
theorem le_bonus_zero (hln : 2 * ln (parentVisits + 1) = x) :
    (1000 - 1 / 1000) * √(x : ℝ) ≤ bonus ln sqrt parentVisits 0 := by
  have hlow := (h.sqrt_bounds (x := x / ((0 : ℕ) + 1 / 1000000)) (by positivity)).1
  have hmillion : ((x / ((0 : ℕ) + 1 / 1000000) : ℚ) : ℝ) = 1000 ^ 2 * x := by
    push_cast
    ring
  rw [hmillion, Real.sqrt_mul (by norm_num), Real.sqrt_sq (by norm_num)] at hlow
  rw [bonus, hln]
  linarith

/-- With visits it is at most about that square root. -/
theorem bonus_le (hln : 2 * ln (parentVisits + 1) = x) (hvisits : 1 ≤ visits) :
    bonus ln sqrt parentVisits visits ≤ (1 + 1 / 10 ^ 6) * √(x : ℝ) := by
  have hone : (1 : ℚ) ≤ visits := Nat.one_le_cast.2 hvisits
  have hsmaller : x / (visits + 1 / 1000000) ≤ x := div_le_self hx (by linarith)
  have hsqrt : √((x / (visits + 1 / 1000000) : ℚ) : ℝ) ≤ √(x : ℝ) := Real.sqrt_le_sqrt (by exact_mod_cast hsmaller)
  have hhigh := (h.sqrt_bounds (x := x / (visits + 1 / 1000000)) (by positivity)).2
  rw [bonus, hln]
  linarith

omit hx in
/-- Twice the logarithm of 2 is at least 1.386, of which the square root is above 1.1772. -/
theorem outbids : Search.Outbids ln sqrt 1176 := by
  intro parentVisits visits hvisits hle
  have hone : (1 : ℚ) ≤ parentVisits := Nat.one_le_cast.2 (hvisits.trans hle)
  have hln := h.le_ln (x := parentVisits + 1) (by linarith)
  generalize hx : 2 * ln (parentVisits + 1) = x
  have hpos : 0 ≤ x := by linarith
  have hroot : 1.1772 ≤ √(x : ℝ) := by
    have hlarge : 1386 ≤ 1000 * x := by linarith
    have hlarge' : 1386 ≤ 1000 * (x : ℝ) := by exact_mod_cast hlarge
    refine Real.le_sqrt_of_sq_le ?_
    norm_num
    linarith
  have hnone := h.le_bonus_zero hpos hx
  have hsome := h.bonus_le hpos hx hvisits
  have hgap : (1176 + bonus ln sqrt parentVisits visits : ℝ) < bonus ln sqrt parentVisits 0 := by linarith
  exact_mod_cast hgap

end Accurate

section Exact

variable {ln sqrt : ℚ → ℚ} {σ ω : Type} [IndexSource σ] {t t' : Session (Exact ln sqrt) σ ω} {ids : List Nat}
  {bound : ℚ}

theorem Returns.takesTurns (h : Returns ids t t') (hs : t.search.Sound) (he : t.search.Earned bound) (hpos : 0 ≤ bound)
    (hbids : Search.Outbids ln sqrt bound) (hturns : t.search.TakesTurns)
    (hcap : ∀ i x, t'.search.objectiveOf i = some x → x.value ≤ bound) :
    t'.search.Earned bound ∧ t'.search.TakesTurns := by
  induction h with
  | nil => exact ⟨he, hturns⟩
  | cons h hrest ih =>
    have hadvances := Move.advances_of_step hs h
    have hs₁ := hadvances.changes.sound hs
    refine ih hs₁ (hadvances.earned he fun x hx => ?_) (hadvances.takesTurns hs he hpos hbids hturns) hcap
    exact hcap _ x (Search.Changes.objectiveOf_eq_some (hrest.changes hs₁) hx)

/-- In exact arithmetic, as long as no mean slowdown that was computed is above 1176, no child is visited a second time
while a sibling has not been visited: with accurate logarithms and square roots, an unvisited child outscores every
visited sibling. Rounded scores may tie where exact ones differ. -/
theorem unvisited_child_first (hexact : Accurate ln sqrt) {d : Demand (Exact ln sqrt)} {root : Priority}
    {settings : Settings} {choices : σ} {observer : Observer (Exact ln sqrt) ω} {s₀ : Search (Exact ln sqrt) σ ω}
    (hstart : Search.start d root settings choices observer = .ok s₀) (hreturns : Returns ids ⟨s₀, []⟩ t)
    (hcap : ∀ i x, t.search.objectiveOf i = some x → x.value ≤ 1176) :
    ∀ i n, t.search.node? i = some n → ∀ c ∈ n.children, ∀ c' ∈ n.children, t.search.visitsOf c = 0 →
      t.search.visitsOf c' ≤ 1 ∧ (t.search.visitsOf c' = 1 →
        Scalar.lt (t.search.scoreOf n.visits c') (t.search.scoreOf n.visits c) = true) := by
  intro i n hn c hc c' hc' hzero
  have hs₀ := Search.sound_start hstart
  have htree := ((hreturns.changes hs₀).sound hs₀).tree
  obtain ⟨hearned, hturns⟩ := hreturns.takesTurns hs₀ (Search.earned_start hstart 1176) (by norm_num) hexact.outbids
    (Search.takesTurns_start hstart) hcap
  rw [← Search.childrenOf_eq hn] at hc hc'
  refine ⟨hturns i c hc c' hc' hzero, fun hone => ?_⟩
  rw [Search.childrenOf_eq hn] at hc hc'
  exact hearned.outscores htree (by norm_num) hexact.outbids hn hc hc' hzero hone.ge

end Exact

theorem unvisited_child_first_of_sendersSearch :
    ∃ (t : Session Digital WordStream Unit) (n : Node Digital), Returns [1] ⟨sendersSearch [8, 3, 1], []⟩ t ∧
      (∀ i x, t.search.objectiveOf i = some x → x.value ≤ 1176) ∧ t.search.node? 0 = some n ∧ n.children = [1, 2] ∧
      t.search.visitsOf 1 = 1 ∧ t.search.visitsOf 2 = 0 ∧
      Scalar.lt (t.search.scoreOf n.visits 1) (t.search.scoreOf n.visits 2) = true := by
  have hstart : startSenders [8, 3, 1] = .ok (sendersSearch [8, 3, 1] : Search Digital WordStream Unit) := by cbv
  have hstepped : ((⟨sendersSearch [8, 3, 1], []⟩ : Session Digital WordStream Unit).stepped 1).map
      (fun r => (r.1, r.2.search.childrenOf 0, [1, 2].map r.2.search.visitsOf,
        (r.2.search.nodes.toList.filterMap Node.objective?).all fun x => decide (x.value ≤ 1176))) =
          some ([1], [1, 2], [1, 0], true) := by cbv
  obtain ⟨⟨ids, t⟩, hsteps, hresult⟩ := Option.map_eq_some_iff.1 hstepped
  obtain ⟨rfl, hknown⟩ := Prod.mk.inj hresult
  obtain ⟨hchildren, hvisits, hobjectives⟩ := Prod.mk.inj hknown |>.imp_right Prod.mk.inj
  have hreturns := Returns.of_stepped hsteps
  have hcap : ∀ i x, t.search.objectiveOf i = some x → x.value ≤ 1176 := by
    intro i x hx
    obtain ⟨m, hm, hobjective⟩ := Option.bind_eq_some_iff.1 hx
    have hmem : x ∈ t.search.nodes.toList.filterMap Node.objective? :=
      List.mem_filterMap.2 ⟨m, Array.mem_toList_iff.2 (Array.mem_of_getElem? hm), hobjective⟩
    exact of_decide_eq_true (List.all_eq_true.1 hobjectives x hmem)
  obtain ⟨hone, hnone⟩ : t.search.visitsOf 1 = 1 ∧ t.search.visitsOf 2 = 0 := by simpa using hvisits
  have hne : t.search.childrenOf 0 ≠ [] := by simp [hchildren]
  obtain ⟨n, hn, hn'⟩ := Search.exists_node?_of_childrenOf hne
  rw [hchildren] at hn'
  have hturn := unvisited_child_first accurate_digits hstart hreturns hcap 0 n hn 2 (by simp [hn']) 1 (by simp [hn'])
    hnone
  exact ⟨t, n, hreturns, hcap, hn, hn', hone, hnone, hturn.2 hone⟩

/-- Where the first child is slow enough, it is visited again before its sibling is visited at all. -/
theorem slow_child_visited_twice :
    startSenders [9999, 999, 1] = .ok (sendersSearch [9999, 999, 1] : Search Digital WordStream Unit) ∧
    ∃ t : Session Digital WordStream Unit, Returns [1, 3] ⟨sendersSearch [9999, 999, 1], []⟩ t ∧
      t.search.childrenOf 0 = [1, 2] ∧ [1, 2].map t.search.visitsOf = [2, 0] := by
  have hstart : startSenders [9999, 999, 1] =
      .ok (sendersSearch [9999, 999, 1] : Search Digital WordStream Unit) := by cbv
  have hstepped : ((⟨sendersSearch [9999, 999, 1], []⟩ : Session Digital WordStream Unit).stepped 2).map
      (fun r => (r.1, r.2.search.childrenOf 0, [1, 2].map r.2.search.visitsOf)) =
        some ([1, 3], [1, 2], [2, 0]) := by cbv
  obtain ⟨⟨ids, t⟩, hsteps, hresult⟩ := Option.map_eq_some_iff.1 hstepped
  obtain ⟨rfl, hknown⟩ := Prod.mk.inj hresult
  exact ⟨hstart, t, Returns.of_stepped hsteps, Prod.mk.inj hknown⟩

end LinkPriority

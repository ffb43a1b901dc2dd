import LinkPriority.FirstBest
import LinkPriority.Proofs.Scalar.Order

/-! The first best of a list is one of its entries, whatever is compared; where comparing is a strict weak order,
it is better than all entries before it and no entry after it is better. -/

namespace LinkPriority

variable {β : Type} {better : β → β → Bool}

theorem bestFrom_mem (best : β) (xs : List β) : bestFrom better best xs ∈ best :: xs := by
  induction xs generalizing best with
  | nil => exact List.mem_singleton_self best
  | cons next rest ih =>
    rw [bestFrom]
    split
    · exact List.mem_cons_of_mem _ (ih next)
    · rcases List.mem_cons.1 (ih best) with heq | hrest
      · rw [heq]
        exact List.mem_cons_self
      · exact List.mem_cons_of_mem _ (List.mem_cons_of_mem _ hrest)

theorem firstBest_mem {xs : List β} {x : β} (h : firstBest better xs = some x) : x ∈ xs := by
  cases xs with
  | nil => simp [firstBest] at h
  | cons first rest => exact Option.some.inj h ▸ bestFrom_mem first rest

/-- The best of the images is the image of the best. -/
theorem firstBest_map {γ : Type} (f : γ → β) (xs : List γ) :
    firstBest better (xs.map f) = (firstBest (fun x y => better (f x) (f y)) xs).map f := by
  cases xs with
  | nil => rfl
  | cons first rest =>
    refine congrArg some ?_
    induction rest generalizing first with
    | nil => rfl
    | cons next rest ih => rw [List.map_cons, bestFrom, bestFrom, ← ih, apply_ite f]

theorem firstBest_eq_none {xs : List β} : firstBest better xs = none ↔ xs = [] := by
  cases xs <;> simp [firstBest]

/-- What no later entry is better than stays the best. -/
theorem bestFrom_eq_self {best : β} {xs : List β} (h : ∀ x ∈ xs, better x best = false) :
    bestFrom better best xs = best := by
  induction xs with
  | nil => rfl
  | cons next rest ih =>
    obtain ⟨hnext, hrest⟩ := List.forall_mem_cons.1 h
    rw [bestFrom, hnext, if_neg Bool.false_ne_true, ih hrest]

/-- The entry `x` is better than what comes before it, and nothing after it is better. -/
def IsFirstBest (better : β → β → Bool) (xs : List β) (x : β) : Prop :=
  ∃ before after, xs = before ++ x :: after ∧ (∀ y ∈ before, better x y = true) ∧ ∀ y ∈ after, better y x = false

theorem IsFirstBest.mem {x : β} {xs : List β} (h : IsFirstBest better xs x) : x ∈ xs := by
  obtain ⟨before, after, rfl, -⟩ := h
  exact List.mem_append_right _ List.mem_cons_self

theorem IsFirstBest.eq_or_better {x y : β} {xs : List β} (h : IsFirstBest better (y :: xs) x) :
    x = y ∨ better x y = true := by
  obtain ⟨before, after, hsplit, hbefore, -⟩ := h
  cases before with
  | nil => exact .inl (List.cons.inj hsplit).1.symm
  | cons b before =>
    rw [(List.cons.inj hsplit).1]
    exact .inr (hbefore b List.mem_cons_self)

theorem IsFirstBest.cons {x y : β} {xs : List β} (h : IsFirstBest better xs x) (hbeats : better x y = true) :
    IsFirstBest better (y :: xs) x := by
  obtain ⟨before, after, hsplit, hbefore, hafter⟩ := h
  refine ⟨y :: before, after, congrArg (y :: ·) hsplit, fun z hz => ?_, hafter⟩
  rcases List.mem_cons.1 hz with rfl | hz
  · exact hbeats
  · exact hbefore z hz

/-- The first best only depends on how the entries compare with each other. -/
theorem IsFirstBest.congr {better' : β → β → Bool} {xs : List β} {x : β} (h : IsFirstBest better xs x)
    (hsame : ∀ y ∈ xs, ∀ z ∈ xs, better' y z = better y z) : IsFirstBest better' xs x := by
  have hx := h.mem
  obtain ⟨before, after, rfl, hbefore, hafter⟩ := h
  refine ⟨before, after, rfl, fun y hy => ?_, fun y hy => ?_⟩
  · rw [hsame x hx y (List.mem_append_left _ hy), hbefore y hy]
  · rw [hsame y (List.mem_append_right _ (List.mem_cons_of_mem _ hy)) x hx, hafter y hy]

/-- Comparing is a strict weak order on the entries for which `p` holds. -/
structure Ranks (better : β → β → Bool) (p : β → Prop) : Prop where
  irrefl {x : β} : p x → better x x = false
  trans {x y z : β} : p x → p y → p z → better x y = true → better y z = true → better x z = true
  split {x y z : β} : p x → p y → p z → better x z = true → better x y = true ∨ better y z = true

namespace Ranks

variable {p : β → Prop} {best : β} {xs : List β}

theorem flip (h : Ranks better p) : Ranks (fun x y => better y x) p where
  irrefl hx := h.irrefl hx
  trans hx hy hz hyx hzy := h.trans hz hy hx hzy hyx
  split hx hy hz hzx := (h.split hz hy hx hzx).symm

/-- An entry that is not better than the one before it changes nothing. -/
theorem isFirstBest_insert {x next : β} (h : Ranks better p) (hx : p x) (hnext : p next) (hbest : p best)
    (hnot : better next best = false) (hfirst : IsFirstBest better (best :: xs) x) :
    IsFirstBest better (best :: next :: xs) x := by
  obtain ⟨before, after, hsplit, hbefore, hafter⟩ := hfirst
  cases before with
  | nil =>
    obtain ⟨rfl, rfl⟩ := List.cons.inj hsplit
    exact ⟨[], next :: xs, rfl, by simp, List.forall_mem_cons.2 ⟨hnot, hafter⟩⟩
  | cons b before =>
    obtain ⟨rfl, hrest⟩ := List.cons.inj hsplit
    have hbeats := hbefore best List.mem_cons_self
    have hbeats' := (h.split hx hnext hbest hbeats).resolve_right (by simp [hnot])
    refine ⟨best :: next :: before, after, congrArg (best :: next :: ·) hrest, ?_, hafter⟩
    exact List.forall_mem_cons.2 ⟨hbeats, List.forall_mem_cons.2 ⟨hbeats', fun y hy =>
      hbefore y (List.mem_cons_of_mem _ hy)⟩⟩

theorem isFirstBest_bestFrom (h : Ranks better p) (hp : ∀ x ∈ best :: xs, p x) :
    IsFirstBest better (best :: xs) (bestFrom better best xs) := by
  induction xs generalizing best with
  | nil => exact ⟨[], [], rfl, by simp, by simp⟩
  | cons next rest ih =>
    obtain ⟨hbest, hrest⟩ := List.forall_mem_cons.1 hp
    obtain ⟨hnext, hrest⟩ := List.forall_mem_cons.1 hrest
    have hmem : p (bestFrom better best (next :: rest)) := hp _ (bestFrom_mem best (next :: rest))
    rw [bestFrom] at hmem ⊢
    by_cases hbetter : better next best = true
    · rw [if_pos hbetter] at hmem ⊢
      have hfirst := @ih next (List.forall_mem_cons.2 ⟨hnext, hrest⟩)
      refine hfirst.cons ?_
      rcases hfirst.eq_or_better with heq | hlt
      · rw [heq, hbetter]
      · exact h.trans hmem hnext hbest hlt hbetter
    · rw [if_neg hbetter] at hmem ⊢
      have hfirst := @ih best (List.forall_mem_cons.2 ⟨hbest, hrest⟩)
      exact h.isFirstBest_insert hmem hnext hbest (Bool.eq_false_iff.2 hbetter) hfirst

theorem isFirstBest_of_firstBest {x : β} (h : Ranks better p) (hp : ∀ x ∈ xs, p x)
    (hx : firstBest better xs = some x) : IsFirstBest better xs x := by
  cases xs with
  | nil => simp [firstBest] at hx
  | cons first rest =>
    obtain rfl := Option.some.inj hx
    exact h.isFirstBest_bestFrom hp

/-- No entry at all is better than the first best. -/
theorem not_better_of_isFirstBest {x y : β} (h : Ranks better p) (hp : ∀ x ∈ xs, p x)
    (hx : IsFirstBest better xs x) (hy : y ∈ xs) : better y x = false := by
  have hpx : p x := hp x hx.mem
  obtain ⟨before, after, rfl, hbefore, hafter⟩ := hx
  rcases List.mem_append.1 hy with hy | hy
  · have hpy : p y := hp y (List.mem_append_left _ hy)
    refine Bool.eq_false_iff.2 fun hbetter => ?_
    have hself := h.trans hpx hpy hpx (hbefore y hy) hbetter
    exact Bool.false_ne_true ((h.irrefl hpx).symm.trans hself)
  · rcases List.mem_cons.1 hy with rfl | hy
    · exact h.irrefl hpx
    · exact hafter y hy

theorem not_better {x y : β} (h : Ranks better p) (hp : ∀ x ∈ xs, p x) (hx : firstBest better xs = some x)
    (hy : y ∈ xs) : better y x = false :=
  h.not_better_of_isFirstBest hp (h.isFirstBest_of_firstBest hp hx) hy

end Ranks

/-- Finite numbers can be ranked by size. -/
theorem ranks_lt {α : Type} [Scalar α] [OrderedScalar α] (key : β → α) :
    Ranks (fun x y => Scalar.lt (key x) (key y)) fun x => Scalar.isFinite (key x) = true where
  irrefl {x} hx := by
    refine Bool.eq_false_iff.2 fun h => ?_
    exact (OrderedScalar.lt_iff_not_le hx hx).1 h (Scalar.le_self hx)
  trans {x y z} hx hy hz hxy hyz := by
    rw [OrderedScalar.lt_iff_not_le hx hz]
    intro hzx
    refine (OrderedScalar.lt_iff_not_le hy hz).1 hyz ?_
    exact OrderedScalar.le_trans hz hx hy hzx (Scalar.le_of_lt hx hy hxy)
  split {x y z} hx hy hz hxz := by
    by_cases hxy : Scalar.lt (key x) (key y) = true
    · exact .inl hxy
    · refine .inr ((OrderedScalar.lt_iff_not_le hy hz).2 fun hzy => ?_)
      refine (OrderedScalar.lt_iff_not_le hx hz).1 hxz ?_
      exact OrderedScalar.le_trans hz hy hx hzy (Scalar.le_of_not_lt hx hy hxy)

end LinkPriority

import Mathlib.Tactic.Common
import Mathlib.Data.List.Forall2

/-! Results that may be errors: how a composed computation comes to its value, and a traversal to its list; and what it
means that two results are alike. -/

namespace LinkPriority.Except

variable {ε ε' β γ : Type}

theorem bind_eq_ok {x : Except ε β} {f : β → Except ε γ} {c : γ} :
    x >>= f = .ok c ↔ ∃ b, x = .ok b ∧ f b = .ok c := by
  cases x with
  | error e => simp [bind, Except.bind]
  | ok b => simp [bind, Except.bind]

theorem map_eq_ok {x : Except ε β} {f : β → γ} {c : γ} : x.map f = .ok c ↔ ∃ b, x = .ok b ∧ f b = c := by
  cases x with
  | error e => simp [Except.map]
  | ok b => simp [Except.map]

theorem map_eq_error {x : Except ε β} {f : β → γ} {e : ε} : x.map f = .error e ↔ x = .error e := by
  cases x with
  | error e' => simp [Except.map]
  | ok b => simp [Except.map]

theorem mapError_eq_ok {x : Except ε β} {f : ε → ε'} {b : β} : x.mapError f = .ok b ↔ x = .ok b := by
  cases x with
  | error e => simp [Except.mapError]
  | ok b' => simp [Except.mapError]

theorem toOption_eq_some {x : Except ε β} {b : β} : x.toOption = some b ↔ x = .ok b := by
  cases x with
  | error e => simp [Except.toOption]
  | ok b' => simp [Except.toOption]

/-- A traversal succeeds with a list if each step succeeds with the entry in its place. -/
theorem mapM_eq_ok {f : β → Except ε γ} {xs : List β} {ys : List γ} :
    xs.mapM f = .ok ys ↔ List.Forall₂ (fun x y => f x = .ok y) xs ys := by
  induction xs generalizing ys with
  | nil => simp only [List.mapM_nil, pure, Except.pure, Except.ok.injEq, List.forall₂_nil_left_iff, eq_comm]
  | cons x xs ih =>
    rw [List.mapM_cons, bind_eq_ok, List.forall₂_cons_left_iff]
    constructor
    · rintro ⟨y, hy, htail⟩
      obtain ⟨rest, hrest, hys⟩ := bind_eq_ok.1 htail
      obtain rfl : y :: rest = ys := by simpa [pure, Except.pure] using hys
      exact ⟨y, rest, hy, ih.1 hrest, rfl⟩
    · rintro ⟨y, rest, hy, hrest, rfl⟩
      exact ⟨y, hy, bind_eq_ok.2 ⟨rest, ih.2 hrest, rfl⟩⟩

/-- A traversal fails at the first entry whose step fails, with the error of that step. -/
theorem mapM_eq_error {f : β → Except ε γ} {xs : List β} {e : ε} :
    xs.mapM f = .error e ↔ ∃ before x after, xs = before ++ x :: after ∧ (∀ y ∈ before, ∃ c, f y = .ok c) ∧
      f x = .error e := by
  induction xs with
  | nil => simp [pure, Except.pure]
  | cons y ys ih =>
    simp only [List.mapM_cons, List.cons_eq_append_iff]
    cases hy : f y with
    | error e' =>
      simp only [bind, Except.bind, Except.error.injEq]
      constructor
      · rintro rfl
        exact ⟨[], y, ys, .inl ⟨rfl, rfl⟩, by simp, hy⟩
      · rintro ⟨before, x, after, ⟨rfl, heq⟩ | ⟨rest, rfl, -⟩, hbefore, hx⟩
        · rw [(List.cons.inj heq).1, hy] at hx
          exact Except.error.inj hx
        · obtain ⟨c, hc⟩ := hbefore y List.mem_cons_self
          rw [hy] at hc
          contradiction
    | ok c =>
      have hrest : (ys.mapM f).map (c :: ·) = .error e ↔ ys.mapM f = .error e := map_eq_error
      refine hrest.trans (ih.trans ?_)
      constructor
      · rintro ⟨before, x, after, rfl, hbefore, hx⟩
        exact ⟨y :: before, x, after, .inr ⟨before, rfl, rfl⟩, by simpa using ⟨⟨c, hy⟩, hbefore⟩, hx⟩
      · rintro ⟨before, x, after, ⟨rfl, heq⟩ | ⟨rest, rfl, rfl⟩, hbefore, hx⟩
        · rw [(List.cons.inj heq).1, hy] at hx
          contradiction
        · exact ⟨rest, x, after, rfl, fun z hz => hbefore z (List.mem_cons_of_mem y hz), hx⟩

/-- Where each step of a fold only adds its own result, the results can be had first and folded up afterwards. -/
theorem foldlM_map {δ : Type} (f : β → Except ε γ) (g : δ → γ → δ) (xs : List β) (acc : δ) :
    xs.foldlM (fun acc x => (f x).map (g acc)) acc = (xs.mapM f).map fun ys => ys.foldl g acc := by
  induction xs generalizing acc with
  | nil => rfl
  | cons x xs ih =>
    rw [List.foldlM_cons, List.mapM_cons]
    cases f x with
    | error e => rfl
    | ok y =>
      calc xs.foldlM (fun acc x => (f x).map (g acc)) (g acc y)
          = (xs.mapM f).map fun ys => ys.foldl g (g acc y) := ih (g acc y)
        _ = ((xs.mapM f).map (y :: ·)).map fun ys => ys.foldl g acc := by cases xs.mapM f <;> rfl

/-- A traversal only depends on what its steps give for the entries. -/
theorem mapM_congr {f g : β → Except ε γ} {xs : List β} (h : ∀ x ∈ xs, f x = g x) : xs.mapM f = xs.mapM g := by
  induction xs with
  | nil => rfl
  | cons x xs ih =>
    obtain ⟨hhead, hrest⟩ := List.forall_mem_cons.1 h
    rw [List.mapM_cons, List.mapM_cons, hhead, ih hrest]

theorem foldlM_congr {f g : γ → β → Except ε γ} {xs : List β} (h : ∀ x ∈ xs, ∀ c, f c x = g c x) (c : γ) :
    xs.foldlM f c = xs.foldlM g c := by
  induction xs generalizing c with
  | nil => rfl
  | cons x xs ih =>
    obtain ⟨hhead, hrest⟩ := List.forall_mem_cons.1 h
    rw [List.foldlM_cons, List.foldlM_cons, hhead]
    exact congrArg (g c x >>= ·) (funext (ih hrest))

/-- The results are values that are related, or the same error. -/
inductive Alike (R : β → γ → Prop) : Except ε β → Except ε γ → Prop where
  | ok {b : β} {c : γ} (h : R b c) : Alike R (.ok b) (.ok c)
  | error (e : ε) : Alike R (.error e) (.error e)

namespace Alike

variable {β' γ' : Type} {R : β → γ → Prop} {S : β' → γ' → Prop} {x : Except ε β} {y : Except ε γ}

theorem map {f : β → β'} {g : γ → γ'} (h : Alike R x y) (hfg : ∀ b c, R b c → S (f b) (g c)) :
    Alike S (x.map f) (y.map g) := by
  cases h with
  | ok h => exact .ok (hfg _ _ h)
  | error e => exact .error e

theorem refl (x : Except ε β) : Alike Eq x x := by
  cases x with
  | ok b => exact .ok rfl
  | error e => exact .error e

theorem mapError (h : Alike R x y) (f : ε → ε') : Alike R (x.mapError f) (y.mapError f) := by
  cases h with
  | ok h => exact .ok h
  | error e => exact .error (f e)

end Alike

end LinkPriority.Except

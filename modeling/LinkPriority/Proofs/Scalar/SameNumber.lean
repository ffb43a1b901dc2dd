import LinkPriority.Proofs.Scalar.Signs

/-! Numbers of the machine that compare both ways. They are the same number, except that zeros may differ in sign. The
sign of a zero does not show in a sum with a positive number, so sums of numerically equal terms that are not negative
are numerically equal again. -/

namespace LinkPriority.Binary64

open Float.Model (Format UnpackedFloat)
open Float.Model.UnpackedFloat

variable {x y x' y' : Binary64} {s : Sign} {u v : UnpackedFloat}

def negativeZero : Binary64 := ⟨0x8000000000000000⟩

/-- The same number, or two zeros, which may differ in sign. -/
def SameNumber (x y : Binary64) : Prop := x = y ∨ (∃ s, x.unpacked = .zero s) ∧ ∃ s, y.unpacked = .zero s

/-- Finite numbers of one place are the same or zeros. -/
theorem eq_or_zero_of_place_eq (hu : u.isFinite = true) (hv : v.isFinite = true) (h : place u = place v) :
    u = v ∨ (∃ s, u = .zero s) ∧ ∃ s, v = .zero s := by
  cases u with
  | infinity | notANumber => exact absurd hu Bool.false_ne_true
  | zero s =>
    cases v with
    | infinity | notANumber => exact absurd hv Bool.false_ne_true
    | zero s' => exact .inr ⟨⟨s, rfl⟩, s', rfl⟩
    | finite s' m' e' hm' => cases s' <;> simp [place] at h
  | finite s m e hm =>
    cases v with
    | infinity | notANumber => exact absurd hv Bool.false_ne_true
    | zero s' => cases s <;> simp [place] at h
    | finite s' m' e' hm' =>
      have hparts : s = s' ∧ e = e' ∧ m = m' := by
        cases s <;> cases s' <;> simp [place] at h <;> exact ⟨rfl, by omega⟩
      obtain ⟨rfl, rfl, rfl⟩ := hparts
      exact .inl rfl

theorem eq_infinity_of_le (hle : UnpackedFloat.le (.infinity s) v = true)
    (hge : UnpackedFloat.le v (.infinity s) = true) : v = .infinity s := by
  cases v with
  | notANumber => exact absurd hge Bool.false_ne_true
  | infinity s' | zero s' | finite s' m e hm =>
    cases s <;> cases s' <;>
      first | rfl | exact absurd hle Bool.false_ne_true | exact absurd hge Bool.false_ne_true

theorem eq_or_zero_of_le (hle : u.le v = true) (hge : v.le u = true) :
    u = v ∨ (∃ s, u = .zero s) ∧ ∃ s, v = .zero s := by
  have hplaces (hu : u.isFinite = true) (hv : v.isFinite = true) : place u = place v :=
    le_antisymm ((unpacked_le_iff hu hv).1 hle) ((unpacked_le_iff hv hu).1 hge)
  cases u with
  | notANumber => exact absurd hle Bool.false_ne_true
  | infinity s => exact .inl (eq_infinity_of_le hle hge).symm
  | zero | finite =>
    cases v with
    | notANumber => exact absurd hge Bool.false_ne_true
    | infinity s' => exact .inl (eq_infinity_of_le hge hle)
    | zero | finite => exact eq_or_zero_of_place_eq rfl rfl (hplaces rfl rfl)

/-- Numbers that compare both ways are the same number or zeros. -/
theorem sameNumber_of_equal (h : Scalar.equal x y = true) : SameNumber x y := by
  rw [Scalar.equal, Bool.and_eq_true, le_iff_unpacked_le, le_iff_unpacked_le] at h
  refine (eq_or_zero_of_le h.1 h.2).imp_left fun hparts => eq_of_unpacked_eq (fun hnone => ?_) hparts
  rw [hnone] at h
  exact absurd h.1 Bool.false_ne_true

theorem isZero_of_unpacked (h : x.unpacked = .zero s) : Scalar.isZero x = true := by
  rw [Scalar.isZero, Bool.and_eq_true, le_iff_unpacked_le, le_iff_unpacked_le, h]
  exact ⟨rfl, rfl⟩

theorem isUnsigned_of_ne (hx : Scalar.le Scalar.zero x = true) (hne : x ≠ negativeZero) :
    IsUnsigned x.unpacked := by
  rcases zero_le_iff.1 hx with ⟨s, hzero⟩ | hpositive
  · cases s with
    | positive => exact .inl hzero
    | negative =>
      exact absurd (eq_of_unpacked_eq (by rw [hzero]; exact UnpackedFloat.noConfusion) hzero) hne
  · exact .inr hpositive

namespace SameNumber

theorem eq_of_isUnsigned (h : SameNumber x y) (hx : IsUnsigned x.unpacked) (hy : IsUnsigned y.unpacked) : x = y := by
  rcases h with hsame | ⟨⟨s, hzero⟩, s', hzero'⟩
  · exact hsame
  · rw [hzero, isUnsigned_zero_iff] at hx
    rw [hzero', isUnsigned_zero_iff] at hy
    refine eq_of_unpacked_eq (by rw [hzero]; exact UnpackedFloat.noConfusion) ?_
    rw [hzero, hzero', hx, hy]

theorem eq_of_isPositive (h : SameNumber x y) (hx : IsPositive x.unpacked) : x = y := by
  rcases h with hsame | ⟨⟨s, hzero⟩, -⟩
  · exact hsame
  · rw [hzero] at hx
    obtain hx | ⟨m, e, hm, hx⟩ := hx <;> cases hx

theorem isZero_eq (h : SameNumber x y) : Scalar.isZero x = Scalar.isZero y := by
  rcases h with rfl | ⟨⟨s, hzero⟩, s', hzero'⟩
  · rfl
  · rw [isZero_of_unpacked hzero, isZero_of_unpacked hzero']

/-- The sum of the same numbers that are not negative is the same number. -/
theorem add (hx : SameNumber x x') (hy : SameNumber y y') (hfirst : Scalar.le Scalar.zero x = true)
    (hsecond : Scalar.le Scalar.zero y = true) : SameNumber (x + y) (x' + y') := by
  rcases hx with rfl | ⟨⟨s, hx⟩, s', hx'⟩ <;> rcases hy with rfl | ⟨⟨t, hy⟩, t', hy'⟩
  · exact .inl rfl
  · rcases zero_le_iff.1 hfirst with ⟨s, hzero⟩ | hpositive
    · exact .inr ⟨exists_unpacked_add hzero hy, exists_unpacked_add hzero hy'⟩
    · exact .inl (by rw [add_zero_of_isPositive hpositive hy, add_zero_of_isPositive hpositive hy'])
  · rcases zero_le_iff.1 hsecond with ⟨t, hzero⟩ | hpositive
    · exact .inr ⟨exists_unpacked_add hx hzero, exists_unpacked_add hx' hzero⟩
    · exact .inl (by rw [zero_add_of_isPositive hx hpositive, zero_add_of_isPositive hx' hpositive])
  · exact .inr ⟨exists_unpacked_add hx hy, exists_unpacked_add hx' hy'⟩

theorem sum {β : Type} {f g : β → Binary64} {xs : List β} (h : ∀ a ∈ xs, SameNumber (f a) (g a))
    (hterms : ∀ a ∈ xs, Scalar.le Scalar.zero (f a) = true) :
    SameNumber (Scalar.sum (xs.map f)) (Scalar.sum (xs.map g)) := by
  induction xs using List.reverseRecOn with
  | nil => exact .inl rfl
  | append_singleton xs a ih =>
    rw [List.forall_mem_append] at h hterms
    have hbefore : ∀ x ∈ xs.map f, Scalar.le Scalar.zero x = true := List.forall_mem_map.2 hterms.1
    rw [Scalar.sum, Scalar.sum, List.map_append, List.map_append, List.foldl_append, List.foldl_append]
    exact (ih h.1 hterms.1).add (h.2 a (List.mem_singleton_self a)) (Scalar.zero_le_sum hbefore)
      (hterms.2 a (List.mem_singleton_self a))

end SameNumber

end LinkPriority.Binary64

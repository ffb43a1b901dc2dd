import Mathlib.Tactic.Common
import LinkPriority.Proofs.Sharing.Epochs

/-! What the budget decides. All runs on one table go through the same epochs, and the budget only says where a run
may be cut: within a smaller budget it ends at the same epoch, or at the last one of the budget if that comes first.
So a run that has settled is the run of every larger budget, and a budget that stops short of it is used up. What is
predicted of swaps belongs to the first epoch, and no budget changes it. -/

namespace LinkPriority

open Scalar

variable {α : Type} [Scalar α] {d : Demand α} {p : Priority} {budget larger : Nat}

namespace Times

/-- The first epoch is compared with none. -/
theorem two_le_of_settles {epoch : Nat} (h : settles d p epoch = true) : 2 ≤ epoch := by
  rw [settles, Bool.and_eq_true, decide_eq_true_eq] at h
  exact h.1

/-- An epoch that ends a run early has settled. -/
theorem settles_lastEpoch (h : lastEpoch d p budget < budget) : settles d p (lastEpoch d p budget) = true := by
  cases hfind : (List.range' 1 budget).find? (settles d p) with
  | none =>
    have hlast : lastEpoch d p budget = budget := by rw [lastEpoch, hfind, Option.getD_none]
    omega
  | some epoch =>
    rw [lastEpoch, hfind, Option.getD_some]
    exact List.find?_some hfind

/-- A smaller budget cuts the run, or leaves it as it is. -/
theorem lastEpoch_eq_min (h : budget ≤ larger) : lastEpoch d p budget = min budget (lastEpoch d p larger) := by
  have hsplit : List.range' 1 larger = List.range' 1 budget ++ List.range' (1 + budget) (larger - budget) := by
    rw [List.range'_append_1, Nat.add_sub_cancel' h]
  have hlarger : lastEpoch d p larger = (((List.range' 1 budget).find? (settles d p)).or
      ((List.range' (1 + budget) (larger - budget)).find? (settles d p))).getD larger := by
    rw [lastEpoch, hsplit, List.find?_append]
  cases hfind : (List.range' 1 budget).find? (settles d p) with
  | some epoch =>
    have hmem : epoch ∈ List.range' 1 budget := List.mem_of_find?_eq_some hfind
    rw [List.mem_range'_1] at hmem
    rw [hlarger, lastEpoch, hfind, Option.some_or, Option.getD_some, Option.getD_some]
    omega
  | none =>
    -- nothing settles within the budget, so the longer run goes on beyond it
    have hbeyond : budget ≤ lastEpoch d p larger := by
      rw [hlarger, hfind, Option.none_or]
      cases hrest : (List.range' (1 + budget) (larger - budget)).find? (settles d p) with
      | none => exact h
      | some epoch =>
        have hmem : epoch ∈ List.range' (1 + budget) (larger - budget) := List.mem_of_find?_eq_some hrest
        rw [List.mem_range'_1] at hmem
        rw [Option.getD_some]
        omega
    rw [lastEpoch, hfind, Option.getD_none, Nat.min_eq_left hbeyond]

theorem lastEpoch_le (d : Demand α) (p : Priority) (budget : Nat) : lastEpoch d p budget ≤ budget := by
  have hmin := lastEpoch_eq_min (d := d) (p := p) (Nat.le_refl budget)
  omega

theorem lastEpoch_one (d : Demand α) (p : Priority) : lastEpoch d p 1 = 1 := rfl

theorem one_le_lastEpoch (h : budget ≠ 0) : 1 ≤ lastEpoch d p budget := by
  have hmin := lastEpoch_eq_min (d := d) (p := p) (Nat.one_le_iff_ne_zero.2 h)
  rw [lastEpoch_one] at hmin
  omega

/-- A run that ends before its budget ends there within every budget that reaches so far. -/
theorem lastEpoch_eq_of_lt {other : Nat} (h : lastEpoch d p budget < budget) (hother : lastEpoch d p budget ≤ other) :
    lastEpoch d p other = lastEpoch d p budget := by
  rcases Nat.le_total other budget with hle | hle
  · rw [lastEpoch_eq_min hle]
    omega
  · have hmin := lastEpoch_eq_min (d := d) (p := p) hle
    omega

/-- A budget that does not reach the end of a longer run is used up. -/
theorem lastEpoch_eq_of_lt_lastEpoch {other : Nat} (h : other < lastEpoch d p budget) :
    lastEpoch d p other = other := by
  have hle := lastEpoch_le d p budget
  rw [lastEpoch_eq_min (Nat.le_of_lt (h.trans_le hle))]
  omega

end Times

section Valid

variable (hd : (d.validate : Except (ModelError α) Unit) = .ok ())
  (hp : (p.validate d : Except (ModelError α) Unit) = .ok ())
include hd hp

/-- The answer is a matter of the epoch at which the run ends. -/
theorem evaluate_congr {other : Nat} (hbudget : budget ≠ 0) (hother : other ≠ 0)
    (h : Times.lastEpoch d p other = Times.lastEpoch d p budget) : evaluate d p other = evaluate d p budget := by
  obtain ⟨orders, horders⟩ := Priority.exists_orders_iff.2 (Priority.validate_eq_ok.1 hp)
  have hjobs := Demand.jobs_ne_zero hd
  rw [evaluate_eq horders hjobs hother, evaluate_eq horders hjobs hbudget, Times.final, Times.final, h]

/-- Answer or fault, the run reports the epoch at which it ended. -/
theorem evaluate_cases (hbudget : budget ≠ 0) :
    (∃ e, evaluate d p budget = .ok e ∧ e.epochsRun = Times.lastEpoch d p budget) ∨
      ∃ objective, evaluate d p budget = .error (.numeric objective (Times.lastEpoch d p budget)) := by
  obtain ⟨orders, horders⟩ := Priority.exists_orders_iff.2 (Priority.validate_eq_ok.1 hp)
  rw [evaluate_eq horders (Demand.jobs_ne_zero hd) hbudget]
  split
  · exact .inl ⟨_, rfl, rfl⟩
  · exact .inr ⟨_, rfl⟩

theorem epochsRun_of_evaluate {e : Evaluation α} (h : evaluate d p budget = .ok e) :
    budget ≠ 0 ∧ e.epochsRun = Times.lastEpoch d p budget := by
  have hbudget : budget ≠ 0 := by
    rintro rfl
    cases h
  rcases evaluate_cases hd hp hbudget with ⟨_, hok, hepochs⟩ | ⟨_, herror⟩
  · obtain rfl := Except.ok.inj (h.symm.trans hok)
    exact ⟨hbudget, hepochs⟩
  · cases h.symm.trans herror

theorem epochs_of_evaluate_eq_numeric {objective : α} {epochs : Nat}
    (h : evaluate d p budget = .error (.numeric objective epochs)) :
    budget ≠ 0 ∧ epochs = Times.lastEpoch d p budget := by
  have hbudget : budget ≠ 0 := by
    rintro rfl
    cases h
  rcases evaluate_cases hd hp hbudget with ⟨_, hok, -⟩ | ⟨_, herror⟩
  · cases h.symm.trans hok
  · cases h.symm.trans herror
    exact ⟨hbudget, rfl⟩

/-- The budget of a run matters only as far as it cuts the run. A run has at least one epoch and no more than its
budget; one that ends before its budget has at least two epochs, and every budget that allows as many gives the same
answer. Within fewer epochs than a run takes, the model answers with all of them used up, if it answers, and what it
predicts of swaps is the same within all budgets. -/
theorem evaluate_stable_in_budget :
    (∀ budget e, evaluate d p budget = .ok e → 1 ≤ e.epochsRun ∧ e.epochsRun ≤ budget) ∧
    (∀ budget objective epochs, evaluate d p budget = .error (.numeric objective epochs) →
      1 ≤ epochs ∧ epochs ≤ budget) ∧
    (∀ budget e, evaluate d p budget = .ok e → e.epochsRun < budget →
      2 ≤ e.epochsRun ∧ ∀ other, e.epochsRun ≤ other → evaluate d p other = .ok e) ∧
    (∀ budget e, evaluate d p budget = .ok e → ∀ other e', evaluate d p other = .ok e' →
      (other < e.epochsRun → e'.epochsRun = other) ∧ e'.desirability = e.desirability) := by
  refine ⟨?_, ?_, ?_, ?_⟩
  · intro budget e he
    obtain ⟨hbudget, hepochs⟩ := epochsRun_of_evaluate hd hp he
    rw [hepochs]
    exact ⟨Times.one_le_lastEpoch hbudget, Times.lastEpoch_le d p budget⟩
  · intro budget objective epochs he
    obtain ⟨hbudget, rfl⟩ := epochs_of_evaluate_eq_numeric hd hp he
    exact ⟨Times.one_le_lastEpoch hbudget, Times.lastEpoch_le d p budget⟩
  · intro budget e he hearly
    obtain ⟨hbudget, hepochs⟩ := epochsRun_of_evaluate hd hp he
    rw [hepochs] at hearly ⊢
    have htwo := Times.two_le_of_settles (Times.settles_lastEpoch hearly)
    refine ⟨htwo, fun other hother => ?_⟩
    rw [← he]
    exact evaluate_congr hd hp hbudget (by omega) (Times.lastEpoch_eq_of_lt hearly hother)
  · intro budget e he other e' he'
    obtain ⟨-, hepochs⟩ := epochsRun_of_evaluate hd hp he
    obtain ⟨-, hepochs'⟩ := epochsRun_of_evaluate hd hp he'
    obtain ⟨orders, horders, hdesirability⟩ := orders_of_evaluate he
    obtain ⟨orders', horders', hdesirability'⟩ := orders_of_evaluate he'
    obtain rfl : orders' = orders := Except.ok.inj (horders'.symm.trans horders)
    refine ⟨fun hlt => ?_, hdesirability'.trans hdesirability.symm⟩
    rw [hepochs']
    exact Times.lastEpoch_eq_of_lt_lastEpoch (hepochs ▸ hlt)

end Valid

/-- The run settles in its third epoch, and two epochs are not enough for it. -/
theorem evaluate_contendedLinks_settles :
    (contendedLinks.validate : Except (ModelError Tangent) Unit) = .ok () ∧
    (contendedRanks.validate contendedLinks : Except (ModelError Tangent) Unit) = .ok () ∧
    ∃ e e', (∀ budget, 3 ≤ budget → evaluate contendedLinks contendedRanks budget = .ok e) ∧ e.epochsRun = 3 ∧
      evaluate contendedLinks contendedRanks 2 = .ok e' ∧ e'.epochsRun = 2 ∧ e'.desirability = e.desirability := by
  have hten : (evaluate contendedLinks contendedRanks 10).map Evaluation.epochsRun = .ok 3 := by decide +kernel
  have htwo : (evaluate contendedLinks contendedRanks 2).map (fun _ => ()) = .ok () := by decide +kernel
  obtain ⟨e, he, hepochs⟩ := Except.map_eq_ok.1 hten
  obtain ⟨e', he', -⟩ := Except.map_eq_ok.1 htwo
  obtain ⟨-, -, hsettled, hcut⟩ := evaluate_stable_in_budget validate_contendedLinks validate_contendedRanks
  obtain ⟨-, hlarger⟩ := hsettled 10 e he (by omega)
  obtain ⟨hused, hsame⟩ := hcut 10 e he 2 e' he'
  exact ⟨validate_contendedLinks, validate_contendedRanks, e, e', fun budget hbudget => hlarger budget (by omega),
    hepochs, he', hused (by omega), hsame⟩

end LinkPriority

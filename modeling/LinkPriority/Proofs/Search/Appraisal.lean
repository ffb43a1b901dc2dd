import LinkPriority.Search.Node
import LinkPriority.Proofs.Candidates
import LinkPriority.Proofs.Evaluation

/-! What a node keeps of the model's answer. An appraisal holds what `evaluate` says of the node's table, and its
actions are different swaps of neighbours in that table. Asking for the appraisal of a node whose table fits can
only fail numerically, and then nothing has changed. -/

namespace LinkPriority

variable {α σ : Type} [Scalar α] [IndexSource σ] {d : Demand α} {budget : Nat} {n : Node α} {choices : σ}

/-- The appraisal is the model's answer for the table `p`, with swaps of neighbours to try. -/
structure Appraisal.IsOf (a : Appraisal α) (d : Demand α) (p : Priority) (budget : Nat) : Prop where
  evaluation : ∃ e, evaluate d p budget = .ok e ∧ a.objective = e.objective ∧ a.slowdown = e.slowdown ∧
    a.epochsRun = e.epochsRun
  nodup : a.actions.Nodup
  overtakes : ∀ s ∈ a.actions, p.Overtakes d s

theorem Appraisal.IsOf.isFinite_objective {a : Appraisal α} {p : Priority} (h : a.IsOf d p budget) :
    Scalar.isFinite a.objective = true := by
  obtain ⟨e, he, hobjective, -⟩ := h.evaluation
  rw [hobjective]
  exact isFinite_objective_of_evaluate he

namespace Node

/-- `a` is what the model answers for a node with these choices at hand, and `after` what they are then. -/
structure Answers (n : Node α) (d : Demand α) (budget : Nat) (choices : σ) (a : Appraisal α) (after : σ) :
    Prop where
  isOf : a.IsOf d n.priority budget
  selected : ∃ e, evaluate d n.priority budget = .ok e ∧
    selectSwaps e.desirability d n.priority n.maxChildren choices = (.ok a.actions, after)

/-- The model's run for the node fails because of its numbers. -/
def Fails (n : Node α) (d : Demand α) (budget : Nat) (objective : α) (epochs : Nat) : Prop :=
  evaluate d n.priority budget = .error (.numeric objective epochs)

theorem appraise_of_known {a : Appraisal α} (ha : n.appraisal = some a) :
    n.appraise d budget choices = ⟨.ok a, false, n, choices, []⟩ := by
  simp only [appraise, ha]

/-- The model either answers for a node that was not appraised yet, or fails numerically and leaves everything as
it was. -/
theorem appraise_of_pending [OrderedScalar α] (hpending : n.appraisal = none) (hfits : n.priority.Fits d)
    (hbudget : budget ≠ 0) (choices : σ) :
    (∃ a after objectives, n.appraise d budget choices =
        ⟨.ok a, true, { n with appraisal := some a }, after, objectives⟩ ∧ n.Answers d budget choices a after) ∨
      ∃ objective epochs objectives, n.appraise d budget choices =
        ⟨.error (.numeric objective epochs), true, n, choices, objectives⟩ ∧ n.Fails d budget objective epochs := by
  obtain ⟨course, hcourse⟩ := hfits.exists_simulate_eq hbudget
  have horders := (simulate_eq_ok.1 hcourse).2.1
  cases hevaluation : course.evaluation d with
  | error e =>
    obtain ⟨objective, epochs, rfl⟩ := Course.evaluation_eq_error hevaluation
    refine .inr ⟨objective, epochs, course.objectives d, ?_, (evaluate_of_simulate hcourse).trans hevaluation⟩
    simp only [appraise, hpending, hcourse, hevaluation]
  | ok e =>
    have hevaluate : evaluate d n.priority budget = .ok e := (evaluate_of_simulate hcourse).trans hevaluation
    have hdesirability := (Course.evaluation_eq_ok hevaluation).2
    obtain ⟨swaps, after, hswaps, -, hnodup, hovertakes⟩ :=
      exists_selectSwaps_eq hfits horders n.maxChildren choices
    rw [← hdesirability] at hswaps
    refine .inl ⟨⟨e.objective, e.slowdown, swaps, e.epochsRun⟩, after, course.objectives d, ?_,
      ⟨⟨e, hevaluate, rfl, rfl, rfl⟩, hnodup, hovertakes⟩, e, hevaluate, hswaps⟩
    simp only [appraise, hpending, hcourse, hevaluation, hswaps]

/-- The table fits, and the appraisal, if there is one, is the model's answer for it. -/
structure Sound (n : Node α) (d : Demand α) (budget : Nat) : Prop where
  fits : n.priority.Fits d
  isOf : ∀ a, n.appraisal = some a → a.IsOf d n.priority budget

theorem sound_root {p : Priority} (hfits : p.Fits d) (maxChildren : Nat) :
    (Node.root p maxChildren : Node α).Sound d budget :=
  ⟨hfits, fun _ h => by simp [Node.root] at h⟩

theorem child_eq_ok {child : Node α} {action : Swap} {id : Nat} :
    n.child action id = .ok child ↔ ∃ p, (n.priority.apply action : Except (ModelError α) Priority) = .ok p ∧
      child = { root p n.maxChildren with
        id, action := some action, parent := some n.id, depth := n.depth + 1 } := by
  rw [Node.child, Except.map_eq_ok]
  simp only [eq_comm]

/-- A candidate of a sound node leads to a child, which is sound. -/
theorem Sound.exists_child_eq {a : Appraisal α} {action : Swap} (h : n.Sound d budget)
    (ha : n.appraisal = some a) (haction : action ∈ a.actions) (id : Nat) :
    ∃ child, n.child action id = .ok child ∧ child.Sound d budget := by
  have hovertakes := (h.isOf a ha).overtakes action haction
  obtain ⟨p, hp⟩ := hovertakes.apply
  refine ⟨_, child_eq_ok.2 ⟨p, hp, rfl⟩, ?_, fun _ h => by simp [Node.root] at h⟩
  exact Priority.Fits.apply hp h.fits hovertakes.promote hovertakes.demote

end Node

end LinkPriority

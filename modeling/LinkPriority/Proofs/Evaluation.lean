import LinkPriority.Sharing
import LinkPriority.Proofs.Queue

/-! When the model answers. On a table that fits its demand, within a positive budget, a run of the model can only
fail by its mean slowdown not being finite; an answer is finite, and its predicted effects are those of the queues
of the table. -/

namespace LinkPriority

variable {α : Type} [Scalar α] {d : Demand α} {p : Priority} {budget : Nat}

/-- A run of the model that has a budget and queues to run on. -/
theorem simulate_eq_ok {course : Course α} :
    simulate d p budget = .ok course ↔ budget ≠ 0 ∧ p.orders d = .ok course.orders ∧
      course.epochs = epochsFrom d course.orders none (.start d) budget := by
  unfold simulate
  split
  · next hzero => simp [hzero]
  · next hbudget =>
    rw [Except.map_eq_ok]
    constructor
    · rintro ⟨orders, horders, rfl⟩
      exact ⟨hbudget, horders, rfl⟩
    · rintro ⟨-, horders, hepochs⟩
      exact ⟨course.orders, horders, by rw [← hepochs]⟩

theorem Priority.Fits.exists_simulate_eq (hfits : p.Fits d) (hbudget : budget ≠ 0) :
    ∃ course, simulate d p budget = .ok course := by
  obtain ⟨orders, horders⟩ := Priority.exists_orders_iff.2 hfits
  exact ⟨⟨orders, epochsFrom d orders none (.start d) budget⟩, simulate_eq_ok.2 ⟨hbudget, horders, rfl⟩⟩

namespace Course

variable {course : Course α}

theorem evaluation_eq_error {e : ModelError α} (h : course.evaluation d = .error e) :
    ∃ objective epochs, e = .numeric objective epochs := by
  simp only [evaluation] at h
  split at h
  · simp at h
  · exact ⟨_, _, (Except.error.inj h).symm⟩

theorem evaluation_eq_ok {e : Evaluation α} (h : course.evaluation d = .ok e) :
    Scalar.isFinite e.objective = true ∧ e.desirability = desirability d course.orders := by
  simp only [evaluation] at h
  split at h
  · next hfinite =>
    cases h
    exact ⟨hfinite, rfl⟩
  · simp at h

end Course

theorem evaluate_of_simulate {course : Course α} (h : simulate d p budget = .ok course) :
    evaluate d p budget = course.evaluation d := by
  simp only [evaluate, h, bind, Except.bind]

/-- An answer is only given for a table that has queues, and its predicted effects are those of the queues. -/
theorem orders_of_evaluate {e : Evaluation α} (h : evaluate d p budget = .ok e) :
    ∃ orders, p.orders d = .ok orders ∧ e.desirability = desirability d orders := by
  obtain ⟨course, hcourse, he⟩ := Except.bind_eq_ok.1 h
  obtain ⟨-, horders, -⟩ := simulate_eq_ok.1 hcourse
  exact ⟨course.orders, horders, (Course.evaluation_eq_ok he).2⟩

/-- A finite answer is only given for a table that fits. -/
theorem isFinite_objective_of_evaluate {e : Evaluation α} (h : evaluate d p budget = .ok e) :
    Scalar.isFinite e.objective = true := by
  obtain ⟨course, -, he⟩ := Except.bind_eq_ok.1 h
  exact (Course.evaluation_eq_ok he).1

end LinkPriority

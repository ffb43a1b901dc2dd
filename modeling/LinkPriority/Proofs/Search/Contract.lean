import Mathlib
import LinkPriority.Proofs.Scalar.Exact
import LinkPriority.Proofs.Search.Solving

/-! What a solution is. The table of a node is the table of the root after as many swaps as the node is deep; the
swaps are of active cells, so a table that starts without ranks in inactive cells never gets any, and clearing it
at the end changes nothing. The solution is therefore the table that was appraised, and its numbers are what the
model says of it. -/

namespace LinkPriority

namespace Search

variable {α σ ω : Type} {s : Search α σ ω} {i p : Nat} {n m root : Node α}

/-- What led to a node is a candidate of the node it hangs below. -/
theorem IsTree.exists_action_mem (h : s.IsTree) (hn : s.node? i = some n) (hhangs : s.Hangs i n p m) :
    ∃ a action, m.appraisal = some a ∧ action ∈ a.actions ∧ n.action = some action ∧
      (m.priority.apply action : Except (ModelError α) Priority) = .ok n.priority := by
  obtain ⟨action, haction, happly⟩ := hhangs.swap
  have hmem : i ∈ m.children := List.count_pos_iff.1 (hhangs.once ▸ Nat.one_pos)
  obtain ⟨a, ha, -, hactions⟩ := h.appraisal_of_children hhangs.node (List.ne_nil_of_mem hmem)
  have hled : s.actionOf i ∈ m.children.map s.actionOf := List.mem_map_of_mem hmem
  rw [hactions, actionOf, hn, Option.bind_some, haction,
    List.mem_map_of_injective (Option.some_injective _)] at hled
  exact ⟨a, action, ha, hled, haction, happly⟩

/-- The table of a node is reached from the root's by as many swaps as the node is deep. -/
theorem IsTree.exists_swaps (h : s.IsTree) (hroot : s.node? 0 = some root) (hn : s.node? i = some n) :
    ∃ swaps : List Swap, swaps.length = n.depth ∧
      (swaps.foldlM (fun p swap => p.apply swap) root.priority : Except (ModelError α) Priority) =
        .ok n.priority := by
  induction i using Nat.strong_induction_on generalizing n with
  | _ i ih =>
    by_cases hi : i = 0
    · subst hi
      obtain ⟨r, hr, -, -, hdepth⟩ := h.root
      obtain rfl : root = n := Option.some.inj (hroot.symm.trans hn)
      obtain rfl : root = r := Option.some.inj (hroot.symm.trans hr)
      exact ⟨[], hdepth.symm, rfl⟩
    · obtain ⟨p, m, hhangs⟩ := h.hangs i n hn hi
      obtain ⟨swaps, hlength, hswaps⟩ := ih p hhangs.older hhangs.node
      obtain ⟨action, -, happly⟩ := hhangs.swap
      refine ⟨swaps ++ [action], ?_, ?_⟩
      · rw [List.length_append, hlength, hhangs.depth, List.length_singleton]
      · rw [List.foldlM_append]
        exact Except.bind_eq_ok.2 ⟨m.priority, hswaps, Except.bind_eq_ok.2 ⟨n.priority, happly, rfl⟩⟩

variable [Scalar α]

/-- Inactive cells keep the ranks they have at the root. -/
theorem Sound.rank_of_inactive (hs : s.Sound) (hroot : s.node? 0 = some root) (hn : s.node? i = some n)
    {job link : Nat} (hlink : link < s.demand.links) (hinactive : s.demand.isActive job link = false) :
    n.priority.rank job link = root.priority.rank job link := by
  induction i using Nat.strong_induction_on generalizing n with
  | _ i ih =>
    by_cases hi : i = 0
    · subst hi
      rw [Option.some.inj (hroot.symm.trans hn)]
    · obtain ⟨p, m, hhangs⟩ := hs.tree.hangs i n hn hi
      obtain ⟨a, action, ha, haction, -, happly⟩ := hs.tree.exists_action_mem hn hhangs
      have hsound := hs.node p m hhangs.node
      have hovertakes := (hsound.isOf a ha).overtakes action haction
      rw [← ih p hhangs.older hhangs.node]
      exact Priority.rank_apply_of_inactive happly hovertakes.promote hovertakes.demote
        (hsound.fits.links ▸ hlink) hinactive

/-- Where the root has no ranks in inactive cells, the tables have nothing to clear. -/
theorem Sound.clearInactive_eq_self (hs : s.Sound) (hroot : s.node? 0 = some root) (hn : s.node? i = some n)
    (hzero : ∀ job < s.demand.jobs, ∀ link < s.demand.links, s.demand.isActive job link = false →
      root.priority.rank job link = 0) : n.priority.clearInactive s.demand = n.priority := by
  have hfits := (hs.node i n hn).fits
  refine Priority.clearInactive_eq_self fun job hjob link hlink hinactive => ?_
  rw [hfits.jobs] at hjob
  rw [hfits.links] at hlink
  rw [hs.rank_of_inactive hroot hn hlink hinactive]
  exact hzero job hjob link hlink hinactive

end Search

variable {α σ : Type} [Scalar α] [IndexSource σ] [OrderedScalar α]
  {d : Demand α} {settings : Settings} {choices : σ}

/-- A solution is a valid table that the model gives its numbers, not worse than the warm start and as many swaps
away from it as it says, with nothing in its inactive cells. -/
theorem solution_contract (hd : (d.validate : Except (ModelError α) Unit) = .ok ()) {s : Solution α}
    (h : (solveWith d settings choices).outcome = .ok s) :
    (s.priority.validate d : Except (ModelError α) Unit) = .ok () ∧
    (∀ job < d.jobs, ∀ link < d.links, d.isActive job link = false → s.priority.rank job link = 0) ∧
    (∃ e, evaluate d s.priority settings.epochBudget = .ok e ∧ s.objective = e.objective ∧
      s.slowdown = e.slowdown) ∧
    (∃ e, evaluate d (settings.warmStart.priority d) settings.epochBudget = .ok e ∧
      s.warmStartObjective = e.objective) ∧
    Scalar.le s.objective s.warmStartObjective = true ∧
    (∃ swaps : List Swap, swaps.length = s.bestDepth ∧
      (swaps.foldlM (fun p swap => p.apply swap) (settings.warmStart.priority d) :
        Except (ModelError α) Priority) = .ok s.priority) ∧
    s.iterations = settings.iterations := by
  have houtcome := solve_outcome hd settings choices Observer.silent
  obtain ⟨⟨solution, u⟩, hsolve, rfl⟩ := Except.map_eq_ok.1 h
  rw [hsolve] at houtcome
  cases houtcome with
  | @solved s₀ s₁ s' a _ hstart ha hiterates hsolution =>
    obtain ⟨hs, hdemand, hsettings⟩ := Search.sound_of_run hstart ha hiterates.changes
    obtain ⟨root, hroot, hwarm, hknown⟩ := Search.exists_root_of_run hstart ha hiterates.changes
    obtain ⟨n, b, hbest, rfl⟩ := Search.finalize_eq_ok.1 hsolution
    obtain ⟨id, hn, -, hb⟩ := (Search.mem_eligible hs.tree).1 (Search.mem_eligible_of_best? hbest)
    have hzero : ∀ job < d.jobs, ∀ link < d.links, d.isActive job link = false →
        root.priority.rank job link = 0 := by
      intro job hjob link hlink hnot
      rw [hwarm]
      exact WarmStart.rank_of_inactive settings.warmStart d hjob hlink hnot
    have hclear : n.priority.clearInactive s'.demand = n.priority :=
      hs.clearInactive_eq_self hroot hn (hdemand.symm ▸ hzero)
    have hwarmStart : s'.rootObjective?.getD b.objective = a.objective := by
      rw [Search.rootObjective?, hroot, Option.bind_some, Node.objective?, hknown, Option.map_some,
        Option.getD_some]
    have hfits := (hs.node id n hn).fits
    obtain ⟨e, he, hobjective, hslowdown, -⟩ := ((hs.node id n hn).isOf b hb).evaluation
    obtain ⟨e₀, he₀, hobjective₀, -⟩ := ((hs.node 0 root hroot).isOf a hknown).evaluation
    obtain ⟨swaps, hlength, hswaps⟩ := hs.tree.exists_swaps hroot hn
    have hle := hs.le_of_best? hbest ((Search.mem_eligible hs.tree).2 ⟨0, hroot, .inl rfl, hknown⟩)
    have hinactive : ∀ job < d.jobs, ∀ link < d.links, d.isActive job link = false →
        n.priority.rank job link = 0 := by
      intro job hjob link hlink hnot
      rw [hs.rank_of_inactive hroot hn (hdemand.symm ▸ hlink) (hdemand.symm ▸ hnot)]
      exact hzero job hjob link hlink hnot
    rw [hdemand] at hfits he he₀
    rw [hsettings] at he he₀
    rw [hwarm] at he₀ hswaps
    simp only [hclear, hwarmStart]
    refine ⟨Priority.validate_eq_ok.2 hfits, hinactive, ⟨e, he, hobjective, hslowdown⟩, ⟨e₀, he₀, hobjective₀⟩,
      hle, ⟨swaps, hlength, hswaps⟩, ?_⟩
    rw [hiterates.iterations_eq, ha.iterations_eq]
    obtain ⟨-, -, -, rfl⟩ := Search.start_eq_ok.1 hstart
    exact Nat.zero_add _

theorem solution_of_sharedLink :
    ∃ s, (solveWith sharedLink { iterations := 1, warmStart := .identity } (WordStream.ofSeed 0)).outcome = .ok s ∧
      s.bestDepth = 1 ∧ (s.priority.validate sharedLink : Except (ModelError Tangent) Unit) = .ok () ∧
      Scalar.le s.objective s.warmStartObjective = true := by
  have hd : (sharedLink.validate : Except (ModelError Tangent) Unit) = .ok () := by cbv
  have hdepth : (solveWith sharedLink { iterations := 1, warmStart := .identity }
      (WordStream.ofSeed 0)).outcome.toOption.map Solution.bestDepth = some 1 := by cbv
  obtain ⟨s, hs, hdepth⟩ := Option.map_eq_some_iff.1 hdepth
  cases houtcome : (solveWith sharedLink { iterations := 1, warmStart := .identity }
      (WordStream.ofSeed 0)).outcome with
  | error e => simp [houtcome, Except.toOption] at hs
  | ok s' =>
    obtain rfl : s' = s := by simpa [houtcome, Except.toOption] using hs
    obtain ⟨hvalid, -, -, -, hle, -⟩ := solution_contract hd houtcome
    exact ⟨s', rfl, hdepth, hvalid, hle⟩

end LinkPriority

import LinkPriority.Bench
import LinkPriority.Proofs.Demand
import LinkPriority.Proofs.Except

/-! Random instances. Whatever the stream, as long as its draws stay within their ranges, every load that is drawn is
made of amounts and is used, and every job draws one on the link it is bound to; so the instance is accepted, as far as
its cells can be counted in a word, and each of its jobs is there on some link. -/

namespace LinkPriority

open Scalar

/-- Draws that stay within their ranges. -/
class LawfulUniformSource (σ α : Type) [Scalar α] [UniformSource σ α] : Prop where
  below_lt {range : Nat} (source : σ) : 0 < range → (UniformSource.below α range source).1 < range
  between_mem {low high : α} (source : σ) : isFinite low = true → isFinite high = true → lt low high = true →
    isFinite (UniformSource.between low high source).1 = true ∧
      le low (UniformSource.between low high source).1 = true ∧
      lt (UniformSource.between low high source).1 high = true

variable {α σ : Type} [Scalar α] [UniformSource σ α] {jobs links : Nat}

/-- What some loads of one job have to be: amounts, one for each link, with one that is used. -/
structure IsJobRow (links : Nat) (row : List (Load α)) : Prop where
  length : row.length = links
  amounts : ∀ load ∈ row, load.isAmount = true
  used : ∃ link < links, ∃ load, row[link]? = some load ∧ load.isActive = true

/-! ### Loads -/

section Loads

variable [OrderedScalar α] [CountingScalar α] [LawfulUniformSource σ α]

/-- A number drawn between two positive whole numbers is an amount that is not zero. -/
theorem isAmount_between_ofNat {low high : Nat} (source : σ) (hpos : 0 < low) (hlt : low < high) (hhigh : high ≤ 20) :
    isAmount (UniformSource.between (ofNat low : α) (ofNat high) source).1 = true ∧
      isZero (UniformSource.between (ofNat low : α) (ofNat high) source).1 = false := by
  have hlow : low ≤ 20 := Nat.le_trans (Nat.le_of_lt hlt) hhigh
  have hbounds : lt (ofNat low : α) (ofNat high) = true := CountingScalar.lt_ofNat hlt hhigh
  obtain ⟨hfinite, hle, -⟩ := LawfulUniformSource.between_mem source (CountingScalar.isFinite_ofNat hlow)
    (CountingScalar.isFinite_ofNat hhigh) hbounds
  exact ⟨isAmount_of_ofNat_le hpos hlow hfinite hle, isZero_of_ofNat_le hpos hlow hfinite hle⟩

theorem isAmount_randomLoad {source after : σ} {load : Load α} (h : randomLoad source = (load, after)) :
    load.isAmount = true ∧ load.isActive = true := by
  obtain ⟨rfl, -⟩ := Prod.mk.inj h
  let between := (UniformSource.between (ofNat 2 : α) (ofNat 6) source).2
  have hcompute : isAmount (UniformSource.between (ofNat 2 : α) (ofNat 6) source).1 = true ∧
      isZero (UniformSource.between (ofNat 2 : α) (ofNat 6) source).1 = false :=
    isAmount_between_ofNat source (by decide) (by decide) (by decide)
  have hcomm : isAmount (UniformSource.between (ofNat 10 : α) (ofNat 20) between).1 = true ∧
      isZero (UniformSource.between (ofNat 10 : α) (ofNat 20) between).1 = false :=
    isAmount_between_ofNat between (by decide) (by decide) (by decide)
  exact ⟨Bool.and_eq_true_iff.2 ⟨hcompute.1, hcomm.1⟩, Bool.or_eq_true_iff.2 (.inl (congrArg not hcompute.2))⟩

omit [OrderedScalar α] [CountingScalar α] [LawfulUniformSource σ α] in
/-- On each link there is a random load, or none if the job is not bound to the link. -/
theorem randomLoads_cons {forced link : Nat} {rest : List Nat} {source after : σ} {row : List (Load α)}
    (h : randomLoads forced (link :: rest) source = (row, after)) :
    ∃ load tail between, row = load :: tail ∧ randomLoads forced rest between = (tail, after) ∧
      (link ≠ forced ∧ load = .idle ∨ ∃ before : σ, randomLoad before = (load, between)) := by
  by_cases hlink : link = forced
  · rw [randomLoads, if_pos hlink] at h
    obtain ⟨rfl, rfl⟩ := Prod.mk.inj h
    exact ⟨_, _, _, rfl, rfl, .inr ⟨source, rfl⟩⟩
  · rw [randomLoads, if_neg hlink] at h
    cases hcoin : UniformSource.coin α source with
    | mk used flipped =>
      simp only [bind, StateT.bind, hcoin] at h
      cases used with
      | true =>
        obtain ⟨rfl, rfl⟩ := Prod.mk.inj h
        exact ⟨_, _, _, rfl, rfl, .inr ⟨flipped, rfl⟩⟩
      | false =>
        obtain ⟨rfl, rfl⟩ := Prod.mk.inj h
        exact ⟨_, _, _, rfl, rfl, .inl ⟨hlink, rfl⟩⟩

/-- The loads of a job are amounts, one for each link, and the one on the link it is bound to is used. -/
theorem randomLoads_spec {forced : Nat} {on : List Nat} {source after : σ} {row : List (Load α)}
    (h : randomLoads forced on source = (row, after)) :
    row.length = on.length ∧ (∀ load ∈ row, load.isAmount = true) ∧
    ∀ i : Nat, on[i]? = some forced → ∃ load, row[i]? = some load ∧ load.isActive = true := by
  induction on generalizing source row with
  | nil =>
    obtain ⟨rfl, rfl⟩ := Prod.mk.inj h
    exact ⟨rfl, by simp, by simp⟩
  | cons link rest ih =>
    obtain ⟨load, tail, between, rfl, htail, hload⟩ := randomLoads_cons h
    obtain ⟨hlength, hamounts, hused⟩ := ih htail
    have hgood : load.isAmount = true ∧ (link = forced → load.isActive = true) := by
      rcases hload with ⟨hlink, rfl⟩ | ⟨before, hdrawn⟩
      · exact ⟨Load.isAmount_idle, fun hsame => absurd hsame hlink⟩
      · obtain ⟨hamount, hactive⟩ := isAmount_randomLoad hdrawn
        exact ⟨hamount, fun _ => hactive⟩
    refine ⟨congrArg (· + 1) hlength, List.forall_mem_cons.2 ⟨hgood.1, hamounts⟩, fun i hi => ?_⟩
    cases i with
    | zero => exact ⟨load, rfl, hgood.2 (Option.some.inj hi)⟩
    | succ i => exact hused i hi

/-- A random table is made of rows, one for each job. -/
theorem exists_randomRows_eq (hlinks : 0 < links) (jobs : Nat) (source : σ) :
    ∃ rows : List (List (Load α)), (randomRows links jobs source).1 = rows.flatMap id ∧ rows.length = jobs ∧
      ∀ row ∈ rows, IsJobRow links row := by
  induction jobs generalizing source with
  | zero => exact ⟨[], rfl, rfl, by simp⟩
  | succ jobs ih =>
    cases hforced : UniformSource.below α links source with
    | mk forced source₁ =>
      have hlt : forced < links := by
        have hbelow : (UniformSource.below α links source).1 < links := LawfulUniformSource.below_lt source hlinks
        rwa [hforced] at hbelow
      cases hrow : (randomLoads forced (List.range links) source₁ : List (Load α) × σ) with
      | mk row source₂ =>
        obtain ⟨hlength, hamounts, hused⟩ := randomLoads_spec hrow
        obtain ⟨rows, heq, hjobs, hrows⟩ := ih source₂
        refine ⟨row :: rows, ?_, congrArg (· + 1) hjobs, List.forall_mem_cons.2 ⟨⟨?_, hamounts, ?_⟩, hrows⟩⟩
        · rw [List.flatMap_cons, ← heq, randomRows]
          simp only [bind, StateT.bind, hforced, hrow]
          rfl
        · rw [hlength, List.length_range]
        · exact ⟨forced, hlt, hused forced (by rw [List.getElem?_range hlt])⟩

end Loads

/-! ### Instances -/

theorem randomInstance_eq (hlinks : 0 < links) (jobs : Nat) (source : σ) :
    (randomInstance jobs links source : Except (InstanceError α) (Demand α) × σ) =
      ((Demand.ofCells jobs links (randomRows links jobs source).1).mapError .refused,
        (randomRows links jobs source : List (Load α) × σ).2) := by
  rw [randomInstance, if_neg fun h => Nat.ne_of_gt hlinks h.2]
  rfl

variable [OrderedScalar α] [CountingScalar α] [LawfulUniformSource σ α]

/-- An instance is an accepted demand of its shape, and each of its jobs uses a link. -/
theorem randomInstance_spec (hlinks : 0 < links) {source after : σ} {d : Demand α}
    (h : randomInstance jobs links source = (.ok d, after)) :
    (d.validate : Except (ModelError α) Unit) = .ok () ∧ d.jobs = jobs ∧ d.links = links ∧
      ∀ job < jobs, ∃ link < links, d.isActive job link = true := by
  rw [randomInstance_eq hlinks, Prod.mk.injEq, Except.mapError_eq_ok, Demand.ofCells_eq_ok] at h
  obtain ⟨⟨haccepted, rfl⟩, -⟩ := h
  refine ⟨haccepted, rfl, rfl, fun job hjob => ?_⟩
  obtain ⟨rows, hrows, hlength, hgood⟩ : ∃ rows : List (List (Load α)), _ :=
    exists_randomRows_eq hlinks jobs source
  obtain ⟨row, hrow⟩ : ∃ row, rows[job]? = some row := ⟨_, List.getElem?_eq_getElem (hlength ▸ hjob)⟩
  obtain ⟨link, hlink, load, hload, hactive⟩ := (hgood row (List.mem_of_getElem? hrow)).used
  refine ⟨link, hlink, ?_⟩
  have hcell : (rows.flatMap id)[job * links + link]? = row[link]? :=
    Grid.getElem?_flatMap_row (fun row hmem => (hgood row hmem).length) hrow hlink
  rw [Demand.isActive, Demand.load, Grid.getD_eq, List.getElem?_toArray, hrows, hcell, hload, Option.getD_some, hactive]

/-- There is an instance as far as its cells can be counted. -/
theorem exists_randomInstance_eq (hjobs : 0 < jobs) (hlinks : 0 < links) (hcells : jobs * links < UInt64.size)
    (source : σ) : ∃ (d : Demand α) (after : σ), randomInstance jobs links source = (.ok d, after) := by
  obtain ⟨rows, hrows, hlength, hgood⟩ : ∃ rows : List (List (Load α)), _ :=
    exists_randomRows_eq hlinks jobs source
  let d : Demand α := ⟨⟨jobs, links, (rows.flatMap id).toArray⟩⟩
  have haccepted : (d.validate : Except (ModelError α) Unit) = .ok () := by
    refine Demand.validate_eq_ok.2 ⟨Nat.ne_of_gt hjobs, Nat.ne_of_gt hlinks, ?_, fun cell load hmem => ?_⟩
    · have hrow : rows.map (fun row => (id row).length) = rows.map fun _ => links :=
        List.map_congr_left fun row hmem => (hgood row hmem).length
      rw [Demand.cellCount_of_lt _ hcells, List.size_toArray, List.length_flatMap, hrow, List.map_const',
        List.sum_replicate_nat, hlength]
    · obtain ⟨i, hi, -⟩ := Grid.mem_entries.1 hmem
      rw [List.getElem?_toArray] at hi
      obtain ⟨row, hrow, hload⟩ := List.mem_flatMap.1 (List.mem_of_getElem? hi)
      exact (hgood row hrow).amounts load hload
  have hmade : Demand.ofCells jobs links (rows.flatMap id) = .ok d := Demand.ofCells_eq_ok.2 ⟨haccepted, rfl⟩
  refine ⟨d, (randomRows links jobs source : List (Load α) × σ).2, ?_⟩
  rw [randomInstance_eq hlinks, hrows, hmade]
  rfl

end LinkPriority

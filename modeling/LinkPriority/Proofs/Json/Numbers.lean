import Mathlib.Tactic.IntervalCases
import LinkPriority.Proofs.Json.Strings

/-! Numbers that are written by the grammar are read, stage by stage: the digits before the point, those after it, the
exponent. After each stage the number could end. Nothing of its own ends it, but any symbol that does not belong to it
does. -/

namespace LinkPriority.Json

section Digit

variable {d : Nat} (h : d < 10)
include h

theorem digitChar_spec : d.digitChar.toNat < 0x80 ∧ digit? d.digitChar = some d := by
  have hall : ∀ d < 10, (Nat.digitChar d).toNat < 0x80 ∧ digit? (Nat.digitChar d) = some d := by decide +kernel
  exact hall d h

@[simp] theorem digit?_symbol_octetOf : digit? (symbol (octetOf d.digitChar)) = some d := by
  rw [symbol_octetOf (digitChar_spec h).1, (digitChar_spec h).2]

end Digit

namespace NumberScan

/-- A number may end, or go on with an exponent. -/
def MayEnd (phase : NumberPhase) : Prop := phase = .zero ∨ phase = .whole ∨ phase = .fraction

variable (negative : Bool) (whole : List Nat) {fraction : List Nat} {phase : NumberPhase}

/-- Digits are collected latest first. -/
theorem advances_digits {f : List Nat → NumberScan} {ds : List Nat}
    (hstep : ∀ before d, d < 10 → step (f before) (octetOf d.digitChar) = .more (f (d :: before)))
    (h : ∀ d ∈ ds, d < 10) (before : List Nat) :
    Advances step (f before) (utf8 (digitChars ds)) (f (ds.reverse ++ before)) := by
  induction ds generalizing before with
  | nil => exact .refl _
  | cons d ds ih =>
    obtain ⟨hd, hds⟩ := List.forall_mem_cons.1 h
    rw [List.reverse_cons, List.append_assoc, List.singleton_append]
    exact .ascii (digitChar_spec hd).1 (hstep before d hd) (ih hds _)

/-- One or more digits are collected, where the first of them begins a stage. -/
theorem advances_isDigits {f : List Nat → NumberScan} {s : NumberScan} {ds : List Nat}
    (hfirst : ∀ d, d < 10 → step s (octetOf d.digitChar) = .more (f [d]))
    (hstep : ∀ before d, d < 10 → step (f before) (octetOf d.digitChar) = .more (f (d :: before)))
    (h : IsDigits ds) : Advances step s (utf8 (digitChars ds)) (f ds.reverse) := by
  obtain ⟨hne, hdigits⟩ := h
  obtain ⟨d, ds, rfl⟩ := List.exists_cons_of_ne_nil hne
  obtain ⟨hd, hds⟩ := List.forall_mem_cons.1 hdigits
  rw [List.reverse_cons]
  exact .ascii (digitChar_spec hd).1 (hfirst d hd) (advances_digits hstep hds [d])

/-- The digits before the point, after the first of them. -/
theorem advances_whole {d : Nat} {ds : List Nat} (h : ∀ e ∈ ds, e < 10) (hzero : d = 0 → ds = [])
    (begun : NumberPhase) : ∃ phase, (phase = .zero ∨ phase = .whole) ∧
      Advances step (firstDigit { phase := begun, negative } d) (utf8 (digitChars ds))
        { phase, negative, whole := (d :: ds).reverse } := by
  by_cases hd : d = 0
  · obtain rfl := hzero hd
    refine ⟨.zero, .inl rfl, ?_⟩
    rw [firstDigit, if_pos hd]
    exact .refl _
  · refine ⟨.whole, .inr rfl, ?_⟩
    rw [firstDigit, if_neg hd, List.reverse_cons]
    exact advances_digits (f := fun whole => { phase := .whole, negative, whole })
      (fun _ _ hd => by simp [step, hd]) h [d]

theorem advances_fraction {cs : List Char} (h : FractionWritten fraction cs)
    (hphase : phase = .zero ∨ phase = .whole) : ∃ phase', MayEnd phase' ∧
      Advances step { phase, negative, whole } (utf8 cs)
        { phase := phase', negative, whole, fraction := fraction.reverse } := by
  cases h with
  | none => exact ⟨phase, hphase.imp_right .inl, .refl _⟩
  | digits h =>
    refine ⟨.fraction, .inr (.inr rfl), .ascii (by decide) (t := { phase := .point, negative, whole }) ?_ ?_⟩
    · rcases hphase with rfl | rfl <;> rfl
    · exact advances_isDigits (f := fun fraction => { phase := .fraction, negative, whole, fraction })
        (fun _ hd => by simp [step, hd]) (fun _ _ hd => by simp [step, hd]) h

/-- After the exponent the number is complete. -/
theorem advances_exponent {exponent : Option (Bool × List Nat)} {cs : List Char} (h : ExponentWritten exponent cs)
    (hphase : MayEnd phase) (fraction : List Nat) : ∃ s,
      Advances step { phase, negative, whole, fraction } (utf8 cs) s ∧ s.isComplete = true ∧
      s.result = ⟨negative, whole.reverse, fraction.reverse, exponent⟩ := by
  cases h with
  | none =>
    refine ⟨_, .refl _, ?_, rfl⟩
    rcases hphase with rfl | rfl | rfl <;> rfl
  | @digits mark exponentNegative sign ds hmark hsign h =>
    have hascii : mark.toNat < 0x80 := by rcases hmark with rfl | rfl <;> decide
    let marked : NumberScan := { phase := .mark, negative, whole, fraction }
    have hmarked : step { phase, negative, whole, fraction } (octetOf mark) = .more marked := by
      rcases hmark with rfl | rfl <;> rcases hphase with rfl | rfl | rfl <;> rfl
    let f : List Nat → NumberScan := fun exponent =>
      { phase := .exponent, negative, whole, fraction, exponentNegative, exponent }
    have hmore : ∀ before d, d < 10 → step (f before) (octetOf d.digitChar) = .more (f (d :: before)) :=
      fun _ _ hd => by simp [f, step, hd]
    have hdigits : Advances step marked (utf8 (sign ++ digitChars ds)) (f ds.reverse) := by
      simp only [List.mem_cons, Prod.mk.injEq, List.not_mem_nil, or_false] at hsign
      rcases hsign with ⟨rfl, rfl⟩ | ⟨rfl, rfl⟩ | ⟨rfl, rfl⟩
      · exact advances_isDigits (fun _ hd => by simp [marked, f, step, hd]) hmore h
      all_goals
        refine .ascii (by decide) rfl (advances_isDigits (fun _ hd => ?_) hmore h)
        simp [marked, f, step, hd]
    refine ⟨f ds.reverse, .ascii hascii hmarked hdigits, rfl, ?_⟩
    simp [result, f, h.1]

/-- The whole number after its sign and the first digit. -/
theorem advances_afterDigit {d : Nat} {ds : List Nat} {fs es : List Char} {exponent : Option (Bool × List Nat)}
    (hdigits : ∀ e ∈ ds, e < 10) (hzero : d = 0 → ds = []) (hfraction : FractionWritten fraction fs)
    (hexponent : ExponentWritten exponent es) (begun : NumberPhase) :
    ∃ s, Advances step (firstDigit { phase := begun, negative } d) (utf8 (digitChars ds ++ fs ++ es)) s ∧
      s.isComplete = true ∧ s.result = ⟨negative, d :: ds, fraction, exponent⟩ := by
  obtain ⟨phase, hphase, hadvanceWhole⟩ := advances_whole negative hdigits hzero begun
  obtain ⟨phase', hphase', hadvanceFraction⟩ := advances_fraction negative (d :: ds).reverse hfraction hphase
  obtain ⟨s, hadvanceExponent, hcomplete, hresult⟩ :=
    advances_exponent negative (d :: ds).reverse hexponent hphase' fraction.reverse
  rw [List.reverse_reverse, List.reverse_reverse] at hresult
  rw [utf8_append, utf8_append]
  exact ⟨s, (hadvanceWhole.append hadvanceFraction).append hadvanceExponent, hcomplete, hresult⟩

theorem beginValue_digitChar {d : Nat} (h : d < 10) (stack : List Frame) :
    Machine.beginValue stack d.digitChar = some ⟨stack, .number (firstDigit { phase := .zero } d)⟩ := by
  interval_cases d <;> rfl

/-- A number leads from its first symbol, with which a machine begins it, to a complete scan. -/
theorem exists_complete {text : NumberText} {cs : List Char} (h : NumberWritten text cs) :
    ∃ c rest begun s, cs = c :: rest ∧ c.toNat < 0x80 ∧
      (∀ stack, Machine.beginValue stack c = some ⟨stack, .number begun⟩) ∧
      Advances step begun (utf8 rest) s ∧ s.isComplete = true ∧ s.result = text := by
  obtain ⟨hsign, ⟨hne, hdigits⟩, hzero, hfraction, hexponent⟩ := h
  rename_i negative whole fraction exponent sign fs es
  obtain ⟨d, ds, rfl⟩ := List.exists_cons_of_ne_nil hne
  obtain ⟨hd, hds⟩ := List.forall_mem_cons.1 hdigits
  have hsingle : d = 0 → ds = [] := fun h => (List.cons.inj (hzero (congrArg some h))).2
  simp only [List.mem_cons, Prod.mk.injEq, List.not_mem_nil, or_false] at hsign
  rcases hsign with ⟨rfl, rfl⟩ | ⟨rfl, rfl⟩
  · obtain ⟨s, hadvance, hs⟩ := advances_afterDigit false hds hsingle hfraction hexponent .zero
    exact ⟨d.digitChar, _, _, s, rfl, (digitChar_spec hd).1, beginValue_digitChar hd, hadvance, hs⟩
  · obtain ⟨s, hadvance, hs⟩ := advances_afterDigit true hds hsingle hfraction hexponent .sign
    refine ⟨'-', _, _, s, rfl, by decide, fun _ => rfl, .ascii (digitChar_spec hd).1 ?_ hadvance, hs⟩
    simp [step, hd]

/-- A complete number ends at any symbol that does not belong to it. -/
theorem step_of_isComplete {s : NumberScan} (h : s.isComplete = true) {octet : UInt8}
    (hdigit : digit? (symbol octet) = none) (hsymbol : symbol octet ∉ ['.', 'e', 'E']) :
    s.step octet = .done s.result := by
  simp only [List.mem_cons, List.not_mem_nil, or_false, not_or] at hsymbol
  obtain ⟨hpoint, hmark⟩ := hsymbol
  have hfinish : s.finish = .done s.result := if_pos h
  have hmarkOrFinish : s.markOrFinish (symbol octet) = .done s.result := by
    rw [markOrFinish, if_neg (not_or.2 hmark), hfinish]
  have hpointOrFinish : s.pointOrFinish (symbol octet) = .done s.result := by
    rw [pointOrFinish, if_neg hpoint, hmarkOrFinish]
  rw [step, hdigit]
  cases hphase : s.phase with
  | zero | whole => exact hpointOrFinish
  | fraction => exact hmarkOrFinish
  | exponent => exact hfinish
  | sign | point | mark | markSign => simp [isComplete, hphase] at h

end NumberScan

end LinkPriority.Json

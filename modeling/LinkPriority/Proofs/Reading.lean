import Mathlib.Tactic.Common
import LinkPriority.Request.Reader

/-! Where a text may be cut. Once the value of a text is complete the reader takes nothing but blanks, and they leave
it as it is. So if the beginning of a text is a text already, only blanks follow, unless that beginning is a number,
which may go on. A request is an object, so what is left of it after a cut is refused or still the same request. -/

namespace LinkPriority

namespace Json

/-- The octets that may stand around a value: space, tab, line feed and carriage return. -/
def blankOctets : List UInt8 := [0x20, 0x09, 0x0a, 0x0d]

namespace Machine

theorem isBlank_symbol (octet : UInt8) : isBlank (symbol octet) = true ↔ octet ∈ blankOctets := by
  have hall : ∀ n < 256, isBlank (Char.ofNat n) = true ↔ UInt8.ofNat n ∈ blankOctets := by decide +kernel
  have h := hall octet.toNat octet.toNat_lt
  rwa [UInt8.ofNat_toNat] at h

variable {m m' : Machine} {v : Value} (hphase : m.phase = .blanks v)
include hphase

theorem step_of_blanks (octet : UInt8) : m.step octet = if octet ∈ blankOctets then some m else none := by
  obtain ⟨stack, phase⟩ := m
  obtain rfl := hphase
  simp only [step, between, isBlank_symbol]

/-- After a complete value exactly the blanks can be read. -/
theorem run_of_blanks {octets : List UInt8} :
    m.run octets = some m' ↔ m' = m ∧ ∀ octet ∈ octets, octet ∈ blankOctets := by
  induction octets with
  | nil => simp [run, eq_comm]
  | cons octet rest ih =>
    rw [run, List.foldlM_cons, step_of_blanks hphase, List.forall_mem_cons]
    by_cases hblank : octet ∈ blankOctets
    · rw [if_pos hblank]
      exact ih.trans (by simp [hblank])
    · simp [hblank]

end Machine

/-- A text that goes on after a complete value goes on with blanks and has the same value; only a number may be
read differently when it goes on. -/
theorem Value.read?_append {octets more : List UInt8} {v w : Value} (hpart : Value.read? octets = some v)
    (hwhole : Value.read? (octets ++ more) = some w) :
    (w = v ∧ ∀ octet ∈ more, octet ∈ blankOctets) ∨ ∃ text, v = .number text := by
  obtain ⟨m, hm, hv⟩ := Option.bind_eq_some_iff.1 hpart
  obtain ⟨m', hm', hw⟩ := Option.bind_eq_some_iff.1 hwhole
  rw [Machine.run_append, hm, Option.bind_some] at hm'
  rw [Machine.result.eq_def] at hv
  split at hv
  · next hphase =>
    -- the value was complete, so the machine has stayed as it was
    obtain rfl := Option.some.inj hv
    obtain ⟨rfl, hblank⟩ := (Machine.run_of_blanks hphase).1 hm'
    rw [Machine.result, hphase] at hw
    exact .inl ⟨(Option.some.inj hw).symm, hblank⟩
  · -- the end of the text completed a number
    split at hv
    · exact .inr ⟨_, (Option.some.inj hv).symm⟩
    · exact nomatch hv
  · exact nomatch hv

end Json

namespace Request

open Json

variable {payload : List UInt8} {r : Request Binary64}

theorem read_eq_ok : Request.read payload = .ok r ↔ payload.all isVoid = false ∧
    ∃ members, Value.read? payload = some (.object members) ∧
      IdMap.read? (IdMap.read? Load.read?) (.object members) = some r.jobs := by
  constructor
  · intro h
    rw [Request.read] at h
    split at h
    · exact nomatch h
    · next hvoid =>
      split at h
      · next jobs hjobs =>
        obtain rfl := Except.ok.inj h
        obtain ⟨value, hvalue, hread⟩ := Option.bind_eq_some_iff.1 hjobs
        cases value with
        | object members => exact ⟨Bool.eq_false_iff.2 hvoid, members, hvalue, hread⟩
        | null | bool | number | string | array => exact nomatch hread
      · exact nomatch h
  · rintro ⟨hvoid, members, hvalue, hread⟩
    simp only [Request.read, hvoid, hvalue, Option.bind_some, hread, Bool.false_eq_true, if_false]

theorem read_cases (payload : List UInt8) : Request.read payload = .error .empty ∨
    Request.read payload = .error .malformed ∨ ∃ r, Request.read payload = .ok r := by
  rw [Request.read]
  split
  · exact .inl rfl
  · split
    · exact .inr (.inr ⟨_, rfl⟩)
    · exact .inr (.inl rfl)

/-- The beginning of a request is refused, or only blanks are missing and it is the same request. -/
theorem read_take_cases (h : Request.read payload = .ok r) (n : Nat) :
    Request.read (payload.take n) = .error .empty ∨ Request.read (payload.take n) = .error .malformed ∨
      (∀ octet ∈ payload.drop n, octet ∈ blankOctets) ∧ Request.read (payload.take n) = .ok r := by
  refine (read_cases (payload.take n)).imp_right (Or.imp_right ?_)
  rintro ⟨part, hpart⟩
  obtain ⟨-, members, hvalue, hjobs⟩ := read_eq_ok.1 h
  obtain ⟨-, members', hvalue', hjobs'⟩ := read_eq_ok.1 hpart
  rw [← List.take_append_drop n payload] at hvalue
  rcases Value.read?_append hvalue' hvalue with ⟨hsame, hblank⟩ | ⟨text, hnumber⟩
  · rw [hsame, hjobs'] at hjobs
    have hr : part = r := congrArg Request.mk (Option.some.inj hjobs)
    exact ⟨hblank, hr ▸ hpart⟩
  · exact nomatch hnumber

end Request

end LinkPriority

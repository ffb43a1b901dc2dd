import Mathlib
import LinkPriority.Proofs.Reading
import LinkPriority.Proofs.Response
import LinkPriority.Proofs.Scalar.Machine
import LinkPriority.Proofs.Search.Solving
import LinkPriority.Service

/-! What a service answers. A payload has a response if it can be read, its demand is accepted and the search comes
to a solution; the response is then the table of that solution, under the ids of the request. Of a request that is
cut the service reads the same request or none. -/

namespace LinkPriority

section Answer

variable {α σ : Type} [Scalar α] [IndexSource σ] {r : Request α} {settings : Settings} {choices : σ}
  {response : Response}

theorem Request.answerWith_eq_ok : (r.answerWith settings choices).outcome = .ok response ↔
    ∃ d layout solution, r.toDemand = .ok (d, layout) ∧ (solveWith d settings choices).outcome = .ok solution ∧
      Response.ofPriority layout solution.priority = response := by
  rw [Request.answerWith]
  cases hdemand : r.toDemand with
  | error fault => simp
  | ok demand =>
    obtain ⟨d, layout⟩ := demand
    simp only [Except.ok.injEq, Prod.mk.injEq]
    constructor
    · intro h
      cases hsolve : (solveWith d settings choices).outcome with
      | error e => simp [hsolve] at h
      | ok solution => exact ⟨d, layout, solution, ⟨rfl, rfl⟩, hsolve, by simpa [hsolve] using h⟩
    · rintro ⟨d, layout, solution, ⟨rfl, rfl⟩, hsolve, rfl⟩
      rw [hsolve]

/-- Whatever the numbers are and however swaps are chosen, a response answers its request. -/
theorem Request.answers_of_answerWith [OrderedScalar α]
    (h : (r.answerWith settings choices).outcome = .ok response) : response.Answers r := by
  obtain ⟨d, layout, solution, hdemand, hsolve, rfl⟩ := Request.answerWith_eq_ok.1 h
  obtain ⟨-, hvalid, -⟩ := Request.toDemand_eq_ok hdemand
  obtain ⟨hfits, hzero⟩ := priority_of_solveWith hvalid hsolve
  exact Response.answers_ofPriority hdemand hfits hzero

end Answer

/-- Two jobs on one link, and another link where one of them asks for nothing. -/
def contendedPayload : List UInt8 :=
  "\x7b\"a\": \x7b\"x\": [1, 1]\x7d, \"b\": \x7b\"x\": [1, 2], \"y\": [0, 0]\x7d\x7d".toByteArray.toList

private def contendedLoads : Demand Binary64 where
  jobs := 2
  links := 2
  cells := #[⟨Scalar.ofNat 1, Scalar.ofNat 1⟩, .idle, ⟨Scalar.ofNat 1, Scalar.ofNat 2⟩, .idle]

private theorem priority_contendedLoads :
    WarmStart.linkShare.priority contendedLoads = ⟨⟨2, 2, #[1, 0, 0, 0]⟩, rfl⟩ := by
  have hactive : contendedLoads.activeJobs 0 = [0, 1] ∧ contendedLoads.activeJobs 1 = [] := by decide +kernel
  have hkeys : Scalar.precedes (WarmStart.linkShare.key contendedLoads 1 0)
      (WarmStart.linkShare.key contendedLoads 0 0) = false := by decide +kernel
  have hfirst : WarmStart.linkShare.order contendedLoads 0 = [1, 0] := by
    simp [WarmStart.order, hactive, List.mergeSort, hkeys, List.MergeSort.Internal.splitInTwo]
  have hsecond : WarmStart.linkShare.order contendedLoads 1 = [] := by simp [WarmStart.order, hactive]
  have hlinks : List.range contendedLoads.links = [0, 1] := rfl
  simp only [WarmStart.priority, hlinks, List.flatMap_cons, List.flatMap_nil, hfirst, hsecond]
  rfl

section Handle

variable {payload : List UInt8} {settings : Settings} {response : Response}

theorem handle_eq_ok : (handle payload settings).outcome = .ok response ↔
    ∃ r, Request.read payload = .ok r ∧ (r.answer settings).outcome = .ok response := by
  rw [handle]
  cases Request.read payload with
  | error fault => simp
  | ok r => simp

/-- A payload that gets a response can be read, and the response has its jobs and all its links, with the active jobs
of every link ranked from 0 on and all other ranks 0. -/
theorem response_answers_request (h : (handle payload settings).outcome = .ok response) :
    ∃ r, Request.read payload = .ok r ∧ response.Answers r := by
  obtain ⟨r, hread, hanswer⟩ := handle_eq_ok.1 h
  exact ⟨r, hread, Request.answers_of_answerWith hanswer⟩

end Handle

theorem contendedPayload_answered : ∃ response,
    (handle contendedPayload { iterations := 0 }).outcome = .ok response ∧
    response.rank? "a" "x" = some 1 ∧ response.rank? "b" "x" = some 0 ∧
    ∃ r, Request.read contendedPayload = .ok r ∧ response.Answers r := by
  have hdemand : ((Request.read contendedPayload).toOption.bind fun r => r.toDemand.toOption) =
      some (contendedLoads, ⟨["a", "b"], ["x", "y"]⟩) := by decide +kernel
  have hsolve : (solveWith contendedLoads { iterations := 0 } (WordStream.ofSeed 0)).outcome.toOption.map
      Solution.priority = some ⟨⟨2, 2, #[1, 0, 0, 0]⟩, rfl⟩ := by
    simp only [solveWith, solveObserved, Search.fromWarmStart, priority_contendedLoads]
    decide +kernel
  obtain ⟨r, hread, hdemand⟩ := Option.bind_eq_some_iff.1 hdemand
  obtain ⟨solution, hsolve, hpriority⟩ := Option.map_eq_some_iff.1 hsolve
  rw [Except.toOption_eq_some] at hread hdemand hsolve
  have hhandle : (handle contendedPayload { iterations := 0 }).outcome = .ok (.ofPriority _ solution.priority) :=
    handle_eq_ok.2 ⟨r, hread, Request.answerWith_eq_ok.2 ⟨_, _, solution, hdemand, hsolve, rfl⟩⟩
  refine ⟨_, hhandle, ?_, ?_, response_answers_request hhandle⟩
  all_goals
    rw [hpriority]
    decide +kernel

/-! ### Cut requests -/

theorem ServiceConfig.outcome_reply (c : ServiceConfig) (sent : List UInt8) : (c.reply sent).outcome =
    (handle (sent.take c.maxRequestOctets) c.settings).outcome.toOption.map Response.compact := by
  rw [reply]
  split
  · next h => rw [h, Except.toOption, Option.map_some]
  · next h => rw [h, Except.toOption, Option.map_none]
  · next h => rw [h, Except.toOption, Option.map_none]

/-- A service that reads less than a whole request either drops it, or reads the same request and replies like a
service that reads all of it. -/
theorem cut_request_dropped_or_same {payload : List UInt8} {r : Request Binary64}
    (h : Request.read payload = .ok r) :
    (∀ n, Request.read (payload.take n) = .error .empty ∨ Request.read (payload.take n) = .error .malformed ∨
      (∀ octet ∈ payload.drop n, octet ∈ Json.blankOctets) ∧ Request.read (payload.take n) = .ok r) ∧
    ∀ c whole : ServiceConfig, whole.settings = c.settings → payload.length ≤ whole.maxRequestOctets →
      (c.reply payload).outcome = none ∨ (c.reply payload).outcome = (whole.reply payload).outcome := by
  refine ⟨Request.read_take_cases h, fun c whole hsettings hlength => ?_⟩
  rw [c.outcome_reply, whole.outcome_reply, List.take_of_length_le hlength, hsettings]
  rcases Request.read_take_cases h c.maxRequestOctets with hcut | hcut | ⟨-, hcut⟩
  · left
    rw [handle, hcut]
    rfl
  · left
    rw [handle, hcut]
    rfl
  · right
    rw [handle, handle, hcut, h]

theorem contendedPayload_cut_before_lineFeed :
    ∃ r, Request.read (contendedPayload ++ [0x0a]) = .ok r ∧ Request.read contendedPayload = .ok r ∧
    ∀ c : ServiceConfig, (c.reply (contendedPayload ++ [0x0a])).outcome = none ∨
      (c.reply (contendedPayload ++ [0x0a])).outcome =
        (ServiceConfig.reply { c with maxRequestOctets := 10000 } (contendedPayload ++ [0x0a])).outcome := by
  have hwhole : (Request.read (contendedPayload ++ [0x0a])).toOption.isSome = true := by decide +kernel
  have hpart : (Request.read contendedPayload).toOption.isSome = true := by decide +kernel
  have hlength : (contendedPayload ++ [0x0a]).length ≤ 10000 := by decide +kernel
  obtain ⟨r, hr⟩ := Option.isSome_iff_exists.1 hwhole
  rw [Except.toOption_eq_some] at hr
  obtain ⟨hcuts, hreplies⟩ := cut_request_dropped_or_same hr
  refine ⟨r, hr, ?_, fun c => hreplies c { c with maxRequestOctets := 10000 } rfl hlength⟩
  have hcut := hcuts contendedPayload.length
  rw [List.take_left] at hcut
  rcases hcut with hcut | hcut | ⟨-, hcut⟩
  · simp [hcut, Except.toOption] at hpart
  · simp [hcut, Except.toOption] at hpart
  · exact hcut

end LinkPriority

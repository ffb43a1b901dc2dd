import Mathlib
import LinkPriority.Proofs.IdMap
import LinkPriority.Proofs.Json.Completeness
import LinkPriority.Service

/-! The many texts of one request. Jobs, links and the members of a load stand in any order; a load is a pair or names
its numbers, the compute time by either of its names, and may have members of other names; the numbers and all else are
written as the grammar permits. All that is gone once the request is read, so its answer does not depend on it. -/

namespace LinkPriority

open Json

/-! ### Maps -/

/-- An object with the entries of a map, in any order. -/
inductive IdMap.Renders {β : Type} (R : β → Value → Prop) (m : IdMap β) : Value → Prop where
  | object {entries : List (String × β)} {members : List (Option String × Value)} (hperm : entries.Perm m.entries)
    (h : List.Forall₂ (fun entry member => member.1 = some entry.1 ∧ R entry.2 member.2) entries members) :
    Renders R m (.object members)

/-- A traversal finds a list if each step finds the entry in its place. -/
theorem mapM_eq_some {α β : Type} {f : α → Option β} {as : List α} {bs : List β} :
    as.mapM f = some bs ↔ List.Forall₂ (fun b a => f a = some b) bs as := by
  induction as generalizing bs with
  | nil => simp [eq_comm]
  | cons a as ih =>
    simp only [List.mapM_cons, Option.bind_eq_bind, Option.bind_eq_some_iff, List.forall₂_cons_right_iff, ih]
    constructor
    · rintro ⟨b, hb, rest, hrest, hbs⟩
      exact ⟨b, rest, hb, hrest, (Option.some.inj hbs).symm⟩
    · rintro ⟨b, rest, hb, hrest, rfl⟩
      exact ⟨b, hb, rest, hrest, rfl⟩

theorem IdMap.read?_of_renders {β : Type} {R : β → Value → Prop} {read : Value → Option β} {m : IdMap β} {v : Value}
    (hread : ∀ b w, R b w → read w = some b) (h : m.Renders R v) : IdMap.read? read v = some m := by
  obtain ⟨hperm, h⟩ := h
  rw [IdMap.read?, mapM_eq_some.2 (h.imp fun entry member hentry => ?_)]
  · exact congrArg some (ofList_of_perm hperm)
  · simp [hentry.1, hread _ _ hentry.2]

/-! ### Loads -/

namespace Load

/-- A pair of the numbers of a load, or an object with its numbers and any members of other names. -/
inductive Renders (load : Load Binary64) : Value → Prop where
  | pair {compute comm : NumberText} (hcompute : compute.toBinary64? = some load.compute)
    (hcomm : comm.toBinary64? = some load.comm) : Renders load (.array [.number compute, .number comm])
  | members {computeName : String} {compute comm : NumberText} {others members : List (Option String × Value)}
    (hname : computeName ∈ computeNames) (hcompute : compute.toBinary64? = some load.compute)
    (hcomm : comm.toBinary64? = some load.comm)
    (hothers : ∀ member ∈ others, ∃ name, member.1 = some name ∧ name ∉ computeNames ∧ name ≠ commName)
    (hperm : members.Perm ((some computeName, .number compute) :: (some commName, .number comm) :: others)) :
    Renders load (.object members)

/-- A member of which nothing is read but its name. -/
def isOther (member : Option String × Value) : Bool :=
  member.1.any fun name => name ∉ computeNames && name != commName

theorem isOther_eq_true {member : Option String × Value} :
    isOther member = true ↔ ∃ name, member.1 = some name ∧ name ∉ computeNames ∧ name ≠ commName := by
  rw [isOther, Option.any_eq_true]
  simp

theorem readMember_of_isOther {member : Option String × Value} (h : isOther member = true)
    (known : Option Binary64 × Option Binary64) : readMember known member = some known := by
  obtain ⟨name, hname, hcompute, hcomm⟩ := isOther_eq_true.1 h
  simp [readMember, hname, hcompute, hcomm]

/-- Other members make no difference. -/
theorem foldlM_readMember_filter (members : List (Option String × Value)) (known : Option Binary64 × Option Binary64) :
    (members.filter fun member => !isOther member).foldlM readMember known = members.foldlM readMember known := by
  rw [List.foldlM_filter]
  congr
  funext known member
  cases hother : isOther member with
  | false => rfl
  | true => exact (readMember_of_isOther hother known).symm

theorem read?_of_renders {load : Load Binary64} {v : Value} (h : load.Renders v) : read? v = some load := by
  cases h with
  | pair hcompute hcomm => simp [read?, numberOf?, hcompute, hcomm]
  | @members computeName compute comm others members hname hcompute hcomm hothers hperm =>
    have hnone : others.filter (fun member => !isOther member) = [] :=
      List.filter_eq_nil_iff.2 fun member hmem => by simp [isOther_eq_true.2 (hothers member hmem)]
    have hfilter := hperm.filter fun member => !isOther member
    rw [List.filter_cons_of_pos (by simp [isOther, hname]), List.filter_cons_of_pos (by simp [isOther]), hnone]
      at hfilter
    have hnotComm : commName ∉ computeNames := by decide
    -- what is left are the two numbers, one or the other first
    have hfold : members.foldlM readMember (none, none) = some (some load.compute, some load.comm) := by
      rw [← foldlM_readMember_filter]
      rcases List.perm_pair.1 hfilter with hmembers | hmembers
      all_goals
        rw [hmembers]
        simp [readMember, numberOf?, hname, hnotComm, hcompute, hcomm]
    rw [read?, hfold]

end Load

/-! ### Requests -/

namespace Request

/-- The payload is a text of the request. -/
def Renders (r : Request Binary64) (payload : List UInt8) : Prop :=
  ∃ v, r.jobs.Renders (IdMap.Renders Load.Renders) v ∧ v.IsText payload

/-- Octets that count as nothing hold no value. -/
theorem read?_of_all_isVoid {payload : List UInt8} (h : payload.all isVoid = true) : Value.read? payload = none := by
  have hstep : ∀ octet, isVoid octet = true →
      Machine.start.step octet = some Machine.start ∨ Machine.start.step octet = none := by
    intro octet hoctet
    simp only [isVoid, Bool.or_eq_true, beq_iff_eq] at hoctet
    rcases hoctet with (((rfl | rfl) | rfl) | rfl) | rfl
    · exact .inl rfl
    · exact .inl rfl
    · exact .inl rfl
    · exact .inr rfl
    · exact .inl rfl
  rw [List.all_eq_true] at h
  rw [Value.read?]
  induction payload with
  | nil => rfl
  | cons octet rest ih =>
    obtain ⟨hoctet, hrest⟩ := List.forall_mem_cons.1 h
    rw [Machine.run, List.foldlM_cons]
    rcases hstep octet hoctet with hstart | hnone
    · rw [hstart]
      exact ih hrest
    · rw [hnone]
      rfl

theorem read_of_renders {r : Request Binary64} {payload : List UInt8} (h : r.Renders payload) :
    Request.read payload = .ok r := by
  obtain ⟨v, hv, htext⟩ := h
  have hvalue := Value.read?_of_isText htext
  have hjobs : IdMap.read? (IdMap.read? Load.read?) v = some r.jobs :=
    IdMap.read?_of_renders (fun _ _ => IdMap.read?_of_renders fun _ _ => Load.read?_of_renders) hv
  have hvoid : payload.all isVoid = false := by
    by_contra h
    rw [Bool.not_eq_false] at h
    simp [read?_of_all_isVoid h] at hvalue
  rw [Request.read, hvoid, if_neg Bool.false_ne_true, hvalue, Option.bind_some, hjobs]

end Request

/-- All texts of a request are handled alike: its demand is the same, so there is the same response to it, or the same
error, and the same is reported on the way. -/
theorem handle_eq_of_renders {r : Request Binary64} {payload payload' : List UInt8} (h : r.Renders payload)
    (h' : r.Renders payload') (settings : Settings) :
    handle payload settings = r.answer settings ∧ handle payload' settings = handle payload settings := by
  rw [handle, handle, Request.read_of_renders h, Request.read_of_renders h']
  exact ⟨rfl, rfl⟩

section TwoTexts

private def digitText (d : Nat) : NumberText := ⟨false, [d], [], none⟩

/-- Two jobs on one link. -/
def opposedJobs : Request Binary64 where
  jobs := ⟨[("a", ⟨[("x", ⟨Scalar.ofNat 1, Scalar.ofNat 2⟩)], by simp⟩),
    ("b", ⟨[("x", ⟨Scalar.ofNat 2, Scalar.ofNat 1⟩)], by simp⟩)], by decide⟩

/-- The jobs in their order, and pairs for their loads. -/
def pairsPayload : List UInt8 := "\x7b\"a\":\x7b\"x\":[1,2]\x7d,\"b\":\x7b\"x\":[2,1]\x7d\x7d".toByteArray.toList

/-- The jobs the other way round, their numbers by name, and a note. -/
def namesPayload : List UInt8 :=
  ("\x7b \"b\":\x7b\"x\":\x7b\"comm_size\":1,\"note\":null,\"compute_time\":2\x7d\x7d,\n" ++
    "\"a\":\x7b\"x\":\x7b\"comp_time\":1,\"comm_size\":2\x7d\x7d\x7d").toByteArray.toList

private theorem written_digit {d : Nat} (h : d < 10) : Written (.item (.number (digitText d))) [d.digitChar] := by
  have hdigits : IsDigits [d] := ⟨List.cons_ne_nil d [], by simpa using h⟩
  have hnumber : NumberWritten (digitText d) [d.digitChar] :=
    .parts (List.mem_cons_self ..) hdigits (fun h => by simpa using h) .none .none
  exact .item (List.forall_mem_nil _) (.number hnumber) (List.forall_mem_nil _)

private theorem written_pair (compute comm : Nat) (hcompute : compute < 10) (hcomm : comm < 10) :
    Written (.value (.array [.number (digitText compute), .number (digitText comm)]))
      ('[' :: ([compute.digitChar] ++ ',' :: [comm.digitChar] ++ [']'])) :=
  .array (.moreItems (written_digit hcompute) (.lastItem (written_digit hcomm)))

private theorem written_member (before : List Char) (hbefore : IsBlanks before) (name : String) {v : Value}
    {cs : List Char} (h : Written (.item v) cs) :
    Written (.member (some name) v) (before ++ (quote name).toList ++ [] ++ ':' :: cs) :=
  .member hbefore (stringWritten_quote name) (List.forall_mem_nil _) h

private theorem written_loads (name : String) {v : Value} {cs : List Char} (h : Written (.value v) cs) :
    Written (.item (.object [(some name, v)]))
      ([] ++ '\x7b' :: ([] ++ (quote name).toList ++ [] ++ ':' :: ([] ++ cs ++ []) ++ ['\x7d']) ++ []) :=
  have hnil : IsBlanks [] := List.forall_mem_nil _
  .item hnil (.object (.lastMember (written_member [] hnil name (.item hnil h hnil)))) hnil

private theorem renders_loads {m : IdMap (Load Binary64)} {name : String} {load : Load Binary64} {v : Value}
    (hm : m.entries = [(name, load)]) (h : load.Renders v) : m.Renders Load.Renders (.object [(some name, v)]) :=
  .object (.of_eq hm.symm) (.cons ⟨rfl, h⟩ .nil)

private theorem toBinary64?_digitText : (digitText 1).toBinary64? = some (Scalar.ofNat 1) ∧
    (digitText 2).toBinary64? = some (Scalar.ofNat 2) := by decide +kernel

private theorem renders_pairsPayload : opposedJobs.Renders pairsPayload := by
  obtain ⟨hone, htwo⟩ := toBinary64?_digitText
  have hnil : IsBlanks [] := List.forall_mem_nil _
  have hvalue : opposedJobs.jobs.Renders (IdMap.Renders Load.Renders)
      (.object [(some "a", .object [(some "x", .array [.number (digitText 1), .number (digitText 2)])]),
        (some "b", .object [(some "x", .array [.number (digitText 2), .number (digitText 1)])])]) :=
    .object (.refl _) (.cons ⟨rfl, renders_loads rfl (.pair hone htwo)⟩
      (.cons ⟨rfl, renders_loads rfl (.pair htwo hone)⟩ .nil))
  have hfirst := written_member [] hnil "a" (written_loads "x" (written_pair 1 2 (by decide) (by decide)))
  have hlast := written_member [] hnil "b" (written_loads "x" (written_pair 2 1 (by decide) (by decide)))
  exact ⟨_, hvalue, _, .item hnil (.object (.moreMembers hfirst (.lastMember hlast))) hnil, by decide +kernel⟩

private def notedMembers : List (Option String × Value) :=
  [(some "comm_size", .number (digitText 1)), (some "note", .null), (some "compute_time", .number (digitText 2))]

private def plainMembers : List (Option String × Value) :=
  [(some "comp_time", .number (digitText 1)), (some "comm_size", .number (digitText 2))]

private theorem renders_namesPayload : opposedJobs.Renders namesPayload := by
  obtain ⟨hone, htwo⟩ := toBinary64?_digitText
  have hnil : IsBlanks [] := List.forall_mem_nil _
  have hnoted : Load.Renders ⟨Scalar.ofNat 2, Scalar.ofNat 1⟩ (.object notedMembers) := by
    have hothers : ∀ member ∈ [(some "note", Value.null)], ∃ name, member.1 = some name ∧
        name ∉ Load.computeNames ∧ name ≠ Load.commName :=
      List.forall_mem_singleton.2 ⟨"note", rfl, by decide, by decide⟩
    exact .members (by decide) htwo hone hothers (((List.Perm.swap _ _ []).cons _).trans (.swap _ _ _))
  have hplain : Load.Renders ⟨Scalar.ofNat 1, Scalar.ofNat 2⟩ (.object plainMembers) :=
    .members (by decide) hone htwo (List.forall_mem_nil _) (.refl _)
  have hvalue : opposedJobs.jobs.Renders (IdMap.Renders Load.Renders)
      (.object [(some "b", .object [(some "x", .object notedMembers)]),
        (some "a", .object [(some "x", .object plainMembers)])]) :=
    .object (.swap _ _ _) (.cons ⟨rfl, renders_loads rfl hnoted⟩ (.cons ⟨rfl, renders_loads rfl hplain⟩ .nil))
  have hwrittenNoted : Written (.value (.object notedMembers)) _ :=
    .object (.moreMembers (written_member [] hnil "comm_size" (written_digit (by decide)))
      (.moreMembers (written_member [] hnil "note" (.item hnil .null hnil))
        (.lastMember (written_member [] hnil "compute_time" (written_digit (by decide))))))
  have hwrittenPlain : Written (.value (.object plainMembers)) _ :=
    .object (.moreMembers (written_member [] hnil "comp_time" (written_digit (by decide)))
      (.lastMember (written_member [] hnil "comm_size" (written_digit (by decide)))))
  have hfirst := written_member [' '] (by simp [IsBlanks]) "b" (written_loads "x" hwrittenNoted)
  have hlast := written_member ['\n'] (by simp [IsBlanks]) "a" (written_loads "x" hwrittenPlain)
  exact ⟨_, hvalue, _, .item hnil (.object (.moreMembers hfirst (.lastMember hlast))) hnil, by decide +kernel⟩

theorem pairs_and_names_handled_alike : opposedJobs.Renders pairsPayload ∧ opposedJobs.Renders namesPayload ∧
    pairsPayload ≠ namesPayload ∧ ∀ settings, handle pairsPayload settings = opposedJobs.answer settings ∧
      handle namesPayload settings = handle pairsPayload settings := by
  refine ⟨renders_pairsPayload, renders_namesPayload, by decide +kernel, fun settings => ?_⟩
  exact handle_eq_of_renders renders_pairsPayload renders_namesPayload settings

end TwoTexts

end LinkPriority

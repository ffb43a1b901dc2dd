import LinkPriority.Proofs.Json.Writing
import LinkPriority.Proofs.Rendering
import LinkPriority.Response

/-! Responses survive being written and read. Each rank is written as a number that is read as that rank, and each map
as an object of which reading makes that map again; ids are quoted, so they may be of any characters, and the entries of
a map are in the order of their ids, which is all the order there is. So what is read from any text is written in one
way only. -/

namespace LinkPriority

open Json

/-- A text is written as the grammar has it and read as `b`. -/
def IsTextOf {β : Type} (read : Value → Option β) (b : β) (text : String) : Prop :=
  ∃ v, Written (.value v) text.toList ∧ read v = some b

namespace IdMap

variable {β : Type} {read : Value → Option β} {m : IdMap β}

/-- A map as an object in one line, with texts for its values. -/
def compact (write : β → String) (m : IdMap β) : String :=
  compactObject (m.entries.map fun (id, value) => (id, write value))

/-- The entries of a map, each with a text of its value. -/
theorem exists_members {write : β → String} {entries : List (String × β)}
    (h : ∀ entry ∈ entries, IsTextOf read entry.2 (write entry.2)) :
    ∃ members : List (Option String × Value), List.Forall₂ (fun entry member => member.1 = some entry.1 ∧
      Written (.value member.2) (write entry.2).toList ∧ read member.2 = some entry.2) entries members := by
  induction entries with
  | nil => exact ⟨[], .nil⟩
  | cons entry rest ih =>
    obtain ⟨hentry, hrest⟩ := List.forall_mem_cons.1 h
    obtain ⟨v, hv⟩ := hentry
    obtain ⟨members, hmembers⟩ := ih hrest
    exact ⟨(some entry.1, v) :: members, .cons ⟨rfl, hv⟩ hmembers⟩

/-- An object of texts of the values is a text of the map. -/
theorem isTextOf_compact {write : β → String} (h : ∀ entry ∈ m.entries, IsTextOf read entry.2 (write entry.2)) :
    IsTextOf (IdMap.read? read) m (m.compact write) := by
  obtain ⟨members, hmembers⟩ := exists_members h
  refine ⟨.object members, written_compactObject ?_, ?_⟩
  · rw [List.forall₂_map_left_iff]
    exact hmembers.imp fun _ _ hmember => ⟨hmember.1, hmember.2.1⟩
  · refine IdMap.read?_of_renders (R := fun b v => read v = some b) (fun _ _ hread => hread) ?_
    exact .object (.refl _) (hmembers.imp fun _ _ hmember => ⟨hmember.1, hmember.2.2⟩)

/-- Whatever a map holds was read from some value. -/
theorem exists_read_of_mem {v : Value} (h : IdMap.read? read v = some m) {entry : String × β}
    (hentry : entry ∈ m.entries) : ∃ w, read w = some entry.2 := by
  cases v with
  | null | bool | number | string | array => exact nomatch h
  | object members =>
    obtain ⟨entries, hentries, hm⟩ := Option.bind_eq_some_iff.1 h
    obtain rfl := Option.some.inj hm
    have hall := mapM_eq_some.1 hentries
    obtain ⟨i, hi, rfl⟩ := List.getElem_of_mem (mem_of_mem_ofList hentry)
    have hmember := hall.get hi (hall.length_eq ▸ hi)
    obtain ⟨name, -, hvalue⟩ := Option.bind_eq_some_iff.1 hmember
    obtain ⟨value, hread, hpair⟩ := Option.bind_eq_some_iff.1 hvalue
    refine ⟨_, hread.trans (congrArg some ?_)⟩
    exact congrArg Prod.snd (Option.some.inj hpair)

end IdMap

namespace Response

/-- The octets of a response, as they are sent. -/
def octets (r : Response) : List UInt8 := r.compact.toUTF8.data.toList

/-- All ranks are words. -/
def IsOfWords (r : Response) : Prop := ∀ job ∈ r.ranks.entries, ∀ cell ∈ job.2.entries, cell.2 < UInt64.size

instance (r : Response) : Decidable r.IsOfWords := inferInstanceAs (Decidable (∀ _ ∈ _, _))

theorem isTextOf_rank {rank : Nat} (h : rank < UInt64.size) : IsTextOf rankOf? rank (toString rank) := by
  obtain ⟨text, hwritten, hword⟩ := exists_numberWritten rank
  exact ⟨.number text, .number hwritten, hword h⟩

variable {r r' : Response} {payload : List UInt8}

/-- A response of words is read from its octets. -/
theorem read?_of_isOfWords (h : r.IsOfWords) : Response.read? r.octets = some r := by
  have hcompact : r.compact = r.ranks.compact (IdMap.compact toString) := rfl
  have hranks : IsTextOf (IdMap.read? (IdMap.read? rankOf?)) r.ranks r.compact := by
    rw [hcompact]
    refine IdMap.isTextOf_compact fun job hjob => IdMap.isTextOf_compact fun cell hcell => ?_
    exact isTextOf_rank (h job hjob cell hcell)
  obtain ⟨v, hwritten, hread⟩ := hranks
  have hnil : IsBlanks [] := List.forall_mem_nil _
  have hitem := Written.item hnil hwritten hnil
  rw [List.nil_append, List.append_nil] at hitem
  have htext : v.IsText r.octets := ⟨r.compact.toList, hitem, toList_toUTF8 r.compact⟩
  rw [Response.read?, Value.read?_of_isText htext, Option.bind_some, hread, Option.map_some]

theorem lt_of_rankOf? {v : Value} {rank : Nat} (h : rankOf? v = some rank) : rank < UInt64.size := by
  cases v with
  | null | bool | string | array | object => exact nomatch h
  | number text =>
    rw [rankOf?, NumberText.toWord?] at h
    split_ifs at h with _ hlt
    exact Option.some.inj h ▸ hlt

/-- Only words are read as ranks. -/
theorem isOfWords_of_read? (h : Response.read? payload = some r) : r.IsOfWords := by
  obtain ⟨ranks, hranks, rfl⟩ := Option.map_eq_some_iff.1 h
  obtain ⟨v, -, hread⟩ := Option.bind_eq_some_iff.1 hranks
  intro job hjob cell hcell
  obtain ⟨row, hrow⟩ := IdMap.exists_read_of_mem hread hjob
  obtain ⟨w, hw⟩ := IdMap.exists_read_of_mem hrow hcell
  exact lt_of_rankOf? hw

/-- A response that is written is read as the same response, whatever its ids are and however many ranks it has. So it
does not matter how a response was written before it was read: written again it is read as it was, and two responses are
written alike only if they have the same ranks under the same ids. -/
theorem read?_octets_and_octets_inj :
    (∀ r : Response, r.IsOfWords → Response.read? r.octets = some r) ∧
    (∀ payload r, Response.read? payload = some r → Response.read? r.octets = some r) ∧
    ∀ payload payload' r r', Response.read? payload = some r → Response.read? payload' = some r' →
      (r.octets = r'.octets ↔ r = r') := by
  refine ⟨fun r => read?_of_isOfWords, fun payload r h => read?_of_isOfWords (isOfWords_of_read? h),
    fun payload payload' r r' h h' => ⟨fun hsame => ?_, fun hsame => congrArg octets hsame⟩⟩
  have hread := read?_of_isOfWords (isOfWords_of_read? h)
  rw [hsame, read?_of_isOfWords (isOfWords_of_read? h')] at hread
  exact (Option.some.inj hread).symm

/-- A job without an id and without links, and one whose id is a quotation mark, a backslash and a control character,
with the smallest and the largest rank there is. -/
def oddIds : Response where
  ranks := ⟨[("", ⟨[], .nil⟩), ("\"\\\x01", ⟨[("a/b", 0), ("\u00e9\u4e16", UInt64.size - 1)], by decide⟩)], by decide⟩

theorem read?_octets_oddIds : oddIds.IsOfWords ∧ Response.read? oddIds.octets = some oddIds :=
  have hwords : oddIds.IsOfWords := by decide
  ⟨hwords, read?_octets_and_octets_inj.1 oddIds hwords⟩

end Response

end LinkPriority

import Mathlib.Data.List.Nodup
import Mathlib.Tactic.Common
import LinkPriority.IdMap

/-! Looking up ids. A map has at most one value under an id, so looking an id up finds the entry with it if there is
one. Entries with different ids make, in whatever order, the map that consists of just these entries, and a map made
of any entries has just their ids. -/

namespace LinkPriority.IdMap

variable {β : Type} {m : IdMap β} {id : String} {value : β} {entries : List (String × β)}

theorem ascending_ids (m : IdMap β) : m.ids.Pairwise (· < ·) := List.pairwise_map.2 m.ascending

theorem nodup_ids (m : IdMap β) : m.ids.Nodup :=
  m.ascending_ids.imp fun hlt => Std.ne_of_lt hlt

theorem mem_ids : id ∈ m.ids ↔ ∃ value, (id, value) ∈ m.entries := by simp [ids]

theorem get?_eq_some : m.get? id = some value ↔ (id, value) ∈ m.entries := by
  rw [get?, Option.map_eq_some_iff]
  constructor
  · rintro ⟨⟨found, v⟩, hfind, rfl⟩
    have hid : found = id := by simpa using List.find?_some hfind
    rw [← hid]
    exact List.mem_of_find?_eq_some hfind
  · intro hmem
    cases hfind : m.entries.find? fun entry => entry.1 = id with
    | none => simpa using List.find?_eq_none.1 hfind (id, value) hmem
    | some entry =>
      have hid : entry.1 = id := by simpa using List.find?_some hfind
      have hsame := List.inj_on_of_nodup_map m.nodup_ids (List.mem_of_find?_eq_some hfind) hmem hid
      exact ⟨entry, rfl, congrArg Prod.snd hsame⟩

theorem mem_ids_of_get? (h : m.get? id = some value) : id ∈ m.ids := mem_ids.2 ⟨value, get?_eq_some.1 h⟩

/-- Ids in ascending order are ordered as their places are. -/
theorem lt_iff_of_ascending {ids : List String} (h : ids.Pairwise (· < ·)) {i k : Nat} {other : String}
    (hi : ids[i]? = some id) (hk : ids[k]? = some other) : id < other ↔ i < k := by
  obtain ⟨hilt, rfl⟩ := List.getElem?_eq_some_iff.1 hi
  obtain ⟨hklt, rfl⟩ := List.getElem?_eq_some_iff.1 hk
  have hmono := List.pairwise_iff_getElem.1 h
  constructor
  · intro hlt
    rcases Nat.lt_trichotomy i k with hik | rfl | hki
    · exact hik
    · exact absurd hlt (String.lt_irrefl _)
    · exact absurd hlt (String.lt_asymm (hmono k i hklt hilt hki))
  · exact hmono i k hilt hklt

theorem eq_of_entries {m' : IdMap β} (h : m.entries = m'.entries) : m = m' := by
  obtain ⟨entries, hm⟩ := m
  obtain ⟨entries', hm'⟩ := m'
  obtain rfl : entries = entries' := h
  rfl

/-! ### Maps made of entries -/

theorem perm_insertEntry (h : id ∉ entries.map Prod.fst) :
    (insertEntry id value entries).Perm ((id, value) :: entries) := by
  induction entries with
  | nil => exact .refl _
  | cons entry rest ih =>
    rw [List.map_cons, List.mem_cons, not_or] at h
    rw [insertEntry, if_neg h.1]
    split_ifs
    · exact .refl _
    · exact ((ih h.2).cons entry).trans (.swap ..)

/-- A map made of entries with different ids consists of these entries. -/
theorem perm_entries_ofList (h : (entries.map Prod.fst).Nodup) : (ofList entries).entries.Perm entries := by
  suffices hfold : ∀ m : IdMap β, ((m.entries ++ entries).map Prod.fst).Nodup →
      (entries.foldl (fun m entry => m.insert entry.1 entry.2) m).entries.Perm (m.entries ++ entries) by
    exact hfold empty h
  clear h
  induction entries with
  | nil => exact fun m _ => (List.append_nil m.entries).symm ▸ .refl _
  | cons entry rest ih =>
    intro m hm
    have hnew : entry.1 ∉ m.entries.map Prod.fst := by
      rw [List.map_append, List.map_cons] at hm
      exact fun hmem => (List.nodup_append.1 hm).2.2 _ hmem _ List.mem_cons_self rfl
    have hperm : ((m.insert entry.1 entry.2).entries ++ rest).Perm (m.entries ++ entry :: rest) :=
      ((perm_insertEntry hnew).append_right rest).trans List.perm_middle.symm
    exact (ih _ ((hperm.map Prod.fst).nodup_iff.2 hm)).trans hperm

/-- Entries in ascending order are determined by which they are. -/
theorem eq_of_perm {others : List (String × β)} (h : entries.Pairwise fun a b => a.1 < b.1)
    (hothers : others.Pairwise fun a b => a.1 < b.1) (hperm : entries.Perm others) : entries = others :=
  hperm.eq_of_pairwise (fun _ _ _ _ hlt hgt => absurd hgt (String.lt_asymm hlt)) h hothers

/-- Entries in ascending order are those of the map made of them. -/
theorem entries_ofList (h : entries.Pairwise fun a b => a.1 < b.1) : (ofList entries).entries = entries := by
  have hnodup : (entries.map Prod.fst).Nodup := List.pairwise_map.2 (h.imp fun hlt => Std.ne_of_lt hlt)
  exact eq_of_perm (ofList entries).ascending h (perm_entries_ofList hnodup)

/-- A map is made of its entries, in whatever order. -/
theorem ofList_of_perm (h : entries.Perm m.entries) : ofList entries = m := by
  have hnodup : (entries.map Prod.fst).Nodup := (h.map Prod.fst).nodup_iff.2 m.nodup_ids
  exact eq_of_entries (eq_of_perm (ofList entries).ascending m.ascending ((perm_entries_ofList hnodup).trans h))

section Labels

variable {ids : List String}

private theorem map_fst_mapIdx (ids : List String) (f : Nat → β) :
    (ids.mapIdx fun i id => (id, f i)).map Prod.fst = ids := by
  refine List.ext_getElem (by simp) fun i hi hi' => ?_
  rw [List.getElem_map, List.getElem_mapIdx]

variable (h : ids.Pairwise (· < ·)) (f : Nat → β)
include h

/-- The map of values labelled with ascending ids holds just these values. -/
theorem entries_ofList_mapIdx :
    (ofList (ids.mapIdx fun i id => (id, f i))).entries = ids.mapIdx fun i id => (id, f i) := by
  refine entries_ofList (List.pairwise_map.1 ?_)
  rwa [map_fst_mapIdx]

theorem ids_ofList_mapIdx : (ofList (ids.mapIdx fun i id => (id, f i))).ids = ids := by
  rw [IdMap.ids, entries_ofList_mapIdx h, map_fst_mapIdx]

theorem get?_ofList_mapIdx {i : Nat} (hi : ids[i]? = some id) :
    (ofList (ids.mapIdx fun i id => (id, f i))).get? id = some (f i) := by
  rw [get?_eq_some, entries_ofList_mapIdx h]
  obtain ⟨hlt, rfl⟩ := List.getElem?_eq_some_iff.1 hi
  exact List.mem_mapIdx.2 ⟨i, hlt, rfl⟩

end Labels

theorem mem_ids_insert {i : String} : i ∈ (m.insert id value).ids ↔ i = id ∨ i ∈ m.ids := by
  obtain ⟨entries, h⟩ := m
  simp only [ids, insert]
  clear h
  induction entries with
  | nil => simp [insertEntry]
  | cons entry rest ih =>
    rw [insertEntry]
    split_ifs with hlt heq
    · rw [List.map_cons, List.mem_cons]
    · rw [heq]
      simp
    · rw [List.map_cons, List.mem_cons, ih, List.map_cons, List.mem_cons]
      tauto

/-- A map made of entries holds nothing else. -/
theorem mem_of_mem_ofList {entry : String × β} (h : entry ∈ (ofList entries).entries) : entry ∈ entries := by
  suffices hfold : ∀ m : IdMap β, entry ∈ (entries.foldl (fun m entry => m.insert entry.1 entry.2) m).entries →
      entry ∈ m.entries ∨ entry ∈ entries by
    exact (hfold empty h).resolve_left List.not_mem_nil
  clear h
  induction entries with
  | nil => exact fun m h => .inl h
  | cons first rest ih =>
    intro m h
    have hinsert : ∀ e ∈ (m.insert first.1 first.2).entries, e ∈ m.entries ∨ e = first :=
      forall_insertEntry (.inr rfl) fun e he => .inl he
    rcases ih _ h with hm | hrest
    · refine (hinsert entry hm).imp_right fun heq => ?_
      rw [heq]
      exact List.mem_cons_self
    · exact .inr (List.mem_cons_of_mem first hrest)

theorem mem_ids_ofList : id ∈ (ofList entries).ids ↔ id ∈ entries.map Prod.fst := by
  suffices hfold : ∀ m : IdMap β, id ∈ (entries.foldl (fun m entry => m.insert entry.1 entry.2) m).ids ↔
      id ∈ m.ids ∨ id ∈ entries.map Prod.fst by
    have hempty : id ∉ (empty : IdMap β).ids := List.not_mem_nil
    rw [ofList, hfold, or_iff_right hempty]
  induction entries with
  | nil => simp
  | cons entry rest ih =>
    intro m
    rw [List.foldl_cons, ih, mem_ids_insert, List.map_cons, List.mem_cons]
    tauto

theorem mem_distinctIds {ids : List String} : id ∈ distinctIds ids ↔ id ∈ ids := by
  rw [distinctIds, mem_ids_ofList, List.map_map]
  simp

theorem ascending_distinctIds (ids : List String) : (distinctIds ids).Pairwise (· < ·) := ascending_ids _

end LinkPriority.IdMap

/-! Values under ids, in ascending order of the ids. Ids are ordered by their characters' codes, which is also
the order of their UTF-8 octets. The order is part of the type, so a map is determined by what it holds. -/

namespace LinkPriority

/-- A map from ids to values: its entries in strictly ascending order of the ids. -/
structure IdMap (β : Type) where
  entries : List (String × β)
  ascending : entries.Pairwise fun a b => a.1 < b.1

namespace IdMap

variable {β : Type}

def empty : IdMap β := ⟨[], .nil⟩

/-- The entries with `value` under `id`, in place of what was there. -/
def insertEntry (id : String) (value : β) : List (String × β) → List (String × β)
  | [] => [(id, value)]
  | entry :: rest =>
    if id < entry.1 then (id, value) :: entry :: rest
    else if id = entry.1 then (id, value) :: rest
    else entry :: insertEntry id value rest

/-- Whatever all entries and the new one have in common, the entries after an insertion have, too. -/
theorem forall_insertEntry {p : String × β → Prop} {id : String} {value : β} {entries : List (String × β)}
    (hnew : p (id, value)) (h : ∀ e ∈ entries, p e) : ∀ e ∈ insertEntry id value entries, p e := by
  induction entries with
  | nil => simpa [insertEntry] using hnew
  | cons entry rest ih =>
    unfold insertEntry
    split
    · simp_all
    · split <;> simp_all

/-- Inserting keeps the ids in ascending order. -/
theorem ascending_insertEntry {id : String} {value : β} {entries : List (String × β)}
    (h : entries.Pairwise fun a b => a.1 < b.1) :
    (insertEntry id value entries).Pairwise fun a b => a.1 < b.1 := by
  induction entries with
  | nil => simp [insertEntry]
  | cons entry rest ih =>
    obtain ⟨hhead, hrest⟩ := List.pairwise_cons.1 h
    unfold insertEntry
    split
    · next hlt =>
      refine List.pairwise_cons.2 ⟨fun e he => ?_, h⟩
      rcases List.mem_cons.1 he with rfl | he
      · exact hlt
      · exact String.lt_trans hlt (hhead e he)
    · split
      · next heq => exact List.pairwise_cons.2 ⟨fun e he => heq ▸ hhead e he, hrest⟩
      · next hlt hne =>
        have hgt : entry.1 < id := Std.lt_of_le_of_ne hlt fun h => hne h.symm
        exact List.pairwise_cons.2 ⟨forall_insertEntry hgt hhead, ih hrest⟩

/-- The map with `value` under `id`, in place of what was there. -/
def insert (m : IdMap β) (id : String) (value : β) : IdMap β :=
  ⟨insertEntry id value m.entries, ascending_insertEntry m.ascending⟩

/-- The map of some entries in any order; of several under one id the last counts. -/
def ofList (entries : List (String × β)) : IdMap β :=
  entries.foldl (fun m entry => m.insert entry.1 entry.2) empty

/-- The ids, ascending. -/
def ids (m : IdMap β) : List String := m.entries.map Prod.fst

def get? (m : IdMap β) (id : String) : Option β := (m.entries.find? fun entry => entry.1 = id).map Prod.snd

/-- Different ids, ascending. -/
def distinctIds (ids : List String) : List String := (ofList (ids.map fun id => (id, ()))).ids

end IdMap

end LinkPriority

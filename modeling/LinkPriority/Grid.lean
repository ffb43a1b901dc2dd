/-! Tables with one row per job and one column per link, stored row after row. The cell of a job on a link has
the index `job · links + link`; inside the table that index is in range and no two cells share one. -/

namespace LinkPriority

/-- A cell of a table: a job on a link. -/
structure Position where
  job : Nat
  link : Nat
deriving DecidableEq

def Position.text (p : Position) : String := s!"(job {p.job}, link {p.link})"

/-- A table of `jobs` rows and `links` columns, row after row. -/
structure Grid (β : Type) where
  jobs : Nat
  links : Nat
  cells : Array β
deriving DecidableEq

/-- A row whose length is not that of the first row. -/
structure RaggedRow where
  job : Nat
  found : Nat
  expected : Nat
deriving DecidableEq

def RaggedRow.text (r : RaggedRow) : String := s!"job {r.job} has {r.found} links, expected {r.expected}"

namespace Grid

variable {β : Type}

/-- The cell of `job` on `link`, or `default` where the table has none. -/
def getD (g : Grid β) (job link : Nat) (default : β) : β := g.cells.getD (job * g.links + link) default

def set (g : Grid β) (job link : Nat) (value : β) : Grid β :=
  { g with cells := g.cells.setIfInBounds (job * g.links + link) value }

/-- The table with the same value everywhere. -/
def fill (jobs links : Nat) (value : β) : Grid β := ⟨jobs, links, .replicate (jobs * links) value⟩

def tabulate (jobs links : Nat) (f : Nat → Nat → β) : Grid β :=
  ⟨jobs, links, .ofFn fun i : Fin (jobs * links) => f (i / links) (i % links)⟩

/-- The table with some cells replaced, one after the other; a later entry for the same cell wins. -/
def setAll (g : Grid β) (entries : List (Position × β)) : Grid β :=
  entries.foldl (fun g entry => g.set entry.1.job entry.1.link entry.2) g

/-- The table that holds the given entries and `value` everywhere else; a later entry for the same cell wins. -/
def ofEntries (jobs links : Nat) (value : β) (entries : List (Position × β)) : Grid β :=
  (fill jobs links value).setAll entries

/-- A table is full if it has a cell for every job on every link. -/
def IsFull (g : Grid β) : Prop := g.cells.size = g.jobs * g.links

/-- The row of a job, link after link. -/
def row (g : Grid β) (job : Nat) (default : β) : List β :=
  (List.range g.links).map fun link => g.getD job link default

/-- All rows; a table without links has none. -/
def rows (g : Grid β) (default : β) : List (List β) :=
  if g.links = 0 then [] else (List.range g.jobs).map fun job => g.row job default

/-- The table of the given rows, which must all have the length of the first. -/
def ofRows (rows : List (List β)) : Except RaggedRow (Grid β) :=
  let links := (rows.head?.map List.length).getD 0
  match rows.zipIdx.find? fun (row, _) => row.length ≠ links with
  | some (row, job) => .error ⟨job, row.length, links⟩
  | none => .ok ⟨rows.length, links, rows.flatten.toArray⟩

/-- The cells with their positions, row after row. -/
def entries (g : Grid β) : List (Position × β) :=
  g.cells.toList.zipIdx.map fun (value, i) => (⟨i / g.links, i % g.links⟩, value)

theorem IsFull.set {g : Grid β} (h : g.IsFull) (job link : Nat) (value : β) : (g.set job link value).IsFull := by
  simpa [IsFull, Grid.set] using h

theorem isFull_fill (jobs links : Nat) (value : β) : (fill jobs links value).IsFull := by simp [IsFull, fill]

theorem isFull_tabulate (jobs links : Nat) (f : Nat → Nat → β) : (tabulate jobs links f).IsFull := by
  simp [IsFull, tabulate]

/-- Replacing cells keeps the shape. -/
theorem shape_setAll (g : Grid β) (entries : List (Position × β)) :
    (g.setAll entries).jobs = g.jobs ∧ (g.setAll entries).links = g.links := by
  induction entries generalizing g with
  | nil => exact ⟨rfl, rfl⟩
  | cons entry rest ih => exact ih (g.set entry.1.job entry.1.link entry.2)

theorem IsFull.setAll {g : Grid β} (h : g.IsFull) (entries : List (Position × β)) : (g.setAll entries).IsFull := by
  induction entries generalizing g with
  | nil => exact h
  | cons entry rest ih => exact ih (h.set _ _ _)

theorem isFull_ofEntries (jobs links : Nat) (value : β) (entries : List (Position × β)) :
    (ofEntries jobs links value entries).IsFull := (isFull_fill jobs links value).setAll entries

/-- Rows that are all as long as the first make a full table. -/
theorem isFull_of_ofRows {rows : List (List β)} {g : Grid β} (h : ofRows rows = .ok g) : g.IsFull := by
  simp only [ofRows] at h
  split at h
  · simp at h
  · next hnone =>
    cases h
    have hlength : ∀ row ∈ rows, row.length = (rows.head?.map List.length).getD 0 := by
      intro row hrow
      obtain ⟨i, hi, rfl⟩ := List.getElem_of_mem hrow
      have hentry : (rows[i], i) ∈ rows.zipIdx := List.mem_iff_getElem.2 ⟨i, by simpa using hi, by simp⟩
      simpa using List.find?_eq_none.1 hnone _ hentry
    simp only [IsFull, List.size_toArray, List.length_flatten]
    rw [List.map_congr_left hlength, List.map_const', List.sum_replicate_nat]

end Grid

end LinkPriority

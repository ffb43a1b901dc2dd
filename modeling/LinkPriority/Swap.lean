import LinkPriority.Grid

/-! The moves of the search: two neighbours in the queue of a link change places. -/

namespace LinkPriority

/-- `promote` moves one rank towards the front, past `demote`, which held that rank. -/
structure Swap where
  promote : Position
  demote : Position
deriving DecidableEq

def Swap.text (s : Swap) : String := s!"promote {s.promote.text} over {s.demote.text}"

def Swap.reverse (s : Swap) : Swap := ⟨s.demote, s.promote⟩

end LinkPriority

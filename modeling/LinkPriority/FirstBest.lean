/-! The best of a list, and among equally good ones the first. -/

namespace LinkPriority

variable {β : Type}

/-- The first best of `best` and the entries after it. -/
def bestFrom (better : β → β → Bool) (best : β) : List β → β
  | [] => best
  | next :: rest => bestFrom better (if better next best then next else best) rest

/-- The first entry of a list to which no other is better. -/
def firstBest (better : β → β → Bool) : List β → Option β
  | [] => none
  | x :: rest => some (bestFrom better x rest)

end LinkPriority

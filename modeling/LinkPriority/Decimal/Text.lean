import LinkPriority.Decimal.Fixed
import LinkPriority.Decimal.Shortest

/-! The two ways in which numbers appear in messages: in full, with the fewest digits that read back, and
rounded to a set number of places. -/

namespace LinkPriority

/-- Numbers that can be written in messages. -/
class DecimalText (α : Type) where
  shortest : α → String
  /-- The number rounded to so many decimal places. -/
  fixed : Nat → α → String

instance : DecimalText Binary64 where
  shortest := Decimal.shortest
  fixed := Decimal.fixed

end LinkPriority

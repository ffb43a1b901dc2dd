/-! The numbers that times, ratios and scores are made of. The model needs the four operations, the comparisons,
one total order for sorting and two functions for scores; everything else is defined here from those, so that a
result may be read over machine numbers and over an exact field alike. -/

namespace LinkPriority

/-- A type of numbers the model can compute with. -/
class Scalar (α : Type) extends Add α, Sub α, Mul α, Div α where
  ofNat : Nat → α
  /-- What a sum starts from; it is also the sum of no terms. -/
  emptySum : α
  /-- The numeric strict comparison, false on undefined numbers. -/
  lt : α → α → Bool
  /-- The numeric comparison, false on undefined numbers. -/
  le : α → α → Bool
  isFinite : α → Bool
  /-- The total order of sorting: it refines the numeric one and places every number. -/
  precedes : α → α → Bool
  ln : α → α
  sqrt : α → α

namespace Scalar

variable {α : Type} [Scalar α]

def zero : α := ofNat 0

def one : α := ofNat 1

/-- Numerically zero, of either sign. -/
def isZero (x : α) : Bool := le x zero && le zero x

/-- A number that does not even compare with itself. -/
def isUndefined (x : α) : Bool := !le x x

/-- Finite and not negative: what a time or a volume has to be. -/
def isAmount (x : α) : Bool := isFinite x && le zero x

def isWithin (bound x : α) : Bool := lt (zero - bound) x && lt x bound

def sum (xs : List α) : α := xs.foldl (· + ·) emptySum

/-- The arithmetic mean, zero for no numbers. -/
def mean (xs : List α) : α := if xs.isEmpty then zero else sum xs / ofNat xs.length

/-- The larger of two numbers: an undefined one gives way, and of two equal ones the second is taken. -/
def larger (x y : α) : α := if isUndefined y then x else if lt y x then x else y

/-- The smaller of two numbers: an undefined one gives way, and of two equal ones the second is taken. -/
def smaller (x y : α) : α := if isUndefined y then x else if lt x y then x else y

def largest (xs : List α) : α := xs.foldl larger zero

/-- By which part of `before` the number `after` is smaller; nothing is gained over a start that is not
positive. -/
def relativeGain (before after : α) : α := if le before zero then zero else (before - after) / before

end Scalar

end LinkPriority

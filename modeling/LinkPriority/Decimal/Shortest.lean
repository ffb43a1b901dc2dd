import LinkPriority.Decimal.Dyadic
import LinkPriority.Decimal.Places

/-! The shortest text of a double: the fewest digits that read back to it, of these the nearest, and of two
equally near ones the larger. The digits are written positionally, never with an exponent, and an integer has
no point. The search looks at grids of one digit, two digits and so on; on each grid only the two neighbours
of the value can lie in the interval of reals that round to the double, so testing both finds the first grid
with a hit. -/

namespace LinkPriority.Decimal

/-- The reals that round to a double: from `(4 · mantissa - below) / 4` to `(4 · mantissa + 2) / 4`, times the
power of two; the ends belong to it if the mantissa is even. -/
structure Interval where
  /-- Four times the value, so that both ends are integers on the same scale. -/
  value : Nat
  below : Nat
  closed : Bool
  /-- The scale: `value` stands for `value · scale`. -/
  scale : Quotient

/-- The rounding interval of `mantissa · 2 ^ exponent`: below a power of two the grid of doubles is twice as
fine. -/
def Interval.around (mantissa : Nat) (exponent : Int) : Interval where
  value := 4 * mantissa
  below := if mantissa = Nat.pow 2 52 ∧ -1074 < exponent then 1 else 2
  closed := mantissa % 2 = 0
  scale := Quotient.ofPower 1 2 (exponent - 2)

/-- Whether the decimal `n · 10 ^ e` lies in the interval. -/
def Interval.contains (i : Interval) (n : Nat) (e : Int) : Bool :=
  let grid := Quotient.ofPower n 10 e
  let point := grid.num * i.scale.den
  let low := (i.value - i.below) * i.scale.num * grid.den
  let high := (i.value + 2) * i.scale.num * grid.den
  if i.closed then low ≤ point && point ≤ high else low < point && point < high

/-- The least natural number `k` with `q < 10 ^ k`, for a quotient at least one. -/
def wholeDigits (q : Quotient) : Nat := (digits (q.num / q.den)).length

/-- How many zeros follow the point of a quotient below one before its first digit. -/
def leadingZeros (q : Quotient) : Nat :=
  -- the least `k` with `1 ≤ 10 ^ (k + 1) · q`
  let guess := (digits (q.den / q.num)).length - 1
  if q.den ≤ q.num * Nat.pow 10 guess then guess - 1 else guess

/-- The exponent `e` with `10 ^ (e - 1) ≤ q < 10 ^ e`, for a positive quotient. -/
def magnitude (q : Quotient) : Int :=
  if q.den ≤ q.num then wholeDigits q else -(leadingZeros q : Int)

/-- A decimal number `digits · 10 ^ exponent`. -/
structure Digits where
  mantissa : Nat
  exponent : Int

/-- The hit on the grid of step `10 ^ e`, if there is one; of two hits the nearer, and the larger if both are
as near. -/
def Interval.hit? (i : Interval) (q : Quotient) (e : Int) : Option Digits :=
  let step := Quotient.ofPower 1 10 e
  let num := q.num * step.den
  let den := q.den * step.num
  let lower := num / den
  let rest := num % den
  match i.contains lower e, i.contains (lower + 1) e with
  | false, false => none
  | true, false => some ⟨lower, e⟩
  | false, true => some ⟨lower + 1, e⟩
  | true, true => some ⟨if 2 * rest < den then lower else lower + 1, e⟩

/-- The hit on the coarsest grid that has one. The first grid tried is that of the next power of ten, which is
reached with one digit from below; seventeen digits tell any two doubles apart, so the last grid has a hit. -/
def Interval.shortest (i : Interval) (q : Quotient) : Digits :=
  let top := magnitude q
  ((List.range 18).findSome? fun k => i.hit? q (top - (k : Nat))).getD ⟨q.num, 0⟩

/-- Digits with the point at its place; `exponent` zeros follow an integer. -/
def Digits.positional (d : Digits) : String :=
  if 0 ≤ d.exponent then placePoint 0 (d.mantissa * Nat.pow 10 d.exponent.toNat)
  else placePoint d.exponent.natAbs d.mantissa

def shortest (x : Binary64) : String :=
  match Reading.ofBinary64 x with
  | .undefined => "NaN"
  | .infinite negative => if negative then "-inf" else "inf"
  | .finite negative mantissa exponent =>
    let body :=
      if mantissa = 0 then "0"
      else ((Interval.around mantissa exponent).shortest (Quotient.ofPower mantissa 2 exponent)).positional
    if negative then "-" ++ body else body

end LinkPriority.Decimal

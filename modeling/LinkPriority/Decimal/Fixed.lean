import LinkPriority.Decimal.Dyadic
import LinkPriority.Decimal.Places

/-! A number written with a set number of decimal places. The exact binary value is rounded to the nearest
multiple of the last place, a half to the even neighbour; a negative number keeps its sign also where only
zeros are left. -/

namespace LinkPriority.Decimal

/-- The natural number nearest to a quotient, a half going to the even neighbour. -/
def roundHalfEven (q : Quotient) : Nat :=
  let whole := q.num / q.den
  let rest := q.num % q.den
  if 2 * rest < q.den then whole
  else if q.den < 2 * rest then whole + 1
  else whole + whole % 2

/-- The text of `x` with `places` decimal places. -/
def fixed (places : Nat) (x : Binary64) : String :=
  match Reading.ofBinary64 x with
  | .undefined => "NaN"
  | .infinite negative => if negative then "-inf" else "inf"
  | .finite negative mantissa exponent =>
    let q := Quotient.ofPower mantissa 2 exponent
    let body := placePoint places (roundHalfEven ⟨q.num * Nat.pow 10 places, q.den⟩)
    if negative then "-" ++ body else body

end LinkPriority.Decimal

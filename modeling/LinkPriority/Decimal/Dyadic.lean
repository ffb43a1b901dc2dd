import LinkPriority.Scalar.Binary64

/-! The exact value behind the bits of a double: an integer times a power of two, as a quotient of naturals.
Printing works on that quotient alone, so that no digit depends on machine arithmetic. -/

namespace LinkPriority.Decimal

/-- What a double is: undefined, infinite, or exactly `mantissa · 2 ^ exponent` with a sign of its own. -/
inductive Reading where
  | undefined
  | infinite (negative : Bool)
  | finite (negative : Bool) (mantissa : Nat) (exponent : Int)
deriving DecidableEq

/-- Reads the bits; a zero exponent field means that the leading bit of the mantissa is missing. -/
def Reading.ofBinary64 (x : Binary64) : Reading :=
  let field := (x.magnitudeBits >>> 52).toNat
  let fraction := x.magnitudeBits.toNat % Nat.pow 2 52
  if field = 2047 then
    if fraction = 0 then .infinite x.isNegative else .undefined
  else if field = 0 then .finite x.isNegative fraction (-1074)
  else .finite x.isNegative (Nat.pow 2 52 + fraction) ((field : Int) - 1075)

/-- A fraction of naturals; the denominator is positive wherever one is built here. -/
structure Quotient where
  num : Nat
  den : Nat

/-- `mantissa · base ^ exponent` as a quotient. -/
def Quotient.ofPower (mantissa base : Nat) (exponent : Int) : Quotient :=
  if 0 ≤ exponent then ⟨mantissa * base.pow exponent.toNat, 1⟩ else ⟨mantissa, base.pow exponent.natAbs⟩

end LinkPriority.Decimal

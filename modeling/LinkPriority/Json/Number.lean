import LinkPriority.Json.Value
import LinkPriority.Scalar.Binary64

/-! What a number in a JSON text stands for. As a natural number it must be written plainly. As a double it is
read by a rule of its own: digits are collected into a 64-bit significand as long as they fit, and the power
of ten is applied by one correctly rounded multiplication or division, so the result may be off the nearest
double by a last place. -/

namespace LinkPriority.Json.NumberText

/-- Collects digits into a significand while it fits a 64-bit word; also returns the digits left over. -/
def collect : (significand : Nat) → List Nat → Nat × List Nat
  | significand, [] => (significand, [])
  | significand, d :: rest =>
    if 10 * significand + d < UInt64.size then collect (10 * significand + d) rest else (significand, d :: rest)

def ofDigits (ds : List Nat) : Nat := ds.foldl (fun n d => 10 * n + d) 0

/-- A natural number below `2 ^ 64`, written without sign, point and exponent. -/
def toWord? (t : NumberText) : Option Nat :=
  if t.negative ∨ t.fraction ≠ [] ∨ t.exponent.isSome then none
  else if ofDigits t.whole < UInt64.size then some (ofDigits t.whole) else none

/-- The largest power of ten that is applied at once. -/
def maxPower : Nat := 308

/-- The largest exponent that is told apart from larger ones. -/
def exponentBound : Nat := Nat.pow 2 31

/-- `x · 10 ^ exponent`, in steps of at most `maxPower`; refused where the power is too large or the result is
infinite. -/
def scale (x : Binary64) (exponent : Int) : Option Binary64 :=
  if exponent.natAbs ≤ maxPower then
    if 0 ≤ exponent then
      let y := x * Binary64.ofScientific 1 exponent
      if Scalar.isFinite y then some y else none
    else some (x / Binary64.ofScientific 1 exponent.natAbs)
  else if Scalar.isZero x then some x
  else if 0 ≤ exponent then none
  else scale (x / Binary64.ofScientific 1 maxPower) (exponent + maxPower)
termination_by exponent.natAbs
decreasing_by simp only [maxPower] at *; omega

/-- The size of the number, without its sign: `exponent` is the power of ten that its digits call for. -/
def magnitude (significand : Nat) (digitExponent : Int) (exponent : Option (Bool × List Nat)) :
    Option Binary64 :=
  match exponent with
  | none => scale (Scalar.ofNat significand) digitExponent
  | some (negative, ds) =>
    let e := ofDigits ds
    if e < exponentBound then
      scale (Scalar.ofNat significand) (if negative then digitExponent - e else digitExponent + e)
    else if significand ≠ 0 ∧ ¬negative then none
    else some Scalar.zero

/-- The double of the number. Each digit before the point that no longer fits raises the power of ten by one;
each digit after the point that fits lowers it by one, and the first that does not fit ends the collecting. -/
def toBinary64? (t : NumberText) : Option Binary64 :=
  let (whole, beyond) := collect 0 t.whole
  let (significand, dropped) := collect whole t.fraction
  let digitExponent : Int := beyond.length - (t.fraction.length - dropped.length : Nat)
  let size := magnitude significand digitExponent t.exponent
  if t.negative then size.map Binary64.neg else size

end LinkPriority.Json.NumberText

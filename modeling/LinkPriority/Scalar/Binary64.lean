import LinkPriority.Scalar

/-! Double precision numbers by their bits. Arithmetic is the machine's, rounded to nearest with ties to even.
A number is kept as its bits because an undefined result has a sign that the order of sorting sees: an
operation without a value yields the undefined number of negative sign, and an undefined operand is handed on
as it is. -/

namespace LinkPriority

/-- A binary64 number, given by its bits: sign, eleven bits of exponent, fifty-two bits of fraction. -/
structure Binary64 where
  bits : UInt64
deriving DecidableEq

namespace Binary64

def toFloat (x : Binary64) : Float := .ofBits x.bits

def ofFloat (f : Float) : Binary64 := ⟨f.toBits⟩

instance : Inhabited Binary64 := ⟨⟨0⟩⟩

/-- What an operation without a value yields. -/
def undefined : Binary64 := ⟨0xfff8000000000000⟩

/-- Negative sign, also of zero and of an undefined number. -/
def isNegative (x : Binary64) : Bool := x.bits >>> 63 == 1

def magnitudeBits (x : Binary64) : UInt64 := x.bits &&& 0x7fffffffffffffff

def isNaN (x : Binary64) : Bool := 0x7ff0000000000000 < x.magnitudeBits

def neg (x : Binary64) : Binary64 := ⟨x.bits ^^^ 0x8000000000000000⟩

/-- The result `f` of an operation on `x` and `y`. -/
def ofResult (x y : Binary64) (f : Float) : Binary64 :=
  if f.isNaN then
    if x.isNaN then x else if y.isNaN then y else undefined
  else ofFloat f

/-- A position in the total order of sorting: undefined numbers of negative sign, the numbers from negative to
positive infinity with negative zero before zero, undefined numbers of positive sign. -/
def orderKey (x : Binary64) : UInt64 := if x.isNegative then ~~~x.bits else x.bits ||| 0x8000000000000000

instance : Scalar Binary64 where
  add x y := ofResult x y (x.toFloat + y.toFloat)
  sub x y := ofResult x y (x.toFloat - y.toFloat)
  mul x y := ofResult x y (x.toFloat * y.toFloat)
  div x y := ofResult x y (x.toFloat / y.toFloat)
  ofNat n := ofFloat n.toUInt64.toFloat
  emptySum := ⟨0x8000000000000000⟩
  lt x y := x.toFloat < y.toFloat
  le x y := x.toFloat ≤ y.toFloat
  isFinite x := x.toFloat.isFinite
  precedes x y := x.orderKey ≤ y.orderKey
  ln x := ofResult x x x.toFloat.log
  sqrt x := ofResult x x x.toFloat.sqrt

/-- The number nearest to `mantissa · 10 ^ exponent`. -/
def ofScientific (mantissa : Nat) (exponent : Int) : Binary64 :=
  ofFloat (Float.ofScientific mantissa (exponent < 0) exponent.natAbs)

end Binary64

end LinkPriority

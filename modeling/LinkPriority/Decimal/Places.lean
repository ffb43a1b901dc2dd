/-! Natural numbers in decimal digits, and with a point set among them. -/

namespace LinkPriority.Decimal

/-- The digits of a natural number, most significant first. -/
def digits (n : Nat) : List Char := Nat.toDigits 10 n

/-- `units / 10 ^ places` written with all its places: at least one digit stands before the point, and there
is no point where there are no places. -/
def placePoint (places units : Nat) : String :=
  let ds := digits units
  let padded := List.replicate (places + 1 - ds.length) '0' ++ ds
  let whole := padded.take (padded.length - places)
  let rest := padded.drop (padded.length - places)
  String.ofList (if places = 0 then whole else whole ++ '.' :: rest)

end LinkPriority.Decimal

import LinkPriority.Random.Source
import LinkPriority.Random.WordStream
import LinkPriority.Scalar.Binary64

/-! Uniform draws from a stream of words. A draw that would be biased is thrown away and made again; a stream
that yields no good draw in a whole period never will, so that many attempts are all there can be. -/

namespace LinkPriority.WordStream

/-- Draws until a draw is accepted, at most `attempts` times. -/
def drawUntil {β γ : Type} (draw : StateM WordStream β) (accept : β → Option γ) :
    (attempts : Nat) → StateM WordStream (Option γ)
  | 0 => return none
  | attempts + 1 => do
    match accept (← draw) with
    | some value => return some value
    | none => drawUntil draw accept attempts

/-- The upper part of `word · range` for a word of `bits` bits, unless its lower part lies beyond `zone`. -/
def scale (bits zone range word : Nat) : Option Nat :=
  if word * range % Nat.pow 2 bits ≤ zone then some (word * range / Nat.pow 2 bits) else none

/-- The largest multiple of `range` by a power of two below `2 ^ bits`, less one. -/
def shiftedZone (bits range : Nat) : Nat := range * Nat.pow 2 (bits - 1 - range.log2) - 1

/-- The largest multiple of `range` up to `2 ^ bits`, less one. -/
def modularZone (bits range : Nat) : Nat := Nat.pow 2 bits - 1 - (Nat.pow 2 bits - range) % range

def below32 (range : Nat) : StateM WordStream Nat :=
  return (← drawUntil next32 (fun w => scale 32 (shiftedZone 32 range) range w.toNat) period).getD 0

def below64 (range : Nat) : StateM WordStream Nat :=
  return (← drawUntil next64 (fun w => scale 64 (shiftedZone 64 range) range w.toNat) period).getD 0

/-- A number from one up to two whose fraction is 52 random bits. -/
def oneToTwo (w : UInt64) : Binary64 := ⟨(0x3ff0000000000000 : UInt64) ||| w >>> 12⟩

/-- A number from `low` up to but not including `high`. -/
def between (low high : Binary64) : StateM WordStream Binary64 :=
  return (← drawUntil next64 (fun w =>
    let x := (oneToTwo w - Scalar.one) * (high - low) + low
    if Scalar.lt x high then some x else none) period).getD low

/-- A fair coin: the topmost bit of two words is not set. -/
def coin : StateM WordStream Bool := return (← next64) < 0x8000000000000000

instance : UniformSource WordStream Binary64 where
  below := below64
  coin := coin
  between := between

end LinkPriority.WordStream

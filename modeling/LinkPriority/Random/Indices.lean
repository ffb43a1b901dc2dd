import LinkPriority.Random.Uniform

/-! Random selections of different indices. Which of three methods is used depends on how many indices are
wanted out of how many: inserting them one by one, shuffling the front of the whole range, or drawing until
the draw is new. -/

namespace LinkPriority.WordStream

/-- Selects by insertion. For each of the last `amount` upper ends `j` a random `t` up to `j` is taken, or `j`
itself if `t` is taken already; in a short selection `j` then goes before `t`, which keeps the order random.
-/
def insertOneByOne (short : Bool) : List Nat → List Nat → StateM WordStream (List Nat)
  | [], taken => return taken
  | j :: ends, taken => do
    let t ← below32 (j + 1)
    match taken.idxOf? t with
    | some place => insertOneByOne short ends (if short then taken.insertIdx place j else taken ++ [j])
    | none => insertOneByOne short ends (taken ++ [t])

/-- Shuffles from the back: for each index of the list, its place is exchanged with a random one not behind
it. -/
def shuffleBack : List Nat → Array Nat → StateM WordStream (Array Nat)
  | [], xs => return xs
  | i :: rest, xs => do shuffleBack rest (xs.swapIfInBounds i (← below32 (i + 1)))

/-- Shuffles the front: for each index of the list, its place is exchanged with a random one not before it. -/
def shuffleFront (length : Nat) : List Nat → Array Nat → StateM WordStream (Array Nat)
  | [], xs => return xs
  | i :: rest, xs => do shuffleFront length rest (xs.swapIfInBounds i (i + (← below32 (length - i))))

/-- Draws `amount` indices, each as often as needed until it is new. -/
def drawNew (length : Nat) : (amount : Nat) → List Nat → StateM WordStream (List Nat)
  | 0, taken => return taken.reverse
  | amount + 1, taken => do
    let fresh ← drawUntil next32 (fun w =>
      (scale 32 (modularZone 32 length) length w.toNat).filter (!taken.contains ·)) period
    drawNew length amount (fresh.getD 0 :: taken)

/-- Selections below this size are kept random while they are inserted, larger ones are shuffled afterwards. -/
def shortSelection : Nat := 50

def selectByInsertion (length amount : Nat) : StateM WordStream (List Nat) := do
  let ends := (List.range amount).map (length - amount + ·)
  if amount < shortSelection then insertOneByOne true ends []
  else
    let taken ← insertOneByOne false ends []
    return (← shuffleBack ((List.range (amount - 1)).reverse.map (· + 1)) taken.toArray).toList

/-- Selects `amount` indices by shuffling the front of the whole range. -/
def selectInPlace (length amount : Nat) : StateM WordStream (List Nat) :=
  return ((← shuffleFront length (List.range amount) (Array.range length)).extract 0 amount).toList

/-- Selects `amount` different indices below `length`. The whole range is laid out if it is short against the
selection: below `(10 + 1.6 · amount) · amount` for up to 162 indices, below `270 · amount` for more. -/
def select (length amount : Nat) : StateM WordStream (List Nat) :=
  if amount < 163 then
    if 11 < amount ∧ 5 * length < (50 + 8 * amount) * amount then selectInPlace length amount
    else selectByInsertion length amount
  else if length < 270 * amount then selectInPlace length amount
  else drawNew length amount []

instance : IndexSource WordStream := ⟨select⟩

end LinkPriority.WordStream

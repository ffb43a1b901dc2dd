/-! A stream of 32-bit words from a 64-bit seed: the key stream of ChaCha with eight rounds, under a key that
a linear congruence spreads out of the seed. The block counter has 64 bits and starts at zero, the nonce is
zero. -/

namespace LinkPriority

/-- A key, the number of the next block, and what is left of the block before it. -/
structure WordStream where
  key : Vector UInt32 8
  block : UInt64
  pending : List UInt32
deriving DecidableEq

namespace WordStream

def rotateLeft (x n : UInt32) : UInt32 := (x <<< n) ||| (x >>> (32 - n))

def rotateRight (x n : UInt32) : UInt32 := (x >>> n) ||| (x <<< (32 - n))

/-- The quarter round on four words of the state. -/
def quarterRound (a b c d : Fin 16) (v : Vector UInt32 16) : Vector UInt32 16 :=
  let xa := v[a] + v[b]
  let xd := rotateLeft (v[d] ^^^ xa) 16
  let xc := v[c] + xd
  let xb := rotateLeft (v[b] ^^^ xc) 12
  let ya := xa + xb
  let yd := rotateLeft (xd ^^^ ya) 8
  let yc := xc + yd
  let yb := rotateLeft (xb ^^^ yc) 7
  (((v.set a ya).set b yb).set c yc).set d yd

/-- Two rounds: the quarter rounds of the four columns, then those of the four diagonals. -/
def doubleRound (v : Vector UInt32 16) : Vector UInt32 16 :=
  v |> quarterRound 0 4 8 12 |> quarterRound 1 5 9 13 |> quarterRound 2 6 10 14 |> quarterRound 3 7 11 15
    |> quarterRound 0 5 10 15 |> quarterRound 1 6 11 12 |> quarterRound 2 7 8 13 |> quarterRound 3 4 9 14

/-- The state before the rounds: four constants, the key, the block number and the nonce. -/
def initial (key : Vector UInt32 8) (block : UInt64) : Vector UInt32 16 :=
  #v[0x61707865, 0x3320646e, 0x79622d32, 0x6b206574,
    key[0], key[1], key[2], key[3], key[4], key[5], key[6], key[7],
    block.toUInt32, (block >>> 32).toUInt32, 0, 0]

/-- The sixteen words of a block: four double rounds, and the state before them added. -/
def blockWords (key : Vector UInt32 8) (block : UInt64) : List UInt32 :=
  let start := initial key block
  (start.zipWith (· + ·) (doubleRound (doubleRound (doubleRound (doubleRound start))))).toList

/-- One step of the congruence that spreads a seed. -/
def spread (s : UInt64) : UInt64 := s * 6364136223846793005 + 11634580027462260723

/-- The key word of a spread seed: its upper bits mixed, and rotated by the topmost five. -/
def keyWord (s : UInt64) : UInt32 := rotateRight (((s >>> 18) ^^^ s) >>> 27).toUInt32 (s >>> 59).toUInt32

def ofSeed (seed : UInt64) : WordStream :=
  let s1 := spread seed
  let s2 := spread s1
  let s3 := spread s2
  let s4 := spread s3
  let s5 := spread s4
  let s6 := spread s5
  let s7 := spread s6
  let s8 := spread s7
  ⟨#v[keyWord s1, keyWord s2, keyWord s3, keyWord s4, keyWord s5, keyWord s6, keyWord s7, keyWord s8], 0, []⟩

/-- How many words a stream has before it repeats: sixteen for each of the `2 ^ 64` blocks. -/
def period : Nat := Nat.pow 2 68

def next32 : StateM WordStream UInt32 := fun s =>
  match s.pending with
  | word :: rest => (word, { s with pending := rest })
  | [] =>
    match blockWords s.key s.block with
    | word :: rest => (word, { s with block := s.block + 1, pending := rest })
    | [] => (0, s)

/-- The next two words as one of 64 bits, the lower half first. -/
def next64 : StateM WordStream UInt64 := do
  let low ← next32
  let high ← next32
  return high.toUInt64 <<< 32 ||| low.toUInt64

end WordStream

end LinkPriority

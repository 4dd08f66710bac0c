import ReliableStream.Draws.Source

/-!
# A seeded source of draws

The words of a run come from the ChaCha stream with twenty rounds. The key is expanded from a
64-bit seed, the block counter is a 64-bit word that starts at zero, and the remaining words of
the block are zero. A block of sixteen 32-bit words gives eight draws, the first word of each pair
being the low half, and every draw is used: equal seeds give equal runs.
-/

namespace ReliableStream

/-- The sixteen words of a block. -/
abbrev ChaCha.Block := Vector UInt32 16

/-- A ChaCha stream: its key, the number of its next block, and the draws left of the last one. -/
structure ChaCha where
  /-- The eight key words. -/
  key : Vector UInt32 8
  /-- The number of the next block. -/
  counter : UInt64
  /-- Draws made and not taken yet. -/
  ready : List UInt64

namespace ChaCha

/-! ### Blocks -/

/-- Rotates a word to the left. -/
def rotateLeft (x n : UInt32) : UInt32 := (x <<< n) ||| (x >>> (32 - n))

/-- Mixes four words of a block. -/
def quarterRound (a b c d : Fin 16) (s : Block) : Block :=
  let s := s.set a (s[a] + s[b])
  let s := s.set d (rotateLeft (s[d] ^^^ s[a]) 16)
  let s := s.set c (s[c] + s[d])
  let s := s.set b (rotateLeft (s[b] ^^^ s[c]) 12)
  let s := s.set a (s[a] + s[b])
  let s := s.set d (rotateLeft (s[d] ^^^ s[a]) 8)
  let s := s.set c (s[c] + s[d])
  s.set b (rotateLeft (s[b] ^^^ s[c]) 7)

/-- Mixes the columns of a block, then its diagonals. -/
def doubleRound (s : Block) : Block :=
  let s := quarterRound 0 4 8 12 s
  let s := quarterRound 1 5 9 13 s
  let s := quarterRound 2 6 10 14 s
  let s := quarterRound 3 7 11 15 s
  let s := quarterRound 0 5 10 15 s
  let s := quarterRound 1 6 11 12 s
  let s := quarterRound 2 7 8 13 s
  quarterRound 3 4 9 14 s

/-- A block before it is mixed: the constant, the key, the counter and an empty nonce. -/
def start (key : Vector UInt32 8) (counter : UInt64) : Block :=
  let constant : Vector UInt32 4 := #v[0x61707865, 0x3320646e, 0x79622d32, 0x6b206574]
  constant ++ key ++ #v[counter.toUInt32, (counter >>> 32).toUInt32, 0, 0]

/-- A finished block: twenty rounds, added to what they started from. -/
def block (key : Vector UInt32 8) (counter : UInt64) : Block :=
  let s := start key counter
  Vector.zipWith (· + ·) (Nat.repeat doubleRound 10 s) s

/-- The eight draws of a block. -/
def drawsOf (s : Block) : Vector UInt64 8 :=
  Vector.ofFn fun i ↦ s[2 * i.val].toUInt64 ||| (s[2 * i.val + 1].toUInt64 <<< 32)

/-! ### The stream -/

/-- The key of a seed: eight outputs of a linear congruential generator, each permuted. -/
def keyOfSeed (seed : UInt64) : Vector UInt32 8 :=
  Vector.ofFn fun i ↦ permuted (Nat.repeat advance (i.val + 1) seed)
where
  /-- One step of the congruential generator. -/
  advance (state : UInt64) : UInt64 := state * 6364136223846793005 + 11634580027462260723
  /-- Folds a state to 32 bits and rotates them by its highest five. -/
  permuted (state : UInt64) : UInt32 :=
    let folded : UInt32 := (((state >>> 18) ^^^ state) >>> 27).toUInt32
    let rotation : UInt32 := (state >>> 59).toUInt32
    -- The rotation is to the right.
    rotateLeft folded ((32 - rotation) % 32)

/-- The stream of a seed. -/
def ofSeed (seed : UInt64) : ChaCha := ⟨keyOfSeed seed, 0, []⟩

instance : DrawSource ChaCha where
  next g := match g.ready with
    | word :: rest => (word, { g with ready := rest })
    | [] =>
      let draws := drawsOf (block g.key g.counter)
      (draws[0], { g with counter := g.counter + 1, ready := draws.toList.tail })

end ChaCha

end ReliableStream

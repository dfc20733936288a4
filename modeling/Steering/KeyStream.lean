/-!
# `Steering.KeyStream` — a reproducible source of random words

Random picks and subsets draw from a ChaCha stream of twelve rounds with a 64-bit block counter and
stream number zero. A `KeyStream` is a key and a position in the infinite sequence of 32-bit words
that the key determines, so drawing is a pure function and two streams with one key and one position
agree for ever. Nothing is buffered: word `i` is word `i % 16` of block `i / 16`.

This is how the generator `StdRng` of the package `rand` is documented in its version 0.8, down to
the order of the words: ChaCha with twelve rounds, and for a seed of 64 bits a key that is filled with
the output of a PCG generator.

A round works on the block as four rows of four words, one quarter round in each column; the
diagonal round is the same operation between a turn of the rows and its inverse.
-/

namespace Steering

/-- Four words of a block. -/
structure Row where
  w0 : UInt32
  w1 : UInt32
  w2 : UInt32
  w3 : UInt32
  deriving DecidableEq, Inhabited, Repr

namespace Row

def add (x y : Row) : Row := ⟨x.w0 + y.w0, x.w1 + y.w1, x.w2 + y.w2, x.w3 + y.w3⟩

/-- Rotates one word to the left by `0 < r < 32` bits. -/
def rotateWord (x r : UInt32) : UInt32 := (x <<< r) ||| (x >>> (32 - r))

/-- Combines two rows and rotates each word of the result. -/
def xorRotate (x y : Row) (r : UInt32) : Row :=
  ⟨rotateWord (x.w0 ^^^ y.w0) r, rotateWord (x.w1 ^^^ y.w1) r, rotateWord (x.w2 ^^^ y.w2) r,
    rotateWord (x.w3 ^^^ y.w3) r⟩

/-- Moves every word one column to the left. -/
def turn (x : Row) : Row := ⟨x.w1, x.w2, x.w3, x.w0⟩

def toList (x : Row) : List UInt32 := [x.w0, x.w1, x.w2, x.w3]

end Row

/-- A block: sixteen words in four rows. -/
structure Block where
  a : Row
  b : Row
  c : Row
  d : Row
  deriving DecidableEq, Inhabited, Repr

namespace Block

def add (x y : Block) : Block := ⟨x.a.add y.a, x.b.add y.b, x.c.add y.c, x.d.add y.d⟩

/-- A quarter round in every column. -/
def columns (x : Block) : Block :=
  let a := x.a.add x.b
  let d := x.d.xorRotate a 16
  let c := x.c.add d
  let b := x.b.xorRotate c 12
  let a := a.add b
  let d := d.xorRotate a 8
  let c := c.add d
  let b := b.xorRotate c 7
  ⟨a, b, c, d⟩

/-- A quarter round on every diagonal. -/
def diagonals (x : Block) : Block :=
  let y := columns ⟨x.a, x.b.turn, x.c.turn.turn, x.d.turn.turn.turn⟩
  ⟨y.a, y.b.turn.turn.turn, y.c.turn.turn, y.d.turn⟩

/-- Several double rounds. -/
def rounds : Nat → Block → Block
  | 0, x => x
  | n + 1, x => rounds n x.columns.diagonals

/-- Twelve rounds, and the block itself added. -/
def scrambled (x : Block) : Block := (rounds 6 x).add x

def toList (x : Block) : List UInt32 := x.a.toList ++ x.b.toList ++ x.c.toList ++ x.d.toList

end Block

/-- A key and a position in the sequence of words that it determines. -/
structure KeyStream where
  upper : Row
  lower : Row
  position : Nat := 0
  deriving DecidableEq, Inhabited, Repr

namespace KeyStream

/-- The block that the counter value `n` selects. -/
def block (s : KeyStream) (n : Nat) : Block :=
  Block.scrambled
    ⟨⟨0x61707865, 0x3320646e, 0x79622d32, 0x6b206574⟩, s.upper, s.lower,
      ⟨UInt32.ofNat n, UInt32.ofNat (n / Nat.pow 2 32), 0, 0⟩⟩

/-- Word `i` of the sequence. -/
def word (s : KeyStream) (i : Nat) : UInt32 := (s.block (i / 16)).toList.getD (i % 16) 0

/-- The next word: the generator's `next_u32`. -/
def next32 (s : KeyStream) : Nat × KeyStream :=
  ((s.word s.position).toNat, { s with position := s.position + 1 })

/-- The next two words as one number, the low half first: the generator's `next_u64`. -/
def next64 (s : KeyStream) : Nat × KeyStream :=
  ((s.word s.position).toNat + (s.word (s.position + 1)).toNat * Nat.pow 2 32,
    { s with position := s.position + 2 })

/-! ## Keys from a seed -/

/-- One step of the generator that spreads a seed over a key: the linear congruence of PCG. -/
def seedStep (state : UInt64) : UInt64 := state * 6364136223846793005 + 11634580027462260723

/-- The word read off a state of that generator: its shifted bits, rotated by the highest five. -/
def seedWord (state : UInt64) : UInt32 :=
  let mixed := (((state >>> 18) ^^^ state) >>> 27).toUInt32
  let r := (state >>> 59).toUInt32
  if r = 0 then mixed else Row.rotateWord mixed (32 - r)

/-- Four successive key words, and the state after them. -/
def seedRow (s0 : UInt64) : Row × UInt64 :=
  let s1 := seedStep s0
  let s2 := seedStep s1
  let s3 := seedStep s2
  let s4 := seedStep s3
  (⟨seedWord s1, seedWord s2, seedWord s3, seedWord s4⟩, s4)

/-- The stream of a seed, at its start: the generator's `seed_from_u64`. -/
def ofSeed (seed : Nat) : KeyStream :=
  let (upper, state) := seedRow (UInt64.ofNat seed)
  { upper, lower := (seedRow state).1 }

theorem next32_lt (s : KeyStream) : s.next32.1 < Nat.pow 2 32 := UInt32.toNat_lt _

theorem next64_lt (s : KeyStream) : s.next64.1 < Nat.pow 2 64 := by
  have h1 := UInt32.toNat_lt (s.word s.position)
  have h2 := UInt32.toNat_lt (s.word (s.position + 1))
  have h32 : Nat.pow 2 32 = 4294967296 := rfl
  have h64 : Nat.pow 2 64 = 18446744073709551616 := rfl
  simp only [next64, h32, h64]
  omega

end KeyStream

end Steering

/-!
# `Steering.Hash` — a 64-bit digest of text

Positions on a ring, the seed of a subset and the tie-break inside a ring slot are all read off one
non-cryptographic digest, XXH3 with a zero seed and the standard 192-byte secret. Nothing in the
library depends on *which* function it is: every law about rings and subsets holds of any digest,
and the rest of the library sees it only through `Hash.ofText`.

What is followed is the published description of the 64-bit XXH3, which is also what `xxh3_64` of the
package `xxhash` computes: its constants, its default secret and its rule for each length class.

The digest has one rule per length class (empty, 1–3, 4–8, 9–16, 17–128, 129–240 bytes, and longer),
so the definition below is one function per class over the list of bytes. A long input is read in
*stripes* of 64 bytes, and sixteen stripes make a *block*; both recursions go down a count computed
from the length.
-/

namespace Steering.Hash

def bytesOf (text : String) : List UInt8 := text.toUTF8.data.toList

/-! ## Words -/

/-- The value of a little-endian group of bytes. -/
def littleEndian : List UInt8 → UInt64
  | [] => 0
  | b :: rest => b.toUInt64 ||| (littleEndian rest <<< 8)

/-- The four bytes that start at an offset, as a number. -/
def word32 (bytes : List UInt8) (offset : Nat) : UInt64 := littleEndian ((bytes.drop offset).take 4)

/-- The eight bytes that start at an offset, as a number. -/
def word64 (bytes : List UInt8) (offset : Nat) : UInt64 := littleEndian ((bytes.drop offset).take 8)

/-- The eight bytes of a word in the opposite order. -/
def swapBytes (x : UInt64) : UInt64 :=
  let pairs : UInt64 := 0x00FF00FF00FF00FF
  let quads : UInt64 := 0x0000FFFF0000FFFF
  let y := ((x >>> 8) &&& pairs) ||| ((x &&& pairs) <<< 8)
  let z := ((y >>> 16) &&& quads) ||| ((y &&& quads) <<< 16)
  (z >>> 32) ||| (z <<< 32)

/-- A rotation to the left by `0 < r < 64` bits. -/
def rotateLeft (x r : UInt64) : UInt64 := (x <<< r) ||| (x >>> (64 - r))

/-- The full 128-bit product of two words, with its halves combined. -/
def foldProduct (x y : UInt64) : UInt64 :=
  let p := x.toNat * y.toNat
  UInt64.ofNat p ^^^ UInt64.ofNat (p >>> 64)

/-! ## Constants -/

/-- The default secret of XXH3. -/
def secret : List UInt8 :=
  [0xb8, 0xfe, 0x6c, 0x39, 0x23, 0xa4, 0x4b, 0xbe, 0x7c, 0x01, 0x81, 0x2c, 0xf7, 0x21, 0xad, 0x1c,
   0xde, 0xd4, 0x6d, 0xe9, 0x83, 0x90, 0x97, 0xdb, 0x72, 0x40, 0xa4, 0xa4, 0xb7, 0xb3, 0x67, 0x1f,
   0xcb, 0x79, 0xe6, 0x4e, 0xcc, 0xc0, 0xe5, 0x78, 0x82, 0x5a, 0xd0, 0x7d, 0xcc, 0xff, 0x72, 0x21,
   0xb8, 0x08, 0x46, 0x74, 0xf7, 0x43, 0x24, 0x8e, 0xe0, 0x35, 0x90, 0xe6, 0x81, 0x3a, 0x26, 0x4c,
   0x3c, 0x28, 0x52, 0xbb, 0x91, 0xc3, 0x00, 0xcb, 0x88, 0xd0, 0x65, 0x8b, 0x1b, 0x53, 0x2e, 0xa3,
   0x71, 0x64, 0x48, 0x97, 0xa2, 0x0d, 0xf9, 0x4e, 0x38, 0x19, 0xef, 0x46, 0xa9, 0xde, 0xac, 0xd8,
   0xa8, 0xfa, 0x76, 0x3f, 0xe3, 0x9c, 0x34, 0x3f, 0xf9, 0xdc, 0xbb, 0xc7, 0xc7, 0x0b, 0x4f, 0x1d,
   0x8a, 0x51, 0xe0, 0x4b, 0xcd, 0xb4, 0x59, 0x31, 0xc8, 0x9f, 0x7e, 0xc9, 0xd9, 0x78, 0x73, 0x64,
   0xea, 0xc5, 0xac, 0x83, 0x34, 0xd3, 0xeb, 0xc3, 0xc5, 0x81, 0xa0, 0xff, 0xfa, 0x13, 0x63, 0xeb,
   0x17, 0x0d, 0xdd, 0x51, 0xb7, 0xf0, 0xda, 0x49, 0xd3, 0x16, 0x55, 0x26, 0x29, 0xd4, 0x68, 0x9e,
   0x2b, 0x16, 0xbe, 0x58, 0x7d, 0x47, 0xa1, 0xfc, 0x8f, 0xf8, 0xb8, 0xd1, 0x7a, 0xd0, 0x31, 0xce,
   0x45, 0xcb, 0x3a, 0x8f, 0x95, 0x16, 0x04, 0x28, 0xaf, 0xd7, 0xfb, 0xca, 0xbb, 0x4b, 0x40, 0x7e]

/-! The primes of the description: three of 32 bits and five of 64. -/

def prime32a : UInt64 := 0x9E3779B1
def prime32b : UInt64 := 0x85EBCA77
def prime32c : UInt64 := 0xC2B2AE3D
def prime64a : UInt64 := 0x9E3779B185EBCA87
def prime64b : UInt64 := 0xC2B2AE3D27D4EB4F
def prime64c : UInt64 := 0x165667B19E3779F9
def prime64d : UInt64 := 0x85EBCA77C2B2AE63
def prime64e : UInt64 := 0x27D4EB2F165667C5

/-! ## Final mixing -/

/-- The final mixing of the shortest inputs. -/
def avalancheShort (h : UInt64) : UInt64 :=
  let h := (h ^^^ (h >>> 33)) * prime64b
  let h := (h ^^^ (h >>> 29)) * prime64c
  h ^^^ (h >>> 32)

/-- The final mixing of inputs of nine bytes and more. -/
def avalanche (h : UInt64) : UInt64 :=
  let h := (h ^^^ (h >>> 37)) * 0x165667919E3779F9
  h ^^^ (h >>> 32)

/-- The final mixing of inputs of four to eight bytes, which also takes the length in. -/
def avalancheMiddle (h length : UInt64) : UInt64 :=
  let h := (h ^^^ rotateLeft h 49 ^^^ rotateLeft h 24) * 0x9FB21C651E98DF25
  let h := (h ^^^ ((h >>> 35) + length)) * 0x9FB21C651E98DF25
  h ^^^ (h >>> 28)

/-! ## Short inputs -/

/-- One to three bytes: the first, the middle and the last byte, and the length. -/
def digestTiny (bytes : List UInt8) (n : Nat) : UInt64 :=
  let byte i := (bytes.getD i 0).toUInt64
  let word := (byte 0 <<< 16) ||| (byte (n / 2) <<< 24) ||| byte (n - 1) ||| (UInt64.ofNat n <<< 8)
  avalancheShort (word ^^^ (word32 secret 0 ^^^ word32 secret 4))

/-- Four to eight bytes: the first four and the last four. -/
def digestSmall (bytes : List UInt8) (n : Nat) : UInt64 :=
  let word := word32 bytes (n - 4) + (word32 bytes 0 <<< 32)
  avalancheMiddle (word ^^^ (word64 secret 8 ^^^ word64 secret 16)) (UInt64.ofNat n)

/-- Nine to sixteen bytes: the first eight and the last eight. -/
def digestMedium (bytes : List UInt8) (n : Nat) : UInt64 :=
  let low := word64 bytes 0 ^^^ (word64 secret 24 ^^^ word64 secret 32)
  let high := word64 bytes (n - 8) ^^^ (word64 secret 40 ^^^ word64 secret 48)
  avalanche (UInt64.ofNat n + swapBytes low + high + foldProduct low high)

/-- Sixteen bytes of input against sixteen bytes of the secret. -/
def mix (bytes : List UInt8) (offset key : Nat) : UInt64 :=
  foldProduct (word64 bytes offset ^^^ word64 secret key)
    (word64 bytes (offset + 8) ^^^ word64 secret (key + 8))

/-- The sum of `mix` over a list of offsets into the input and the secret. -/
def mixAll (bytes : List UInt8) (places : List (Nat × Nat)) : UInt64 :=
  (places.map fun p => mix bytes p.1 p.2).foldl (· + ·) 0

/-- From 17 to 128 bytes: pairs of sixteen-byte groups, taken from both ends. -/
def digestPaired (bytes : List UInt8) (n : Nat) : UInt64 :=
  let pairs := (List.range ((n - 1) / 32 + 1)).flatMap fun i =>
    [(16 * i, 32 * i), (n - 16 * (i + 1), 32 * i + 16)]
  avalanche (UInt64.ofNat n * prime64a + mixAll bytes pairs)

/-- From 129 to 240 bytes: sixteen-byte groups in order, mixed once after the eighth, and the last
sixteen bytes. -/
def digestGrouped (bytes : List UInt8) (n : Nat) : UInt64 :=
  let first := (List.range 8).map fun i => (16 * i, 16 * i)
  let more := (List.range (n / 16 - 8)).map fun i => (16 * (i + 8), 16 * i + 3)
  let start := avalanche (UInt64.ofNat n * prime64a + mixAll bytes first)
  avalanche (start + mixAll bytes (more ++ [(n - 16, 119)]))

/-! ## Long inputs -/

abbrev Lanes := UInt64 × UInt64

/-- The accumulator that a long input starts from. -/
def startLanes : List Lanes :=
  [(prime32c, prime64a), (prime64b, prime64c), (prime64d, prime32b), (prime64e, prime32a)]

/-- The product of the two halves of a word. -/
def halvesProduct (x : UInt64) : UInt64 := (x % 0x100000000) * (x >>> 32)

/-- Takes one stripe in: each lane adds its own keyed product and its neighbour's data. -/
def takeStripe (stripe key : List UInt8) : List Lanes → List Lanes
  | [] => []
  | (x, y) :: rest =>
    let a := word64 stripe 0
    let b := word64 stripe 8
    (x + b + halvesProduct (a ^^^ word64 key 0), y + a + halvesProduct (b ^^^ word64 key 8)) ::
      takeStripe (stripe.drop 16) (key.drop 16) rest

/-- Stirs the accumulator at the end of a block. -/
def scramble (key : List UInt8) : List Lanes → List Lanes
  | [] => []
  | (x, y) :: rest =>
    let stir (z w : UInt64) : UInt64 := (z ^^^ (z >>> 47) ^^^ w) * prime32a
    (stir x (word64 key 0), stir y (word64 key 8)) :: scramble (key.drop 16) rest

/-- Takes `count` stripes in; the key moves by eight bytes a stripe. -/
def takeStripes : Nat → List UInt8 → List UInt8 → List Lanes → List Lanes
  | 0, _, _, lanes => lanes
  | count + 1, bytes, key, lanes =>
    takeStripes count (bytes.drop 64) (key.drop 8) (takeStripe bytes key lanes)

/-- Takes `count` blocks of sixteen stripes in, and returns what follows them. -/
def takeBlocks : Nat → List UInt8 → List Lanes → List UInt8 × List Lanes
  | 0, bytes, lanes => (bytes, lanes)
  | count + 1, bytes, lanes =>
    takeBlocks count (bytes.drop 1024)
      (scramble (secret.drop 128) (takeStripes 16 bytes secret lanes))

def mergeLanes (key : List UInt8) : List Lanes → UInt64
  | [] => 0
  | (x, y) :: rest =>
    foldProduct (x ^^^ word64 key 0) (y ^^^ word64 key 8) + mergeLanes (key.drop 16) rest

/-- More than 240 bytes: whole blocks, the stripes that are left, and the last 64 bytes. -/
def digestLong (bytes : List UInt8) (n : Nat) : UInt64 :=
  let blocks := (n - 1) / 1024
  let (rest, lanes) := takeBlocks blocks bytes startLanes
  let lanes := takeStripes ((n - 1 - 1024 * blocks) / 64) rest secret lanes
  let lanes := takeStripe (bytes.drop (n - 64)) (secret.drop 121) lanes
  avalanche (UInt64.ofNat n * prime64a + mergeLanes (secret.drop 11) lanes)

/-! ## The digest -/

/-- The digest of a list of bytes: one rule per length class, with the limits of XXH3. -/
def digest (bytes : List UInt8) : UInt64 :=
  let n := bytes.length
  if n = 0 then avalancheShort (word64 secret 56 ^^^ word64 secret 64)
  else if n ≤ 3 then digestTiny bytes n
  else if n ≤ 8 then digestSmall bytes n
  else if n ≤ 16 then digestMedium bytes n
  else if n ≤ 128 then digestPaired bytes n
  else if n ≤ 240 then digestGrouped bytes n
  else digestLong bytes n

/-- The digest of a text's UTF-8 bytes, as a number below `2 ^ 64`. -/
def ofText (text : String) : Nat := (digest (bytesOf text)).toNat

theorem ofText_lt (text : String) : ofText text < Nat.pow 2 64 := UInt64.toNat_lt _

end Steering.Hash

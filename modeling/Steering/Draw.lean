import Steering.KeyStream

/-!
# `Steering.Draw` — numbers in a range, and shuffles

A number below `n` is the high half of the product of `n` and a random word. That is uniform once
the words whose low half lies past the last full copy of `n` are refused, so a draw repeats until a
word is accepted. This is how `gen_range` of the package `rand` is documented to draw, and `shuffle`
of the same package to exchange places, in version 0.8.

Only here does a draw end by itself. Each word is accepted with a chance of at least one half, and the
package goes on for as long as it takes; the recursion below goes down an allowance of 256 words and
takes the last one as it comes, which keeps the function total and its result below `n` in every case.

A shuffle is split in two: the *plan* — which places are exchanged, from the end to the front — is
drawn from the stream and depends on the length alone; carrying it out does not touch the stream.
-/

namespace Steering

namespace KeyStream

/-- How many words one draw may look at. There is no such limit but in this library; that 256 words in a
row are refused has a chance of at most one in `2 ^ 256`. -/
def allowance : Nat := 256

/-- Whether a product's low half is in the part of the range that keeps draws uniform. -/
def accepted (width n low : Nat) : Bool := low < n * Nat.pow 2 (width - (n.log2 + 1))

/-- A number below `n` from words of `width` bits. -/
def drawFrom (next : KeyStream → Nat × KeyStream) (width n : Nat) :
    Nat → KeyStream → Nat × KeyStream
  | 0, s => (((next s).1 * n) / Nat.pow 2 width, (next s).2)
  | more + 1, s =>
    let product := (next s).1 * n
    if accepted width n (product % Nat.pow 2 width) then (product / Nat.pow 2 width, (next s).2)
    else drawFrom next width n more (next s).2

/-- A number below `n`, from words of 64 bits: `gen_range` over sizes. -/
def draw64 (n : Nat) (s : KeyStream) : Nat × KeyStream := drawFrom next64 64 n allowance s

/-- A number below `n`, from words of 32 bits: `gen_range` as `shuffle` uses it. -/
def draw32 (n : Nat) (s : KeyStream) : Nat × KeyStream := drawFrom next32 32 n allowance s

theorem drawFrom_lt {next : KeyStream → Nat × KeyStream} {width n : Nat}
    (hnext : ∀ s, (next s).1 < Nat.pow 2 width) (hn : 0 < n) :
    ∀ fuel s, (drawFrom next width n fuel s).1 < n := by
  have high : ∀ s, (next s).1 * n / Nat.pow 2 width < n := fun s => by
    have hpos : 0 < Nat.pow 2 width := Nat.two_pow_pos width
    rw [Nat.div_lt_iff_lt_mul hpos, Nat.mul_comm n]
    exact Nat.mul_lt_mul_of_pos_right (hnext s) hn
  intro fuel
  induction fuel with
  | zero => exact high
  | succ more ih =>
    intro s
    simp only [drawFrom]
    split
    · exact high s
    · exact ih _

theorem draw64_lt {n : Nat} (hn : 0 < n) (s : KeyStream) : (s.draw64 n).1 < n :=
  drawFrom_lt next64_lt hn _ _

theorem draw32_lt {n : Nat} (hn : 0 < n) (s : KeyStream) : (s.draw32 n).1 < n :=
  drawFrom_lt next32_lt hn _ _

/-! ## Shuffles -/

/-- The exchanges that shuffle the places `0 … n`: place `n` with one at or before it, then
`n - 1`, down to place 1. -/
def shufflePlan : Nat → KeyStream → List (Nat × Nat)
  | 0, _ => []
  | n + 1, s => (n + 1, (s.draw32 (n + 2)).1) :: shufflePlan n (s.draw32 (n + 2)).2

end KeyStream

/-- Carries out a list of exchanges. -/
def exchange {α : Type} (xs : Array α) : List (Nat × Nat) → Array α
  | [] => xs
  | (i, j) :: rest => exchange (xs.swapIfInBounds i j) rest

/-- A list in the order that a stream puts it in. -/
def shuffle {α : Type} (s : KeyStream) (xs : List α) : List α :=
  (exchange xs.toArray (s.shufflePlan (xs.length - 1))).toList

end Steering

/-! A seeded pseudo-random generator: xoshiro256++, its state filled from a 64-bit seed by a
permuted congruential generator. Every draw returns the generator that the next draw starts from. -/

namespace Esolang

structure Rng where
  s0 : UInt64
  s1 : UInt64
  s2 : UInt64
  s3 : UInt64
  deriving DecidableEq, Repr, Inhabited

namespace Rng

def rotateLeft (x : UInt64) (k : UInt64) : UInt64 :=
  (x <<< k) ||| (x >>> (64 - k))

def rotateRight32 (x : UInt32) (k : UInt32) : UInt32 :=
  (x >>> k) ||| (x <<< (32 - k))

/-- One step of the generator that expands seeds: 32 bits and its next state. -/
def expand (state : UInt64) : UInt32 × UInt64 :=
  let state := state * 6364136223846793005 + 11634580027462260723
  let word := (((state >>> 18) ^^^ state) >>> 27).toUInt32
  (rotateRight32 word (state >>> 59).toUInt32, state)

def expandWord (state : UInt64) : UInt64 × UInt64 :=
  let (low, state) := expand state
  let (high, state) := expand state
  (low.toUInt64 ||| (high.toUInt64 <<< 32), state)

def ofSeed (seed : UInt64) : Rng :=
  let (s0, seed) := expandWord seed
  let (s1, seed) := expandWord seed
  let (s2, seed) := expandWord seed
  let (s3, _) := expandWord seed
  ⟨s0, s1, s2, s3⟩

def next (g : Rng) : UInt64 × Rng :=
  let s2 := g.s2 ^^^ g.s0
  let s3 := g.s3 ^^^ g.s1
  (rotateLeft (g.s0 + g.s3) 23 + g.s0,
    { s0 := g.s0 ^^^ s3
      s1 := g.s1 ^^^ s2
      s2 := s2 ^^^ (g.s1 <<< 17)
      s3 := rotateLeft s3 45 })

/-- Draws one bit, the highest of a word. -/
def coin (g : Rng) : Bool × Rng :=
  let (word, g) := g.next
  (word >>> 63 == 1, g)

/-- Draws eight bits, the lowest of the upper half of a word. -/
def byte (g : Rng) : UInt8 × Rng :=
  let (word, g) := g.next
  ((word >>> 32).toUInt8, g)

/-- The largest low half that `below` accepts for `n`, all ones under the highest multiple of `n`
by a power of two. -/
def zone (n : Nat) : Nat := n <<< (63 - n.log2) - 1

/-- Draws words until the low half of a word times `n` lies in the zone, at most `tries` times, and
returns the high half. -/
def belowWithin (n : Nat) : Nat → Rng → Nat × Rng
  | 0, g => (0, g)
  | tries + 1, g =>
    let (word, g) := g.next
    let product := word.toNat * n
    if product % UInt64.size ≤ zone n then (product / UInt64.size, g) else belowWithin n tries g

/-- Draws a number below `n`, for `0 < n < 2 ^ 64`. The generator has `2 ^ 256` states: were none of
the first `2 ^ 256` words accepted, no later one would be. -/
def below (n : Nat) (g : Rng) : Nat × Rng := belowWithin n (1 <<< 256) g

theorem belowWithin_lt {n : Nat} (hn : 0 < n) (tries : Nat) (g : Rng) :
    (belowWithin n tries g).1 < n := by
  induction tries generalizing g with
  | zero => exact hn
  | succ tries ih =>
    simp only [belowWithin]
    split
    · exact (Nat.div_lt_iff_lt_mul (by decide)).mpr
        (by have := g.next.1.toNat_lt; rw [Nat.mul_comm]; exact Nat.mul_lt_mul_of_pos_left this hn)
    · exact ih _

theorem below_lt {n : Nat} (hn : 0 < n) (g : Rng) : (below n g).1 < n :=
  belowWithin_lt hn _ g

end Rng

end Esolang

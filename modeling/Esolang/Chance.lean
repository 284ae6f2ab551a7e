import Esolang.Binary64
import Esolang.Random

/-! Events that happen with a given probability. A certain event needs no draw; any other one
happens when a word drawn at random lies below a threshold. -/

namespace Esolang

inductive Chance where
  | certain
  /-- The event happens for this many of the `2 ^ 64` words. -/
  | words (threshold : Nat)
  deriving DecidableEq, Repr

namespace Chance

/-- The whole part of `x * 2 ^ 64` for a number from zero to one. -/
def threshold (x : Binary64) : Nat :=
  x.significand <<< (x.scale + 64).toNat >>> (-(x.scale + 64)).toNat

def ofBinary64? (x : Binary64) : Option Chance :=
  if x = .one then some certain
  else if x.inUnitInterval then some (words (threshold x))
  else none

def draw (chance : Chance) (g : Rng) : Bool × Rng :=
  match chance with
  | certain => (true, g)
  | words threshold =>
    let (word, g) := g.next
    (word.toNat < threshold, g)

end Chance

end Esolang

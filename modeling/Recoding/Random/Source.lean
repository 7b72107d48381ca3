import Recoding.Binary64.Exact
import Recoding.Random.Keystream

/-!
# Sources of randomness

A source is a stream of 64-bit words with a position, so that a search that draws from
it is a function of the stream. A seeded source always yields the same stream.
-/

namespace Recoding

/-- A stream of words and the number of words taken from it. -/
structure RandomSource where
  words : Nat → UInt64
  taken : Nat

namespace RandomSource

def ofSeed (seed : Nat) : RandomSource :=
  let key := Keystream.key (UInt64.ofNat seed)
  ⟨Keystream.longWord key, 0⟩

def next (s : RandomSource) : UInt64 × RandomSource := (s.words s.taken, ⟨s.words, s.taken + 1⟩)

/-- The number in `[0, 1)` that the upper 53 bits of a word stand for. -/
def unit (word : UInt64) : Float :=
  (word >>> 11).toFloat * Binary64.ofMagnitude false (970 * 2 ^ 52)

end RandomSource
end Recoding

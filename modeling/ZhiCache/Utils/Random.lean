import Mathlib.Data.Nat.Notation

/-!
# `Utils.Random` — the pseudo-random generator of the skip lists

`Random` keeps one 32-bit word. `next` multiplies it by 16807 modulo 2^31 - 1, computing the remainder by
shifting and adding in 64 bits; every skip list owns a generator and draws its node heights from it.
-/

namespace ZhiCache

/-- The generator: its current word. -/
structure Random where
  seed : UInt32
  deriving DecidableEq, Repr

namespace Random

/-- The constructor: the low 31 bits of the argument, with the two fixed points 0 and 2^31 - 1 avoided. -/
def new (s : UInt32) : Random :=
  let seed := s &&& 0x7fffffff
  -- Avoid bad seeds.
  if seed = 0 ∨ seed = 2147483647 then ⟨1⟩ else ⟨seed⟩

/-- `Next`: the new word, which is also the value returned. -/
def next (r : Random) : UInt32 × Random :=
  let m : UInt32 := 2147483647
  let a : UInt64 := 16807
  let product : UInt64 := r.seed.toUInt64 * a
  let seed : UInt32 := ((product >>> 31) + (product &&& m.toUInt64)).toUInt32
  -- The first reduction may overflow by 1 bit, so we may need to repeat.
  let seed := if m < seed then seed - m else seed
  (seed, ⟨seed⟩)

end Random

end ZhiCache

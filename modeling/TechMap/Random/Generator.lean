/-! Streams of random words. Anything that gives 32 bit words one after the other is a generator;
the one used here is xoshiro128**, seeded by splitmix64. -/

namespace TechMap.Random

class Generator (γ : Type) where
  next32 : γ → UInt32 × γ

namespace Generator

variable {γ : Type} [Generator γ]

/-- Two words of 32 bits, the low half first. -/
def next64 (g : γ) : UInt64 × γ :=
  let (low, g) := next32 g
  let (high, g) := next32 g
  (low.toUInt64 ||| (high.toUInt64 <<< 32), g)

end Generator

structure Xoshiro where
  s0 : UInt32
  s1 : UInt32
  s2 : UInt32
  s3 : UInt32
deriving DecidableEq, Inhabited, Repr

def rotateLeft (x k : UInt32) : UInt32 := (x <<< k) ||| (x >>> (32 - k))

/-- One output of splitmix64 at state `s`. -/
def splitmix (s : UInt64) : UInt64 :=
  let z := (s ^^^ (s >>> 30)) * 0xbf58476d1ce4e5b9
  let z := (z ^^^ (z >>> 27)) * 0x94d049bb133111eb
  z ^^^ (z >>> 31)

namespace Xoshiro

/-- Two splitmix outputs fill the state, low halves first. -/
def ofSeed (seed : UInt64) : Xoshiro :=
  let gamma : UInt64 := 0x9e3779b97f4a7c15
  let a := splitmix (seed + gamma)
  let b := splitmix (seed + gamma + gamma)
  ⟨a.toUInt32, (a >>> 32).toUInt32, b.toUInt32, (b >>> 32).toUInt32⟩

def next (g : Xoshiro) : UInt32 × Xoshiro :=
  let result := rotateLeft (g.s1 * 5) 7 * 9
  let t := g.s1 <<< 9
  let s2 := g.s2 ^^^ g.s0
  let s3 := g.s3 ^^^ g.s1
  let s1 := g.s1 ^^^ s2
  let s0 := g.s0 ^^^ s3
  (result, ⟨s0, s1, s2 ^^^ t, rotateLeft s3 11⟩)

end Xoshiro

instance : Generator Xoshiro := ⟨Xoshiro.next⟩

end TechMap.Random

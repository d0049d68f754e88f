import TechMap.Random.Generator
/-! Random bits, drawn from a buffered word that is renewed as soon as its last bit is used. Whole
words bypass the buffer and come straight from the generator. -/

namespace TechMap.Random

structure BitSource (γ : Type) where
  gen : γ
  buffer : UInt64
  /-- Bits of the buffer that are used up. -/
  used : Nat
deriving DecidableEq, Inhabited, Repr

namespace BitSource

variable {γ : Type} [Generator γ]

def ofGenerator (g : γ) : BitSource γ :=
  let (buffer, g) := Generator.next64 g
  ⟨g, buffer, 0⟩

def next64 (s : BitSource γ) : UInt64 × BitSource γ :=
  let (w, g) := Generator.next64 s.gen
  (w, { s with gen := g })

def next32 (s : BitSource γ) : UInt32 × BitSource γ :=
  let (w, g) := Generator.next32 s.gen
  (w, { s with gen := g })

def nextBool (s : BitSource γ) : Bool × BitSource γ :=
  let bit := (s.buffer >>> s.used.toUInt64) &&& 1 != 0
  if s.used + 1 < 64 then (bit, { s with used := s.used + 1 })
  else
    let (buffer, g) := Generator.next64 s.gen
    (bit, ⟨g, buffer, 0⟩)

/-- True in `k` of eight cases. -/
def outOf8 (k : Nat) (s : BitSource γ) : Bool × BitSource γ :=
  let (a, s) := s.nextBool
  let (b, s) := s.nextBool
  let (c, s) := s.nextBool
  (a.toNat + 2 * b.toNat + 4 * c.toNat < k, s)

/-- An index below `n`, which is not zero. -/
def index (n : Nat) (s : BitSource γ) : Nat × BitSource γ :=
  let (w, s) := s.next64
  (w.toNat % n, s)

end BitSource

end TechMap.Random

import TechMap.Network.Remap
import TechMap.Network.Simulation
import TechMap.Random.BitSource
/-! A check by random simulation that a mapped network computes the sinks of the given one. -/

namespace TechMap

open TechMap.Random

inductive Mismatch where
  | sourceLost (id : NodeId)
  | sinkLost (id : NodeId)
  | simulation (e : Error)
  | differs (id : NodeId) (target : Lit) (expected found : UInt64)
  /-- The remap leads outside the mapped network. -/
  | outOfRange
deriving DecidableEq, Repr

/-- Sixteen hexadecimal digits. -/
def hexWord (w : UInt64) : String :=
  let digits := Nat.toDigits 16 w.toNat
  String.ofList (List.replicate (16 - digits.length) '0' ++ digits)

namespace Mismatch

def message : Mismatch → String
  | sourceLost id => s!"source {id.render} was lost in mapping"
  | sinkLost id => s!"sink {id.render} was lost in mapping"
  | simulation e => e.message
  | differs id target expected found =>
    s!"sink {id.render} (mapped to {target.render}) differs: expected {hexWord expected}"
      ++ s!" found {hexWord found}"
  | outOfRange => "index out of range"

end Mismatch

variable {γ : Type} [Generator γ]

/-- The words drawn for the sources of the given network, on both sides. -/
structure Sample where
  given : Array UInt64
  mapped : Array UInt64

/-- Draws a word for each source but the constant and carries it through the remap. -/
def drawSample (net : Network) (remap : Remap) :
    List NodeId → Sample → BitSource γ → Except Mismatch (Sample × BitSource γ)
  | [], sample, rng => .ok (sample, rng)
  | id :: rest, sample, rng =>
    if (net.node id).isSource && id ≠ NodeId.constant then
      let (word, rng) := rng.next64
      match remap.get id with
      | none => .error (.sourceLost id)
      | some l =>
        if l.id < sample.mapped.size then
          drawSample net remap rest
            { given := sample.given.setIfInBounds id word
              mapped := sample.mapped.setIfInBounds l.id (l.apply word) } rng
        else .error .outOfRange
    else drawSample net remap rest sample rng

/-- Compares the sinks in ascending order. -/
def compareSinks (remap : Remap) (given mapped : Array UInt64) :
    List NodeId → Except Mismatch Unit
  | [] => .ok ()
  | id :: rest =>
    match remap.get id with
    | none => .error (.sinkLost id)
    | some l =>
      match litValue? mapped l with
      | none => .error .outOfRange
      | some found =>
        let expected := given.getD id 0
        if expected = found then compareSinks remap given mapped rest
        else .error (.differs id l expected found)

def simulateSample (net : Network) (words : Array UInt64) : Except Mismatch (Array UInt64) :=
  (net.simulate fun id => words.getD id 0).mapError .simulation

/-- Compares the sinks on `words` random assignments of 64 patterns each. -/
def checkEquivalence (net mapped : Network) (remap : Remap) :
    Nat → BitSource γ → Except Mismatch (BitSource γ)
  | 0, rng => .ok rng
  | words + 1, rng => do
    let start : Sample := ⟨Array.replicate net.size 0, Array.replicate mapped.size 0⟩
    let (sample, rng) ← drawSample net remap net.ids start rng
    let expected ← simulateSample net sample.given
    let found ← simulateSample mapped sample.mapped
    compareSinks remap expected found net.sinks
    checkEquivalence net mapped remap words rng

end TechMap

import TechMap.Network.Lit
/-! Cuts: sets of at most six nodes in ascending order, with a 32 bit mask that has bit `id % 32`
set for every leaf. The mask loses information, so it can only reject. -/

namespace TechMap

/-- Depth 0 is a LUT; any other depth is a chain of that many multiplexers over the leaves. -/
structure Cut where
  leaves : List NodeId
  mask : UInt32
  muxDepth : Nat
deriving DecidableEq, Inhabited, Repr

namespace Cut

def maxSize : Nat := 6

def maskBit (id : NodeId) : UInt32 := (1 : UInt32) <<< (id % 32).toUInt32

def maskOf (leaves : List NodeId) : UInt32 := leaves.foldl (fun mask id => mask ||| maskBit id) 0

/-- The LUT cut of leaves that are ascending already. -/
def ofSorted (leaves : List NodeId) : Cut := ⟨leaves, maskOf leaves, 0⟩

/-- No leaves, the cut of a constant. -/
def empty : Cut := ⟨[], 0, 0⟩

/-- The node itself. -/
def trivial (id : NodeId) : Cut := ofSorted [id]

def size (c : Cut) : Nat := c.leaves.length

def isMux (c : Cut) : Bool := 0 < c.muxDepth

def contains (c : Cut) (id : NodeId) : Bool :=
  c.mask &&& maskBit id != 0 && c.leaves.contains id

/-- The number of set bits. -/
def bitCount (w : UInt32) : Nat := go 32
where
  go : Nat → Nat
    | 0 => 0
    | k + 1 => if (w >>> k.toUInt32) &&& 1 = 0 then go k else go k + 1

/-- Merges two ascending lists if the result has at most `room` elements. -/
def merge (room : Nat) : List NodeId → List NodeId → Option (List NodeId)
  | [], bs => if bs.length ≤ room then some bs else none
  | a :: as, [] => if (a :: as).length ≤ room then some (a :: as) else none
  | a :: as, b :: bs =>
    match room with
    | 0 => none
    | room + 1 =>
      if a < b then (merge room as (b :: bs)).map (a :: ·)
      else if b < a then (merge room (a :: as) bs).map (b :: ·)
      else (merge room as bs).map (a :: ·)
termination_by as bs => as.length + bs.length

/-- The union as a LUT cut, if it has at most six leaves. -/
def combine (a b : Cut) : Option Cut :=
  if maxSize < bitCount (a.mask ||| b.mask) then none
  else (merge maxSize a.leaves b.leaves).map ofSorted

/-- Sorts the leaves and drops repetitions; fails on more than six different ones. -/
def ofLeaves (leaves : List NodeId) : Option Cut :=
  leaves.foldlM (fun c id => c.combine (trivial id)) empty

/-- Is every leaf of `a` one of `b`? -/
def subsumes (a b : Cut) : Bool :=
  if a.mask &&& ~~~ b.mask != 0 then false
  else if b.size < a.size then false
  else if a.size = b.size then a.leaves == b.leaves
  else a.leaves.isSublist b.leaves

def render (c : Cut) : String :=
  let set := "\x7b" ++ ", ".intercalate (c.leaves.map NodeId.render) ++ "\x7d"
  if c.isMux then s!"mux{c.muxDepth}" ++ set else set

end Cut

end TechMap

import TechMap.Cut.Basic
/-! Cuts as they are stored: six slots, the first of which hold the leaves. Equality compares all
slots, the unused ones too. -/

namespace TechMap

structure StoredCut where
  slots : Vector NodeId 6
  used : Nat
  mask : UInt32
  muxDepth : Nat
deriving DecidableEq, Repr

namespace StoredCut

/-- Unused slots hold the constant. -/
def empty : StoredCut := ⟨.replicate 6 .constant, 0, 0, 0⟩

/-- Puts a leaf above all others into the next slot. -/
def push (c : StoredCut) (id : NodeId) : StoredCut :=
  { c with
    slots := c.slots.setIfInBounds c.used id
    used := c.used + 1
    mask := c.mask ||| Cut.maskBit id }

def trivial (id : NodeId) : StoredCut := empty.push id

def leaves (c : StoredCut) : List NodeId := c.slots.toList.take c.used

def toCut (c : StoredCut) : Cut := ⟨c.leaves, c.mask, c.muxDepth⟩

/-- Looks for a leaf between two positions by halving. -/
def search (leaves : List NodeId) (id : NodeId) (lo hi : Nat) : Bool :=
  if lo < hi then
    let mid := lo + (hi - lo) / 2
    let leaf := leaves.getD mid .constant
    if leaf = id then true
    else if leaf < id then search leaves id (mid + 1) hi
    else search leaves id lo mid
  else false
termination_by hi - lo

def contains (c : StoredCut) (id : NodeId) : Bool :=
  c.mask &&& Cut.maskBit id != 0 && search c.leaves id 0 c.used

/-- Takes over what is left of one operand, if there is room. -/
def pushRest (rest : List NodeId) (out : StoredCut) : Option StoredCut :=
  if Cut.maxSize < out.used + rest.length then none else some (rest.foldl push out)

/-- Moves the leaves of two cuts over in ascending order, until the slots run out. -/
def zip : List NodeId → List NodeId → StoredCut → Option StoredCut
  | [], bs, out => pushRest bs out
  | a :: as, [], out => pushRest (a :: as) out
  | a :: as, b :: bs, out =>
    if out.used = Cut.maxSize then none
    else if a < b then zip as (b :: bs) (out.push a)
    else if b < a then zip (a :: as) bs (out.push b)
    else zip as bs (out.push a)
termination_by as bs => as.length + bs.length

/-- The union as a LUT cut, if it has at most six leaves. -/
def combine (a b : StoredCut) : Option StoredCut :=
  if Cut.maxSize < Cut.bitCount (a.mask ||| b.mask) then none else zip a.leaves b.leaves empty

def ofLeaves (leaves : List NodeId) : Option StoredCut :=
  leaves.foldlM (fun c id => c.combine (trivial id)) empty

/-- Is every leaf of `a` one of `b`? -/
def subsumes (a b : StoredCut) : Bool :=
  if b.used < a.used then false
  else if a.mask &&& ~~~ b.mask != 0 then false
  else if a.used = b.used then a.leaves == b.leaves
  else a.leaves.isSublist b.leaves

end StoredCut

end TechMap

import TechMap.Network.Compaction
/-! Where the nodes of an earlier network are now: a signal of the current one, or nowhere. -/

namespace TechMap

structure Remap where
  map : Array (Option Lit)
deriving DecidableEq, Inhabited, Repr

namespace Remap

def empty : Remap := ⟨#[]⟩

def identity (size : Nat) : Remap := ⟨((List.range size).map fun i => some (.ofNode i)).toArray⟩

def ofCompaction (c : Compaction) : Remap := ⟨c.map.map (Option.map Lit.ofNode)⟩

variable (r : Remap)

def size : Nat := r.map.size

def isEmpty : Bool := r.map.isEmpty

def get (id : NodeId) : Option Lit := (r.map[id]?).join

/-- A signal of the earlier network; the two polarities compose. -/
def lit (l : Lit) : Option Lit := (r.get l.id).map fun res => res.xor l.sign

/-- Redirects a node, growing the map to hold it. -/
def set (id : NodeId) (target : Option Lit) : Remap :=
  ⟨(r.map ++ Array.replicate (id + 1 - r.map.size) none).setIfInBounds id target⟩

/-- Follows with a compaction of the current network. -/
def apply (c : Compaction) : Remap := ⟨r.map.map fun entry => entry.bind c.lit⟩

/-- Follows with a later remap. -/
def compose (later : Remap) : Remap := ⟨r.map.map fun entry => entry.bind later.lit⟩

end Remap

end TechMap

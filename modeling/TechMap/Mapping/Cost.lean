import TechMap.Mapping.State
/-! What a cut costs at the node it would implement, and the two orders on costs. -/

namespace TechMap.Mapping

structure Cost (α : Type) where
  /-- Arrival at the node if the cut were the winner. -/
  delay : α
  /-- Area flow. -/
  area : α
  size : Nat
  /-- Average estimated fanout of the leaves; more is better. -/
  fanout : α

variable {α : Type} [Quantity α]

namespace Cost

/-- Delay, size, area ascending, then fanout descending. -/
def byDelay (a b : Cost α) : Ordering :=
  (Quantity.order a.delay b.delay).then ((compare a.size b.size).then
    ((Quantity.order a.area b.area).then (Quantity.order b.fanout a.fanout)))

/-- Area, size, delay ascending, then fanout descending. -/
def byArea (a b : Cost α) : Ordering :=
  (Quantity.order a.area b.area).then ((compare a.size b.size).then
    ((Quantity.order a.delay b.delay).then (Quantity.order b.fanout a.fanout)))

end Cost

namespace Estimates

/-- The latest arrival of a leaf. -/
def latest (e : Estimates α) (cut : Cut) : α :=
  cut.leaves.foldl (fun acc l => max acc (e.arrivalAt l)) 0

def sumArea (e : Estimates α) (cut : Cut) : α :=
  cut.leaves.foldl (fun acc l => acc + e.areaAt l) 0

def sumFanout (e : Estimates α) (cut : Cut) : α :=
  cut.leaves.foldl (fun acc l => acc + e.fanoutAt l) 0

end Estimates

/-- A LUT adds a level and its own area. A chain of multiplexers adds no level, and its area is
scaled by the fanout of the node. -/
def cutCost (p : Params α) (e : Estimates α) (id : NodeId) (cut : Cut) : Cost α :=
  let area := e.sumArea cut
  { delay := if cut.isMux then e.latest cut else e.latest cut + 1
    area :=
      if cut.isMux then (area + p.muxCost * Quantity.ofNat cut.muxDepth) * e.fanoutAt id
      else area + p.lutCost.toArray.getD cut.size 0
    size := cut.size
    fanout := if cut.leaves.isEmpty then 0 else e.sumFanout cut / Quantity.ofNat cut.size }

namespace Mapper

variable (m : Mapper α)

def cutCost (id : NodeId) (cut : Cut) : Cost α := Mapping.cutCost m.params m.est id cut

/-- Does costing `cut` at `id` only read estimates that exist? -/
def canCost (id : NodeId) (cut : Cut) : Bool := m.inRange cut && (!cut.isMux || id < m.size)

/-- One more than the deepest winner among the leaves, up to 255. A LUT cut has no depth. -/
def refreshDepth (cut : Cut) : Cut :=
  if cut.isMux then
    let deepest := cut.leaves.foldl
      (fun depth l => match m.winner? l with
        | some w => Nat.max depth w.muxDepth
        | none => depth) 0
    { cut with muxDepth := Nat.min (deepest + 1) 255 }
  else cut

end Mapper

end TechMap.Mapping

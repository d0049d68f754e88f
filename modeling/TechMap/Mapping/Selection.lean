import TechMap.Cut.Antichain
import TechMap.Mapping.Cost
import TechMap.Mapping.CycleWalk
/-! Choosing winners: the order of a cut list and the estimates that its first cut gives. -/

namespace TechMap.Mapping

variable {α : Type} [Quantity α]

/-- A cut's slot and its cost. -/
abbrev Ranked (α : Type) : Type := Nat × Cost α

namespace Ranked

def sortByDelay (costs : List (Ranked α)) : List (Ranked α) :=
  costs.mergeSort fun a b => (a.2.byDelay b.2).isLE

def sortByArea (costs : List (Ranked α)) : List (Ranked α) :=
  costs.mergeSort fun a b => (a.2.byArea b.2).isLE

/-- Cuts that meet the required time come first and are ordered by area, the others by delay. The
last `slots` of the list are in order of delay in any case. -/
def sortInWindow (required : α) (slots : Nat) (costs : List (Ranked α)) : List (Ranked α) :=
  let sorted := sortByDelay costs
  let split := sorted.filter (fun c => !Quantity.lt required c.2.delay)
    ++ sorted.filter (fun c => Quantity.lt required c.2.delay)
  let timely := (split.takeWhile fun c => Quantity.le c.2.delay required).length
  let split := sortByArea (split.take timely) ++ split.drop timely
  let start := if slots ≤ split.length then Nat.min timely (split.length - slots) else timely
  split.take start ++ sortByDelay (split.drop start)

end Ranked

namespace Mapper

variable (m : Mapper α)

/-- The required time at a node, less the level of its own cut. -/
def required (id : NodeId) : α := m.target - (m.est.departAt id + 1)

def sortCosts (id : NodeId) (costs : List (Ranked α)) : List (Ranked α) :=
  if m.isProbeRound || m.isDelayRound then Ranked.sortByDelay costs
  else Ranked.sortInWindow (m.required id) m.params.delaySlots costs

/-- Refreshes all depths and promotes the first cut that is not deeper than two. -/
def settleDepths (cuts : List Cut) : List Cut :=
  let cuts := cuts.map m.refreshDepth
  match cuts.findIdx? fun c => c.muxDepth ≤ 2 with
  | some i => Cut.promote cuts i
  | none => cuts

def rankCosts (id : NodeId) (cuts : List Cut) : List (Ranked α) :=
  m.sortCosts id (cuts.zipIdx.map fun e => (e.2, m.cutCost id e.1))

def sortCuts (id : NodeId) (cuts : List Cut) : List Cut :=
  let sorted := reorder ((m.rankCosts id cuts).map (·.1)) cuts
  if m.params.muxes then m.settleDepths sorted else sorted

/-- Takes over delay and area of the winner. -/
def settleCost (id : NodeId) (best : Cost α) : Mapper α :=
  let area := best.area / m.est.fanoutAt id
  { m with est := { m.est with
      area := m.est.area.setIfInBounds id area
      arrival := m.est.arrival.setIfInBounds id best.delay } }

/-- Orders the cuts of a node so that rank 0 is the winner, whose cost becomes the node's. -/
def prioritize (id : NodeId) (cuts : List Cut) : Mapper α × List Cut :=
  match m.sortCuts id cuts with
  | [] => (m, [])
  | first :: rest => (m.settleCost id (m.cutCost id first), first :: rest)

/-- Every cut of the list, and the node, have estimates. -/
def canPrioritize (id : NodeId) (cuts : List Cut) : Bool :=
  cuts.isEmpty || (decide (id < m.size) && cuts.all m.inRange)

/-- Scans for the least area among the cuts that are no deeper than the winner, up to the first
such cut that is slower. `none` if a cut without estimates is met. -/
def scanAreas (id : NodeId) (depth : Nat) (delay : α) :
    List (Cut × Nat) → α × Nat → Option (α × Nat)
  | [], best => some best
  | (cut, i) :: rest, best =>
    if depth < cut.muxDepth then scanAreas id depth delay rest best
    else if !m.canCost id cut then none
    else
      let cost := m.cutCost id cut
      if i ≠ 0 && Quantity.lt delay cost.delay then some best
      else if Quantity.lt cost.area best.1 then scanAreas id depth delay rest (cost.area, i)
      else scanAreas id depth delay rest best

/-- Promotes the smallest cut that is neither deeper nor slower than the winner. -/
def reselect (id : NodeId) (cuts : List Cut) : Option (List Cut) :=
  match m.params.reselect, cuts with
  | false, cuts => some cuts
  | _, [] => some []
  | true, first :: rest =>
    if m.canCost id first then do
      let best ← m.scanAreas id first.muxDepth (m.cutCost id first).delay
        (first :: rest).zipIdx (Quantity.infinity, 0)
      return Cut.promote (first :: rest) best.2
    else none

end Mapper

end TechMap.Mapping

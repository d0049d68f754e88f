import TechMap.Mapping.Cover
import TechMap.Mapping.Reference
/-! Exact local area: an active gate's winner is taken out, every other cut of its list that is in
time is tried in its place, and the one that adds the least area is put in. Gates are visited from
sinks to sources, and departures are recomputed on the way. -/

namespace TechMap.Mapping

variable {α : Type} [Quantity α]

namespace Mapper

variable (m : Mapper α)

def cones : Cones α := ⟨m.net, m.cuts, m.params⟩

/-- Runs a walk on the usage. -/
def withUsage (m : Mapper α) (f : Cones α → Usage → Usage × Except Refusal α) :
    Mapper α × Except Refusal α :=
  let cones := m.cones
  let (usage, result) := f cones m.usage
  ({ m with usage := usage }, result)

/-- Refreshes the depths of all cuts but the winner. The node has no winner meanwhile. -/
def refreshOthers (id : NodeId) : Option (Mapper α) :=
  match m.cutsOf id with
  | [] => some m
  | winner :: others =>
    if others.all fun c => !c.isMux || m.inRange c then
      let bare := m.setCuts id []
      some (bare.setCuts id (winner :: others.map bare.refreshDepth))
    else none

/-- When the node would arrive with `cut`, each leaf a level below it. -/
def arrivalWith (cut : Cut) : α :=
  cut.leaves.foldl (fun acc l => max acc (m.est.arrivalAt l + 1)) 0

/-- A cut is late if it arrives after the node does now and misses the target. -/
def isLate (id : NodeId) (cut : Cut) : Bool :=
  let arrival := m.arrivalWith cut
  Quantity.lt (m.est.arrivalAt id) arrival
    && Quantity.lt m.target (arrival + m.est.departAt id)

/-- Tries the cuts in turn and keeps the cheapest with its slot. -/
def tryCuts (id : NodeId) (depth : Nat) :
    List (Cut × Nat) → α × Nat → Mapper α → Except (Halted (Mapper α)) (Mapper α × Nat)
  | [], best, m => .ok (m, best.2)
  | (cut, i) :: rest, best, m =>
    if depth < cut.muxDepth then tryCuts id depth rest best m
    else if !m.inRange cut then .error ⟨.outOfRange, m⟩
    else if m.isLate id cut then tryCuts id depth rest best m
    else
      match m.withUsage fun c => c.attempt cut best.1 with
      | (m, .error .outOfRange) => .error ⟨.outOfRange, m⟩
      | (m, .error _) => tryCuts id depth rest best m
      | (m, .ok cost) =>
        tryCuts id depth rest (if Quantity.lt cost best.1 then (cost, i) else best) m

/-- Promotes the chosen cut and puts it in. -/
def installWinner (id : NodeId) (i : Nat) : Step α :=
  let m := m.setCuts id (Cut.promote (m.cutsOf id) i)
  match m.winner? id with
  | none => m.fail (.noCuts id)
  | some winner =>
    match m.withUsage fun c => c.reference winner Quantity.infinity with
    | (m, .error .outOfRange) => m.fail .outOfRange
    | (m, .error _) => m.fail (.unreferenced id)
    | (m, .ok _) => .ok m

/-- Refines one gate. A cone that is too large, or cheaper than any alternative can be, stays. -/
def refineWinner (id : NodeId) : Step α :=
  match m.refreshOthers id with
  | none => m.fail .outOfRange
  | some m =>
    match m.cutsOf id with
    | [] => .ok m
    | winner :: others =>
      match m.withUsage fun c => c.deref winner (Quantity.ofNat refineLimit) with
      | (m, .error .outOfRange) => m.fail .outOfRange
      | (m, .error _) => .ok { m with usage := m.usage.undoRelease }
      | (m, .ok cost) =>
        if Quantity.lt 1 cost then
          match m.tryCuts id winner.muxDepth (others.zipIdx 1) (cost, 0) with
          | .error e => .error e
          | .ok (m, i) => m.installWinner id i
        else .ok { m with usage := m.usage.undoRelease }

def refineNode (id : NodeId) : Step α :=
  if m.isActive id && (m.net.node id).isLogic && 1 < (m.cutsOf id).length then
    (m.refineWinner id).bind fun m => m.propagate false id
  else m.propagate false id

def exactLocalArea : Step α :=
  visitAll refineNode m.order.reverse m.clearDepart

end Mapper

end TechMap.Mapping

import TechMap.Mapping.Instantiation
import TechMap.Mapping.Refinement
/-! The rounds of a run. -/

namespace TechMap.Mapping

variable {α : Type} [Quantity α]

/-- The weight of the fanouts of round `round` against the earlier estimate. It grows to one. -/
def blendWeight (round : Nat) (probe : Bool) : α :=
  let r : α := Quantity.ofNat (if probe && round ≠ 0 then round else round + 1)
  1 - 1 / (r * r * r * r + 2)

namespace Mapper

variable (m : Mapper α)

/-- The latest departure of a source. -/
def measureDelay : Mapper α :=
  let sources := m.order.filter fun id => (m.net.node id).isSource
  { m with delay := sources.foldl (fun acc id => max acc (m.est.departAt id)) 0 }

/-- The area of all winners in use. -/
def measureArea : Step α :=
  visitAll
    (fun m id =>
      if m.isActive id && (m.net.node id).isLogic then
        match m.winner? id with
        | none => m.fail (.noCuts id)
        | some cut => .ok { m with area := m.area + m.params.cutArea cut.size cut.muxDepth }
      else .ok m)
    m.order { m with area := 0 }

/-- Blends the exact fanouts of the gates into the estimates. -/
def blendFanouts : Mapper α :=
  let weight := blendWeight m.round m.params.probe
  let rest := 1 - weight
  let fanout := m.order.foldl
    (fun est id =>
      if (m.net.node id).isLogic then
        est.setIfInBounds id
          (weight * Quantity.ofNat (Nat.max (m.usage.fanouts.getD id 0) 1) + rest * est.getD id 0)
      else est)
    m.est.fanout
  { m with est := { m.est with fanout := fanout } }

/-- Determines the cover, its area and its delay. Then it becomes the network, or its fanouts go
into the estimates of the next round. -/
def updateFanouts (instantiate : Bool) : Step α :=
  (m.discoverActive.bind computeDepartures).bind fun m =>
  (if 0 < m.round && m.params.refine then m.exactLocalArea else .ok m).bind fun m =>
  m.measureDelay.backfillDepartures.measureArea.bind fun m =>
  if instantiate then m.instantiate
  else .ok (if m.isProbeRound then m else m.blendFanouts)

/-- The winner of a gate that has cuts. -/
def keptWinner (net : Network) (id : NodeId) (cuts : List Cut) : Option Cut :=
  if (net.node id).isLogic then cuts.head? else none

/-- Is there a list beyond the last node of the network? -/
def hasStaleCuts : Bool := (m.cuts.toList.drop m.net.size).any fun cuts => !cuts.isEmpty

/-- Keeps the winners and drops the lists, unless they serve the next round too. -/
def endRound (instantiate : Bool) : Step α :=
  let drop := m.round == 0 || !m.params.recycle || (m.params.probe && m.round == 1)
  if !drop || instantiate then .ok m
  else if m.hasStaleCuts then m.fail .outOfRange
  else .ok { m with
    retained := m.cuts.mapIdx (keptWinner m.net)
    cuts := m.cuts.map fun _ => [] }

/-- Takes the results of a round over into target and statistics, and reports them. -/
def closeRound : Mapper α :=
  let target := if m.round = 0 then m.delay * m.params.delayFactor else m.target
  let best := min m.bestArrival m.delay
  let stats : RoundStats α := ⟨m.round, m.area, m.delay, m.enumerated⟩
  let m := { m with
    target := target
    bestArrival := best
    stats := { m.stats with rounds := m.stats.rounds ++ [stats], bestArrival := best } }
  m.report (.round stats)

def finish : Mapper α :=
  let lut6s := m.net.countLut6
  let muxes := m.net.countMux
  let m := { m with finished := true, stats := { m.stats with lut6s := lut6s, muxes := muxes } }
  m.report (.mapped lut6s muxes m.delay)

/-- Runs a round. The result is `false` after the one that instantiated. -/
def step : Except (Halted (Mapper α)) (Bool × Mapper α) :=
  if m.finished then .error ⟨.instantiated, m⟩
  else
    let instantiate := m.round == m.lastRound
    (generateAll { m with enumerated := 0 }).bind fun m =>
    (m.updateFanouts instantiate).bind fun m =>
    (m.closeRound.endRound instantiate).bind fun m =>
    .ok (if instantiate then (false, m.finish) else (true, { m with round := m.round + 1 }))

/-- Runs rounds until one instantiates, at most `n`. -/
def runFor : Nat → Mapper α → Step α
  | 0, m => .ok m
  | n + 1, m =>
    match m.step with
    | .error e => .error e
    | .ok (true, m) => runFor n m
    | .ok (false, m) => .ok m

/-- Runs all remaining rounds. -/
def run : Step α := runFor (m.lastRound + 1 - m.round) m

end Mapper

/-- Maps the network of a workspace. -/
def map (params : Params α) (w : Workspace α) :
    Except (Halted (Workspace α)) (Workspace α × Stats α) :=
  match Mapper.start params w with
  | .error e => .error e
  | .ok m =>
    match m.run with
    | .error ⟨e, m⟩ => .error ⟨e, m.work⟩
    | .ok m => .ok (m.work, m.stats)

end TechMap.Mapping

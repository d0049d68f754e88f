import TechMap.Extraction
import TechMap.Mapping.Params
import TechMap.MuxRule
import TechMap.Network.Remap
/-! The state of a mapping run. Every operation returns either the next state or, together with the
error, the state in which it stopped. -/

namespace TechMap.Mapping

variable {α : Type}

structure RoundStats (α : Type) where
  round : Nat
  area : α
  delay : α
  /-- Cuts that went through selection after enumeration. -/
  cuts : Nat

structure Stats (α : Type) where
  rounds : List (RoundStats α)
  bestArrival : α
  lut6s : Nat
  muxes : Nat
  demoted : Nat

/-- What a run reports while it goes. -/
inductive Event (α : Type) where
  | compacted (before after : Nat)
  | round (stats : RoundStats α)
  | legalized (demoted total muxes lut6s : Nat)
  | violated (report : MuxReport)
  | mapped (lut6s muxes : Nat) (delay : α)

namespace Event

def render (number : α → String) : Event α → String
  | compacted before after => s!"DEBUG compacted network from {before} to {after} nodes"
  | round s =>
    s!"INFO round={s.round} mapped_area={number s.area} mapped_delay={number s.delay} cuts={s.cuts}"
  | legalized demoted total muxes lut6s =>
    s!"INFO legalizing muxes: {demoted} of {total} demoted, #Mux={muxes} #Lut6={lut6s}"
  | violated report => s!"WARN mux rule violations after mapping: {report.render}"
  | mapped lut6s muxes delay =>
    s!"INFO mapped into {lut6s} LUT6s and {muxes} muxes, delay {number delay}"

end Event

/-- Makes the multiplexers of a mapped network legal and says how many it demoted. -/
abbrev Legalizer : Type := Network → Except Error (Network × Nat)

def demoteMuxes : Legalizer := fun net => .ok net.legalize

/-- What a run changes of its caller's: the network, a remap if one is kept, and the log. -/
structure Workspace (α : Type) where
  net : Network
  remap : Option Remap
  log : Array (Event α)

/-- Per node numbers that cuts are costed with. -/
structure Estimates (α : Type) where
  area : Array α
  fanout : Array α
  arrival : Array α
  /-- Infinite for a node that no active output needs. -/
  depart : Array α

/-- The nodes in use, how often each is used, and the changes that can be undone, latest first. -/
structure Usage where
  active : Array Bool
  fanouts : Array Nat
  undo : List NodeId
deriving DecidableEq, Inhabited, Repr

structure Mapper (α : Type) where
  params : Params α
  legalizer : Legalizer
  work : Workspace α
  /-- The nodes from inputs to outputs. -/
  order : List NodeId
  /-- The cut list of every node. Rank 0 is the winner. -/
  cuts : Array (List Cut)
  /-- Winners kept from the last round that drops the lists. -/
  retained : Array (Option Cut)
  est : Estimates α
  usage : Usage
  memo : Memo
  round : Nat
  target : α
  bestArrival : α
  area : α
  delay : α
  /-- Cuts enumerated in this round. -/
  enumerated : Nat
  stats : Stats α
  finished : Bool

/-- An error and the state in which it arose. -/
structure Halted (σ : Type) where
  error : Error
  state : σ

abbrev Step (α : Type) := Except (Halted (Mapper α)) (Mapper α)

/-- Visits nodes in order until one fails. -/
def visitAll (visit : Mapper α → NodeId → Step α) : List NodeId → Mapper α → Step α
  | [], m => .ok m
  | id :: rest, m => (visit m id).bind (visitAll visit rest)

namespace Workspace

/-- Compacts the network, takes the remap along and reports the two sizes. -/
def compact (w : Workspace α) : Except (Halted (Workspace α)) (Workspace α) :=
  match w.net.compact with
  | (net, .error e) => .error ⟨e, { w with net := net }⟩
  | (net, .ok c) => .ok
      { net := net
        remap := w.remap.map fun r => r.apply c
        log := w.log.push (.compacted w.net.size net.size) }

/-- An empty remap starts as the identity. -/
def startRemap (w : Workspace α) : Workspace α :=
  { w with remap := w.remap.map fun r => if r.isEmpty then .identity w.net.size else r }

end Workspace

namespace Mapper

variable (m : Mapper α)

def net : Network := m.work.net

/-- The number of nodes at the start. Later compactions do not change it. -/
def size : Nat := m.cuts.size

def fail (e : Error) : Step α := .error ⟨e, m⟩

def cutsOf (id : NodeId) : List Cut := m.cuts.getD id []

def setCuts (id : NodeId) (cuts : List Cut) : Mapper α :=
  { m with cuts := m.cuts.setIfInBounds id cuts }

def isActive (id : NodeId) : Bool := m.usage.active.getD id false

def winner? (id : NodeId) : Option Cut := (m.cutsOf id).head?

/-- All leaves have estimates. -/
def inRange (cut : Cut) : Bool := cut.leaves.all fun l => l < m.size

def lastRound : Nat := m.params.rounds - 1 + m.params.probe.toNat

/-- The round that looks at delay alone and keeps extra cuts. -/
def isProbeRound : Bool := m.params.probe && m.round == 0

/-- The round that selects without a time window. -/
def isDelayRound : Bool := m.round == if m.params.probe then 1 else 0

end Mapper

variable [Quantity α]

namespace Estimates

variable (e : Estimates α)

def areaAt (id : NodeId) : α := e.area.getD id 0

def fanoutAt (id : NodeId) : α := e.fanout.getD id 0

def arrivalAt (id : NodeId) : α := e.arrival.getD id 0

def departAt (id : NodeId) : α := e.depart.getD id 0

end Estimates

/-- Checks that only unmapped kinds are left and sets up the estimates. -/
def Mapper.ofWorkspace (params : Params α) (w : Workspace α) :
    Except (Halted (Workspace α)) (Mapper α) :=
  match w.net.ids.find? fun id => (w.net.node id).isMapped with
  | some id => .error ⟨.unmappable id, w⟩
  | none =>
    let size := w.net.size
    .ok
      { params := params
        legalizer := demoteMuxes
        work := w
        order := w.net.upOrder
        cuts := Array.replicate size []
        retained := Array.replicate size none
        est :=
          { area := Array.replicate size 0
            fanout := w.net.fanoutCounts.map fun f => Quantity.ofNat (Nat.max f 1)
            arrival := Array.replicate size 0
            depart := Array.replicate size Quantity.infinity }
        usage := ⟨Array.replicate size true, Array.replicate size 0, []⟩
        memo := .ofSize size
        round := 0
        target := 0
        bestArrival := Quantity.infinity
        area := 0
        delay := 0
        enumerated := 0
        stats := ⟨[], 0, 0, 0, 0⟩
        finished := false }

/-- Starts a run. A network that is not canonical is compacted first. -/
def Mapper.start (params : Params α) (w : Workspace α) :
    Except (Halted (Workspace α)) (Mapper α) :=
  if params.rounds = 0 then .error ⟨.noRounds, w⟩
  else if params.cutsPerNode = 0 then .error ⟨.noCutsPerNode, w⟩
  else
    let w := w.startRemap
    match w.net.dangling? with
    | some (id, operand) => .error ⟨.dangling id operand, w⟩
    | none =>
      if w.net.isCanonical then ofWorkspace params w
      else w.compact.bind (ofWorkspace params)

end TechMap.Mapping

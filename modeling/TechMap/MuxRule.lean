import TechMap.Network.Basic
import TechMap.Table.Basic
/-! The rules for dedicated multiplexers: a chain has at most two of them, one that feeds a data
input of another has no other consumer and is not inverted, and data inputs come from LUTs or
multiplexers. A multiplexer that breaks a rule can be demoted to a LUT. -/

namespace TechMap

def maxMuxChain : Nat := 2

/-- How often each rule is broken, among `total` multiplexers. -/
structure MuxReport where
  total : Nat
  chain : Nat
  fanout : Nat
  inverter : Nat
  input : Nat
deriving DecidableEq, Inhabited, Repr

namespace MuxReport

def isClean (r : MuxReport) : Bool :=
  r.chain = 0 && r.fanout = 0 && r.inverter = 0 && r.input = 0

def render (r : MuxReport) : String :=
  "MuxReport \x7b " ++ s!"total: {r.total}, chain_violations: {r.chain}, "
    ++ s!"fanout_violations: {r.fanout}, inverter_violations: {r.inverter}, "
    ++ s!"input_violations: {r.input}" ++ " \x7d"

end MuxReport

namespace Node

def muxData : Node → List Lit
  | mux _ t e => [t, e]
  | _ => []

end Node

namespace Network

/-- `sel & then | ~sel & else` over variables 0, 1 and 2. -/
def muxTable : UInt64 :=
  (Table.proj 0 &&& Table.proj 1) ||| (~~~ Table.proj 0 &&& Table.proj 2)

/-- Turns a multiplexer into the LUT of the same function. Other nodes stay. -/
def demote (net : Network) (id : NodeId) : Network :=
  match net.node id with
  | .mux s t e =>
    let (table, kept) := Table.compactSupport muxTable 3
    net.set id (.lut6 (kept.map fun i => [s, t, e].getD i .zero) table)
  | _ => net

/-- Checks the data operands of multiplexer `id` in turn. An operand that may not be a multiplexer
is demoted; one that is neither LUT nor multiplexer demotes `id` and ends the check. -/
def settleData (fanouts : Array Nat) (id : NodeId) : List Lit → Network × Nat → Network × Nat
  | [], s => s
  | l :: rest, (net, demoted) =>
    match net.node l.id with
    | .mux .. =>
      if l.sign || 1 < fanouts.getD l.id 0 then
        settleData fanouts id rest (net.demote l.id, demoted + 1)
      else settleData fanouts id rest (net, demoted)
    | .lut6 .. => settleData fanouts id rest (net, demoted)
    | _ => (net.demote id, demoted + 1)

/-- One pass over all multiplexers. -/
def settlePass (net : Network) (demoted : Nat) : Network × Nat :=
  let fanouts := net.fanoutCounts
  net.ids.foldl (fun s id => settleData fanouts id (s.1.node id).muxData s) (net, demoted)

/-- Passes until one demotes nothing. -/
def settle (net : Network) (demoted : Nat) : Network × Nat :=
  let next := net.settlePass demoted
  if next.1.countMux < net.countMux then settle next.1 next.2 else next
termination_by net.countMux

/-- Demotes every multiplexer that would be too deep in its chain. -/
def trimChains (net : Network) (demoted : Nat) : Network × Nat :=
  let s := net.upOrder.foldl
    (fun (s : Network × Nat × Array Nat) id =>
      let (net, demoted, level) := s
      match (net.node id).muxData with
      | [] => s
      | data =>
        let l := 1 + data.foldl (fun l d => max l (level.getD d.id 0)) 0
        if maxMuxChain < l then (net.demote id, demoted + 1, level)
        else (net, demoted, level.setIfInBounds id l))
    (net, demoted, Array.replicate net.size 0)
  (s.1, s.2.1)

/-- Demotes until all rules hold. Returns how many multiplexers were demoted. -/
def legalize (net : Network) : Network × Nat :=
  let (net, demoted) := net.settle 0
  net.trimChains demoted

/-- Adds what multiplexer `id` breaks to the report, and notes its depth. -/
def checkMux (net : Network) (fanouts : Array Nat) (s : MuxReport × Array Nat) (id : NodeId) :
    MuxReport × Array Nat :=
  match (net.node id).muxData with
  | [] => s
  | data =>
    let (report, level) := s
    let (report, l) := data.foldl
      (fun (s : MuxReport × Nat) d =>
        let (r, l) := s
        match net.node d.id with
        | .mux .. =>
          ({ r with
              inverter := r.inverter + d.sign.toNat
              fanout := r.fanout + (decide (1 < fanouts.getD d.id 0)).toNat },
            max l (level.getD d.id 0 + 1))
        | .lut6 .. => (r, l)
        | _ => ({ r with input := r.input + 1 }, l))
      ({ report with total := report.total + 1 }, 1)
    ({ report with chain := report.chain + (decide (maxMuxChain < l)).toNat },
      level.setIfInBounds id l)

def checkMuxes (net : Network) : MuxReport :=
  (net.upOrder.foldl (net.checkMux net.fanoutCounts)
    (⟨0, 0, 0, 0, 0⟩, Array.replicate net.size 0)).1

end Network

end TechMap

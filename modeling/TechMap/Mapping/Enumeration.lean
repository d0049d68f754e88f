import TechMap.Cut.Product
import TechMap.Mapping.Selection
import TechMap.Table.MuxForm
/-! The cut lists of all nodes, from inputs to outputs. Gates enumerate the unions of their
operands' cuts or, if they still have a list, order it again; other nodes have no list. -/

namespace TechMap.Mapping

/-- The implicit cut of an operand. A constant has no leaves. -/
def operandCut (l : Lit) : Cut := if l.id = NodeId.constant then .empty else .trivial l.id

/-- The select and data operands of a gate whose table is a 2:1 multiplexer. -/
def muxCut? (node : Node) : Option Cut :=
  match node with
  | .lut4 a b c d table => do
    let form ← MuxForm.ofTable? table
    let leaves := [form.select, form.thenIn, form.elseIn].map fun i => ([a, b, c, d].getD i .zero).id
    let cut ← Cut.ofLeaves (leaves.filter fun id => id ≠ NodeId.constant)
    if cut.size < 2 then none else some { cut with muxDepth := 1 }
  | _ => none

/-- Adds a multiplexer cut unless the gate is degenerate or has one already. -/
def addMuxCut (node : Node) (cuts : List Cut) : List Cut :=
  match muxCut? node with
  | none => cuts
  | some cut =>
    let degenerate := match cuts with
      | [c] => c.size ≤ 1
      | _ => false
    if degenerate || cuts.any Cut.isMux then cuts else cuts ++ [cut]

variable {α : Type} [Quantity α]

namespace Mapper

variable (m : Mapper α)

/-- All cuts of a gate, grown from the retained winner. -/
def enumerate (id : NodeId) (node : Node) : List Cut :=
  let seed := ((m.retained[id]?).join).toList
  let candidates := node.operands.map fun l => operandCut l :: m.cutsOf l.id
  let cuts := (Cut.product candidates .empty seed).2
  if m.params.muxes then addMuxCut node cuts else cuts

/-- What a list keeps: in the probe round the cuts as fast as the first, up to twice the number. -/
def truncate (cuts : List Cut) : List Cut :=
  if m.isProbeRound then
    let fastest := match cuts with
      | [] => []
      | first :: rest =>
        first :: rest.takeWhile fun c =>
          !Quantity.lt (m.est.latest first + 1) (m.est.latest c + 1)
    fastest.take (2 * m.params.cutsPerNode)
  else cuts.take m.params.cutsPerNode

/-- Enumerates, orders and truncates the list of a gate. -/
def generateLogic (id : NodeId) (node : Node) : Step α :=
  let cuts := m.enumerate id node
  let m := { m with enumerated := m.enumerated + cuts.length }
  if m.canPrioritize id cuts then
    let (m, cuts) := m.prioritize id cuts
    .ok (m.setCuts id (m.truncate cuts))
  else m.fail .outOfRange

/-- Orders the list that a gate kept. The node has no winner meanwhile. -/
def regenerate (id : NodeId) (cuts : List Cut) : Step α :=
  if m.canPrioritize id cuts then
    let (m, cuts) := (m.setCuts id []).prioritize id cuts
    .ok (m.setCuts id cuts)
  else m.fail .outOfRange

/-- A node without cuts arrives at `arrival` and adds no area. -/
def settleArrival (id : NodeId) (arrival : α) : Mapper α :=
  let m := m.setCuts id []
  { m with est := { m.est with
      area := m.est.area.setIfInBounds id 0
      arrival := m.est.arrival.setIfInBounds id arrival } }

/-- The delay that a value picks up on its way through a node. -/
def edgeDelay (node : Node) : α :=
  match node with
  | .delay .. => Quantity.ofNat node.eighths.toNat / Quantity.ofNat delayUnits
  | _ => 0

/-- The cuts and estimates of one node, whose operands have theirs. -/
def generateCuts (id : NodeId) : Step α :=
  match m.net.get? id with
  | none => m.fail .outOfRange
  | some node =>
    match node with
    | .const | .pi | .ff | .box => .ok (m.settleArrival id 0)
    | .and .. | .lut4 .. =>
      match m.cutsOf id with
      | [] => m.generateLogic id node
      | cuts => m.regenerate id cuts
    | .po _ | .seq _ => .ok m
    | .bar l | .sel l | .delay l _ =>
      .ok (m.settleArrival id (m.est.arrivalAt l.id + edgeDelay node))
    | .lut6 .. | .mux .. => m.fail (.unmappable id)
    | .removed => m.fail (.invalidNode id)

/-- The cuts of every node, in topological order. -/
def generateAll : Step α := visitAll generateCuts m.order m

end Mapper

end TechMap.Mapping

import TechMap.Mapping.Cover
/-! Instantiation: every active gate becomes the LUT or multiplexer of its winner, and what no sink
needs is dropped. -/

namespace TechMap.Mapping

/-- The node that computes `table` over the leaves of `cut`. A multiplexer cut whose table is none
becomes a LUT. -/
def mappedNode (cut : Cut) (table : UInt64) : Node :=
  let (table, kept) := Table.compactSupport table cut.size
  let inputs := kept.map fun i => Lit.ofNode (cut.leaves.getD i 0)
  let lut := Node.lut6 inputs table
  if cut.isMux then
    match MuxForm.ofTable? table.toUInt16 with
    | some form =>
      match inputs[form.select]?, inputs[form.thenIn]?, inputs[form.elseIn]? with
      | some s, some t, some e => .mux s (t.xor form.thenNeg) (e.xor form.elseNeg)
      | _, _, _ => lut
    | none => lut
  else lut

variable {α : Type}

namespace Mapper

variable (m : Mapper α)

def setNet (net : Network) : Mapper α := { m with work := { m.work with net := net } }

def addEvent (e : Event α) : Mapper α :=
  { m with work := { m.work with log := m.work.log.push e } }

/-- Reports, unless the run is quiet. -/
def report (e : Event α) : Mapper α := if m.params.quiet then m else m.addEvent e

def compact : Step α :=
  match m.work.compact with
  | .error ⟨e, work⟩ => .error ⟨e, { m with work := work }⟩
  | .ok work => .ok { m with work := work }

/-- The new nodes of the active gates. All tables are computed before any node changes. -/
def mappedNodes : List NodeId → List (NodeId × Node) → Memo →
    Memo × Except Error (List (NodeId × Node))
  | [], acc, memo => (memo, .ok acc.reverse)
  | id :: rest, acc, memo =>
    if m.isActive id && (m.net.node id).isLogic then
      match m.winner? id with
      | none => (memo, .error (.noCuts id))
      | some cut =>
        match m.net.computeTable (.ofNode id) cut memo with
        | (memo, .error e) => (memo, .error e)
        | (memo, .ok table) => mappedNodes rest ((id, mappedNode cut table) :: acc) memo
    else mappedNodes rest acc memo

/-- Puts the new nodes in and removes the gates that are left. -/
def implement (net : Network) (order : List NodeId) (nodes : List (NodeId × Node)) : Network :=
  let net := nodes.foldl (fun net e => net.set e.1 e.2) net
  order.foldl (fun net id => if (net.node id).isLogic then net.remove id else net) net

/-- Legalizes the multiplexers, if there are any, and compacts again. -/
def legalize : Step α :=
  let total := m.net.countMux
  if 0 < total then
    let lut6s := m.net.countLut6
    match m.legalizer m.net with
    | .error e => m.fail e
    | .ok (net, demoted) =>
      let m := m.setNet net
      let m := { m with stats := { m.stats with demoted := demoted } }
      (m.report (.legalized demoted total net.countMux (lut6s + demoted))).compact
  else .ok m

def instantiate : Step α :=
  match m.mappedNodes m.order [] m.memo with
  | (memo, .error e) => .error ⟨e, { m with memo := memo }⟩
  | (memo, .ok nodes) =>
    let m := { m with memo := memo }
    let m := m.setNet (implement m.net m.order nodes)
    (m.compact.bind legalize).bind fun m =>
      let report := m.net.checkMuxes
      .ok (if m.params.muxes && !report.isClean then m.report (.violated report) else m)

end Mapper

end TechMap.Mapping

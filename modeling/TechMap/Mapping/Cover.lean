import TechMap.Mapping.Enumeration
import TechMap.Mapping.WorkList
/-! The cover that the winners make: which nodes are active, when their values are needed, and how
often each is used. -/

namespace TechMap.Mapping

variable {α : Type} [Quantity α]

namespace Mapper

/-- A mapper with its work list. -/
abbrev Frontier (α : Type) : Type := Mapper α × List (Priority α)

namespace Frontier

/-- Nodes that are not active or wait in the list. -/
def pending (f : Frontier α) : Nat := f.1.usage.active.count false + f.2.length

/-- Activates a node, once. -/
def enqueue (f : Frontier α) (id : NodeId) : Frontier α :=
  let (m, queue) := f
  if m.usage.active[id]? = some false then
    let key : Priority α :=
      { span := m.est.arrivalAt id + m.est.departAt id, arrival := m.est.arrivalAt id, id := id }
    ({ m with usage := { m.usage with active := m.usage.active.setIfInBounds id true } },
      key.insert queue)
  else f

theorem pending_enqueue_le (f : Frontier α) (id : NodeId) : (f.enqueue id).pending ≤ f.pending := by
  unfold enqueue
  split
  split
  next m queue h =>
    obtain ⟨hi, hc⟩ := Array.getElem?_eq_some_iff.1 h
    have hp : 0 < m.usage.active.count false := Array.count_pos_iff.2 (hc ▸ Array.getElem_mem hi)
    simp [pending, Array.setIfInBounds, hi, Array.count_set, hc, Priority.length_insert]
    omega
  next => exact Nat.le_refl _

/-- A leaf of a visited gate: its area is shared from here on. -/
def enqueueLeaf (f : Frontier α) (id : NodeId) : Frontier α :=
  let f := ({ f.1 with est := { f.1.est with area := f.1.est.area.setIfInBounds id 0 } }, f.2)
  enqueue f id

theorem pending_enqueueLeaf_le (f : Frontier α) (id : NodeId) :
    (f.enqueueLeaf id).pending ≤ f.pending := pending_enqueue_le _ _

omit [Quantity α] in
theorem pending_foldl_le {step : Frontier α → NodeId → Frontier α}
    (h : ∀ f id, (step f id).pending ≤ f.pending) (ids : List NodeId) (f : Frontier α) :
    (ids.foldl step f).pending ≤ f.pending := by
  induction ids generalizing f with
  | nil => exact Nat.le_refl _
  | cons id rest ih => exact Nat.le_trans (ih _) (h f id)

end Frontier

variable (m : Mapper α)

/-- Selects the winner of a gate for the last time in this round. -/
def chooseWinner (id : NodeId) : Except (Halted (Mapper α)) (Mapper α × Cut) :=
  match m.reselect id (m.cutsOf id) with
  | none => .error ⟨.outOfRange, m⟩
  | some cuts =>
    let m := m.setCuts id cuts
    match cuts with
    | [] => .error ⟨.noCuts id, m⟩
    | winner :: _ => .ok (m, winner)

/-- Activates what the first node of the list needs. -/
def visit (queue : List (Priority α)) (id : NodeId) :
    Except (Halted (Mapper α)) (Frontier α) :=
  match m.net.get? id with
  | none => .error ⟨.outOfRange, m⟩
  | some node =>
    if node.isLogic then
      match m.chooseWinner id with
      | .error e => .error e
      | .ok (m, winner) =>
        if m.inRange winner then .ok (winner.leaves.foldl Frontier.enqueueLeaf (m, queue))
        else .error ⟨.outOfRange, m⟩
    else if node.isSource then .ok (m, queue)
    else if node.operands.all fun l => l.id < m.size then
      .ok ((node.operands.map (·.id)).foldl Frontier.enqueue (m, queue))
    else .error ⟨.outOfRange, m⟩

theorem usage_chooseWinner {m : Mapper α} {id : NodeId} {r : Mapper α × Cut}
    (h : m.chooseWinner id = .ok r) : r.1.usage = m.usage := by
  unfold chooseWinner at h
  split at h
  · simp at h
  · split at h
    · simp at h
    · cases h; rfl

theorem pending_visit_le {m : Mapper α} {queue : List (Priority α)} {id : NodeId}
    {f : Frontier α} (h : m.visit queue id = .ok f) :
    f.pending ≤ Frontier.pending (m, queue) := by
  unfold visit at h
  split at h
  · simp at h
  split at h
  · split at h
    · simp at h
    next r winner hw =>
      split at h
      · cases h
        refine Nat.le_trans (Frontier.pending_foldl_le Frontier.pending_enqueueLeaf_le _ _) ?_
        have := usage_chooseWinner hw
        simp_all [Frontier.pending]
      · simp at h
  split at h
  · cases h; exact Nat.le_refl _
  split at h
  · cases h
    exact Frontier.pending_foldl_le Frontier.pending_enqueue_le _ _
  · simp at h

/-- Visits the first node of the list until none is left. -/
def drain (m : Mapper α) (queue : List (Priority α)) : Step α :=
  match queue with
  | [] => .ok m
  | key :: queue =>
    match h : m.visit queue key.id with
    | .error e => .error e
    | .ok f =>
      have : f.pending < Frontier.pending (m, key :: queue) := by
        have := pending_visit_le h
        simp only [Frontier.pending, List.length_cons] at this ⊢
        omega
      drain f.1 f.2
termination_by Frontier.pending (m, queue)

/-- Activates the nodes that the sinks reach through winners. The list is ordered by slack, so a
gate selects after its more critical consumers. -/
def discoverActive : Step α :=
  if m.order.all fun id => id < m.net.size then
    let usage := { m.usage with active := Array.replicate m.usage.active.size false }
    let sinks := m.order.filter fun id => (m.net.node id).isSink
    let f := sinks.foldl Frontier.enqueue ({ m with usage := usage }, [])
    drain f.1 f.2
  else m.fail .outOfRange

end Mapper

/-- The select operand of a gate that a multiplexer cut maps. -/
def muxSelect? (node : Node) : Option NodeId :=
  match node with
  | .lut4 a b c d table =>
    (MuxForm.ofTable? table).map fun form => ([a, b, c, d].getD form.select .zero).id
  | _ => none

/-- The delay from a gate to a leaf of its cut. In a multiplexer only the select takes a level. -/
def leafDelay (node : Node) (cut : Cut) (leaf : NodeId) : α :=
  match if cut.isMux then muxSelect? node else none with
  | some s => if s ≠ leaf then 0 else 1
  | none => 1

/-- Moves the departure of a node back, if `d` is later. -/
def raise (depart : Array α) (id : NodeId) (d : α) : Array α :=
  if Quantity.lt (depart.getD id 0) d then depart.setIfInBounds id d else depart

namespace Mapper

variable (m : Mapper α)

/-- Counts one use of each node. -/
def countUses (ids : List NodeId) : Mapper α :=
  { m with usage := { m.usage with
      fanouts := ids.foldl (fun counts id => counts.modify id (· + 1)) m.usage.fanouts } }

def mapDepart (f : Array α → Array α) : Mapper α :=
  { m with est := { m.est with depart := f m.est.depart } }

def clearDepart : Mapper α := m.mapDepart fun depart => Array.replicate depart.size 0

/-- An active gate uses the leaves of its winner. -/
def propagateGate (count : Bool) (id : NodeId) (node : Node) : Step α :=
  match m.winner? id with
  | none => m.fail (.noCuts id)
  | some cut =>
    if m.inRange cut then
      let m := if count then m.countUses cut.leaves else m
      .ok (m.mapDepart fun depart =>
        cut.leaves.foldl
          (fun depart l => raise depart l (depart.getD id 0 + leafDelay node cut l)) depart)
    else m.fail .outOfRange

/-- Other active nodes use their operands. -/
def propagateNode (count : Bool) (id : NodeId) (node : Node) : Step α :=
  let operands := node.operands.map (·.id)
  if operands.all fun o => o < m.size then
    let m := if count then m.countUses operands else m
    let d := m.est.departAt id + edgeDelay node
    .ok (m.mapDepart fun depart => operands.foldl (fun depart o => raise depart o d) depart)
  else m.fail .outOfRange

/-- Passes the departure of a node on to the nodes it uses, and counts the uses if asked to. A gate
that is not active departs never, and an inactive pass-through uses nothing. -/
def propagate (count : Bool) (id : NodeId) : Step α :=
  match m.net.get? id with
  | none => m.fail .outOfRange
  | some node =>
    if node.isLogic then
      if m.isActive id then m.propagateGate count id node
      else .ok (m.mapDepart fun depart => depart.setIfInBounds id Quantity.infinity)
    else if !node.isSource && m.isActive id then m.propagateNode count id node
    else .ok m

/-- Departures and uses of the current cover, from sinks to sources. -/
def computeDepartures : Step α :=
  let m := { m with usage := { m.usage with
    fanouts := Array.replicate m.usage.fanouts.size 0 } }
  visitAll (fun m id => m.propagate true id) m.order.reverse m.clearDepart

/-- Gives a gate without departure the earliest departure among its consumers, in reverse order. -/
def backfill (net : Network) (depart : Array α) (order : List NodeId) : Array α :=
  order.reverse.foldl
    (fun filled id =>
      let node := net.node id
      if node.isSource || Quantity.isInfinite (filled.getD id 0) then filled
      else node.operands.foldl
        (fun filled l =>
          if (net.node l.id).isLogic && Quantity.isInfinite (depart.getD l.id 0) then
            filled.setIfInBounds l.id (min (filled.getD l.id 0) (filled.getD id 0))
          else filled)
        filled)
    depart

/-- Takes over the filled departures where there were none. -/
def backfillDepartures : Mapper α :=
  let filled := backfill m.net m.est.depart m.order
  m.mapDepart fun depart => depart.zipWith
    (fun d f => if Quantity.isInfinite d && !Quantity.isInfinite f then f else d) filled

end Mapper

end TechMap.Mapping

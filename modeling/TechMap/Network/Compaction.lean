import TechMap.Error
import TechMap.Network.Basic
/-! Compaction: drops what no sink needs and renumbers the rest in depth first post order. The
constant, all sources and all sinks stay, so does everything reachable from a sink. -/

namespace TechMap

/-- The new number of each old node. -/
structure Compaction where
  map : Array (Option NodeId)
deriving DecidableEq, Inhabited, Repr

namespace Compaction

def get (c : Compaction) (id : NodeId) : Option NodeId := (c.map[id]?).join

def lit (c : Compaction) (l : Lit) : Option Lit := (c.get l.id).map fun id => ⟨id, l.sign⟩

end Compaction

namespace Network

inductive Colour where
  | fresh
  | onPath
  | done
deriving DecidableEq, Inhabited, Repr

/-- Finished nodes in post order, and the colour of every node. -/
structure Search where
  colours : Array Colour
  order : Array NodeId
deriving Inhabited

namespace Search

def start (size : Nat) : Search := ⟨Array.replicate size .fresh, #[]⟩

def freshCount (s : Search) : Nat := s.colours.count .fresh

def enter (s : Search) (id : NodeId) : Search :=
  { s with colours := s.colours.setIfInBounds id .onPath }

def finish (s : Search) (id : NodeId) : Search :=
  { colours := s.colours.setIfInBounds id .done, order := s.order.push id }

theorem freshCount_set_le (s : Search) (id : NodeId) {c : Colour} (h : c ≠ .fresh) :
    (s.colours.setIfInBounds id c).count .fresh ≤ s.freshCount := by
  unfold freshCount Array.setIfInBounds
  split
  · rw [Array.count_set]; simp [h]
  · exact Nat.le_refl _

theorem freshCount_enter_lt {s : Search} {id : NodeId} (h : s.colours[id]? = some .fresh) :
    (s.enter id).freshCount < s.freshCount := by
  obtain ⟨hi, hc⟩ := Array.getElem?_eq_some_iff.1 h
  have hp : 0 < s.colours.count .fresh := Array.count_pos_iff.2 (hc ▸ Array.getElem_mem hi)
  unfold freshCount enter Array.setIfInBounds
  have hne : (Colour.onPath == Colour.fresh) = false := rfl
  rw [dif_pos hi, Array.count_set, hc, beq_self_eq_true, hne]
  exact Nat.sub_lt hp Nat.one_pos

end Search

/-- Operands still to be looked at, counting each entry of the path once more. -/
def pathWeight (path : List (NodeId × List Lit)) : Nat :=
  path.foldr (fun e weight => e.2.length + 1 + weight) 0

/-- Walks on from the end of `path`, whose entries carry the operands that are left. -/
def explore (net : Network) (path : List (NodeId × List Lit)) (s : Search) :
    Except Error Search :=
  match path with
  | [] => .ok s
  | (id, []) :: path => explore net path (s.finish id)
  | (id, l :: rest) :: path =>
    if net.isLive l.id then
      match h : s.colours[l.id]? with
      | some .fresh =>
        have := Search.freshCount_enter_lt h
        explore net ((l.id, (net.node l.id).operands) :: (id, rest) :: path) (s.enter l.id)
      | some .onPath => .error (.cycle id l.id)
      | _ => explore net ((id, rest) :: path) s
    else .error (.dangling id l.id)
termination_by (s.freshCount, pathWeight path)
decreasing_by
  · have := Search.freshCount_set_le s id (c := .done) (by decide)
    simp only [Search.freshCount, Search.finish] at this ⊢
    rcases Nat.lt_or_eq_of_le this with h | h
    · exact Prod.Lex.left _ _ h
    · rw [h]; exact Prod.Lex.right _ (by simp [pathWeight])
  · exact Prod.Lex.left _ _ this
  · exact Prod.Lex.right _ (by simp [pathWeight])

/-- Searches from a source or sink that no earlier search has reached. -/
def searchFrom (net : Network) (s : Search) (root : NodeId) : Except Error Search :=
  let node := net.node root
  if (node.isSource || node.isSink) && s.colours[root]? = some .fresh then
    net.explore [(root, node.operands)] (s.enter root)
  else .ok s

/-- The surviving nodes in their new order. -/
def survivors (net : Network) : Except Error (Array NodeId) := do
  return (← net.ids.foldlM net.searchFrom (.start net.size)).order

/-- Numbers the survivors from zero. -/
def renumbering (net : Network) (order : Array NodeId) : Compaction :=
  ⟨(order.foldl (fun (map, next) old => (map.setIfInBounds old (some next), next + 1))
    (Array.replicate net.size none, 0)).1⟩

/-- Moves the nodes out of the table one by one. An operand without a new number loses the table;
a search that fails leaves it alone. -/
def compact (net : Network) : Network × Except Error Compaction :=
  match net.survivors with
  | .error e => (net, .error e)
  | .ok order =>
    let c := net.renumbering order
    match order.mapM fun old => (net.node old).rename? c.lit with
    | none => (⟨#[]⟩, .error .operandMissing)
    | some nodes => (⟨nodes⟩, .ok c)

end Network

end TechMap

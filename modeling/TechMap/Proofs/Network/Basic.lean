import Mathlib
import TechMap.Network.Basic

/-! The table of a network read node by node, and canonical networks as a statement about
operands. -/

namespace TechMap

theorem getD_set {β : Type} (xs : Array β) {i : Nat} (h : i < xs.size) (x d : β) (j : Nat) :
    (xs.setIfInBounds i x).getD j d = if j = i then x else xs.getD j d := by
  simp only [Array.getD_eq_getD_getElem?]
  by_cases hj : j = i
  · subst hj
    simp [h]
  · rw [Array.getElem?_setIfInBounds_ne (Ne.symm hj), if_neg hj]

theorem getD_replicate {β : Type} (n : Nat) (d : β) (i : Nat) : (Array.replicate n d).getD i d = d := by
  rw [Array.getD_eq_getD_getElem?, Array.getElem?_replicate]
  split <;> rfl

namespace Node

theorem operands_of_isSource {n : Node} (h : n.isSource = true) : n.operands = [] := by
  cases n <;> simp_all [isSource, operands]

theorem isSource_of_isInput {n : Node} (h : n.isInput = true) : n.isSource = true := by
  cases n <;> simp_all [isSource, isInput]

theorem not_isRemoved_of_isSource {n : Node} (h : n.isSource = true) : n.isRemoved = false := by
  cases n <;> simp_all [isSource, isRemoved]

theorem not_isRemoved_of_isSink {n : Node} (h : n.isSink = true) : n.isRemoved = false := by
  cases n <;> simp_all [isSink, isRemoved]

theorem not_isLogic_of_isSource {n : Node} (h : n.isSource = true) : n.isLogic = false := by
  cases n <;> simp_all [isSource, isLogic]

theorem not_isLogic_of_isSink {n : Node} (h : n.isSink = true) : n.isLogic = false := by
  cases n <;> simp_all [isSink, isLogic]

theorem not_isLogic_of_isPassThrough {n : Node} (h : n.isPassThrough = true) :
    n.isLogic = false := by
  cases n <;> simp_all [isPassThrough, isLogic]

theorem not_isSource_of_isPassThrough {n : Node} (h : n.isPassThrough = true) :
    n.isSource = false := by
  cases n <;> simp_all [isPassThrough, isSource]

theorem not_isSink_of_isPassThrough {n : Node} (h : n.isPassThrough = true) :
    n.isSink = false := by
  cases n <;> simp_all [isPassThrough, isSink]

theorem not_isSource_of_isLogic {n : Node} (h : n.isLogic = true) : n.isSource = false := by
  cases n <;> simp_all [isSource, isLogic]

theorem not_isSink_of_isLogic {n : Node} (h : n.isLogic = true) : n.isSink = false := by
  cases n <;> simp_all [isSink, isLogic]

theorem not_isRemoved_of_isLogic {n : Node} (h : n.isLogic = true) : n.isRemoved = false := by
  cases n <;> simp_all [isLogic, isRemoved]

theorem not_isLogic_of_isMapped {n : Node} (h : n.isMapped = true) : n.isLogic = false := by
  cases n <;> simp_all [isMapped, isLogic]

theorem not_isRemoved_of_isMapped {n : Node} (h : n.isMapped = true) : n.isRemoved = false := by
  cases n <;> simp_all [isMapped, isRemoved]

theorem isMapped_of_isMux {n : Node} (h : n.isMux = true) : n.isMapped = true := by
  cases n <;> simp_all [isMux, isMapped]

/-- The kinds that a live node of an unmapped network has. -/
theorem kind_cases {n : Node} (hm : n.isMapped = false) (hr : n.isRemoved = false) :
    n.isSource = true ∨ n.isLogic = true ∨ n.isPassThrough = true ∨ n.isSink = true := by
  cases n <;> simp_all [isMapped, isRemoved, isSource, isLogic, isPassThrough, isSink]

/-- The kinds of an unmapped node with operands. -/
theorem kind_of_operand {n : Node} {l : Lit} (hm : n.isMapped = false) (hl : l ∈ n.operands) :
    n.isLogic = true ∨ n.isPassThrough = true ∨ n.isSink = true := by
  cases n <;> simp_all [isMapped, operands, isLogic, isPassThrough, isSink]

end Node

namespace Network

variable {net : Network} {id i : NodeId} {n : Node}

theorem node_of_ge (h : net.size ≤ id) : net.node id = .removed := by
  simp only [node, Array.getD_eq_getD_getElem?]
  rw [Array.getElem?_eq_none h]
  rfl

theorem node_eq_getElem (h : id < net.nodes.size) : net.node id = net.nodes[id] := by
  simp [node, Array.getD_eq_getD_getElem?, h]

theorem get?_eq_some (h : id < net.size) : net.get? id = some (net.node id) := by
  rw [get?, node_eq_getElem h]
  exact Array.getElem?_eq_getElem h

theorem get?_eq_some_iff : net.get? id = some n ↔ id < net.size ∧ net.node id = n := by
  constructor
  · intro h
    have hlt : id < net.size := (Array.getElem?_eq_some_iff.1 h).1
    rw [get?_eq_some hlt, Option.some.injEq] at h
    exact ⟨hlt, h⟩
  · rintro ⟨hlt, rfl⟩
    exact get?_eq_some hlt

theorem lt_size_of_isLive (h : net.isLive id = true) : id < net.size := by
  by_contra hn
  simp [isLive, node_of_ge (Nat.le_of_not_lt hn), Node.isRemoved] at h

theorem isLive_of_isSource (h : (net.node id).isSource = true) : net.isLive id = true := by
  simp [isLive, Node.not_isRemoved_of_isSource h]

theorem isLive_of_isSink (h : (net.node id).isSink = true) : net.isLive id = true := by
  simp [isLive, Node.not_isRemoved_of_isSink h]

theorem isLive_of_isLogic (h : (net.node id).isLogic = true) : net.isLive id = true := by
  simp [isLive, Node.not_isRemoved_of_isLogic h]

theorem isLive_of_operand {l : Lit} (h : l ∈ (net.node id).operands) : net.isLive id = true := by
  cases hn : net.node id <;> simp_all [isLive, Node.isRemoved, Node.operands]

theorem mem_ids : id ∈ net.ids ↔ id < net.size := List.mem_range

theorem mem_upOrder : id ∈ net.upOrder ↔ net.isLive id = true := by
  simp only [upOrder, List.mem_filter, mem_ids]
  exact ⟨fun h => h.2, fun h => ⟨lt_size_of_isLive h, h⟩⟩

theorem nodup_upOrder (net : Network) : net.upOrder.Nodup := List.nodup_range.filter _

theorem pairwise_upOrder (net : Network) : net.upOrder.Pairwise (· < ·) :=
  List.pairwise_lt_range.filter _

/-- Nodes that come before a tail of the order, and the tail. -/
theorem lt_of_not_mem_suffix {i j : NodeId} {rest : List NodeId} (h : rest <:+ net.upOrder)
    (hi : net.isLive i = true) (hnot : i ∉ rest) (hj : j ∈ rest) : i < j := by
  obtain ⟨pre, hpre⟩ := h
  have hmem := hpre ▸ mem_upOrder.2 hi
  have hsorted := hpre ▸ net.pairwise_upOrder
  rcases List.mem_append.1 hmem with hm | hm
  · exact (List.pairwise_append.1 hsorted).2.2 i hm j hj
  · exact absurd hm hnot

/-- The same for the reverse order. -/
theorem gt_of_not_mem_suffix {i j : NodeId} {rest : List NodeId} (h : rest <:+ net.upOrder.reverse)
    (hi : net.isLive i = true) (hnot : i ∉ rest) (hj : j ∈ rest) : j < i := by
  obtain ⟨pre, hpre⟩ := h
  have hmem := hpre ▸ List.mem_reverse.2 (mem_upOrder.2 hi)
  have hsorted := hpre ▸ List.pairwise_reverse.2 net.pairwise_upOrder
  rcases List.mem_append.1 hmem with hm | hm
  · exact (List.pairwise_append.1 hsorted).2.2 i hm j hj
  · exact absurd hm hnot

theorem lt_of_mem_suffix {i : NodeId} {rest : List NodeId} (h : id :: rest <:+ net.upOrder.reverse)
    (hi : i ∈ rest) : i < id :=
  (List.pairwise_cons.1 ((List.pairwise_reverse.2 net.pairwise_upOrder).sublist h.sublist)).1 i hi

theorem not_mem_of_suffix {rest : List NodeId} (h : id :: rest <:+ net.upOrder.reverse) :
    id ∉ rest := fun hid => lt_irrefl id (lt_of_mem_suffix h hid)

theorem size_set (net : Network) (id : NodeId) (n : Node) : (net.set id n).size = net.size :=
  Array.size_setIfInBounds ..

theorem node_set_self (h : id < net.size) : (net.set id n).node id = n := by
  have h' : id < net.nodes.size := h
  simp [set, node, Array.getD_eq_getD_getElem?, h']

theorem node_set_of_ne (h : i ≠ id) : (net.set id n).node i = net.node i := by
  simp [set, node, Array.getD_eq_getD_getElem?, Array.getElem?_setIfInBounds_ne h.symm]

theorem ext_node {a b : Network} (hs : a.size = b.size) (h : ∀ id, a.node id = b.node id) :
    a = b := by
  cases a; cases b
  congr 1
  refine Array.ext hs fun i hi hj => ?_
  have := h i
  rwa [node_eq_getElem hi, node_eq_getElem hj] at this

/-- Operands point to live nodes of smaller number. -/
structure Canonical (net : Network) : Prop where
  lt : ∀ id, ∀ l ∈ (net.node id).operands, l.id < id
  live : ∀ id, ∀ l ∈ (net.node id).operands, net.isLive l.id = true

theorem isCanonical_iff : net.isCanonical = true ↔ net.Canonical := by
  have hall : net.isCanonical = true ↔ ∀ id < net.size, ∀ l ∈ (net.node id).operands,
      l.id < id ∧ net.isLive l.id = true := by
    simp [isCanonical, ids]
  rw [hall]
  constructor
  · intro h
    have hlt (id : NodeId) (l : Lit) (hl : l ∈ (net.node id).operands) : id < net.size :=
      lt_size_of_isLive (isLive_of_operand hl)
    exact ⟨fun id l hl => (h id (hlt id l hl) l hl).1, fun id l hl => (h id (hlt id l hl) l hl).2⟩
  · exact fun h id _ l hl => ⟨h.lt id l hl, h.live id l hl⟩

theorem dangling?_eq_none_iff :
    net.dangling? = none ↔ ∀ id, ∀ l ∈ (net.node id).operands, net.isLive l.id = true := by
  simp only [dangling?, List.findSome?_eq_none_iff, mem_ids, Option.map_eq_none_iff,
    List.find?_eq_none, Bool.not_eq_true', Bool.not_eq_false]
  exact ⟨fun h id l hl => h id (lt_size_of_isLive (isLive_of_operand hl)) l hl,
    fun h id _ => h id⟩

end Network

end TechMap

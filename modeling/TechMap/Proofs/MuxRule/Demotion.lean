import Mathlib
import TechMap.MuxRule
import TechMap.Proofs.Network.Search
import TechMap.Proofs.Network.Valuation
import TechMap.Proofs.Table.MuxForm

/-! Demotion of multiplexers. It keeps the operands of every node and what the node computes, so all
that is known of a network carries over, and a pass that lowers no count has changed nothing. -/

namespace TechMap

open Table

namespace Node

/-- A LUT has at most six inputs on distinct nodes and its table depends on exactly these; the
operands of a multiplexer are distinct nodes. -/
def Tight : Node → Prop
  | .lut6 inputs table => inputs.length ≤ 6 ∧ (inputs.map (·.id)).Nodup ∧
      ∀ i < 6, dependsOn table i = true ↔ i < inputs.length
  | .mux s t e => s.id ≠ t.id ∧ s.id ≠ e.id ∧ t.id ≠ e.id
  | _ => True

/-- The LUT of a multiplexer. Other nodes stay. -/
def demoted : Node → Node
  | mux s t e => lut6 [s, t, e] Network.muxTable
  | n => n

theorem operands_demoted (n : Node) : n.demoted.operands = n.operands := by cases n <;> rfl

theorem isInput_demoted (n : Node) : n.demoted.isInput = n.isInput := by cases n <;> rfl

theorem isSource_demoted (n : Node) : n.demoted.isSource = n.isSource := by cases n <;> rfl

theorem isSink_demoted (n : Node) : n.demoted.isSink = n.isSink := by cases n <;> rfl

theorem isRemoved_demoted (n : Node) : n.demoted.isRemoved = n.isRemoved := by cases n <;> rfl

theorem isLogic_demoted (n : Node) : n.demoted.isLogic = n.isLogic := by cases n <;> rfl

theorem isMapped_demoted (n : Node) : n.demoted.isMapped = n.isMapped := by cases n <;> rfl

theorem isMux_demoted (n : Node) : n.demoted.isMux = false := by cases n <;> rfl

theorem demoted_demoted (n : Node) : n.demoted.demoted = n.demoted := by cases n <;> rfl

theorem demoted_of_not_isMux {n : Node} (h : n.isMux = false) : n.demoted = n := by
  cases n <;> simp_all [isMux, demoted]

theorem demoted_of_root {n : Node} (h : n.isSource = true ∨ n.isSink = true) : n.demoted = n := by
  cases n <;> simp_all [isSource, isSink, demoted]

theorem value_muxTable (a : Nat → Bool) :
    value Network.muxTable a = if a 0 then a 1 else a 2 := by
  simp only [Network.muxTable, value_or, value_and, value_not, value_proj (by decide : 0 < 6),
    value_proj (by decide : 1 < 6), value_proj (by decide : 2 < 6)]
  cases a 0 <;> simp

theorem lookup_muxTable (s t e : UInt64) :
    lookup Network.muxTable [s, t, e] = (s &&& t) ||| (~~~ s &&& e) := by
  refine eq_of_bit fun k hk => ?_
  rw [bit_lookup _ (by simp) hk, value_muxTable, MuxForm.bit_choose _ _ _ hk]
  rfl

theorem eval_demoted (read : Lit → UInt64) (n : Node) : n.demoted.eval read = n.eval read := by
  cases n with
  | mux s t e => exact lookup_muxTable _ _ _
  | _ => rfl

theorem dependsOn_muxTable : ∀ i < 6, dependsOn Network.muxTable i = true ↔ i < 3 := by
  decide +kernel

theorem Tight.demoted {n : Node} (h : n.Tight) : n.demoted.Tight := by
  cases n with
  | mux s t e =>
    obtain ⟨hst, hse, hte⟩ := h
    exact ⟨by simp, by simp [hst, hse, hte], dependsOn_muxTable⟩
  | _ => exact h

end Node

namespace Network

theorem compactSupport_muxTable : compactSupport muxTable 3 = (muxTable, [0, 1, 2]) := by
  decide +kernel

variable {net net' : Network} {id i : NodeId}

theorem demote_eq (net : Network) (id : NodeId) :
    net.demote id = net.set id (net.node id).demoted := by
  unfold demote
  split
  · rename_i s t e hn
    rw [compactSupport_muxTable, hn]
    rfl
  · rename_i hn
    have hmux : (net.node id).isMux = false := by
      cases h : net.node id with
      | mux s t e => exact absurd h (hn s t e)
      | _ => rfl
    rw [Node.demoted_of_not_isMux hmux]
    refine ext_node (size_set ..).symm fun i => ?_
    by_cases hi : i = id
    · subst hi
      by_cases hlt : i < net.size
      · rw [node_set_self hlt]
      · rw [node_of_ge (Nat.le_of_not_lt hlt), node_of_ge (by rw [size_set]; exact Nat.le_of_not_lt hlt)]
    · rw [node_set_of_ne hi]

/-- Some multiplexers are demoted. -/
structure Demoted (net net' : Network) : Prop where
  size : net'.size = net.size
  node : ∀ id, net'.node id = net.node id ∨ net'.node id = (net.node id).demoted

namespace Demoted

theorem refl (net : Network) : Demoted net net := ⟨rfl, fun _ => .inl rfl⟩

theorem trans {net'' : Network} (h : Demoted net net') (h' : Demoted net' net'') :
    Demoted net net'' := by
  refine ⟨h'.size.trans h.size, fun id => ?_⟩
  rcases h'.node id with hn | hn <;> rcases h.node id with hm | hm <;> rw [hn, hm]
  · exact .inl rfl
  · exact .inr rfl
  · exact .inr rfl
  · exact .inr (Node.demoted_demoted _)

/-- What demotion of a node keeps, demotion of some nodes keeps. -/
theorem keeps {β : Type} {f : Node → β} (hf : ∀ n : Node, f n.demoted = f n) (h : Demoted net net')
    (id : NodeId) : f (net'.node id) = f (net.node id) := by
  rcases h.node id with hn | hn <;> rw [hn]
  exact hf _

theorem operands (h : Demoted net net') (id : NodeId) :
    (net'.node id).operands = (net.node id).operands := h.keeps Node.operands_demoted id

theorem isLive (h : Demoted net net') (id : NodeId) : net'.isLive id = net.isLive id := by
  rw [Network.isLive, Network.isLive, h.keeps Node.isRemoved_demoted]

theorem canonical (h : Demoted net net') (hc : net.Canonical) : net'.Canonical where
  lt id l hl := hc.lt id l (h.operands id ▸ hl)
  live id l hl := by rw [h.isLive]; exact hc.live id l (h.operands id ▸ hl)

theorem wordOf (h : Demoted net net') (source v : NodeId → UInt64) (id : NodeId) :
    net'.wordOf source v id = net.wordOf source v id := by
  rw [Network.wordOf, Network.wordOf, h.keeps Node.isInput_demoted,
    h.keeps (f := fun n => n.eval (readLit v)) (Node.eval_demoted _)]

theorem tight (h : Demoted net net') (ht : (net.node id).Tight) : (net'.node id).Tight := by
  rcases h.node id with hn | hn <;> rw [hn]
  · exact ht
  · exact ht.demoted

/-- A multiplexer that is left was one before, with the same operands. -/
theorem isMux (h : Demoted net net') (hm : (net'.node id).isMux = true) :
    net'.node id = net.node id := by
  rcases h.node id with hn | hn
  · exact hn
  · rw [hn, Node.isMux_demoted] at hm
    cases hm

/-- Node by node, demotion leaves no more multiplexers than there were. -/
theorem countP_isMux_le {l' l : List Node} (h : List.Forall₂ (fun n' n => n' = n ∨ n' = n.demoted) l' l) :
    l'.countP Node.isMux ≤ l.countP Node.isMux ∧
      (l'.countP Node.isMux = l.countP Node.isMux → l' = l) := by
  induction h with
  | nil => exact ⟨Nat.le_refl _, fun _ => rfl⟩
  | @cons n' n l' l hn _ ih =>
    rw [List.countP_cons, List.countP_cons]
    rcases hn with rfl | rfl
    · exact ⟨by omega, fun he => by rw [ih.2 (by omega)]⟩
    · rw [Node.isMux_demoted]
      cases hm : n.isMux with
      | true => exact ⟨by simp; omega, fun he => by simp at he; omega⟩
      | false =>
        rw [Node.demoted_of_not_isMux hm]
        exact ⟨by omega, fun he => by rw [ih.2 (by omega)]⟩

theorem countMux_le (h : Demoted net net') : net'.countMux ≤ net.countMux ∧
    (net'.countMux = net.countMux → net' = net) := by
  have hall : List.Forall₂ (fun n' n : Node => n' = n ∨ n' = n.demoted) net'.nodes.toList
      net.nodes.toList := by
    refine List.forall₂_iff_get.2 ⟨h.size, fun i hi hi' => ?_⟩
    have := h.node i
    rwa [node_eq_getElem (by simpa using hi), node_eq_getElem (by simpa using hi')] at this
  have := countP_isMux_le hall
  simp only [countMux, count, ← Array.countP_toList]
  refine ⟨this.1, fun he => ?_⟩
  cases net; cases net'
  congr 1
  exact Array.toList_inj.1 (this.2 he)

end Demoted

theorem demoted_demote (net : Network) (id : NodeId) : Demoted net (net.demote id) := by
  rw [demote_eq]
  refine ⟨size_set .., fun i => ?_⟩
  by_cases hi : i = id
  · subst hi
    by_cases hlt : i < net.size
    · exact .inr (node_set_self hlt)
    · left
      rw [node_of_ge (Nat.le_of_not_lt hlt), node_of_ge (by rw [size_set]; exact Nat.le_of_not_lt hlt)]
  · exact .inl (node_set_of_ne hi)

end Network

end TechMap

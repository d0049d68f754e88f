import Mathlib
import TechMap.Proofs.Mapping.Cover
import TechMap.Proofs.Mapping.MappedNode

/-! The network of a cover. Every active gate has a node that implements it, idle gates are gone and
all else is as before. What is active only needs what is active, so a compaction can not fail, and
the words of the old network solve the equations of all that survives. -/

namespace TechMap

namespace Mapping

variable {α : Type} {m : Mapper α} {net net' : Network} {id : NodeId}

/-- A new node that stands for its gate. -/
def Built (m : Mapper α) (e : NodeId × Node) : Prop :=
  ∃ cut, m.winner? e.1 = some cut ∧ Implements m.net cut e.1 e.2

theorem mappedNodes_ok (h : Valid m) (hl : Listed m) (ids : List NodeId)
    (acc : List (NodeId × Node)) {memo : Memo} (hm : memo.Clean) : ∃ memo' nodes,
      m.mappedNodes ids acc memo = (memo', .ok (acc.reverse ++ nodes)) ∧ memo'.Clean ∧
      nodes.map (·.1) = ids.filter (fun id => m.isActive id && (m.net.node id).isLogic) ∧
      ∀ e ∈ nodes, Built m e := by
  induction ids generalizing acc memo with
  | nil => exact ⟨memo, [], by simp [Mapper.mappedNodes], hm, rfl, by simp⟩
  | cons id rest ih =>
    rw [Mapper.mappedNodes]
    split
    · rename_i hcond
      have hid : (m.net.node id).isLogic = true := (Bool.and_eq_true_iff.1 hcond).2
      obtain ⟨cut, cuts, hcuts, hw⟩ := hl.exists_winner hid
      have hf := h.stored id cut (by simp [hcuts])
      obtain ⟨memo₁, table, htable, hm₁, hcomp⟩ :=
        Network.computeTable_spec h.canonical hm hf.proper.size hf.covered
      obtain ⟨memo₂, nodes, hnodes, hm₂, hids, hbuilt⟩ := ih ((id, mappedNode cut table) :: acc) hm₁
      rw [hw]
      dsimp only
      rw [htable]
      refine ⟨memo₂, (id, mappedNode cut table) :: nodes, ?_, hm₂, ?_, ?_⟩
      · dsimp only
        rw [hnodes]
        simp
      · rw [List.map_cons, hids, List.filter_cons, if_pos hcond]
      · intro e he
        rcases List.mem_cons.1 he with rfl | he
        · exact ⟨cut, hw, implements_mappedNode hf hcomp⟩
        · exact hbuilt e he
    · rename_i hcond
      obtain ⟨memo', nodes, hnodes, hm', hids, hbuilt⟩ := ih acc hm
      exact ⟨memo', nodes, hnodes, hm', by rw [hids, List.filter_cons, if_neg hcond], hbuilt⟩

theorem node_foldl_set {nodes : List (NodeId × Node)} (hn : (nodes.map (·.1)).Nodup)
    (hlt : ∀ e ∈ nodes, e.1 < net.size) :
    (nodes.foldl (fun net e => net.set e.1 e.2) net).size = net.size ∧
      (∀ e ∈ nodes, (nodes.foldl (fun net e => net.set e.1 e.2) net).node e.1 = e.2) ∧
      ∀ id ∉ nodes.map (·.1),
        (nodes.foldl (fun net e => net.set e.1 e.2) net).node id = net.node id := by
  induction nodes generalizing net with
  | nil => simp
  | cons e rest ih =>
    obtain ⟨he, hn⟩ := List.nodup_cons.1 hn
    obtain ⟨hs, hmem, hother⟩ := ih hn fun e' he' => by
      rw [Network.size_set]
      exact hlt e' (List.mem_cons_of_mem _ he')
    rw [List.foldl_cons]
    refine ⟨hs.trans (Network.size_set ..), fun e' he' => ?_, fun id hid => ?_⟩
    · rcases List.mem_cons.1 he' with rfl | he'
      · rw [hother _ he, Network.node_set_self (hlt _ (by simp))]
      · exact hmem e' he'
    · simp only [List.map_cons, List.mem_cons, not_or] at hid
      rw [hother id hid.2, Network.node_set_of_ne hid.1]

theorem node_foldl_remove (ids : List NodeId) (net : Network) :
    let r := ids.foldl (fun net id => if (net.node id).isLogic then net.remove id else net) net
    r.size = net.size ∧ (∀ id ∈ ids, (net.node id).isLogic = true → r.node id = .removed) ∧
      ∀ id, id ∉ ids ∨ (net.node id).isLogic = false → r.node id = net.node id := by
  induction ids generalizing net with
  | nil => simp
  | cons i rest ih =>
    dsimp only at ih ⊢
    rw [List.foldl_cons]
    obtain ⟨hs, hmem, hother⟩ := ih (if (net.node i).isLogic then net.remove i else net)
    have hstep (id : NodeId) (hid : id ≠ i) :
        (if (net.node i).isLogic then net.remove i else net).node id = net.node id := by
      split
      · exact Network.node_set_of_ne hid
      · rfl
    have hself (hi : (net.node i).isLogic = true) :
        (if (net.node i).isLogic then net.remove i else net).node i = .removed := by
      rw [if_pos hi]
      exact Network.node_set_self (Network.lt_size_of_isLive (Network.isLive_of_isLogic hi))
    refine ⟨hs.trans ?_, fun id hid hlogic => ?_, fun id hid => ?_⟩
    · split
      · exact Network.size_set ..
      · rfl
    · by_cases he : id = i
      · subst he
        rw [hother id (.inr (by rw [hself hlogic]; rfl)), hself hlogic]
      · have hid : id ∈ rest := (List.mem_cons.1 hid).resolve_left he
        exact hmem id hid (by rwa [hstep id he])
    · by_cases he : id = i
      · subst he
        have hfalse : (net.node id).isLogic = false := by
          rcases hid with hid | hid
          · simp at hid
          · exact hid
        have hsame : (if (net.node id).isLogic then net.remove id else net) = net :=
          if_neg (by simp [hfalse])
        rw [hsame] at hother ⊢
        exact hother id (.inr hfalse)
      · rw [← hstep id he]
        refine hother id (hid.imp (fun h hm => h (List.mem_cons_of_mem _ hm)) fun h => ?_)
        rwa [hstep id he]

/-- What has become of each node of the covered network. -/
structure Implemented (m : Mapper α) (net' : Network) : Prop where
  size : net'.size = m.net.size
  gate : ∀ id, (m.net.node id).isLogic = true → m.isActive id = true →
    ∃ cut, m.winner? id = some cut ∧ Implements m.net cut id (net'.node id)
  idle : ∀ id, (m.net.node id).isLogic = true → m.isActive id = false → net'.node id = .removed
  others : ∀ id, (m.net.node id).isLogic = false → net'.node id = m.net.node id

theorem implemented_implement (h : Valid m) {nodes : List (NodeId × Node)}
    (hids : nodes.map (·.1) =
      m.order.filter (fun id => m.isActive id && (m.net.node id).isLogic))
    (hb : ∀ e ∈ nodes, Built m e) : Implemented m (Mapper.implement m.net m.order nodes) := by
  have hmem (id : NodeId) : id ∈ nodes.map (·.1) ↔
      m.isActive id = true ∧ (m.net.node id).isLogic = true := by
    rw [hids, List.mem_filter, h.order, Network.mem_upOrder, Bool.and_eq_true]
    exact ⟨fun h => h.2, fun h => ⟨Network.isLive_of_isLogic h.2, h⟩⟩
  have hnodup : (nodes.map (·.1)).Nodup := by
    rw [hids, h.order]
    exact m.net.nodup_upOrder.filter _
  obtain ⟨hs, hset, hkeep⟩ := node_foldl_set hnodup fun e he =>
    Network.lt_size_of_isLive (Network.isLive_of_isLogic
      ((hmem e.1).1 (List.mem_map_of_mem he)).2)
  obtain ⟨hs', hgone, hstay⟩ := node_foldl_remove m.order
    (nodes.foldl (fun net e => net.set e.1 e.2) m.net)
  refine ⟨hs'.trans hs, fun id hlogic ha => ?_, fun id hlogic ha => ?_, fun id hlogic => ?_⟩
  · obtain ⟨e, he, rfl⟩ := List.mem_map.1 ((hmem id).2 ⟨ha, hlogic⟩)
    obtain ⟨cut, hw, hi⟩ := hb e he
    have hnode := hset e he
    refine ⟨cut, hw, ?_⟩
    rw [Mapper.implement, hstay e.1 (.inr (by rw [hnode]; exact Node.not_isLogic_of_isMapped hi.mapped)),
      hnode]
    exact hi
  · have hnot : id ∉ nodes.map (·.1) := fun hm => by
      rw [hmem, ha] at hm
      cases hm.1
    have hnode := hkeep id hnot
    refine hgone id ?_ (by rw [hnode]; exact hlogic)
    rw [h.order, Network.mem_upOrder]
    exact Network.isLive_of_isLogic hlogic
  · have hnot : id ∉ nodes.map (·.1) := fun hm => by
      rw [hmem, hlogic] at hm
      cases hm.2
    rw [Mapper.implement, hstay id (.inr (by rw [hkeep id hnot]; exact hlogic)), hkeep id hnot]

/-- What the new network needs: the cover and the sources. -/
def Needed (m : Mapper α) (id : NodeId) : Prop :=
  m.isActive id = true ∨ (m.net.node id).isSource = true

/-- A needed gate is active. -/
theorem Needed.active (h : Needed m id) (hid : (m.net.node id).isLogic = true) :
    m.isActive id = true := by
  refine h.resolve_right fun hs => ?_
  rw [Node.not_isLogic_of_isSource hs] at hid
  cases hid

namespace Implemented

theorem isLive (h : Implemented m net') (hc : Consistent m) (hid : Needed m id) :
    net'.isLive id = true := by
  cases hlogic : (m.net.node id).isLogic with
  | false =>
    rw [Network.isLive, h.others id hlogic]
    exact hid.elim (hc.live id) Network.isLive_of_isSource
  | true =>
    obtain ⟨cut, -, hi⟩ := h.gate id hlogic (hid.active hlogic)
    rw [Network.isLive, Node.not_isRemoved_of_isMapped hi.mapped]
    rfl

/-- The operands of a needed node are what it uses. -/
theorem operand (h : Implemented m net') (hv : Valid m) (hid : Needed m id) {l : Lit}
    (hl : l ∈ (net'.node id).operands) : m.isActive id = true ∧ l.id ∈ m.uses id ∧ l.id < id := by
  cases hlogic : (m.net.node id).isLogic with
  | false =>
    rw [h.others id hlogic] at hl
    refine ⟨hid.resolve_right fun hs => ?_, ?_, hv.canonical.lt id l hl⟩
    · rw [Node.operands_of_isSource hs] at hl
      cases hl
    · rw [uses_of_not_isLogic (by simp [hlogic])]
      exact List.mem_map_of_mem hl
  | true =>
    have ha := hid.active hlogic
    obtain ⟨cut, hw, hi⟩ := h.gate id hlogic ha
    have hleaf := hi.operands l hl
    exact ⟨ha, by rwa [uses_of_winner? hlogic hw],
      (hv.stored id cut (List.mem_of_mem_head? hw)).lt l.id hleaf⟩

theorem grounded (h : Implemented m net') (hv : Valid m) (hc : Consistent m) :
    net'.Grounded (Needed m) := by
  have hneeded (id : NodeId) (hid : Needed m id) (l : Lit) (hl : l ∈ (net'.node id).operands) :
      Needed m l.id := by
    obtain ⟨ha, huse, -⟩ := h.operand hv hid hl
    exact hc.closed hv ha huse
  exact ⟨fun id hid l hl => h.isLive hc (hneeded id hid l hl),
    fun id hid l hl => (h.operand hv hid hl).2.2, hneeded⟩

/-- Sources and sinks are no gates, so they are as before. -/
theorem node_of_root (h : Implemented m net')
    (hr : (net'.node id).isSource = true ∨ (net'.node id).isSink = true) :
    net'.node id = m.net.node id := by
  refine h.others id (Bool.eq_false_iff.2 fun hlogic => ?_)
  cases ha : m.isActive id with
  | false =>
    rw [h.idle id hlogic ha] at hr
    rcases hr with hr | hr <;> cases hr
  | true =>
    obtain ⟨cut, -, hi⟩ := h.gate id hlogic ha
    have := hi.mapped
    cases hn : net'.node id <;> simp_all [Node.isSource, Node.isSink, Node.isMapped]

theorem needed_of_root (h : Implemented m net') (hc : Consistent m)
    (hr : (net'.node id).isSource = true ∨ (net'.node id).isSink = true) : Needed m id := by
  rw [h.node_of_root hr] at hr
  exact hr.elim .inr fun hs => .inl (hc.sinks id hs)

/-- The words of the old network solve what is left of the new one's equations. -/
theorem word (h : Implemented m net') (hv : Valid m) (hc : Consistent m)
    (h0 : m.net.node NodeId.constant = .const) {source v : NodeId → UInt64}
    (hval : m.net.IsValuation source v) (hk : net'.Kept id) : v id = net'.wordOf source v id := by
  have hid : Needed m id :=
    (h.grounded hv hc).kept (fun i hi => h.needed_of_root hc hi) hk
  cases hlogic : (m.net.node id).isLogic with
  | false =>
    have hlt : id < m.net.size := by
      rw [← h.size]
      exact Network.lt_size_of_isLive (h.isLive hc hid)
    rw [Network.wordOf, h.others id hlogic]
    exact hval id hlt
  | true =>
    obtain ⟨cut, -, hi⟩ := h.gate id hlogic (hid.active hlogic)
    have hin : (net'.node id).isInput = false := by
      have := hi.mapped
      cases hn : net'.node id <;> simp_all [Node.isInput, Node.isMapped]
    rw [Network.wordOf, hin, if_neg (by simp), hi.word v (hval.respects h0)]

end Implemented

end Mapping

end TechMap

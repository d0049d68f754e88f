import Mathlib
import TechMap.Proofs.Mapping.Implemented
import TechMap.Proofs.MuxRule.Legal
import TechMap.Proofs.Network.Remap

/-! Mappings of a network. The network of a cover, compacted, is a mapping of the network it came
from, and demotion of some multiplexers with another compaction leaves one. -/

namespace TechMap

namespace Network

variable {net net' : Network} {c : Compaction} {id i : NodeId}

/-- Words for the new numbers, if no two old ones share one. -/
theorem exists_carried (hinj : ∀ a b i, c.get a = some i → c.get b = some i → a = b)
    (source : NodeId → UInt64) : ∃ source' : NodeId → UInt64, ∀ id i, c.get id = some i → source' i = source id := by
  classical
  refine ⟨fun i => if h : ∃ id, c.get id = some i then source h.choose else 0, fun id i hi => ?_⟩
  have h : ∃ id, c.get id = some i := ⟨id, hi⟩
  simp only [dif_pos h]
  rw [hinj _ id i h.choose_spec hi]

namespace Renumbered

/-- The nodes of the new network are moved ones, and past its end there are none. -/
theorem forall_node (h : Renumbered net net' c) (P : Node → Prop) (hremoved : P .removed)
    (hmoved : ∀ id i, c.get id = some i → P (net'.node i)) (i : NodeId) : P (net'.node i) := by
  rcases h.node_cases i with hn | ⟨id, hi⟩
  · rw [hn]; exact hremoved
  · exact hmoved id i hi

theorem tight (h : Renumbered net net' c) (hi : c.get id = some i)
    (ht : (net.node id).Tight) : (net'.node i).Tight := by
  have hne {l l' : Lit} (hl : l ∈ (net.node id).operands) (hl' : l' ∈ (net.node id).operands)
      (he : (c.move l).id = (c.move l').id) : l.id = l'.id :=
    h.inj _ _ _ (h.get_operand hi hl) (he ▸ h.get_operand hi hl')
  rw [h.node id i hi]
  cases hn : net.node id <;> rw [hn] at hne ht <;> try trivial
  · rename_i inputs table
    obtain ⟨h6, hnodup, hdep⟩ := ht
    refine ⟨by simpa using h6, ?_, by simpa using hdep⟩
    rw [List.map_map]
    refine (List.nodup_map_iff_inj_on hnodup.of_map).2 fun l hl l' hl' he => ?_
    exact List.inj_on_of_nodup_map hnodup hl hl' (hne hl hl' he)
  · obtain ⟨hst, hse, hte⟩ := ht
    exact ⟨fun he => hst (hne (by simp [Node.operands]) (by simp [Node.operands]) he),
      fun he => hse (hne (by simp [Node.operands]) (by simp [Node.operands]) he),
      fun he => hte (hne (by simp [Node.operands]) (by simp [Node.operands]) he)⟩

/-- The constant keeps its number, so no other operand becomes it. -/
theorem ne_constant (h : Renumbered net net' c)
    (hzero : c.get NodeId.constant = some NodeId.constant)
    (hne : ∀ id, (net.node id).isMapped = true → ∀ l ∈ (net.node id).operands, l.id ≠ NodeId.constant)
    (hi : (net'.node i).isMapped = true) {l : Lit} (hl : l ∈ (net'.node i).operands) :
    l.id ≠ NodeId.constant := by
  obtain ⟨id, hid⟩ := h.surj i (lt_size_of_isLive (isLive_of_operand hl))
  rw [h.operands hid] at hl
  obtain ⟨l₀, hl₀, rfl⟩ := List.mem_map.1 hl
  have hget := h.get_operand hid hl₀
  rw [h.isMapped hid] at hi
  intro he
  rw [he] at hget
  exact hne id hi l₀ hl₀ (h.inj _ _ _ hget hzero)

end Renumbered

/-- Network `net'` is a mapping of `net`, and `c` says where the nodes went. -/
structure Maps (muxes : Bool) (net net' : Network) (c : Compaction) : Prop where
  canonical : net'.Canonical
  kept : ∀ i < net'.size, net'.Kept i
  live : ∀ i < net'.size, net'.isLive i = true
  gateless : ∀ i, (net'.node i).isLogic = false
  tight : ∀ i, (net'.node i).Tight
  mux : muxes = false → ∀ i, (net'.node i).isMux = false
  total : ∀ id, (net.node id).isSource = true ∨ (net.node id).isSink = true →
    ∃ i, c.get id = some i
  lt_size : ∀ id i, c.get id = some i → i < net'.size
  surj : ∀ i < net'.size, ∃ id, c.get id = some i
  inj : ∀ a b i, c.get a = some i → c.get b = some i → a = b
  rooted : ∀ id i, c.get id = some i →
    ((net'.node i).isSource = true ∨ (net'.node i).isSink = true ↔
      (net.node id).isSource = true ∨ (net.node id).isSink = true)
  root : ∀ id i, c.get id = some i → (net.node id).isSource = true ∨ (net.node id).isSink = true →
    ∃ g, net'.node i = (net.node id).mapLits g
  zero : net.node NodeId.constant = .const → c.get NodeId.constant = some NodeId.constant
  ne_zero : net.node NodeId.constant = .const → ∀ i, (net'.node i).isMapped = true →
    ∀ l ∈ (net'.node i).operands, l.id ≠ NodeId.constant
  word : net.node NodeId.constant = .const → ∀ source source' v v' : NodeId → UInt64,
    net.IsValuation source v → net'.IsValuation source' v' →
    (∀ id i, c.get id = some i → (net.node id).isInput = true → source' i = source id) →
    ∀ id i, c.get id = some i → v' i = v id

namespace Maps

variable {muxes : Bool} {net₁ net₂ net₃ : Network} {c' : Compaction}

theorem root_iff (hd : Demoted net₁ net₂) (hr : Renumbered net₂ net₃ c') {i k : NodeId}
    (hi : c'.get i = some k) : ((net₃.node k).isSource = true ∨ (net₃.node k).isSink = true ↔
      (net₁.node i).isSource = true ∨ (net₁.node i).isSink = true) := by
  rw [hr.node i k hi, Node.isSource_mapLits, Node.isSink_mapLits, hd.keeps Node.isSource_demoted,
    hd.keeps Node.isSink_demoted]

theorem lt_size_of_get (hd : Demoted net₁ net₂) (hr : Renumbered net₂ net₃ c') {i k : NodeId}
    (hi : c'.get i = some k) : i < net₁.size :=
  lt_of_lt_of_eq (lt_size_of_isLive (hr.live i k hi)) hd.size

theorem inj_follow (h : Maps muxes net net₁ c) (hr : Renumbered net₂ net₃ c') {a b k : NodeId}
    (ha : (c.follow c').get a = some k) (hb : (c.follow c').get b = some k) : a = b := by
  obtain ⟨i, hai, hi⟩ := Compaction.get_follow_eq_some.1 ha
  obtain ⟨j, hbj, hj⟩ := Compaction.get_follow_eq_some.1 hb
  exact h.inj a b i hai (hr.inj j i k hj hi ▸ hbj)

theorem zero_follow (h : Maps muxes net net₁ c) (hd : Demoted net₁ net₂)
    (hr : Renumbered net₂ net₃ c') (h0 : net.node NodeId.constant = .const) :
    c'.get NodeId.constant = some NodeId.constant := by
  obtain ⟨g, hg⟩ := h.root _ _ (h.zero h0) (.inl (by rw [h0]; rfl))
  refine hr.first ?_
  rw [hd.keeps Node.isSource_demoted, hg, h0]
  rfl

theorem total_follow (h : Maps muxes net net₁ c) (hd : Demoted net₁ net₂)
    (hr : Renumbered net₂ net₃ c')
    (hid : (net.node id).isSource = true ∨ (net.node id).isSink = true) :
    ∃ k, (c.follow c').get id = some k := by
  obtain ⟨i, hi⟩ := h.total id hid
  have hk : net₂.Kept i := .of_root (by
    rw [hd.keeps Node.isSource_demoted, hd.keeps Node.isSink_demoted]
    exact (h.rooted id i hi).2 hid)
  obtain ⟨k, hk⟩ := (hr.kept i).2 hk
  exact ⟨k, Compaction.get_follow_eq_some.2 ⟨i, hi, hk⟩⟩

theorem surj_follow (h : Maps muxes net net₁ c) (hd : Demoted net₁ net₂)
    (hr : Renumbered net₂ net₃ c') {k : NodeId} (hk : k < net₃.size) :
    ∃ id, (c.follow c').get id = some k := by
  obtain ⟨i, hi⟩ := hr.surj k hk
  obtain ⟨id, hid⟩ := h.surj i (lt_size_of_get hd hr hi)
  exact ⟨id, Compaction.get_follow_eq_some.2 ⟨i, hid, hi⟩⟩

/-- Demotion leaves sources and sinks alone, so they are renamed twice and that is all. -/
theorem root_follow (h : Maps muxes net net₁ c) (hd : Demoted net₁ net₂)
    (hr : Renumbered net₂ net₃ c') {k : NodeId} (hk : (c.follow c').get id = some k)
    (hid : (net.node id).isSource = true ∨ (net.node id).isSink = true) :
    ∃ g, net₃.node k = (net.node id).mapLits g := by
  obtain ⟨i, hi, hik⟩ := Compaction.get_follow_eq_some.1 hk
  obtain ⟨g, hg⟩ := h.root id i hi hid
  have hsame : net₂.node i = net₁.node i := by
    rcases hd.node i with hn | hn <;> rw [hn]
    exact Node.demoted_of_root ((h.rooted id i hi).2 hid)
  exact ⟨fun l => c'.move (g l), by rw [hr.node i k hik, hsame, hg, Node.mapLits_mapLits]⟩

/-- An input in between is an input of the first network. -/
theorem isInput_of_demoted (h : Maps muxes net net₁ c) (hd : Demoted net₁ net₂)
    (hi : c.get id = some i) (hin : (net₂.node i).isInput = true) :
    (net.node id).isInput = true := by
  rw [hd.keeps Node.isInput_demoted] at hin
  have hroot := (h.rooted id i hi).1 (.inl (Node.isSource_of_isInput hin))
  obtain ⟨g, hg⟩ := h.root id i hi hroot
  rwa [hg, Node.isInput_mapLits] at hin

theorem word_follow (h : Maps muxes net net₁ c) (hd : Demoted net₁ net₂)
    (hr : Renumbered net₂ net₃ c') (h0 : net.node NodeId.constant = .const)
    {source source' v v' : NodeId → UInt64} (hv : net.IsValuation source v)
    (hv' : net₃.IsValuation source' v')
    (hagree : ∀ id k, (c.follow c').get id = some k → (net.node id).isInput = true →
      source' k = source id)
    {k : NodeId} (hk : (c.follow c').get id = some k) : v' k = v id := by
  obtain ⟨i, hid, hi⟩ := Compaction.get_follow_eq_some.1 hk
  -- words for the network in between
  obtain ⟨source₁, hcarry⟩ := exists_carried h.inj source
  obtain ⟨values, -, -, hv₁⟩ := simulate_canonical h.canonical source₁
  rw [← h.word h0 source source₁ v _ hv hv₁ (fun a j ha _ => hcarry a j ha) id i hid]
  have hkept (j : NodeId) (hj : net₂.Kept j) :
      values.getD j 0 = net₂.wordOf source₁ (fun a => values.getD a 0) j := by
    rw [hd.wordOf]
    obtain ⟨k', hk'⟩ := (hr.kept j).2 hj
    exact hv₁ j (lt_size_of_get hd hr hk')
  refine hr.valuation hkept hv' (fun j k' hj hin => ?_) i k hi
  obtain ⟨a, ha⟩ := h.surj j (lt_size_of_get hd hr hj)
  rw [hcarry a j ha]
  exact hagree a k' (Compaction.get_follow_eq_some.2 ⟨j, ha, hj⟩) (h.isInput_of_demoted hd ha hin)

/-- Some multiplexers become LUTs, and what no sink needs any more goes. -/
theorem demote (h : Maps muxes net net₁ c) (hd : Demoted net₁ net₂)
    (hr : Renumbered net₂ net₃ c') : Maps muxes net net₃ (c.follow c') where
  canonical := hr.canonical
  kept k hk := hr.kept_new hk
  live k hk := hr.isLive hk
  gateless := hr.forall_node (·.isLogic = false) rfl fun i k hi => by
    rw [hr.node i k hi, Node.isLogic_mapLits, hd.keeps Node.isLogic_demoted, h.gateless]
  tight := hr.forall_node Node.Tight trivial fun i k hi => hr.tight hi (hd.tight (h.tight i))
  mux hm := hr.forall_node (·.isMux = false) rfl fun i k hi => by
    rw [hr.isMux hi]
    refine Bool.eq_false_iff.2 fun hmux => ?_
    rw [hd.isMux hmux, h.mux hm] at hmux
    cases hmux
  total id hid := h.total_follow hd hr hid
  lt_size id k hk := by
    obtain ⟨i, -, hi⟩ := Compaction.get_follow_eq_some.1 hk
    exact hr.lt_size i k hi
  surj k hk := h.surj_follow hd hr hk
  inj a b k ha hb := h.inj_follow hr ha hb
  rooted id k hk := by
    obtain ⟨i, hid, hi⟩ := Compaction.get_follow_eq_some.1 hk
    exact (root_iff hd hr hi).trans (h.rooted id i hid)
  root id k hk hid := h.root_follow hd hr hk hid
  zero h0 := Compaction.get_follow_eq_some.2 ⟨_, h.zero h0, h.zero_follow hd hr h0⟩
  ne_zero h0 k hk l hl := by
    refine hr.ne_constant (h.zero_follow hd hr h0) (fun i hi l hl => ?_) hk hl
    rw [hd.operands] at hl
    rw [hd.keeps Node.isMapped_demoted] at hi
    exact h.ne_zero h0 i hi l hl
  word h0 source source' v v' hv hv' hagree id k hk := h.word_follow hd hr h0 hv hv' hagree hk

end Maps

end Network

namespace Mapping

open Network

variable {α : Type} {m : Mapper α} {imp net' : Network} {c : Compaction} {id : NodeId}

namespace Implemented

theorem root_iff (h : Implemented m imp) :
    ((imp.node id).isSource = true ∨ (imp.node id).isSink = true) ↔
      (m.net.node id).isSource = true ∨ (m.net.node id).isSink = true := by
  constructor
  · exact fun hr => h.node_of_root hr ▸ hr
  · intro hr
    rwa [h.others id (hr.elim Node.not_isLogic_of_isSource Node.not_isLogic_of_isSink)]

/-- A mapped node stands for a gate, as no network has any before it is covered. -/
theorem of_isMapped (h : Implemented m imp) (hv : Valid m) (hm : (imp.node id).isMapped = true) :
    ∃ cut, Fits m.net m.params.muxes id cut ∧ Implements m.net cut id (imp.node id) := by
  cases hlogic : (m.net.node id).isLogic with
  | false => rw [h.others id hlogic, hv.unmapped] at hm; cases hm
  | true =>
    cases ha : m.isActive id with
    | false => rw [h.idle id hlogic ha] at hm; cases hm
    | true =>
      obtain ⟨cut, hw, himp⟩ := h.gate id hlogic ha
      exact ⟨cut, hv.stored id cut (List.mem_of_mem_head? hw), himp⟩

theorem gateless (h : Implemented m imp) (id : NodeId) : (imp.node id).isLogic = false := by
  cases hlogic : (m.net.node id).isLogic with
  | false => rw [h.others id hlogic, hlogic]
  | true =>
    cases ha : m.isActive id with
    | false => rw [h.idle id hlogic ha]; rfl
    | true =>
      obtain ⟨cut, -, himp⟩ := h.gate id hlogic ha
      exact Node.not_isLogic_of_isMapped himp.mapped

theorem tight (h : Implemented m imp) (hv : Valid m) (id : NodeId) : (imp.node id).Tight := by
  cases hm : (imp.node id).isMapped with
  | true =>
    obtain ⟨cut, -, himp⟩ := h.of_isMapped hv hm
    exact himp.tight
  | false => cases hn : imp.node id <;> simp_all [Node.isMapped, Node.Tight]

theorem not_isMux (h : Implemented m imp) (hv : Valid m) (hm : m.params.muxes = false)
    (id : NodeId) : (imp.node id).isMux = false := by
  refine Bool.eq_false_iff.2 fun hmux => ?_
  obtain ⟨cut, hfit, himp⟩ := h.of_isMapped hv (Node.isMapped_of_isMux hmux)
  rw [(hfit.mux (himp.mux hmux)).1] at hm
  cases hm

theorem zero (h : Implemented m imp) (hr : Renumbered imp net' c)
    (h0 : m.net.node NodeId.constant = .const) :
    c.get NodeId.constant = some NodeId.constant := by
  refine hr.first ?_
  rw [h.others _ (by rw [h0]; rfl), h0]
  rfl

/-- The network of a cover becomes a mapping once it is compacted. -/
theorem maps (h : Implemented m imp) (hv : Valid m) (hc : Consistent m)
    (hr : Renumbered imp net' c) : Maps m.params.muxes m.net net' c where
  canonical := hr.canonical
  kept i hi := hr.kept_new hi
  live i hi := hr.isLive hi
  gateless := hr.forall_node (·.isLogic = false) rfl fun id i hi => by
    rw [hr.node id i hi, Node.isLogic_mapLits, h.gateless]
  tight := hr.forall_node Node.Tight trivial fun id i hi => hr.tight hi (h.tight hv id)
  mux hm := hr.forall_node (·.isMux = false) rfl fun id i hi => by rw [hr.isMux hi, h.not_isMux hv hm]
  total id hid := (hr.kept id).2 (.of_root (h.root_iff.2 hid))
  lt_size := hr.lt_size
  surj := hr.surj
  inj := hr.inj
  rooted id i hi := by
    rw [hr.node id i hi, Node.isSource_mapLits, Node.isSink_mapLits]
    exact h.root_iff
  root id i hi hid := ⟨c.move, by rw [hr.node id i hi, h.node_of_root (h.root_iff.2 hid)]⟩
  zero h0 := h.zero hr h0
  ne_zero h0 i hi l hl := by
    refine hr.ne_constant (h.zero hr h0) (fun id hid l hl => ?_) hi hl
    obtain ⟨cut, hfit, himp⟩ := h.of_isMapped hv hid
    exact hfit.ne_zero _ (himp.operands l hl)
  word h0 source source' v v' hval hv' hagree id i hi := by
    refine hr.valuation (fun j hj => h.word hv hc h0 hval hj) hv' (fun j k hj hin => ?_) id i hi
    refine hagree j k hj ?_
    rwa [h.node_of_root (.inl (Node.isSource_of_isInput hin))] at hin

end Implemented

end Mapping

end TechMap

import Mathlib
import TechMap.Mapping.Enumeration
import TechMap.Proofs.Cut.Candidates
import TechMap.Proofs.Extraction.Walk
import TechMap.Proofs.Table.MuxForm

/-! The cuts that a gate may have. Their leaves are live nodes of smaller number that cover the
gate, and a multiplexer cut has two or three of them. Enumeration finds such cuts only if the lists
of the operands hold such cuts only, and it always finds one. -/

namespace TechMap.Mapping

open Network

variable {net : Network} {id : NodeId} {node : Node} {cut c d : Cut} {muxes : Bool}

/-- The node is an operand of some node. -/
def Referenced (net : Network) (id : NodeId) : Prop :=
  ∃ u, ∃ l ∈ (net.node u).operands, l.id = id

structure Fits (net : Network) (muxes : Bool) (id : NodeId) (c : Cut) : Prop where
  logic : (net.node id).isLogic = true
  proper : c.Proper
  lt : ∀ l ∈ c.leaves, l < id
  live : ∀ l ∈ c.leaves, net.isLive l = true
  referenced : ∀ l ∈ c.leaves, Referenced net l
  ne_zero : ∀ l ∈ c.leaves, l ≠ NodeId.constant
  covered : net.Covered c.leaves id
  mux : c.isMux = true → muxes = true ∧ 2 ≤ c.size ∧ c.size ≤ 3

/-- Depths do not matter, as long as a LUT cut stays one. -/
theorem Fits.congr (h : Fits net muxes id c) (hl : d.leaves = c.leaves)
    (hm : d.isMux = true → c.isMux = true) : Fits net muxes id d where
  logic := h.logic
  proper := ⟨hl ▸ h.proper.sorted, hl ▸ h.proper.size⟩
  lt := hl ▸ h.lt
  live := hl ▸ h.live
  referenced := hl ▸ h.referenced
  ne_zero := hl ▸ h.ne_zero
  covered := hl ▸ h.covered
  mux hd := by
    have := h.mux (hm hd)
    simpa [Cut.size, hl] using this

/-- What a cut needs in order to stand for operand `id`. -/
structure Serves (net : Network) (id : NodeId) (c : Cut) : Prop where
  proper : c.Proper
  le : ∀ l ∈ c.leaves, l ≤ id
  live : ∀ l ∈ c.leaves, net.isLive l = true
  referenced : ∀ l ∈ c.leaves, Referenced net l
  ne_zero : ∀ l ∈ c.leaves, l ≠ NodeId.constant
  covered : net.Covered c.leaves id

theorem Fits.serves (h : Fits net muxes id c) : Serves net id c :=
  ⟨h.proper, fun l hl => (h.lt l hl).le, h.live, h.referenced, h.ne_zero, h.covered⟩

theorem serves_operandCut (hc : net.Canonical) {l : Lit} (hl : l ∈ (net.node id).operands) :
    Serves net l.id (operandCut l) := by
  unfold operandCut
  split
  · rename_i h0
    exact ⟨Cut.proper_empty, by simp [Cut.empty], by simp [Cut.empty], by simp [Cut.empty],
      by simp [Cut.empty], h0 ▸ .constant⟩
  · rename_i h0
    have hmem (x : NodeId) : x ∈ (Cut.trivial l.id).leaves ↔ x = l.id := by
      simp [Cut.trivial, Cut.ofSorted]
    refine ⟨Cut.proper_trivial _, fun x hx => ((hmem x).1 hx).le, fun x hx => ?_, fun x hx => ?_,
      fun x hx => ?_, .leaf ((hmem _).2 rfl)⟩
    · rw [(hmem x).1 hx]; exact hc.live id l hl
    · exact ⟨id, l, hl, ((hmem x).1 hx).symm⟩
    · rw [(hmem x).1 hx]; exact h0

theorem eq_of_mem_operandCut {l : Lit} {x : NodeId} (hx : x ∈ (operandCut l).leaves) :
    x = l.id := by
  unfold operandCut at hx
  split at hx
  · cases hx
  · exact List.mem_singleton.1 hx

theorem exists_support? (h : node.isLogic = true) :
    ∃ operands, node.support? = some operands ∧ ∀ l ∈ operands, l ∈ node.operands := by
  cases hs : node.support? with
  | none => cases node <;> simp_all [Node.support?, Node.isLogic]
  | some operands => exact ⟨operands, rfl, mem_operands_of_support? hs⟩

/-- A union of candidates of all operands covers the gate. -/
theorem fits_of_chosen (hc : net.Canonical) (hlogic : (net.node id).isLogic = true)
    {candidates : Lit → List Cut}
    (hs : ∀ l ∈ (net.node id).operands, ∀ c ∈ candidates l, Serves net l.id c)
    (h : Cut.Chosen ((net.node id).operands.map candidates) .empty c) : Fits net muxes id c := by
  have hleaf (x : NodeId) (hx : x ∈ c.leaves) :
      ∃ l ∈ (net.node id).operands, ∃ d, Serves net l.id d ∧ x ∈ d.leaves := by
    rcases h.mem_leaves hx with hx | ⟨cs, hcs, d, hd, hx⟩
    · cases hx
    · obtain ⟨l, hl, rfl⟩ := List.mem_map.1 hcs
      exact ⟨l, hl, d, hs l hl d hd, hx⟩
  have hmux := h.isMux rfl
  refine ⟨hlogic, h.proper Cut.proper_empty ?_, fun x hx => ?_, fun x hx => ?_, fun x hx => ?_,
    fun x hx => ?_, ?_, fun hm => ?_⟩
  · intro cs hcs d hd
    obtain ⟨l, hl, rfl⟩ := List.mem_map.1 hcs
    exact (hs l hl d hd).proper
  · obtain ⟨l, hl, d, hd, hx⟩ := hleaf x hx
    exact lt_of_le_of_lt (hd.le x hx) (hc.lt id l hl)
  · obtain ⟨l, hl, d, hd, hx⟩ := hleaf x hx
    exact hd.live x hx
  · obtain ⟨l, hl, d, hd, hx⟩ := hleaf x hx
    exact hd.referenced x hx
  · obtain ⟨l, hl, d, hd, hx⟩ := hleaf x hx
    exact hd.ne_zero x hx
  · obtain ⟨operands, hsup, hsub⟩ := exists_support? hlogic
    refine .gate hsup fun l hl => ?_
    obtain ⟨d, hd, hsubset⟩ := h.exists_subset (List.mem_map_of_mem (hsub l hl))
    exact (hs l (hsub l hl) d hd).covered.mono hsubset
  · rw [hmux] at hm; cases hm

/-- The support of a table that is a multiplexer lies among its three inputs. -/
theorem covered_of_form {leaves : List NodeId} {operands : List Lit} {a b c d : Lit}
    {table : UInt16} {form : MuxForm} (hnode : net.node id = .lut4 a b c d table)
    (hform : MuxForm.ofTable? table = some form) (hops : operands = [a, b, c, d])
    (h : ∀ i ∈ [form.select, form.thenIn, form.elseIn],
      (operands.getD i .zero).id ≠ NodeId.constant → (operands.getD i .zero).id ∈ leaves) :
    net.Covered leaves id := by
  obtain ⟨hmem, htab⟩ := MuxForm.mem_all_of_ofTable? hform
  refine .gate (by rw [hnode]; rfl) fun l hl => ?_
  obtain ⟨e, he, rfl⟩ := List.mem_map.1 hl
  obtain ⟨hz, hd⟩ := List.mem_filter.1 he
  obtain ⟨hlt, hget⟩ := List.mem_zipIdx' hz
  have hi : e.2 ∈ [form.select, form.thenIn, form.elseIn] := by
    have := MuxForm.dependsOn_expand_table form hmem e.2 hlt (by rw [htab]; exact hd)
    simpa using this
  have hl' : operands.getD e.2 .zero = e.1 := by
    rw [hops, hget, List.getD_eq_getElem _ _ hlt]
  have := h e.2 hi
  rw [hl'] at this
  by_cases h0 : e.1.id = NodeId.constant
  · rw [h0]; exact .constant
  · exact .leaf (this h0)

/-- Where the leaves of a multiplexer cut come from. -/
theorem muxCut?_eq_some (h : muxCut? node = some cut) : ∃ a b c d table form u,
    node = .lut4 a b c d table ∧ MuxForm.ofTable? table = some form ∧
      Cut.ofLeaves (([form.select, form.thenIn, form.elseIn].map fun i =>
        ([a, b, c, d].getD i .zero).id).filter fun id => id ≠ NodeId.constant) = some u ∧
      2 ≤ u.size ∧ cut = { u with muxDepth := 1 } := by
  unfold muxCut? at h
  split at h
  · rename_i a b c d table
    obtain ⟨form, hform, h⟩ := Option.bind_eq_some_iff.1 h
    obtain ⟨u, hu, h⟩ := Option.bind_eq_some_iff.1 h
    split at h
    · cases h
    · rename_i h2
      exact ⟨a, b, c, d, table, form, u, rfl, hform, hu, Nat.not_lt.1 h2, by simpa using h.symm⟩
  · cases h

theorem mem_leaves_muxCut? (h : muxCut? node = some cut) {x : NodeId} (hx : x ∈ cut.leaves) :
    x ≠ NodeId.constant ∧ ∃ l ∈ node.operands, l.id = x := by
  obtain ⟨a, b, c, d, table, form, u, rfl, hform, hu, -, rfl⟩ := muxCut?_eq_some h
  obtain ⟨hall, -⟩ := MuxForm.mem_all_of_ofTable? hform
  obtain ⟨hs, ht, he, -⟩ := MuxForm.inputs_of_mem_all form hall
  have hx := ((Cut.ofLeaves_spec hu).2.2 x).1 hx
  rw [List.mem_filter] at hx
  obtain ⟨hx, h0⟩ := hx
  obtain ⟨i, hi, rfl⟩ := List.mem_map.1 hx
  have hi4 : i < 4 := by
    simp only [List.mem_cons, List.not_mem_nil, or_false] at hi
    rcases hi with rfl | rfl | rfl <;> assumption
  refine ⟨by simpa using h0, [a, b, c, d].getD i .zero, ?_, rfl⟩
  rw [List.getD_eq_getElem _ _ (by simpa using hi4)]
  exact List.getElem_mem _

theorem fits_muxCut? (hc : net.Canonical) (h : muxCut? (net.node id) = some cut) :
    Fits net true id cut ∧ cut.isMux = true := by
  have hleaf (x : NodeId) (hx : x ∈ cut.leaves) := mem_leaves_muxCut? h hx
  obtain ⟨a, b, c, d, table, form, u, hnode, hform, hu, h2, rfl⟩ := muxCut?_eq_some h
  obtain ⟨hp, -, hmem⟩ := Cut.ofLeaves_spec hu
  have h3 : u.leaves.length ≤ 3 := by
    have hnodup : u.leaves.Nodup := hp.sorted.imp fun h => ne_of_lt h
    refine (List.subperm_of_subset hnodup fun x hx => (hmem x).1 hx).length_le.trans ?_
    exact (List.length_filter_le _ _).trans (by simp)
  refine ⟨⟨by rw [hnode]; rfl, ⟨hp.sorted, hp.size⟩, fun x hx => ?_, fun x hx => ?_,
    fun x hx => ⟨id, (hleaf x hx).2⟩, fun x hx => (hleaf x hx).1, ?_, fun _ => ⟨rfl, h2, h3⟩⟩, rfl⟩
  · obtain ⟨-, l, hl, rfl⟩ := hleaf x hx
    exact hc.lt id l hl
  · obtain ⟨-, l, hl, rfl⟩ := hleaf x hx
    exact hc.live id l hl
  · refine covered_of_form hnode hform rfl fun i hi h0 => (hmem _).2 ?_
    rw [List.mem_filter]
    exact ⟨List.mem_map_of_mem hi, by simpa using h0⟩

theorem mem_addMuxCut {cuts : List Cut} (h : c ∈ addMuxCut node cuts) :
    c ∈ cuts ∨ muxCut? node = some c := by
  unfold addMuxCut at h
  split at h
  · exact .inl h
  · rename_i cut hcut
    extract_lets degenerate at h
    split at h
    · exact .inl h
    · rcases List.mem_append.1 h with h | h
      · exact .inl h
      · exact .inr (by rw [hcut, List.mem_singleton.1 h])

theorem addMuxCut_ne_nil {cuts : List Cut} (h : cuts ≠ []) : addMuxCut node cuts ≠ [] := by
  unfold addMuxCut
  split
  · exact h
  · extract_lets degenerate
    split <;> simp [h]

variable {α : Type}

theorem enumerate_of_no_muxes {m : Mapper α} (hm : m.params.muxes = false) (node : Node) :
    m.enumerate id node = (Cut.product (node.operands.map fun l => operandCut l :: m.cutsOf l.id)
      .empty ((m.retained[id]?).join).toList).2 := by
  unfold Mapper.enumerate
  dsimp only
  rw [if_neg (by simp [hm])]

/-- An enumerated cut is the retained one, a union of candidates or the cut of a multiplexer. -/
theorem mem_enumerate {m : Mapper α} (h : c ∈ m.enumerate id node) :
    (m.retained[id]?).join = some c ∨
      Cut.Chosen (node.operands.map fun l => operandCut l :: m.cutsOf l.id) .empty c ∨
      m.params.muxes = true ∧ muxCut? node = some c := by
  have hprod (h : c ∈ (Cut.product (node.operands.map fun l => operandCut l :: m.cutsOf l.id)
      .empty ((m.retained[id]?).join).toList).2) :=
    (Cut.mem_product h).imp_left Option.mem_toList.1
  cases hm : m.params.muxes with
  | false =>
    rw [enumerate_of_no_muxes hm] at h
    exact (hprod h).imp_right .inl
  | true =>
    unfold Mapper.enumerate at h
    dsimp only at h
    rw [if_pos hm] at h
    rcases mem_addMuxCut h with h | h
    · exact (hprod h).imp_right .inl
    · exact .inr (.inr ⟨rfl, h⟩)

/-- The leaves of an enumerated cut are operands or leaves of their cuts. -/
theorem mem_leaves_enumerate {m : Mapper α} (h : c ∈ m.enumerate id node) :
    (m.retained[id]?).join = some c ∨ ∀ x ∈ c.leaves, ∃ l ∈ node.operands,
      l.id = x ∨ ∃ d ∈ m.cutsOf l.id, x ∈ d.leaves := by
  rcases mem_enumerate h with h | h | ⟨-, h⟩
  · exact .inl h
  · refine .inr fun x hx => ?_
    obtain hx | ⟨cs, hcs, d, hd, hx⟩ := h.mem_leaves hx
    · cases hx
    obtain ⟨l, hl, rfl⟩ := List.mem_map.1 hcs
    refine ⟨l, hl, ?_⟩
    rcases List.mem_cons.1 hd with rfl | hd
    · exact .inl (eq_of_mem_operandCut hx).symm
    · exact .inr ⟨d, hd, hx⟩
  · refine .inr fun x hx => ?_
    obtain ⟨-, l, hl, rfl⟩ := mem_leaves_muxCut? h hx
    exact ⟨l, hl, .inl rfl⟩

theorem fits_enumerate {m : Mapper α} (hc : m.net.Canonical)
    (hlogic : (m.net.node id).isLogic = true)
    (hcuts : ∀ id, ∀ c ∈ m.cutsOf id, Fits m.net m.params.muxes id c)
    (hseed : ∀ c, (m.retained[id]?).join = some c → Fits m.net m.params.muxes id c) :
    ∀ c ∈ m.enumerate id (m.net.node id), Fits m.net m.params.muxes id c := by
  intro c hmem
  rcases mem_enumerate hmem with h | h | ⟨hm, h⟩
  · exact hseed c h
  · refine fits_of_chosen hc hlogic (fun l hl c hcm => ?_) h
    rcases List.mem_cons.1 hcm with rfl | hcm
    · exact serves_operandCut hc hl
    · exact (hcuts l.id c hcm).serves
  · rw [hm]
    exact (fits_muxCut? hc h).1

theorem length_operands_of_isLogic (h : node.isLogic = true) : node.operands.length ≤ 4 := by
  cases node <;> simp_all [Node.isLogic, Node.operands]

/-- The implicit cuts of the operands have at most four leaves together. -/
theorem product_operands_ne_nil (h : node.isLogic = true) (lists : NodeId → List Cut)
    (seed : List Cut) :
    (Cut.product (node.operands.map fun l => operandCut l :: lists l.id) .empty seed).2 ≠ [] := by
  refine Cut.product_ne_nil rfl (fun cs hcs => ?_) ?_
  · obtain ⟨l, -, rfl⟩ := List.mem_map.1 hcs
    refine ⟨operandCut l, rfl, ?_⟩
    unfold operandCut
    split
    · exact ⟨rfl, by simp [Cut.empty, Cut.size]⟩
    · exact ⟨rfl, by simp [Cut.trivial, Cut.ofSorted, Cut.size]⟩
  · have := length_operands_of_isLogic h
    simp only [List.length_map, Cut.empty, Cut.size, List.length_nil]
    omega

theorem enumerate_ne_nil {m : Mapper α} (h : node.isLogic = true) : m.enumerate id node ≠ [] := by
  have hprod := product_operands_ne_nil h m.cutsOf ((m.retained[id]?).join).toList
  unfold Mapper.enumerate
  dsimp only
  split
  · exact addMuxCut_ne_nil hprod
  · exact hprod

end TechMap.Mapping

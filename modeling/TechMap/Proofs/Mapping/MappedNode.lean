import Mathlib
import TechMap.Mapping.Instantiation
import TechMap.Proofs.Mapping.Fits
import TechMap.Proofs.MuxRule.Demotion

/-! The node that takes a gate's place. It computes the gate from some leaves of its cut, each of
which it needs. -/

namespace TechMap

open Table

namespace Mapping

variable {net : Network} {id : NodeId} {cut : Cut} {table : UInt64}

/-- Node `n` can stand for gate `id`, covered by `cut`. -/
structure Implements (net : Network) (cut : Cut) (id : NodeId) (n : Node) : Prop where
  mapped : n.isMapped = true
  operands : ∀ l ∈ n.operands, l.id ∈ cut.leaves
  word : ∀ v, net.Respects v → n.eval (readLit v) = v id
  tight : n.Tight
  mux : n.isMux = true → cut.isMux = true

/-- The leaves that the table needs, as signals. -/
def neededInputs (cut : Cut) (table : UInt64) : List Lit :=
  (compactSupport table cut.size).2.map fun i => Lit.ofNode (cut.leaves.getD i 0)

theorem getElem?_neededInputs {i v : Nat} (h : (compactSupport table cut.size).2[i]? = some v) :
    (neededInputs cut table)[i]? = some (Lit.ofNode (cut.leaves.getD v 0)) := by
  simp [neededInputs, h]

theorem mem_kept (h6 : cut.leaves.length ≤ 6) {v : Nat}
    (h : v ∈ (compactSupport table cut.size).2) : v < cut.leaves.length := by
  rw [kept_compactSupport table (n := cut.size) h6] at h
  exact List.mem_range.1 (List.mem_filter.1 h).1

theorem id_mem_leaves (h6 : cut.leaves.length ≤ 6) {l : Lit} (hl : l ∈ neededInputs cut table) :
    l.id ∈ cut.leaves := by
  obtain ⟨i, hi, rfl⟩ := List.mem_map.1 hl
  have hlt := mem_kept h6 hi
  rw [Lit.ofNode, List.getD_eq_getElem _ _ hlt]
  exact List.getElem_mem hlt

theorem sign_neededInputs {l : Lit} (hl : l ∈ neededInputs cut table) : l.sign = false := by
  obtain ⟨i, -, rfl⟩ := List.mem_map.1 hl
  rfl

/-- The needed leaves are those in whose variables the table lies. -/
theorem mem_neededInputs_iff (h6 : cut.leaves.length ≤ 6)
    (hs : ∀ i, Depends table i → i < cut.leaves.length) (id : NodeId) :
    id ∈ (neededInputs cut table).map (·.id) ↔ ∃ i, cut.leaves[i]? = some id ∧ Depends table i := by
  simp only [neededInputs, List.map_map, List.mem_map, mem_compactSupport (n := cut.size) h6 hs]
  constructor
  · rintro ⟨i, hi, rfl⟩
    refine ⟨i, ?_, hi⟩
    simp [Lit.ofNode, hs i hi]
  · rintro ⟨i, hid, hi⟩
    exact ⟨i, hi, by simp [Lit.ofNode, List.getD_eq_getElem?_getD, hid]⟩

theorem pairwise_neededInputs (table : UInt64) (h : cut.Proper) :
    ((neededInputs cut table).map (·.id)).Pairwise (· < ·) := by
  have hkept : (compactSupport table cut.size).2.Pairwise (· < ·) := by
    rw [kept_compactSupport table (n := cut.size) h.size]
    exact List.pairwise_lt_range.filter _
  rw [neededInputs, List.map_map, List.pairwise_map]
  refine hkept.imp_of_mem fun hi hj hij => ?_
  have hi := mem_kept h.size hi
  have hj := mem_kept h.size hj
  simp only [Function.comp_apply, Lit.ofNode, List.getD_eq_getElem _ _ hi,
    List.getD_eq_getElem _ _ hj]
  exact List.pairwise_iff_getElem.1 h.sorted _ _ hi hj hij

theorem length_neededInputs_le (table : UInt64) (h6 : cut.leaves.length ≤ 6) :
    (neededInputs cut table).length ≤ cut.leaves.length := by
  rw [neededInputs, List.length_map, kept_compactSupport table (n := cut.size) h6]
  exact (List.length_filter_le _ _).trans (by simp [Cut.size])

theorem nodup_neededInputs (table : UInt64) (h : cut.Proper) :
    ((neededInputs cut table).map (·.id)).Nodup :=
  (pairwise_neededInputs table h).imp fun h => ne_of_lt h

/-- The compacted table reads the needed leaves as the table reads all of them. -/
theorem value_needed (h6 : cut.leaves.length ≤ 6) (hs : ∀ i, Depends table i → i < cut.leaves.length)
    (v : NodeId → UInt64) (k : Nat) :
    value (compactSupport table cut.size).1 (lane k ((neededInputs cut table).map (readLit v))) =
      value table (lane k (cut.leaves.map v)) := by
  refine value_compactSupport h6 hs fun p i hp => ?_
  have hi := mem_kept h6 (List.mem_of_getElem? hp)
  have hleft : (cut.leaves.map v).getD i 0 = v cut.leaves[i] := by
    rw [List.getD_eq_getElem _ _ (by simpa using hi), List.getElem_map]
  have hright : ((neededInputs cut table).map (readLit v)).getD p 0 = v cut.leaves[i] := by
    rw [List.getD_eq_getElem?_getD, List.getElem?_map, getElem?_neededInputs hp,
      List.getD_eq_getElem _ _ hi]
    rfl
  rw [lane, lane, hleft, hright]

/-- As a LUT. -/
theorem eval_lut6_needed (h6 : cut.leaves.length ≤ 6)
    (hs : ∀ i, Depends table i → i < cut.leaves.length) (v : NodeId → UInt64) :
    (Node.lut6 (neededInputs cut table) (compactSupport table cut.size).1).eval (readLit v) =
      lookup table (cut.leaves.map v) := by
  have hlen := length_neededInputs_le table h6
  refine eq_of_bit fun k hk => ?_
  show bit (lookup _ _) k = _
  rw [bit_lookup _ (by simpa using hlen.trans h6) hk, bit_lookup _ (by simpa using h6) hk,
    value_needed h6 hs]

theorem bit_readLit_xor (v : NodeId → UInt64) (l : Lit) (b : Bool) {k : Nat} (hk : k < 64) :
    bit (readLit v (l.xor b)) k = (bit (readLit v l) k ^^ b) := by
  cases hs : l.sign <;> cases b <;> simp [readLit, Lit.xor, Lit.apply, hs, bit_not _ hk]

/-- The compacted table is the multiplexer `form`, whose inputs are `s`, `t` and `e`. -/
structure Formed (cut : Cut) (table : UInt64) (form : MuxForm) (s t e : Lit) : Prop where
  found : MuxForm.ofTable? (compactSupport table cut.size).1.toUInt16 = some form
  select : (neededInputs cut table)[form.select]? = some s
  thenIn : (neededInputs cut table)[form.thenIn]? = some t
  elseIn : (neededInputs cut table)[form.elseIn]? = some e

namespace Formed

variable {form : MuxForm} {s t e : Lit}

theorem distinct (h : Formed cut table form s t e) : form.Distinct :=
  (MuxForm.inputs_of_mem_all form (MuxForm.mem_all_of_ofTable? h.found).1).2.2.2

/-- Distinct inputs are distinct leaves. -/
theorem ne (h : Formed cut table form s t e) (hp : cut.Proper) :
    s.id ≠ t.id ∧ s.id ≠ e.id ∧ t.id ≠ e.id := by
  have hne {i j : Nat} {a b : Lit} (ha : (neededInputs cut table)[i]? = some a)
      (hb : (neededInputs cut table)[j]? = some b) (hij : i ≠ j) : a.id ≠ b.id := by
    obtain ⟨hi, rfl⟩ := List.getElem?_eq_some_iff.1 ha
    obtain ⟨hj, rfl⟩ := List.getElem?_eq_some_iff.1 hb
    intro heq
    have hnodup := nodup_neededInputs table hp
    refine hij ((List.nodup_iff_injective_get.1 hnodup).eq_iff
      (a := ⟨i, by simpa using hi⟩) (b := ⟨j, by simpa using hj⟩) |>.1 ?_ |> Fin.mk.inj)
    simpa using heq
  obtain ⟨hst, hse, hte⟩ := h.distinct
  exact ⟨hne h.select h.thenIn hst, hne h.select h.elseIn hse, hne h.thenIn h.elseIn hte⟩

theorem mem (h : Formed cut table form s t e) :
    s ∈ neededInputs cut table ∧ t ∈ neededInputs cut table ∧ e ∈ neededInputs cut table :=
  ⟨List.mem_of_getElem? h.select, List.mem_of_getElem? h.thenIn, List.mem_of_getElem? h.elseIn⟩

theorem describes (h : Formed cut table form s t e) (h4 : cut.leaves.length ≤ 4)
    (hs : ∀ i, Depends table i → i < cut.leaves.length) :
    form.Describes (compactSupport table cut.size).1 := by
  refine MuxForm.value_eq_choose h.found fun i hi => ?_
  rw [depends_compactSupport (n := cut.size) (h4.trans (by omega)) hs] at hi
  have hle := length_neededInputs_le table (h4.trans (by omega))
  rw [neededInputs, List.length_map] at hle
  omega

/-- As a multiplexer. -/
theorem eval (h : Formed cut table form s t e) (h4 : cut.leaves.length ≤ 4)
    (hs : ∀ i, Depends table i → i < cut.leaves.length) (v : NodeId → UInt64) :
    (Node.mux s (t.xor form.thenNeg) (e.xor form.elseNeg)).eval (readLit v) =
      lookup table (cut.leaves.map v) := by
  have h6 : cut.leaves.length ≤ 6 := h4.trans (by omega)
  refine eq_of_bit fun k hk => ?_
  have hlane {i : Nat} {l : Lit} (hl : (neededInputs cut table)[i]? = some l) :
      lane k ((neededInputs cut table).map (readLit v)) i = bit (readLit v l) k := by
    rw [lane, List.getD_eq_getElem?_getD, List.getElem?_map, hl]
    rfl
  rw [bit_lookup _ (by simpa using h6) hk, ← value_needed h6 hs, h.describes h4 hs, MuxForm.choose,
    hlane h.select, hlane h.thenIn, hlane h.elseIn]
  show bit ((readLit v s &&& _) ||| (~~~ readLit v s &&& _)) k = _
  rw [MuxForm.bit_choose _ _ _ hk, bit_readLit_xor _ _ _ hk, bit_readLit_xor _ _ _ hk]

theorem mappedNode_eq (h : Formed cut table form s t e) (hm : cut.isMux = true) :
    mappedNode cut table = .mux s (t.xor form.thenNeg) (e.xor form.elseNeg) := by
  obtain ⟨hform, hs, ht, he⟩ := h
  unfold neededInputs at hs ht he
  unfold mappedNode
  dsimp only
  rw [if_pos hm, hform]
  dsimp only
  rw [hs, ht, he]

end Formed

theorem mappedNode_cases (cut : Cut) (table : UInt64) :
    mappedNode cut table = .lut6 (neededInputs cut table) (compactSupport table cut.size).1 ∨
    cut.isMux = true ∧ ∃ form s t e, Formed cut table form s t e ∧
      mappedNode cut table = .mux s (t.xor form.thenNeg) (e.xor form.elseNeg) := by
  unfold mappedNode
  dsimp only
  split
  · rename_i hm
    split
    · rename_i form hform
      split
      · rename_i s t e hs ht he
        exact .inr ⟨hm, form, s, t, e, ⟨hform, hs, ht, he⟩, rfl⟩
      · exact .inl rfl
    · exact .inl rfl
  · exact .inl rfl

theorem implements_lut6 (hp : cut.Proper) (h : net.Computes cut id table) :
    Implements net cut id (.lut6 (neededInputs cut table) (compactSupport table cut.size).1) := by
  have hlen := length_neededInputs_le table hp.size
  refine ⟨rfl, fun l hl => id_mem_leaves hp.size hl, fun v hv => ?_, ?_, fun h => by cases h⟩
  · rw [h.word v hv, eval_lut6_needed hp.size h.support]
  · refine ⟨hlen.trans hp.size, nodup_neededInputs table hp, fun i hi => ?_⟩
    rw [dependsOn_iff hi, depends_compactSupport (n := cut.size) hp.size h.support, neededInputs, List.length_map]

theorem implements_mux (hp : cut.Proper) (h : net.Computes cut id table) (hm : cut.isMux = true)
    (h4 : cut.size ≤ 4) {form : MuxForm} {s t e : Lit} (hf : Formed cut table form s t e) :
    Implements net cut id (.mux s (t.xor form.thenNeg) (e.xor form.elseNeg)) := by
  obtain ⟨hs, ht, he⟩ := hf.mem
  refine ⟨rfl, fun l hl => ?_, fun v hv => ?_, hf.ne hp, fun _ => hm⟩
  · simp only [Node.operands, List.mem_cons, List.not_mem_nil, or_false] at hl
    rcases hl with rfl | rfl | rfl
    · exact id_mem_leaves hp.size hs
    · exact id_mem_leaves (l := t) hp.size ht
    · exact id_mem_leaves (l := e) hp.size he
  · rw [h.word v hv, hf.eval h4 h.support]

/-- The new node of a gate implements it. -/
theorem implements_mappedNode {muxes : Bool} (hf : Fits net muxes id cut)
    (h : net.Computes cut id table) : Implements net cut id (mappedNode cut table) := by
  rcases mappedNode_cases cut table with hlut | ⟨hm, form, s, t, e, hformed, hmux⟩
  · rw [hlut]
    exact implements_lut6 hf.proper h
  · rw [hmux]
    exact implements_mux hf.proper h hm ((hf.mux hm).2.2.trans (by omega)) hformed

/-- Form `g` has the inputs of `f` at the positions to which compaction moves them. -/
structure Relocated (cut : Cut) (table : UInt64) (f g : MuxForm) : Prop where
  select : (compactSupport table cut.size).2[g.select]? = some f.select
  thenIn : (compactSupport table cut.size).2[g.thenIn]? = some f.thenIn
  elseIn : (compactSupport table cut.size).2[g.elseIn]? = some f.elseIn
  thenNeg : g.thenNeg = f.thenNeg
  elseNeg : g.elseNeg = f.elseNeg

theorem nodup_kept (table : UInt64) (h6 : cut.leaves.length ≤ 6) :
    (compactSupport table cut.size).2.Nodup := by
  rw [kept_compactSupport table (n := cut.size) h6]
  exact List.nodup_range.filter _

namespace Relocated

variable {f g : MuxForm}

theorem distinct_iff (h : Relocated cut table f g) (h6 : cut.leaves.length ≤ 6) :
    f.Distinct ↔ g.Distinct := by
  have hiff {p q a b : Nat} (ha : (compactSupport table cut.size).2[p]? = some a)
      (hb : (compactSupport table cut.size).2[q]? = some b) : a = b ↔ p = q := by
    obtain ⟨hp, rfl⟩ := List.getElem?_eq_some_iff.1 ha
    obtain ⟨hq, rfl⟩ := List.getElem?_eq_some_iff.1 hb
    exact (nodup_kept table h6).getElem_inj_iff
  simp only [MuxForm.Distinct, ne_eq, hiff h.select h.thenIn, hiff h.select h.elseIn,
    hiff h.thenIn h.elseIn]

theorem describes_iff (h : Relocated cut table f g) (h6 : cut.leaves.length ≤ 6)
    (hs : ∀ i, Depends table i → i < cut.leaves.length) :
    f.Describes table ↔ g.Describes (compactSupport table cut.size).1 := by
  set kept := (compactSupport table cut.size).2 with hkept
  have hchoose {a b : Nat → Bool} (hab : ∀ p v, kept[p]? = some v → b v = a p) :
      f.choose b = g.choose a := by
    simp only [MuxForm.choose, hab _ _ h.select, hab _ _ h.thenIn, hab _ _ h.elseIn, h.thenNeg,
      h.elseNeg]
  constructor
  · intro hf a
    have hab (p v : Nat) (hp : kept[p]? = some v) : a (kept.idxOf v) = a p := by
      obtain ⟨hlt, rfl⟩ := List.getElem?_eq_some_iff.1 hp
      rw [(nodup_kept table h6).idxOf_getElem p hlt]
    rw [value_compactSupport (n := cut.size) (b := fun v => a (kept.idxOf v)) h6 hs hab, hf,
      hchoose hab]
  · intro hg b
    have hab (p v : Nat) (hp : kept[p]? = some v) : b v = b (kept.getD p 0) := by
      rw [List.getD_eq_getElem?_getD, hp]
      rfl
    rw [← value_compactSupport (n := cut.size) (a := fun p => b (kept.getD p 0)) h6 hs hab, hg,
      hchoose hab]

end Relocated

/-- The form of the multiplexer in terms of the leaves. -/
theorem Formed.exists_relocated {form : MuxForm} {s t e : Lit} (h : Formed cut table form s t e) :
    ∃ f, Relocated cut table f form := by
  have hkept {i : Nat} {l : Lit} (hl : (neededInputs cut table)[i]? = some l) :
      ∃ v, (compactSupport table cut.size).2[i]? = some v := by
    rw [neededInputs, List.getElem?_map] at hl
    obtain ⟨v, hv, -⟩ := Option.map_eq_some_iff.1 hl
    exact ⟨v, hv⟩
  obtain ⟨i, hi⟩ := hkept h.select
  obtain ⟨j, hj⟩ := hkept h.thenIn
  obtain ⟨k, hk⟩ := hkept h.elseIn
  exact ⟨⟨i, j, k, form.thenNeg, form.elseNeg⟩, hi, hj, hk, rfl, rfl⟩

/-- Every input of a multiplexer is kept. -/
theorem exists_relocated_of_describes {f : MuxForm} (hd : f.Distinct) (hf : f.Describes table)
    (h6 : cut.leaves.length ≤ 6) (hs : ∀ i, Depends table i → i < cut.leaves.length) :
    ∃ g, Relocated cut table f g := by
  have hmem := mem_compactSupport (n := cut.size) h6 hs
  obtain ⟨hselect, hthen, helse⟩ := hf.depends hd
  obtain ⟨i, hi⟩ := List.mem_iff_getElem?.1 ((hmem _).2 hselect)
  obtain ⟨j, hj⟩ := List.mem_iff_getElem?.1 ((hmem _).2 hthen)
  obtain ⟨k, hk⟩ := List.mem_iff_getElem?.1 ((hmem _).2 helse)
  exact ⟨⟨i, j, k, f.thenNeg, f.elseNeg⟩, hi, hj, hk, rfl, rfl⟩

/-- The multiplexers of at most four leaves are found. -/
theorem Relocated.formed {f g : MuxForm} (h : Relocated cut table f g) (hd : f.Distinct)
    (hf : f.Describes table) (h4 : cut.leaves.length ≤ 4)
    (hs : ∀ i, Depends table i → i < cut.leaves.length) :
    ∃ s t e, Formed cut table g s t e := by
  have h6 : cut.leaves.length ≤ 6 := h4.trans (by omega)
  have hlt {p a : Nat} (ha : (compactSupport table cut.size).2[p]? = some a) : p < 4 := by
    have hlen := length_neededInputs_le table h6
    rw [neededInputs, List.length_map] at hlen
    have := (List.getElem?_eq_some_iff.1 ha).1
    omega
  have hall : g ∈ MuxForm.all := MuxForm.mem_all_of_distinct ((h.distinct_iff h6).1 hd)
    (hlt h.select) (hlt h.thenIn) (hlt h.elseIn)
  exact ⟨_, _, _, ((h.describes_iff h6 hs).1 hf).ofTable? hall, getElem?_neededInputs h.select,
    getElem?_neededInputs h.thenIn, getElem?_neededInputs h.elseIn⟩

/-- A multiplexer cut becomes a multiplexer if and only if its table is one. -/
theorem isMux_mappedNode_iff (hp : cut.Proper) (hs : ∀ i, Depends table i → i < cut.size)
    (h4 : cut.isMux = true → cut.size ≤ 4) : (mappedNode cut table).isMux = true ↔
      cut.isMux = true ∧ ∃ f : MuxForm, f.Distinct ∧ f.Describes table := by
  constructor
  · intro hmux
    rcases mappedNode_cases cut table with hlut | ⟨hm, form, s, t, e, hf, -⟩
    · rw [hlut] at hmux
      cases hmux
    · obtain ⟨f, hr⟩ := hf.exists_relocated
      exact ⟨hm, f, (hr.distinct_iff hp.size).2 hf.distinct,
        (hr.describes_iff hp.size hs).2 (hf.describes (h4 hm) hs)⟩
  · rintro ⟨hm, f, hd, hf⟩
    obtain ⟨g, hr⟩ := exists_relocated_of_describes hd hf hp.size hs
    obtain ⟨s, t, e, hformed⟩ := hr.formed hd hf (h4 hm) hs
    rw [hformed.mappedNode_eq hm]
    rfl

/-- What stands for a cut: a LUT of the leaves that its table needs, or a multiplexer of three
different leaves. -/
def StandsFor (cut : Cut) (table : UInt64) : Node → Prop
  | .lut6 inputs _ => (∀ l ∈ inputs, l.sign = false) ∧ (inputs.map (·.id)).Pairwise (· < ·) ∧
      ∀ id, id ∈ inputs.map (·.id) ↔ ∃ i, cut.leaves[i]? = some id ∧ Depends table i
  | .mux s t e => cut.isMux = true ∧ (s.id ∈ cut.leaves ∧ t.id ∈ cut.leaves ∧ e.id ∈ cut.leaves) ∧
      (s.id ≠ t.id ∧ s.id ≠ e.id ∧ t.id ≠ e.id) ∧ s.sign = false
  | _ => False

/-- The new node computes the table of its cut on any words of the leaves, and it is a multiplexer
only where it can be. -/
theorem mappedNode_exact (hp : cut.Proper) (hs : ∀ i, Depends table i → i < cut.size)
    (h4 : cut.isMux = true → cut.size ≤ 4) :
    (∀ v, (mappedNode cut table).eval (readLit v) = lookup table (cut.leaves.map v)) ∧
    StandsFor cut table (mappedNode cut table) ∧
    ((mappedNode cut table).isMux = true ↔
      cut.isMux = true ∧ ∃ f : MuxForm, f.Distinct ∧ f.Describes table) := by
  refine ⟨fun v => ?_, ?_, isMux_mappedNode_iff hp hs h4⟩
  · rcases mappedNode_cases cut table with hlut | ⟨hm, form, s, t, e, hf, hmux⟩
    · rw [hlut, eval_lut6_needed hp.size hs]
    · rw [hmux, hf.eval (h4 hm) hs]
  · rcases mappedNode_cases cut table with hlut | ⟨hm, form, s, t, e, hf, hmux⟩
    · rw [hlut]
      exact ⟨fun l hl => sign_neededInputs hl, pairwise_neededInputs table hp,
        mem_neededInputs_iff hp.size hs⟩
    · rw [hmux]
      obtain ⟨hs, ht, he⟩ := hf.mem
      exact ⟨hm, ⟨id_mem_leaves hp.size hs, id_mem_leaves (l := t) hp.size ht,
        id_mem_leaves (l := e) hp.size he⟩, hf.ne hp, sign_neededInputs hs⟩

/-- Four leaves, of which the last selects the inverted first or the third. -/
def negatedCut : Cut := ⟨[3, 5, 7, 9], Cut.maskOf [3, 5, 7, 9], 1⟩

def negatedTable : UInt64 := (proj 3 &&& ~~~ proj 0) ||| (~~~ proj 3 &&& proj 2)

theorem mappedNode_exact_negated :
    (negatedCut.Proper ∧ (∀ i, Depends negatedTable i → i < negatedCut.size) ∧
      (negatedCut.isMux = true → negatedCut.size ≤ 4)) ∧
    (∀ v, (mappedNode negatedCut negatedTable).eval (readLit v) =
      lookup negatedTable [v 3, v 5, v 7, v 9]) ∧
    StandsFor negatedCut negatedTable (mappedNode negatedCut negatedTable) ∧
    (mappedNode negatedCut negatedTable).isMux = true := by
  have hp : negatedCut.Proper := ⟨by decide, by decide⟩
  have hs : ∀ i, Depends negatedTable i → i < negatedCut.size := by
    intro i hi
    have hlt := hi.lt
    have hd := (dependsOn_iff hlt _).2 hi
    interval_cases i <;> revert hd <;> decide
  have h4 : negatedCut.isMux = true → negatedCut.size ≤ 4 := by decide
  obtain ⟨heval, hstands, hmux⟩ := mappedNode_exact hp hs h4
  refine ⟨⟨hp, hs, h4⟩, heval, hstands, hmux.2 ⟨by decide, ⟨3, 0, 2, true, false⟩, by decide, ?_⟩⟩
  intro a
  simp only [negatedTable, value_or, value_and, value_not, value_proj (show 0 < 6 by decide),
    value_proj (show 2 < 6 by decide), value_proj (show 3 < 6 by decide), MuxForm.choose]
  cases a 3 <;> simp

end Mapping

end TechMap

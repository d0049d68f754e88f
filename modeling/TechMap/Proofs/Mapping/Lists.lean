import Mathlib
import TechMap.Proofs.Cut.Product
import TechMap.Proofs.Mapping.Run

/-! The cut lists of a whole run. Whether enumeration of a gate ends with a cut of at most one leaf,
and with which, follows from the network alone. So a winner that an earlier round retained never
stands beside such a cut, and the lists stay antichains with at most one multiplexer cut. -/

namespace TechMap.Mapping

open Network

section Lists

variable {net : Network} {muxes : Bool} {id : NodeId} {node : Node} {c d : Cut}
  {cuts cuts' : List Cut}

/-- The cut of at most one leaf that enumeration of a gate ends with, if it meets one. -/
def narrowCut? (net : Network) (id : NodeId) : Option Cut :=
  if (net.node id).isLogic then
    (Cut.unions ((net.node id).operands.map fun l =>
      operandCut l :: if _h : l.id < id then (narrowCut? net l.id).toList else [])
        .empty).find? Cut.isNarrow
  else none
termination_by id

theorem narrowCut?_of_isLogic (hc : net.Canonical) (h : (net.node id).isLogic = true) :
    narrowCut? net id = (Cut.unions ((net.node id).operands.map fun l =>
      operandCut l :: (narrowCut? net l.id).toList) .empty).find? Cut.isNarrow := by
  rw [narrowCut?, if_pos h]
  congr 2
  refine List.map_congr_left fun l hl => ?_
  rw [dif_pos (hc.lt id l hl)]

theorem narrowCut?_of_not_isLogic (h : (net.node id).isLogic = false) :
    narrowCut? net id = none := by
  rw [narrowCut?, if_neg (by simp [h])]

theorem isNarrow_of_narrowCut? (h : narrowCut? net id = some c) : c.isNarrow = true := by
  rw [narrowCut?] at h
  split at h
  · exact List.find?_some h
  · cases h

theorem not_isMux_of_narrowCut? (h : narrowCut? net id = some c) : c.isMux = false := by
  rw [narrowCut?] at h
  split at h
  · exact (Cut.mem_unions.1 (List.mem_of_find?_eq_some h)).isMux rfl
  · cases h

/-- A cut that a list may hold at gate `id`. -/
structure Stored (net : Network) (muxes : Bool) (id : NodeId) (c : Cut) : Prop
    extends Fits net muxes id c where
  mask : c.mask = Cut.maskOf c.leaves
  narrow : ∀ d, narrowCut? net id = some d → c = d
  wide : narrowCut? net id = none → 2 ≤ c.size
  form : c.isMux = true → ∃ d, muxCut? (net.node id) = some d ∧ c.leaves = d.leaves

theorem Stored.wellFormed (h : Stored net muxes id c) : c.WellFormed := ⟨h.proper, h.mask⟩

/-- A union of operand cuts where enumeration ends. -/
theorem Stored.of_narrow (hfit : Fits net muxes id c) (hw : c.WellFormed)
    (hn : narrowCut? net id = some c) : Stored net muxes id c where
  toFits := hfit
  mask := hw.mask
  narrow d hd := Option.some.inj (hn.symm.trans hd)
  wide hnone := by
    rw [hn] at hnone
    cases hnone
  form hm := by
    rw [not_isMux_of_narrowCut? hn] at hm
    cases hm

theorem Stored.of_wide (hfit : Fits net muxes id c) (hmask : c.mask = Cut.maskOf c.leaves)
    (hn : narrowCut? net id = none) (h2 : 2 ≤ c.size)
    (hform : c.isMux = true → muxCut? (net.node id) = some c) : Stored net muxes id c where
  toFits := hfit
  mask := hmask
  narrow d hd := by
    rw [hn] at hd
    cases hd
  wide _ := h2
  form hm := ⟨c, hform hm, rfl⟩

theorem Stored.congr (h : Stored net muxes id c) (hs : SameShape d c) : Stored net muxes id d where
  toFits := h.toFits.congr hs.leaves fun hm => hs.isMux ▸ hm
  mask := by rw [hs.mask, hs.leaves, h.mask]
  narrow e he := by
    obtain rfl := h.narrow e he
    exact hs.eq_of_lut (not_isMux_of_narrowCut? he)
  wide hn := by
    have := h.wide hn
    rwa [Cut.size, hs.leaves]
  form hm := by
    obtain ⟨e, he, hl⟩ := h.form (hs.isMux ▸ hm)
    exact ⟨e, he, hs.leaves.trans hl⟩

/-- The list of a node. -/
structure Listing (net : Network) (muxes : Bool) (id : NodeId) (cuts : List Cut) : Prop where
  stored : ∀ c ∈ cuts, Stored net muxes id c
  antichain : Cut.Antichain cuts
  mux : cuts.countP Cut.isMux ≤ 1

theorem Listing.nil : Listing net muxes id [] := ⟨by simp, .nil, by simp⟩

theorem Listing.sublist (h : Listing net muxes id cuts) (hs : cuts'.Sublist cuts) :
    Listing net muxes id cuts' :=
  ⟨fun c hc => h.stored c (hs.subset hc), h.antichain.sublist hs,
    (hs.countP_le).trans h.mux⟩

theorem antichain_of_forall₂ (h : List.Forall₂ SameShape cuts' cuts) (ha : Cut.Antichain cuts) :
    Cut.Antichain cuts' := by
  have hmem {cuts cuts' : List Cut} (h : List.Forall₂ SameShape cuts' cuts) {c : Cut}
      (hc : c ∈ cuts') : ∃ d ∈ cuts, SameShape c d := (Rearranged.of_forall₂ h).exists_of_mem hc
  induction h with
  | nil => exact .nil
  | cons hs hrest ih =>
    obtain ⟨h1, h2⟩ := List.pairwise_cons.1 ha
    refine List.pairwise_cons.2 ⟨fun c hc => ?_, ih h2⟩
    obtain ⟨d, hd, hs'⟩ := hmem hrest hc
    intro hm hm'
    rw [hs.leaves, hs'.leaves]
    exact h1 d hd (hs.isMux ▸ hm) (hs'.isMux ▸ hm')

theorem countP_isMux_of_forall₂ (h : List.Forall₂ SameShape cuts' cuts) :
    cuts'.countP Cut.isMux = cuts.countP Cut.isMux := by
  induction h with
  | nil => rfl
  | cons hs _ ih => rw [List.countP_cons, List.countP_cons, ih, hs.isMux]

theorem Listing.rearranged (h : Listing net muxes id cuts) (hr : Rearranged cuts' cuts) :
    Listing net muxes id cuts' := by
  refine ⟨fun c hc => ?_, ?_, ?_⟩
  · obtain ⟨d, hd, hs⟩ := hr.exists_of_mem hc
    exact (h.stored d hd).congr hs
  · obtain ⟨mid, hp, hs⟩ := hr
    exact (antichain_of_forall₂ hs h.antichain).perm hp.symm
  · obtain ⟨mid, hp, hs⟩ := hr
    rw [hp.countP_eq, countP_isMux_of_forall₂ hs]
    exact h.mux

/-- A narrow cut has no other beside it. -/
theorem Listing.eq_singleton (h : Listing net muxes id cuts) (hn : narrowCut? net id = some d)
    (hne : cuts ≠ []) : cuts = [d] := by
  match cuts with
  | [] => exact absurd rfl hne
  | [a] => rw [(h.stored a (by simp)).narrow d hn]
  | a :: b :: rest =>
    obtain rfl := (h.stored a (by simp)).narrow d hn
    obtain rfl := (h.stored b (by simp)).narrow a hn
    have hm := not_isMux_of_narrowCut? hn
    exact absurd (List.Subset.refl _) ((List.pairwise_cons.1 h.antichain).1 b (by simp) hm hm).1

theorem Listing.eq_of_size_le (h : Listing net muxes id cuts) (hc : c ∈ cuts) (h1 : c.size ≤ 1) :
    cuts = [c] := by
  cases hn : narrowCut? net id with
  | none => exact absurd ((h.stored c hc).wide hn) (by omega)
  | some d =>
    obtain rfl := (h.stored c hc).narrow d hn
    exact h.eq_singleton hn (List.ne_nil_of_mem hc)

theorem Listing.filter_isNarrow (h : Listing net muxes id cuts)
    (hne : (net.node id).isLogic = true → cuts ≠ []) :
    cuts.filter Cut.isNarrow = (narrowCut? net id).toList := by
  cases hn : narrowCut? net id with
  | none =>
    refine List.filter_eq_nil_iff.2 fun c hc hnarrow => ?_
    have h1 : c.size ≤ 1 := by simpa [Cut.isNarrow] using hnarrow
    have h2 := (h.stored c hc).wide hn
    omega
  | some d =>
    have hlogic : (net.node id).isLogic = true := by
      by_contra hl
      rw [narrowCut?_of_not_isLogic (by simpa using hl)] at hn
      cases hn
    rw [h.eq_singleton hn (hne hlogic), List.filter_singleton, isNarrow_of_narrowCut? hn]
    rfl

theorem isNarrow_operandCut (l : Lit) : (operandCut l).isNarrow = true := by
  unfold operandCut
  split <;> rfl

theorem wellFormed_operandCut (l : Lit) : (operandCut l).WellFormed := by
  unfold operandCut
  split
  · exact Cut.wellFormed_empty
  · exact Cut.wellFormed_trivial _

/-- The narrow cut of a gate, from the lists of its operands. -/
theorem find?_isNarrow_operands (hc : net.Canonical) (hlogic : (net.node id).isLogic = true)
    {lists : NodeId → List Cut}
    (hl : ∀ l ∈ (net.node id).operands, Listing net muxes l.id (lists l.id))
    (hne : ∀ l ∈ (net.node id).operands, (net.node l.id).isLogic = true → lists l.id ≠ []) :
    (Cut.unions ((net.node id).operands.map fun l => operandCut l :: lists l.id) .empty).find?
      Cut.isNarrow = narrowCut? net id := by
  rw [Cut.find?_isNarrow_unions, narrowCut?_of_isLogic hc hlogic, List.map_map]
  congr 2
  refine List.map_congr_left fun l hmem => ?_
  rw [Function.comp_apply, List.filter_cons, if_pos (isNarrow_operandCut l),
    (hl l hmem).filter_isNarrow (hne l hmem)]

theorem mask_muxCut? (h : muxCut? node = some c) : c.mask = Cut.maskOf c.leaves := by
  obtain ⟨_, _, _, _, _, _, u, -, -, hu, -, rfl⟩ := muxCut?_eq_some h
  exact (Cut.wellFormed_ofLeaves hu).mask

/-- Adding the multiplexer cut of a gate whose list has none of it. -/
theorem listing_addMuxCut (h : Listing net true id cuts) (hc : net.Canonical)
    (hne : cuts ≠ []) : Listing net true id (addMuxCut (net.node id) cuts) := by
  unfold addMuxCut
  split
  · exact h
  rename_i cut hcut
  obtain ⟨hfit, hmux⟩ := fits_muxCut? hc hcut
  extract_lets degenerate
  split
  · exact h
  rename_i hcond
  obtain ⟨hdeg, hany⟩ : degenerate = false ∧ cuts.any Cut.isMux = false := by
    simpa [not_or] using hcond
  have hnone : narrowCut? net id = none := by
    cases hn : narrowCut? net id with
    | none => rfl
    | some d =>
      have hd : d.size ≤ 1 := by simpa [Cut.isNarrow] using isNarrow_of_narrowCut? hn
      have hsingle := h.eq_singleton hn hne
      subst hsingle
      simp [degenerate, hd] at hdeg
  refine ⟨fun c hmem => ?_, ?_, ?_⟩
  · rcases List.mem_append.1 hmem with hmem | hmem
    · exact h.stored c hmem
    · obtain rfl := List.mem_singleton.1 hmem
      exact .of_wide hfit (mask_muxCut? hcut) hnone (hfit.mux hmux).2.1 fun _ => hcut
  · refine List.pairwise_append.2 ⟨h.antichain, List.pairwise_singleton _ _, fun a _ b hb => ?_⟩
    obtain rfl := List.mem_singleton.1 hb
    intro _ hb
    rw [hmux] at hb
    cases hb
  · have hzero : cuts.countP Cut.isMux = 0 :=
      List.countP_eq_zero.2 fun c hc => by simpa using List.any_eq_false.1 hany c hc
    rw [List.countP_append, hzero]
    simp [hmux]

end Lists

variable {α : Type} {m m' : Mapper α} {id : NodeId}

/-- The lists and the retained winners. -/
structure Cataloged (m : Mapper α) : Prop where
  lists : ∀ id, Listing m.net m.params.muxes id (m.cutsOf id)
  retained : ∀ id c, (m.retained[id]?).join = some c → Stored m.net m.params.muxes id c

theorem Cataloged.congr (h : Cataloged m) (hnet : m'.net = m.net) (hp : m'.params = m.params)
    (hlists : ∀ id, Listing m.net m.params.muxes id (m'.cutsOf id))
    (hr : m'.retained = m.retained) : Cataloged m' := by
  refine ⟨fun id => ?_, fun id c hc => ?_⟩
  · rw [hnet, hp]
    exact hlists id
  · rw [hnet, hp]
    exact h.retained id c (hr ▸ hc)

/-- The operands that are gates have their lists. -/
def OperandsListed (m : Mapper α) (id : NodeId) : Prop :=
  ∀ l ∈ (m.net.node id).operands, (m.net.node l.id).isLogic = true → m.cutsOf l.id ≠ []

/-- What the operands offer for gate `id`. -/
theorem mem_unions_operands (h : Valid m) (hcat : Cataloged m)
    (hlogic : (m.net.node id).isLogic = true) (hmem : c ∈ Cut.unions
      ((m.net.node id).operands.map fun l => operandCut l :: m.cutsOf l.id) .empty) :
    c.isMux = false ∧ c.WellFormed ∧ Fits m.net m.params.muxes id c := by
  have hchosen := Cut.mem_unions.1 hmem
  refine ⟨hchosen.isMux rfl, hchosen.wellFormed Cut.wellFormed_empty fun cs hcs d hd => ?_,
    fits_of_chosen h.canonical hlogic (fun l hl d hd => ?_) hchosen⟩
  · obtain ⟨l, -, rfl⟩ := List.mem_map.1 hcs
    rcases List.mem_cons.1 hd with rfl | hd
    · exact (wellFormed_operandCut l).toProper
    · exact ((hcat.lists l.id).stored d hd).proper
  · rcases List.mem_cons.1 hd with rfl | hd
    · exact serves_operandCut h.canonical hl
    · exact (h.stored l.id d hd).serves

/-- A cut of at most one leaf stands alone. Without one, all that is placed has two leaves or more. -/
theorem listing_product (h : Valid m) (hcat : Cataloged m)
    (hlogic : (m.net.node id).isLogic = true) (hops : OperandsListed m id) :
    Listing m.net m.params.muxes id (Cut.product
      ((m.net.node id).operands.map fun l => operandCut l :: m.cutsOf l.id) .empty
      ((m.retained[id]?).join).toList).2 := by
  have hseeds : ∀ c ∈ ((m.retained[id]?).join).toList, Stored m.net m.params.muxes id c :=
    fun c hmem => hcat.retained id c (Option.mem_toList.1 hmem)
  have hfind := find?_isNarrow_operands h.canonical hlogic (fun l _ => hcat.lists l.id) hops
  have hunion {c : Cut} := mem_unions_operands (c := c) h hcat hlogic
  rw [Cut.product_snd, hfind]
  cases hn : narrowCut? m.net id with
  | some d =>
    rw [hn] at hfind
    obtain ⟨hm, hw, hfit⟩ := hunion (List.mem_of_find?_eq_some hfind)
    refine ⟨fun c hmem => ?_, List.pairwise_singleton _ _, by simp [hm]⟩
    obtain rfl := List.mem_singleton.1 hmem
    exact .of_narrow hfit hw hn
  | none =>
    rw [hn] at hfind
    have hwide := List.find?_eq_none.1 hfind
    refine ⟨fun c hmem => ?_, Cut.placeAll_antichain ?_ (fun c hmem => (hseeds c hmem).wellFormed)
      fun c hmem => (hunion hmem).2.1, ?_⟩
    · rcases Cut.mem_placeAll hmem with hmem | hmem
      · exact hseeds c hmem
      · obtain ⟨hm, hw, hfit⟩ := hunion hmem
        have h2 : 1 < c.size := by simpa [Cut.isNarrow] using hwide c hmem
        refine .of_wide hfit hw.mask hn h2 fun hmux => ?_
        rw [hm] at hmux
        cases hmux
    · cases (m.retained[id]?).join <;> simp [Cut.Antichain]
    · rw [Cut.countP_isMux_placeAll fun c hmem => (hunion hmem).1]
      refine List.countP_le_length.trans ?_
      cases (m.retained[id]?).join <;> simp

theorem listing_enumerate (h : Valid m) (hcat : Cataloged m)
    (hlogic : (m.net.node id).isLogic = true) (hops : OperandsListed m id) :
    Listing m.net m.params.muxes id (m.enumerate id (m.net.node id)) := by
  have hprod := listing_product h hcat hlogic hops
  have hne := product_operands_ne_nil hlogic m.cutsOf ((m.retained[id]?).join).toList
  unfold Mapper.enumerate
  dsimp only
  split
  · rename_i hm
    rw [hm] at hprod ⊢
    exact listing_addMuxCut hprod h.canonical hne
  · exact hprod

variable [Quantity α]

theorem cutsOf_settleArrival (h : Valid m) (hl : m.net.isLive id = true) (arrival : α)
    (i : NodeId) : (m.settleArrival id arrival).cutsOf i = if i = id then [] else m.cutsOf i :=
  cutsOf_setCuts m (h.lt_size hl) [] i

/-- The list of a visited node comes from enumeration or from the list it had. -/
theorem Generated.cutsOf_self (h : Valid m) (hl : m.net.isLive id = true)
    (hg : Generated m id m') : m'.cutsOf id = [] ∨ Rearranged (m'.cutsOf id) (m.cutsOf id) ∨
      (m.net.node id).isLogic = true ∧ (m'.cutsOf id).length ≤ m.capacity ∧
        ∃ cuts, (m'.cutsOf id).Sublist cuts ∧
          Rearranged cuts (m.enumerate id (m.net.node id)) := by
  have hlt := h.lt_size hl
  cases hg with
  | @grown first rest settled hid hnil hs hsettled =>
    subst hsettled
    refine .inr (.inr ⟨hid, ?_, first :: rest, ?_, hs ▸ rearranged_sortCuts m id _⟩) <;>
      rw [cutsOf_setCuts _ (by exact hlt), if_pos rfl]
    · exact length_truncate_le _ _
    · exact truncate_sublist _ _
  | @ordered first rest hid hne hs =>
    rw [cutsOf_setCuts _ (by exact lt_of_lt_of_eq hlt (Array.size_setIfInBounds ..).symm),
      if_pos rfl, ← hs]
    exact .inr (.inl (rearranged_sortCuts _ id _))
  | source hid => exact .inl ((cutsOf_settleArrival h hl 0 id).trans (if_pos rfl))
  | through hid hops => exact .inl ((cutsOf_settleArrival h hl _ id).trans (if_pos rfl))
  | sink hid => exact .inr (.inl (.of_perm (.refl _)))

theorem Generated.cataloged (h : Valid m) (hl : m.net.isLive id = true) (hcat : Cataloged m)
    (hops : OperandsListed m id) (hg : Generated m id m') : Cataloged m' := by
  have hm := hg.visited h hl
  refine hcat.congr hm.steady.net hm.steady.params (fun i => ?_)
    hm.retained
  by_cases he : i = id
  · subst he
    rcases hg.cutsOf_self h hl with hnil | hr | ⟨hid, -, cuts, hs, hr⟩
    · rw [hnil]
      exact .nil
    · exact (hcat.lists i).rearranged hr
    · exact ((listing_enumerate h hcat hid hops).rearranged hr).sublist hs
  · rw [hm.others i he]
    exact hcat.lists i

/-- A visit leaves no list longer than there is room for. -/
theorem Generated.length_le (h : Valid m) (hl : m.net.isLive id = true)
    (hlen : ∀ i, (m.cutsOf i).length ≤ m.capacity) (hg : Generated m id m') (i : NodeId) :
    (m'.cutsOf i).length ≤ m'.capacity := by
  have hm := hg.visited h hl
  rw [hm.steady.capacity]
  by_cases he : i = id
  · subst he
    rcases hg.cutsOf_self h hl with hnil | hr | ⟨-, hle, -⟩
    · simp [hnil]
    · exact hr.length_eq ▸ hlen i
    · exact hle
  · rw [hm.others i he]
    exact hlen i

omit [Quantity α] in
/-- The operands of a node are passed before it. -/
theorem ListedOff.operands {rest : List NodeId} (h : ListedOff m (id :: rest))
    (hc : m.net.Canonical) (hsuf : id :: rest <:+ m.net.upOrder) : OperandsListed m id := by
  intro l hmem hlogic
  refine h l.id hlogic fun hin => ?_
  have hlt := hc.lt id l hmem
  rcases List.mem_cons.1 hin with he | hin
  · exact absurd he (ne_of_lt hlt)
  · have := List.pairwise_cons.1 (m.net.pairwise_upOrder.sublist hsuf.sublist)
    exact absurd (this.1 l.id hin) (lt_asymm hlt)

/-- Generation keeps what the lists of a run are. -/
theorem generateAll_cataloged (h : Valid m) (hcat : Cataloged m)
    (hlen : ∀ id, (m.cutsOf id).length ≤ m.params.cutsPerNode) :
    m.generateAll.Ensures fun m' => Cataloged m' ∧ ∀ id, (m'.cutsOf id).length ≤ m'.capacity := by
  have hroom : m.params.cutsPerNode ≤ m.capacity := by
    unfold Mapper.capacity
    split <;> omega
  refine (generateAll_keeps (I := fun rest m' => Cataloged m' ∧ ListedOff m' rest ∧
    ∀ id, (m'.cutsOf id).length ≤ m'.capacity) h ⟨hcat, .start h, fun id => (hlen id).trans hroom⟩
    fun id rest m' m'' hsuf hv hst hlive ⟨hcat, hl, hlen⟩ hg => ?_).mono
    fun m' ⟨_, _, hcat, _, hlen⟩ => ⟨hcat, hlen⟩
  have hnet : m'.net = m.net := hst.net
  have hlive' : m'.net.isLive id = true := hnet ▸ hlive
  have hops : OperandsListed m' id := hl.operands hv.canonical (hnet ▸ hsuf)
  exact ⟨hg.cataloged hv hlive' hcat hops, hl.visit (hg.visited hv hlive'),
    hg.length_le hv hlive' hlen⟩

omit [Quantity α] in
theorem Covered.cataloged (h : Covered m m') (hcat : Cataloged m) : Cataloged m' :=
  hcat.congr h.steady.net h.steady.params
    (fun id => (hcat.lists id).rearranged (h.lists id)) h.retained

/-- The lists go on to the next round, or their winners do. -/
theorem Handed.cataloged (h : Handed m m') (hcat : Cataloged m) : Cataloged m' := by
  rcases h.lists with ⟨-, hcuts, hret⟩ | ⟨hnil, hret⟩
  · refine hcat.congr h.net h.params (fun id => ?_) hret
    rw [Mapper.cutsOf, hcuts]
    exact hcat.lists id
  · refine ⟨fun id => ?_, fun id c hc => ?_⟩
    · rw [hnil]
      exact .nil
    · rw [h.net, h.params]
      rw [hret] at hc
      split at hc
      · exact (hcat.lists id).stored c (List.mem_of_mem_head? hc)
      · cases hc

theorem Handed.length_le (h : Handed m m')
    (hlen : ∀ id, (m.cutsOf id).length ≤ m.capacity) (id : NodeId) :
    (m'.cutsOf id).length ≤ m'.params.cutsPerNode := by
  rcases h.lists with ⟨hround, hcuts, -⟩ | ⟨hnil, -⟩
  · have hcap : m.capacity = m.params.cutsPerNode := by
      simp [Mapper.capacity, Mapper.isProbeRound, hround]
    rw [Mapper.cutsOf, hcuts, h.params, ← hcap]
    exact hlen id
  · simp [hnil]

theorem Fresh.cataloged {p : Params α} (h : Fresh p m) : Cataloged m := by
  refine ⟨fun id => ?_, fun id c hc => ?_⟩
  · rw [h.lists]
    exact .nil
  · rw [h.seeds] at hc
    cases hc

/-- The lists that a round works with. -/
theorem Between.cataloged {m₀ : Mapper α} {n : Nat} (h : Between m₀ m n) (hcat : Cataloged m)
    (hlen : ∀ id, (m.cutsOf id).length ≤ m.params.cutsPerNode) :
    (Mapper.generateAll { m with enumerated := 0 }).Ensures fun m' =>
      Cataloged m' ∧ ∀ id, (m'.cutsOf id).length ≤ m'.capacity := by
  have h₀ : Valid { m with enumerated := 0 } := { h.valid with }
  exact generateAll_cataloged h₀ (hcat.congr rfl rfl hcat.lists rfl) hlen

/-- The lists that a round starts from. -/
theorem Rounds.cataloged [Topped α] {p : Params α} {w : Workspace α} {n : Nat}
    (hs : Started p w m) (hr : Rounds n m m') :
    Cataloged m' ∧ ∀ id, (m'.cutsOf id).length ≤ m'.params.cutsPerNode := by
  refine hs.between.rounds_keep (I := fun m' => Cataloged m' ∧
    ∀ id, (m'.cutsOf id).length ≤ m'.params.cutsPerNode)
    ⟨hs.fresh.cataloged, fun id => by simp [hs.fresh.lists]⟩
    (fun n a m₁ m₂ b hb ⟨hcat, hlen⟩ hm₁ hcov hnext => ?_) hr
  obtain ⟨hcat₁, hlen₁⟩ := (hb.cataloged hcat hlen).of_ok hm₁
  refine ⟨hnext.cataloged (hcov.cataloged hcat₁), hnext.length_le fun id => ?_⟩
  rw [(hcov.lists id).length_eq, hcov.steady.capacity]
  exact hlen₁ id

/-- Every list of a run, after generation in any round. -/
theorem generated_lists (p : Params Single) (w : Workspace Single) {m m' : Mapper Single} {n : Nat}
    (hm : Mapper.start p w = .ok m) (hr : Rounds n m m') : ∃ m₁,
      Mapper.generateAll { m' with enumerated := 0 } = .ok m₁ ∧ m₁.net = m.net ∧
      m₁.params = p ∧ m₁.round = n ∧ ∀ id,
        ((m₁.net.node id).isLogic = true → m₁.cutsOf id ≠ []) ∧
        ((m₁.net.node id).isLogic = false → m₁.cutsOf id = []) ∧
        (m₁.cutsOf id).length ≤
          (if p.probe = true ∧ n = 0 then 2 * p.cutsPerNode else p.cutsPerNode) ∧
        (∀ c ∈ m₁.cutsOf id, c.leaves.length ≤ 6 ∧ c.leaves.Pairwise (· < ·) ∧
          (∀ l ∈ c.leaves, l < id ∧ l ≠ NodeId.constant) ∧ c.mask = Cut.maskOf c.leaves ∧
          (∃ memo t, m₁.net.computeTable (.ofNode id) c m₁.memo = (memo, .ok t)) ∧
          (c.isMux = true → c.size = 2 ∨ c.size = 3) ∧ (c.size ≤ 1 → m₁.cutsOf id = [c])) ∧
        ((m₁.cutsOf id).Pairwise fun a b => a.isMux = false → b.isMux = false →
          ¬ a.leaves ⊆ b.leaves ∧ ¬ b.leaves ⊆ a.leaves) ∧
        (m₁.cutsOf id).countP Cut.isMux ≤ 1 := by
  have hs := Started.of_start hm
  have hb := hs.between.rounds_ok hr
  obtain ⟨hcat, hlen⟩ := hr.cataloged hs
  obtain ⟨m₁, -, hm₁, -, hv₁, hl₁, hs₁, -⟩ := hb.survey_ok
  obtain ⟨hcat₁, hlen₁⟩ := (hb.cataloged hcat hlen).of_ok hm₁
  have hparams : m₁.params = p := hs₁.params.trans (hb.params.trans hs.fresh.params)
  have hround : m₁.round = n := hs₁.round.trans hb.round
  have hnet : m₁.net = m.net := (congrArg Workspace.net hs₁.work).trans hb.net
  refine ⟨m₁, hm₁, hnet, hparams, hround, fun id => ⟨hl₁ id, fun hlogic => ?_, ?_, fun c hc => ?_,
    (hcat₁.lists id).antichain, (hcat₁.lists id).mux⟩⟩
  · by_contra hne
    obtain ⟨c, hc⟩ := List.exists_mem_of_ne_nil _ hne
    exact absurd ((hv₁.stored id c hc).logic.symm.trans hlogic) (by simp)
  · refine (hlen₁ id).trans (le_of_eq ?_)
    simp [Mapper.capacity, Mapper.isProbeRound, hparams, hround]
  · have hst := (hcat₁.lists id).stored c hc
    obtain ⟨memo, t, ht, -⟩ :=
      Network.computeTable_spec hv₁.canonical hv₁.memo hst.proper.size hst.covered
    refine ⟨hst.proper.size, hst.proper.sorted, fun l hl => ⟨hst.lt l hl, hst.ne_zero l hl⟩,
      hst.mask, ⟨memo, t, ht⟩, fun hm => ?_, (hcat₁.lists id).eq_of_size_le hc⟩
    have := hst.mux hm
    omega

theorem generated_lists_conjunction : ∃ m m' m₁ : Mapper Single,
    Mapper.start .standard ⟨conjunction, none, #[]⟩ = .ok m ∧ Rounds 1 m m' ∧
      Mapper.generateAll { m' with enumerated := 0 } = .ok m₁ ∧
      m₁.cutsOf 3 ≠ [] ∧ (m₁.cutsOf 3).length ≤ 10 ∧ m₁.cutsOf 4 = [] := by
  obtain ⟨m, m', hm, hr, hnet⟩ := rounds_conjunction (n := 1) (by omega)
  obtain ⟨m₁, hm₁, hnet₁, -, -, hlists⟩ := generated_lists _ _ hm hr
  have hnode (id : NodeId) : m₁.net.node id = conjunction.node id := by rw [hnet₁, hnet]
  exact ⟨m, m', m₁, hm, hr, hm₁, (hlists 3).1 (by rw [hnode]; rfl), (hlists 3).2.2.1,
    (hlists 4).2.1 (by rw [hnode]; rfl)⟩

end TechMap.Mapping

import Mathlib
import TechMap.Proofs.Mapping.Arrivals
import TechMap.Proofs.Mapping.Lists

/-! Enumeration misses no cut. As long as nothing is cut off and no list ends early, every small set
that closes the cone of a gate contains a cut of its list, and the list holds only such sets, so the
gate arrives as early as any of them allows. -/

namespace TechMap.Mapping

open Clock

variable {α : Type} {m : Mapper α} {net : Network} {leaves leaves' : List NodeId} {id : NodeId}
  {c : Cut}

/-- The cone of a gate closes through `leaves`: each operand is the constant, a leaf, or a gate with
that property. -/
inductive Closes (net : Network) (leaves : List NodeId) : NodeId → Prop
  | gate {id : NodeId} (hid : (net.node id).isLogic = true)
    (h : ∀ l ∈ (net.node id).operands, l.id ≠ NodeId.constant → l.id ∉ leaves →
      Closes net leaves l.id) : Closes net leaves id

theorem Closes.mono (h : Closes net leaves id) (hsub : leaves ⊆ leaves') :
    Closes net leaves' id := by
  induction h with
  | gate hid _ ih => exact .gate hid fun l hl h0 hnot => ih l hl h0 fun hm => hnot (hsub hm)

/-- Every list holds all that enumeration finds, and nothing ended enumeration. -/
structure Full (m : Mapper α) : Prop where
  canonical : m.net.Canonical
  cataloged : Cataloged m
  list : ∀ id, (m.net.node id).isLogic = true → (m.cutsOf id).Perm (m.enumerate id (m.net.node id))
  muxes : m.params.muxes = false
  seeds : ∀ id : NodeId, (m.retained[id]?).join = none
  wide : ∀ id, ∀ c ∈ m.cutsOf id, 2 ≤ c.size

/-- The candidates of the operands. -/
def operandCuts (m : Mapper α) (id : NodeId) : List (List Cut) :=
  (m.net.node id).operands.map fun l => operandCut l :: m.cutsOf l.id

/-- The latest arrival in a set of nodes. -/
def latestOf [Quantity α] (m : Mapper α) (leaves : List NodeId) : α :=
  leaves.foldl (fun acc l => max acc (m.est.arrivalAt l)) 0

theorem delayOf_le [Quantity α] [Clock α] (ht : ∀ i, IsTime (m.est.arrivalAt i))
    (hsub : c.leaves ⊆ leaves) : key (delayOf m c) ≤ key (latestOf m leaves + 1) := by
  obtain ⟨h1, -, -, h4⟩ := foldl_max (fun l (_ : l ∈ c.leaves) => ht l) zero
  obtain ⟨h1', h2', h3', -⟩ := foldl_max (fun l (_ : l ∈ leaves) => ht l) zero
  refine Clock.add_mono h1 h1' .level ?_
  show key (c.leaves.foldl _ 0) ≤ key (leaves.foldl _ 0)
  rcases h4 with h4 | ⟨l, hl, h4⟩
  · rw [h4]
    exact h2'
  · rw [h4]
    exact h3' l (hsub hl)

namespace Full

theorem stored (h : Full m) (hc : c ∈ m.cutsOf id) : Stored m.net m.params.muxes id c :=
  (h.cataloged.lists id).stored c hc

theorem mem_cutsOf (h : Full m) (hid : (m.net.node id).isLogic = true) :
    c ∈ m.cutsOf id ↔ c ∈ Cut.placeAll (Cut.unions (operandCuts m id) .empty) [] := by
  have hlist : m.enumerate id (m.net.node id) = (Cut.product (operandCuts m id) .empty []).2 := by
    rw [Mapper.enumerate, h.muxes, h.seeds id]
    rfl
  have hperm := h.list id hid
  rw [hlist, Cut.product_snd] at hperm
  cases hn : (Cut.unions (operandCuts m id) .empty).find? Cut.isNarrow with
  | none =>
    rw [hn] at hperm
    exact hperm.mem_iff
  | some d =>
    rw [hn] at hperm
    have h1 : d.size ≤ 1 := by simpa [Cut.isNarrow] using List.find?_some hn
    have h2 := h.wide id d (hperm.mem_iff.2 (by simp))
    omega

/-- A small set that closes the cone contains a cut of the list. -/
theorem exists_subset (h : Full m) (hc : Closes m.net leaves id) (h6 : leaves.length ≤ 6) :
    ∃ c ∈ m.cutsOf id, c.leaves ⊆ leaves := by
  induction hc with
  | @gate id hid _ ih =>
    have hops (cs : List Cut) (hcs : cs ∈ operandCuts m id) :
        ∃ c ∈ cs, c.WellFormed ∧ c.leaves ⊆ leaves := by
      obtain ⟨l, hl, rfl⟩ := List.mem_map.1 hcs
      by_cases hself : (operandCut l).leaves ⊆ leaves
      · exact ⟨operandCut l, by simp, wellFormed_operandCut l, hself⟩
      · have h0 : l.id ≠ NodeId.constant := fun h0 => hself (by simp [operandCut, h0, Cut.empty])
        have hnot : l.id ∉ leaves := fun hm =>
          hself (by simp [operandCut, h0, Cut.trivial, Cut.ofSorted, hm])
        obtain ⟨c, hc, hsub⟩ := ih l hl h0 hnot
        exact ⟨c, List.mem_cons_of_mem _ hc, (h.stored hc).wellFormed, hsub⟩
    obtain ⟨u, hu, husub⟩ := Cut.exists_mem_unions Cut.wellFormed_empty (by simp [Cut.empty]) h6 hops
    obtain ⟨c, hc, hsub⟩ := Cut.placeAll_dominates hu []
    exact ⟨c, (h.mem_cutsOf hid).2 hc, List.Subset.trans hsub husub⟩

/-- Only sets that close the cone are listed. -/
theorem closes (h : Full m) (hc : c ∈ m.cutsOf id) : Closes m.net c.leaves id := by
  induction id using Nat.strong_induction_on generalizing c with
  | _ id ih =>
    have hid := (h.stored hc).logic
    have hmem := (Cut.mem_placeAll ((h.mem_cutsOf hid).1 hc)).resolve_left (by simp)
    refine .gate hid fun l hl h0 hnot => ?_
    obtain ⟨d, hd, hsub⟩ := (Cut.mem_unions.1 hmem).exists_subset (List.mem_map.2 ⟨l, hl, rfl⟩)
    rcases List.mem_cons.1 hd with rfl | hd
    · exact absurd (hsub l.id (by simp [operandCut, h0, Cut.trivial, Cut.ofSorted])) hnot
    · exact (ih l.id (h.canonical.lt id l hl) hd).mono hsub

/-- The arrival of a gate is the least that a small closing set allows. -/
theorem earliest [Quantity α] [Clock α] {m₀ : Mapper α} {first : Cut} (h : Full m)
    (ht : ∀ i, IsTime (m.est.arrivalAt i)) (hw : Won m₀ m id first) (hnil : m₀.cutsOf id = [])
    (hround : m.isDelayRound = true) (hid : (m.net.node id).isLogic = true) :
    (∀ leaves, leaves.length ≤ 6 → Closes m.net leaves id →
      Quantity.le (m.est.arrivalAt id) (latestOf m leaves + 1) = true) ∧
    first ∈ m.cutsOf id ∧ m.est.arrivalAt id = latestOf m first.leaves + 1 := by
  have hpool : pool m₀ m id = m.enumerate id (m.net.node id) := if_pos hnil
  have hmem (c : Cut) : c ∈ pool m₀ m id ↔ c ∈ m.cutsOf id := by
    rw [hpool, (h.list id hid).mem_iff]
  have hall := hw.choice.resolve_left fun htimely => by
    rw [Timely, hround] at htimely
    cases htimely.1
  refine ⟨fun leaves h6 hc => ?_, (hmem first).1 hw.mem, hw.arrival⟩
  obtain ⟨c, hcm, hsub⟩ := h.exists_subset hc h6
  have hsum : IsTime (latestOf m leaves + 1) :=
    Clock.add (foldl_max (fun l _ => ht l) zero).1 .level
  rw [le_eq (ht id) hsum, hw.arrival, decide_eq_true_eq]
  exact (hall c ((hmem c).2 hcm)).trans (delayOf_le ht hsub)

end Full

/-- The first round enumerates completely. If no list is cut off and every stored cut has two leaves
or more, then each set of at most six nodes that closes the cone of a gate contains a cut of its
list, and the gate arrives a level after such a set and after none that is earlier. -/
theorem enumeration_complete (p : Params Single) (w : Workspace Single) {m : Mapper Single}
    (hm : Mapper.start p w = .ok m) (hprobe : p.probe = false) (hmuxes : p.muxes = false) :
    ∃ m₁, Mapper.generateAll { m with enumerated := 0 } = .ok m₁ ∧ m₁.net = m.net ∧
      ((∀ id, (m₁.net.node id).isLogic = true →
          (m₁.enumerate id (m₁.net.node id)).length ≤ p.cutsPerNode) →
        (∀ id, ∀ c ∈ m₁.cutsOf id, 2 ≤ c.size) →
        ∀ id, (m₁.net.node id).isLogic = true →
          (∀ leaves, leaves.length ≤ 6 → Closes m₁.net leaves id →
            (∃ c ∈ m₁.cutsOf id, c.leaves ⊆ leaves) ∧
            Quantity.le (m₁.est.arrivalAt id) (latestOf m₁ leaves + 1) = true) ∧
          ∃ leaves, leaves.length ≤ 6 ∧ Closes m₁.net leaves id ∧
            m₁.est.arrivalAt id = latestOf m₁ leaves + 1) := by
  have hs := Started.of_start hm
  have hf := hs.fresh
  obtain ⟨hcat, hlen⟩ := (Rounds.none m).cataloged hs
  have h₀ : Valid { m with enumerated := 0 } := { hf.valid with }
  have htime (i : NodeId) : IsTime (m.est.arrivalAt i) := (hf.arrivals i).symm ▸ zero
  obtain ⟨m₁, hm₁, ⟨⟨hv₁, hs₁, -⟩, ht₁, hr₁, -, harr⟩, hcat₁, -⟩ :=
    ((generateAll_ok h₀).and (generateAll_arrived h₀ (by rw [← hmuxes, ← hf.params]) htime)).and
      (hs.between.cataloged hcat hlen)
  have hnet : m₁.net = m.net := congrArg Workspace.net hs₁.work
  have hparams : m₁.params = p := hs₁.params.trans hf.params
  have hround : m₁.isProbeRound = false ∧ m₁.isDelayRound = true := by
    simp [Mapper.isProbeRound, Mapper.isDelayRound, hparams, hprobe, hs₁.round, hf.round]
  have hwon (id : NodeId) (hid : (m₁.net.node id).isLogic = true) :=
    (harr id (hnet ▸ Network.isLive_of_isLogic hid)).exists_won hid
  refine ⟨m₁, hm₁, hnet, fun hroom hwide id hid => ?_⟩
  have hfull : Full m₁ := by
    refine ⟨hv₁.canonical, hcat₁, fun id hid => ?_, hparams ▸ hmuxes, fun id => hr₁ ▸ hf.seeds id,
      hwide⟩
    obtain ⟨first, h⟩ := hwon id hid
    exact h.perm_enumerate (hf.lists id) hround.1 (hparams ▸ hroom id hid)
  obtain ⟨first, h⟩ := hwon id hid
  obtain ⟨hle, hmem, heq⟩ := hfull.earliest ht₁ h (hf.lists id) hround.2 hid
  exact ⟨fun leaves h6 hc => ⟨hfull.exists_subset hc h6, hle leaves h6 hc⟩, first.leaves,
    (hfull.stored hmem).proper.size, hfull.closes hmem, heq⟩

theorem enumeration_complete_conjunction : ∃ m m₁ : Mapper Single,
    Mapper.start .standard ⟨conjunction, none, #[]⟩ = .ok m ∧
      Mapper.generateAll { m with enumerated := 0 } = .ok m₁ ∧
      (∃ c ∈ m₁.cutsOf 3, c.leaves ⊆ [1, 2]) ∧
      Quantity.le (m₁.est.arrivalAt 3) (latestOf m₁ [1, 2] + 1) = true := by
  obtain ⟨m, -, hm, -, hnet⟩ := rounds_conjunction (n := 0) (by omega)
  obtain ⟨m₁, hm₁, hnet₁, h⟩ := enumeration_complete _ _ hm rfl rfl
  have hs := Started.of_start hm
  obtain ⟨hcat, hlen⟩ := (Rounds.none m).cataloged hs
  have h₀ : Valid { m with enumerated := 0 } := { hs.fresh.valid with }
  have htime (i : NodeId) : IsTime (m.est.arrivalAt i) := (hs.fresh.arrivals i).symm ▸ zero
  have hcat₁ := ((hs.between.cataloged hcat hlen).of_ok hm₁).1
  obtain ⟨-, hs₁, -⟩ := (generateAll_ok h₀).of_ok hm₁
  have hr₁ := ((generateAll_arrived h₀ (by rw [hs.fresh.params]; rfl) htime).of_ok hm₁).2.1
  have hnode (id : NodeId) : m₁.net.node id = conjunction.node id := by rw [hnet₁, hnet]
  have hgate (id : NodeId) (hid : (m₁.net.node id).isLogic = true) : id = 3 := by
    rw [hnode] at hid
    have hlt : id < 5 := Network.lt_size_of_isLive (Network.isLive_of_isLogic hid)
    interval_cases id <;> first | rfl | cases hid
  have hnone (id : NodeId) (hid : id ≠ 3) : m₁.cutsOf id = [] := by
    refine List.eq_nil_iff_forall_not_mem.2 fun c hc => hid (hgate id ?_)
    exact ((hcat₁.lists id).stored c hc).logic
  have hwide (id : NodeId) (c : Cut) (hc : c ∈ m₁.cutsOf id) : 2 ≤ c.size := by
    have hstored := (hcat₁.lists id).stored c hc
    obtain rfl := hgate id hstored.logic
    refine hstored.wide ?_
    rw [hnet₁, hnet, narrowCut?_of_isLogic canonical_conjunction rfl]
    show (Cut.unions [operandCut (.ofNode 1) :: (narrowCut? conjunction 1).toList,
      operandCut (.ofNode 2) :: (narrowCut? conjunction 2).toList] .empty).find? Cut.isNarrow = none
    rw [narrowCut?_of_not_isLogic rfl, narrowCut?_of_not_isLogic rfl]
    decide +kernel
  have hroom (id : NodeId) (hid : (m₁.net.node id).isLogic = true) :
      (m₁.enumerate id (m₁.net.node id)).length ≤ 10 := by
    obtain rfl := hgate id hid
    have hparams : m₁.params.muxes = false := by rw [hs₁.params, hs.fresh.params]; rfl
    have hseed : (m₁.retained[(3 : NodeId)]?).join = none := hr₁ ▸ hs.fresh.seeds 3
    rw [hnode, Mapper.enumerate, hparams, hseed]
    show (Cut.product [operandCut (.ofNode 1) :: m₁.cutsOf 1, operandCut (.ofNode 2) :: m₁.cutsOf 2]
      .empty []).2.length ≤ 10
    rw [hnone 1 (by decide), hnone 2 (by decide)]
    decide +kernel
  have hcloses : Closes m₁.net [1, 2] 3 := by
    refine .gate (by rw [hnode]; rfl) fun l hl _ hnot => ?_
    rw [hnode] at hl
    rcases List.mem_pair.1 hl with rfl | rfl <;> exact absurd (by decide) hnot
  exact ⟨m, m₁, hm, hm₁, (h hroom hwide 3 (by rw [hnode]; rfl)).1 [1, 2] (by decide) hcloses⟩

end TechMap.Mapping

import Mathlib
import TechMap.Proofs.Mapping.Fits
import TechMap.Proofs.Mapping.Selection
import TechMap.Proofs.Mapping.Step

/-! The invariant of a run before it instantiates: all tables have an entry for each node, every cut
that is stored or retained fits its node, and the memo is empty. Generation keeps it and leaves no
gate without cuts. -/

namespace TechMap.Mapping

variable {α : Type}

structure Valid (m : Mapper α) : Prop where
  canonical : m.net.Canonical
  unmapped : ∀ id, (m.net.node id).isMapped = false
  order : m.order = m.net.upOrder
  cuts : m.cuts.size = m.net.size
  arrival : m.est.arrival.size = m.net.size
  depart : m.est.depart.size = m.net.size
  active : m.usage.active.size = m.net.size
  fanouts : m.usage.fanouts.size = m.net.size
  stored : ∀ id, ∀ c ∈ m.cutsOf id, Fits m.net m.params.muxes id c
  retained : ∀ id c, (m.retained[id]?).join = some c → Fits m.net m.params.muxes id c
  memo : m.memo.Clean
  slots : 0 < m.params.cutsPerNode
  demotes : m.legalizer = demoteMuxes

/-- Every gate has a cut. -/
def Listed (m : Mapper α) : Prop := ∀ id, (m.net.node id).isLogic = true → m.cutsOf id ≠ []

/-- What stays as it is until the end of a round. -/
structure Steady (m m' : Mapper α) : Prop where
  params : m'.params = m.params
  work : m'.work = m.work
  round : m'.round = m.round
  stats : m'.stats = m.stats
  finished : m'.finished = m.finished
  target : m'.target = m.target

theorem Steady.refl (m : Mapper α) : Steady m m := ⟨rfl, rfl, rfl, rfl, rfl, rfl⟩

theorem Steady.trans {a b c : Mapper α} (h : Steady a b) (h' : Steady b c) : Steady a c :=
  ⟨h'.params.trans h.params, h'.work.trans h.work, h'.round.trans h.round, h'.stats.trans h.stats,
    h'.finished.trans h.finished, h'.target.trans h.target⟩

theorem Steady.net {m m' : Mapper α} (h : Steady m m') : m'.net = m.net :=
  congrArg Workspace.net h.work

theorem Steady.capacity {m m' : Mapper α} (h : Steady m m') : m'.capacity = m.capacity := by
  rw [Mapper.capacity, Mapper.isProbeRound, h.params, h.round]
  rfl

theorem cutsOf_congr {m m' : Mapper α} (h : m'.cuts = m.cuts) (id : NodeId) :
    m'.cutsOf id = m.cutsOf id := by
  rw [Mapper.cutsOf, h]
  rfl

theorem arrivalAt_congr [Quantity α] {e e' : Estimates α} (h : e'.arrival = e.arrival)
    (id : NodeId) : e'.arrivalAt id = e.arrivalAt id := by
  rw [Estimates.arrivalAt, h]
  rfl

theorem departAt_congr [Quantity α] {e e' : Estimates α} (h : e'.depart = e.depart)
    (id : NodeId) : e'.departAt id = e.departAt id := by
  rw [Estimates.departAt, h]
  rfl

variable {m : Mapper α} {id : NodeId} {cuts : List Cut} {c : Cut}

theorem Listed.exists_winner (h : Listed m) (hid : (m.net.node id).isLogic = true) :
    ∃ w rest, m.cutsOf id = w :: rest ∧ m.winner? id = some w := by
  obtain ⟨w, rest, hcuts⟩ := List.exists_cons_of_ne_nil (h id hid)
  refine ⟨w, rest, hcuts, ?_⟩
  rw [Mapper.winner?, hcuts]
  rfl

theorem cutsOf_setCuts (m : Mapper α) {id : NodeId} (h : id < m.cuts.size) (cuts : List Cut)
    (i : NodeId) : (m.setCuts id cuts).cutsOf i = if i = id then cuts else m.cutsOf i := by
  simp only [Mapper.setCuts, Mapper.cutsOf, Array.getD_eq_getD_getElem?]
  by_cases hi : i = id
  · subst hi
    simp [h]
  · rw [Array.getElem?_setIfInBounds_ne (Ne.symm hi), if_neg hi]

namespace Valid

theorem lt_size (h : Valid m) (hl : m.net.isLive id = true) : id < m.size := by
  rw [Mapper.size, h.cuts]
  exact Network.lt_size_of_isLive hl

theorem inRange (h : Valid m) (hc : Fits m.net m.params.muxes id c) : m.inRange c = true := by
  simp only [Mapper.inRange, List.all_eq_true, decide_eq_true_eq]
  exact fun l hl => h.lt_size (hc.live l hl)

theorem canCost (h : Valid m) (hc : Fits m.net m.params.muxes id c) : m.canCost id c = true := by
  simp [Mapper.canCost, h.inRange hc, h.lt_size (Network.isLive_of_isLogic hc.logic)]

theorem canPrioritize (h : Valid m) (hc : ∀ c ∈ cuts, Fits m.net m.params.muxes id c) :
    m.canPrioritize id cuts = true := by
  cases cuts with
  | nil => rfl
  | cons c rest =>
    have hid := h.lt_size (Network.isLive_of_isLogic (hc c (by simp)).logic)
    simp only [Mapper.canPrioritize, Bool.or_eq_true, Bool.and_eq_true, decide_eq_true_eq,
      List.all_eq_true]
    exact .inr ⟨hid, fun c' hc' => h.inRange (hc c' hc')⟩

theorem setCuts (h : Valid m) (hc : ∀ c ∈ cuts, Fits m.net m.params.muxes id c) :
    Valid (m.setCuts id cuts) := by
  refine { h with cuts := ?_, stored := fun i c hi => ?_ }
  · exact (Array.size_setIfInBounds ..).trans h.cuts
  · by_cases hid : id < m.cuts.size
    · rw [cutsOf_setCuts m hid] at hi
      split at hi
      · rename_i he; subst he; exact hc c hi
      · exact h.stored i c hi
    · simp only [Mapper.setCuts, Mapper.cutsOf, Array.setIfInBounds, dif_neg hid] at hi
      exact h.stored i c hi

variable [Quantity α]

theorem settleArrival (h : Valid m) (id : NodeId) (arrival : α) :
    Valid (m.settleArrival id arrival) :=
  { h.setCuts (by simp) with
    arrival := (Array.size_setIfInBounds ..).trans h.arrival }

theorem settleCost (h : Valid m) (id : NodeId) (best : Cost α) : Valid (m.settleCost id best) :=
  { h with arrival := (Array.size_setIfInBounds ..).trans h.arrival }

theorem fits_sortCuts (hc : ∀ c ∈ cuts, Fits m.net m.params.muxes id c) :
    ∀ c ∈ m.sortCuts id cuts, Fits m.net m.params.muxes id c := by
  intro c hcm
  obtain ⟨d, hd, hs⟩ := (rearranged_sortCuts m id cuts).exists_of_mem hcm
  exact (hc d hd).congr hs.leaves fun h => hs.isMux ▸ h

end Valid

variable [Quantity α]

/-- The sorted list of a node and its winner, which settles the estimates. -/
theorem prioritize_eq (m : Mapper α) (id : NodeId) (h : cuts ≠ []) :
    ∃ first rest, m.sortCuts id cuts = first :: rest ∧
      m.prioritize id cuts = (m.settleCost id (m.cutCost id first), first :: rest) := by
  have hlen := (rearranged_sortCuts m id cuts).length_eq
  cases hs : m.sortCuts id cuts with
  | nil =>
    rw [hs] at hlen
    exact absurd (List.length_eq_zero_iff.1 hlen.symm) h
  | cons first rest => exact ⟨first, rest, rfl, by rw [Mapper.prioritize, hs]⟩

/-- What a visit does, by the kind of the node and by whether it kept a list. -/
inductive Generated (m : Mapper α) (id : NodeId) : Mapper α → Prop
  | grown {first : Cut} {rest : List Cut} {settled : Mapper α}
    (hid : (m.net.node id).isLogic = true) (hnil : m.cutsOf id = [])
    (hs : m.sortCuts id (m.enumerate id (m.net.node id)) = first :: rest)
    (hsettled : settled = Mapper.settleCost
      { m with enumerated := m.enumerated + (m.enumerate id (m.net.node id)).length } id
      (m.cutCost id first)) :
    Generated m id (settled.setCuts id (settled.truncate (first :: rest)))
  | ordered {first : Cut} {rest : List Cut} (hid : (m.net.node id).isLogic = true)
    (hne : m.cutsOf id ≠ [])
    (hs : (m.setCuts id []).sortCuts id (m.cutsOf id) = first :: rest) :
    Generated m id (((m.setCuts id []).settleCost id ((m.setCuts id []).cutCost id first)).setCuts
      id (first :: rest))
  | source (hid : (m.net.node id).isSource = true) : Generated m id (m.settleArrival id 0)
  | through {l : Lit} (hid : (m.net.node id).isPassThrough = true)
    (hops : (m.net.node id).operands = [l]) :
    Generated m id
      (m.settleArrival id (m.est.arrivalAt l.id + Mapper.edgeDelay (m.net.node id)))
  | sink (hid : (m.net.node id).isSink = true) : Generated m id m

theorem generateCuts_generated (h : Valid m) (hl : m.net.isLive id = true) :
    (m.generateCuts id).Ensures (Generated m id) := by
  have hun := h.unmapped id
  unfold Mapper.generateCuts
  rw [Network.get?_eq_some (Network.lt_size_of_isLive hl)]
  cases hn : m.net.node id with
  | const | pi | ff | box => exact .ok (.source (by rw [hn]; rfl))
  | bar a | sel a | delay a d =>
    refine .ok ?_
    rw [← hn]
    exact .through (by rw [hn]; rfl) (by rw [hn]; rfl)
  | po a | seq a => exact .ok (.sink (by rw [hn]; rfl))
  | and a b | lut4 a b c d t =>
    have hid : (m.net.node id).isLogic = true := by rw [hn]; rfl
    dsimp only
    rw [← hn]
    split
    · rename_i hnil
      have hfit := fits_enumerate h.canonical hid h.stored (h.retained id)
      unfold Mapper.generateLogic
      extract_lets cuts m₁
      have h₁ : Valid m₁ := { h with }
      obtain ⟨first, rest, hs, hp⟩ := prioritize_eq m₁ id (enumerate_ne_nil hid)
      rw [if_pos (h₁.canPrioritize hfit), hp]
      exact .ok (.grown hid hnil hs rfl)
    · rename_i hne
      obtain ⟨first, rest, hs, hp⟩ := prioritize_eq (m.setCuts id []) id hne
      unfold Mapper.regenerate
      rw [if_pos (h.canPrioritize (h.stored id)), hp]
      exact .ok (.ordered hid hne hs)
  | lut6 inputs t => rw [hn] at hun; cases hun
  | mux s t e => rw [hn] at hun; cases hun
  | removed => rw [Network.isLive, hn] at hl; cases hl

/-- What a visit of node `id` ensures. -/
structure Visited (m : Mapper α) (id : NodeId) (m' : Mapper α) : Prop where
  valid : Valid m'
  steady : Steady m m'
  usage : m'.usage = m.usage
  retained : m'.retained = m.retained
  depart : m'.est.depart = m.est.depart
  others : ∀ i, i ≠ id → m'.cutsOf i = m.cutsOf i
  arrivals : ∀ i, i ≠ id → m'.est.arrivalAt i = m.est.arrivalAt i
  listed : (m.net.node id).isLogic = true → m'.cutsOf id ≠ []

theorem getD_setIfInBounds_ne {β : Type} {xs : Array β} {i j : Nat} (h : j ≠ i) (x d : β) :
    (xs.setIfInBounds i x).getD j d = xs.getD j d := by
  rw [Array.getD_eq_getD_getElem?, Array.getD_eq_getD_getElem?, Array.getElem?_setIfInBounds_ne h.symm]

/-- The list that a visit leaves. -/
theorem Generated.visited {m' : Mapper α} (h : Valid m) (hl : m.net.isLive id = true)
    (hg : Generated m id m') : Visited m id m' := by
  have hlt := h.lt_size hl
  have hbare : Valid (m.setCuts id []) := h.setCuts (by simp)
  have hbareSize : id < (m.setCuts id []).cuts.size :=
    lt_of_lt_of_eq hlt (Array.size_setIfInBounds ..).symm
  have settled (arrival : α) (hn : (m.net.node id).isLogic = false) :
      Visited m id (m.settleArrival id arrival) :=
    ⟨h.settleArrival id arrival, ⟨rfl, rfl, rfl, rfl, rfl, rfl⟩, rfl, rfl, rfl,
      fun i hi => (cutsOf_setCuts m hlt [] i).trans (if_neg hi),
      fun i hi => getD_setIfInBounds_ne hi _ _, fun hid => absurd (hid.symm.trans hn) (by simp)⟩
  cases hg with
  | @grown first rest settled hid hnil hs hsettled =>
    subst hsettled
    have hfit := fits_enumerate h.canonical hid h.stored (h.retained id)
    have hsorted : ∀ c ∈ first :: rest, Fits m.net m.params.muxes id c :=
      hs ▸ Valid.fits_sortCuts hfit
    have h₁ : Valid { m with
        enumerated := m.enumerated + (m.enumerate id (m.net.node id)).length } := { h with }
    refine ⟨(h₁.settleCost id _).setCuts fun c hc => hsorted c (mem_truncate hc),
      ⟨rfl, rfl, rfl, rfl, rfl, rfl⟩, rfl, rfl, rfl, fun i hi => ?_,
      fun i hi => getD_setIfInBounds_ne hi _ _, fun _ => ?_⟩
    · rw [cutsOf_setCuts _ (by exact hlt), if_neg hi]
      rfl
    · rw [cutsOf_setCuts _ (by exact hlt), if_pos rfl]
      exact truncate_ne_nil (by simp) h.slots
  | @ordered first rest hid hne hs =>
    have hsorted : ∀ c ∈ first :: rest, Fits m.net m.params.muxes id c :=
      hs ▸ Valid.fits_sortCuts (m := m.setCuts id []) (h.stored id)
    refine ⟨(hbare.settleCost id _).setCuts hsorted, ⟨rfl, rfl, rfl, rfl, rfl, rfl⟩, rfl, rfl, rfl,
      fun i hi => ?_, fun i hi => getD_setIfInBounds_ne hi _ _, fun _ => ?_⟩
    · rw [cutsOf_setCuts _ (by exact hbareSize), if_neg hi]
      exact (cutsOf_setCuts m hlt [] i).trans (if_neg hi)
    · rw [cutsOf_setCuts _ (by exact hbareSize), if_pos rfl]
      simp
  | source hid => exact settled 0 (Node.not_isLogic_of_isSource hid)
  | through hid _ => exact settled _ (Node.not_isLogic_of_isPassThrough hid)
  | sink hid =>
    exact ⟨h, .refl m, rfl, rfl, rfl, fun _ _ => rfl, fun _ _ => rfl, fun hlogic =>
      absurd (hlogic.symm.trans (Node.not_isLogic_of_isSink hid)) (by simp)⟩

/-- What every visit keeps, generation keeps. -/
theorem generateAll_keeps {I : List NodeId → Mapper α → Prop} (h : Valid m) (h0 : I m.order m)
    (hstep : ∀ id rest m' m'', id :: rest <:+ m.net.upOrder → Valid m' → Steady m m' →
      m.net.isLive id = true → I (id :: rest) m' → Generated m' id m'' → I rest m'') :
    m.generateAll.Ensures fun m' => Valid m' ∧ Steady m m' ∧ I [] m' := by
  refine Step.Ensures.visitAll (I := fun rest m' => Valid m' ∧ Steady m m' ∧ I rest m')
    ⟨h, .refl m, h0⟩ fun id rest m' hsuf hI => ?_
  obtain ⟨hv, hst, hI⟩ := hI
  have hnet : m'.net = m.net := hst.net
  rw [h.order] at hsuf
  have hlive : m.net.isLive id = true := Network.mem_upOrder.1 (hsuf.subset (by simp))
  have hlive' : m'.net.isLive id = true := hnet ▸ hlive
  refine (generateCuts_generated hv hlive').mono fun m'' hg => ?_
  have hm := hg.visited hv hlive'
  exact ⟨hm.valid, hst.trans hm.steady, hstep id rest m' m'' hsuf hv hst hlive hI hg⟩

/-- Every gate that generation has passed has a cut. -/
def ListedOff (m : Mapper α) (rest : List NodeId) : Prop :=
  ∀ id, (m.net.node id).isLogic = true → id ∉ rest → m.cutsOf id ≠ []

omit [Quantity α] in
theorem ListedOff.start (h : Valid m) : ListedOff m m.order := fun _ hid hnot =>
  absurd (h.order ▸ Network.mem_upOrder.2 (Network.isLive_of_isLogic hid)) hnot

theorem ListedOff.visit {m' : Mapper α} {rest : List NodeId} (h : ListedOff m (id :: rest))
    (hm : Visited m id m') : ListedOff m' rest := by
  have hnet : m'.net = m.net := hm.steady.net
  intro i hi hnot
  rw [hnet] at hi
  by_cases he : i = id
  · subst he
    exact hm.listed hi
  · rw [hm.others i he]
    exact h i hi (by simp [he, hnot])

/-- Generation gives every gate a list. -/
theorem generateAll_ok (h : Valid m) :
    m.generateAll.Ensures fun m' => Valid m' ∧ Steady m m' ∧ m'.usage = m.usage ∧ Listed m' := by
  refine (generateAll_keeps (I := fun rest m' => m'.usage = m.usage ∧ ListedOff m' rest) h
    ⟨rfl, .start h⟩ fun id rest m' m'' _ hv hst hlive ⟨hu, hl⟩ hg => ?_).mono
    fun m' ⟨hv, hst, hu, hl⟩ => ⟨hv, hst, hu, fun id hid => hl id hid (by simp)⟩
  have hnet : m'.net = m.net := hst.net
  have hm := hg.visited hv (hnet ▸ hlive)
  exact ⟨hm.usage.trans hu, hl.visit hm⟩

end TechMap.Mapping

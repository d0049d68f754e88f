import Mathlib
import TechMap.Proofs.Mapping.Counts
import TechMap.Proofs.Mapping.ExactArea

/-! Exact local area never makes the mapping larger. The area without a gate's cut is the same before
and after the exchange of that cut. What is put in costs no more than what was taken out, because each
cut that was chosen on the way beats the one before. -/

namespace TechMap.Mapping

variable {α : Type} {m m' : Mapper α} {id : NodeId}

theorem grounded_cones (h : Valid m) (hl : Listed m) : m.cones.Grounded := by
  intro v hv
  obtain ⟨w, rest, hcuts, hwin⟩ := hl.exists_winner hv
  have hfit := h.stored v w (by simp [hcuts])
  exact ⟨w, hwin, hfit.proper.sorted.imp fun h => ne_of_lt h, hfit.lt⟩

/-- A consistent cover is settled, with what pass-throughs and sinks use for use from outside. -/
theorem Consistent.settled (h : Consistent m) (hv : Valid m) :
    m.cones.Settled (nodeUses m) ∅ m.usage where
  active := hv.active
  fanouts := hv.fanouts
  counts v hlogic := by
    have husers : gateUses m v = (m.cones.users m.usage ∅ v).card := by
      refine congrArg Finset.card (Finset.filter_congr fun w _ => ?_)
      have hleaves : v ∈ m.cones.leavesAt w ↔ ∃ cut ∈ m.winner? w, v ∈ cut.leaves := by
        rw [Cones.leavesAt, show m.cones.winner? w = m.winner? w from rfl]
        cases m.winner? w <;> simp
      rw [hleaves]
      constructor
      · rintro ⟨ha, hw, hv⟩
        exact ⟨Finset.notMem_empty w, hw, ha, hv⟩
      · rintro ⟨-, hw, ha, hv⟩
        exact ⟨ha, hw, hv⟩
    rw [h.counts v hlogic, demand_eq hv, husers, Nat.add_comm]
  used := h.used

theorem Refined.agree (h : Refined m id m') : Cones.Agree id m.cones m'.cones where
  net := h.steady.net
  params := h.steady.params
  winner v hv := congrArg List.head? (h.others v hv)

variable [Quantity α] [Timed α]

/-- The areas of the winners of all active gates, summed up exactly. -/
def Mapper.mappedArea (m : Mapper α) : ℚ :=
  ∑ id ∈ Finset.range m.net.size with (m.net.node id).isLogic = true ∧ m.isActive id = true,
    Timed.val (((m.winner? id).map fun w => m.params.cutArea w.size w.muxDepth).getD 0)

theorem mappedArea_eq (m : Mapper α) : m.mappedArea = m.cones.mapped m.usage.active := rfl

/-- The winner of a gate is taken out and a cut put in that costs no more. The area of the mapping
changes by the difference. -/
def Recovered (m : Mapper α) (id : NodeId) (m' : Mapper α) : Prop :=
  ∃ winner selected u u' freed added, m.winner? id = some winner ∧ m'.winner? id = some selected ∧
    m.cones.deref winner Quantity.infinity m.usage = (u, .ok freed) ∧
    m'.cones.reference selected Quantity.infinity u = (u', .ok added) ∧
    u'.active = m'.usage.active ∧ u'.fanouts = m'.usage.fanouts ∧
    m'.mappedArea - m.mappedArea = Timed.val added - Timed.val freed ∧
    Timed.val added ≤ Timed.val freed

/-- The winner of a gate was taken out without a limit. It can be put back in for what it was
worth. -/
structure Removed (m : Mapper α) (id : NodeId) (winner : Cut) (u : Usage) (freed : α) : Prop where
  deref : m.cones.deref winner Quantity.infinity m.usage = (u, .ok freed)
  settled : m.cones.Settled (nodeUses m) {id} u
  active : u.active.getD id false = true
  exact : Timed.Exact freed
  area : m.mappedArea = m.cones.mappedBeside id u.active + Timed.val freed
  back : ∃ t, m.cones.reference winner Quantity.infinity u = (t, .ok freed) ∧
    t.active = m.usage.active ∧ t.fanouts = m.usage.fanouts

theorem removed_ok [Topped α] (h : Valid m) (hl : Listed m) (hc : Consistent m)
    (hexact : ∀ k, Timed.Exact (m.cones.area k)) (hid : (m.net.node id).isLogic = true)
    (ha : m.isActive id = true) {winner : Cut} (hwin : m.winner? id = some winner) :
    ∃ u freed, Removed m id winner u freed := by
  have hg := grounded_cones h hl
  have hs := hc.settled h
  obtain ⟨u, _, freed, hderef, hsu, hsame, hon, hfalls, hfreed, rfl⟩ :=
    Cones.deref_settled hg hs hid ha hwin
  have hthrough (v : NodeId) (hv : v = id ∨ (m.cones.net.node v).isLogic = true ∧
      m.usage.active.getD v false = true ∧ u.active.getD v false = false) (l : NodeId)
      (hl : l ∈ m.cones.leavesAt v) (hpass : (m.cones.net.node l).isPassThrough = true) :
      m.usage.active.getD l false = true := by
    obtain ⟨hlogic, hactive⟩ : (m.net.node v).isLogic = true ∧ m.isActive v = true := by
      rcases hv with rfl | hv
      · exact ⟨hid, ha⟩
      · exact ⟨hv.1, hv.2.1⟩
    refine hc.through v hactive l ?_ hpass
    rw [Mapper.uses, usesOf, if_pos hlogic]
    exact hl
  obtain ⟨t, _, added, href, hfan, hact, hadded, rfl⟩ :=
    Cones.reference_settled hg hs hsu hsame hid ha hon hwin hthrough
  refine ⟨u, _, hderef, hsu, hon, (Cones.total_start hexact winner freed).1,
    Cones.mapped_eq_cost hexact hid hon hwin hfreed hfalls, t, ?_, hact, hfan⟩
  rw [Cones.total_perm hexact (hfreed.perm hadded) winner]
  exact href

/-- What is put in makes up the difference. -/
theorem Removed.recovered {winner selected : Cut} {u u' : Usage} {freed added : α}
    (h : Removed m id winner u freed) (hm : Refined m id m')
    (hexact : ∀ k, Timed.Exact (m.cones.area k)) (hid : (m.net.node id).isLogic = true)
    (hwin : m.winner? id = some winner) (hsel : m'.winner? id = some selected)
    (href : m'.cones.reference selected Quantity.infinity u = (u', .ok added))
    (hact : u'.active = m'.usage.active) (hfan : u'.fanouts = m'.usage.fanouts)
    (hle : Timed.val added ≤ Timed.val freed) : Recovered m id m' := by
  have harea : m'.mappedArea = m.cones.mappedBeside id u.active + Timed.val added := by
    have hexact' : ∀ k, Timed.Exact (m'.cones.area k) := hm.agree.area ▸ hexact
    rw [mappedArea_eq, ← hact, ← hm.agree.mappedBeside]
    exact Cones.mapped_reference hexact' (grounded_cones hm.valid hm.listed)
      (hm.agree.settled h.settled) (by rw [hm.agree.net]; exact hid) h.active hsel href
  refine ⟨winner, selected, u, u', freed, added, hwin, hsel, h.deref, href, hact, hfan, ?_, hle⟩
  rw [harea, h.area]
  ring

/-- Each cut that was chosen on the way beats the one before, so the last one costs no more than what
the first one freed. -/
theorem exact_of_cheaper (h : Valid m) (hl : Listed m) (hexact : ∀ k, Timed.Exact (m.cones.area k))
    {ext : NodeId → Nat} {u : Usage} (hu : m.cones.Settled ext {id} u) {cuts : List (Cut × Nat)}
    (hfit : ∀ e ∈ cuts, Fits m.net m.params.muxes id e.1) {best best' : α × Nat}
    (hbest : Timed.Exact best.1)
    (hchain : Relation.ReflTransGen (({ m with usage := u } : Mapper α).Cheaper id cuts) best best') :
    Timed.Exact best'.1 ∧ Timed.val best'.1 ≤ Timed.val best.1 := by
  induction hchain with
  | refl => exact ⟨hbest, le_refl _⟩
  | @tail mid last _ hstep ih =>
    obtain ⟨hmid, hle⟩ := ih
    obtain ⟨e, he, -, -, hattempt, hlt⟩ := hstep
    have hlast : Timed.Exact last.1 := Cones.reference_exact hexact (grounded_cones h hl) hu
      (below_cones (hfit e he)).within (Prod.ext rfl hattempt)
    rw [Timed.lt_exact hlast hmid, decide_eq_true_eq] at hlt
    exact ⟨hlast, hlt.le.trans hle⟩

/-- The cut that is put in costs what it did when it was tried, or it is the winner that was taken
out. -/
theorem Exchanged.cost_le [Topped α] {m₁ : Mapper α} {ext : NodeId → Nat} {winner : Cut}
    {others : List Cut} {u t : Usage} {freed : α} (hr₁ : Refined m id m₁) (hr : Refined m id m')
    (hexact : ∀ k, Timed.Exact (m.cones.area k)) (hu : m.cones.Settled ext {id} u)
    (hfreed : Timed.Exact freed) (hcuts : m₁.cutsOf id = winner :: others)
    (hback : m'.cones.reference winner Quantity.infinity u = (t, .ok freed))
    (hx : Exchanged m₁ id u freed m') : ∃ selected added, m'.winner? id = some selected ∧
      m'.cones.reference selected Quantity.infinity u = (m'.usage, .ok added) ∧
      Timed.val added ≤ Timed.val freed := by
  obtain ⟨best, selected, added, hbest, hget, hsel, href⟩ := hx
  refine ⟨selected, added, hsel, href, ?_⟩
  have hfit (e : Cut × Nat) (he : e ∈ (m₁.cutsOf id).tail.zipIdx 1) :
      Fits m₁.net m₁.params.muxes id e.1 :=
    hr₁.valid.stored id e.1 (List.mem_of_mem_tail (List.fst_mem_of_mem_zipIdx he))
  have hchain := exact_of_cheaper hr₁.valid hr₁.listed (hr₁.agree.area ▸ hexact)
    (hr₁.agree.settled hu) hfit hfreed hbest
  rcases hbest.cases_tail with rfl | ⟨mid, -, e, he, hi, -, hattempt, -⟩
  · obtain rfl : winner = selected := by simpa [hcuts] using hget
    rw [hback] at href
    cases href
    exact le_refl _
  · have hslot : (m₁.cutsOf id)[e.2]? = some e.1 := by
      rw [hcuts] at he ⊢
      exact getElem?_of_mem_zipIdx he
    obtain rfl : e.1 = selected := Option.some_inj.1 (hslot.symm.trans (hi ▸ hget))
    have hput := (hr₁.agree.symm.trans hr.agree).reference
      (grounded_cones hr₁.valid hr₁.listed).falling Topped.not_lt (below_cones (hfit e he)).within
      (Prod.ext rfl hattempt)
    obtain rfl : added = best.1 := by simpa using congrArg Prod.snd (href.symm.trans hput)
    exact hchain.2

theorem refineWinner_recovered [Topped α] (h : Valid m) (hl : Listed m) (hc : Consistent m)
    (hexact : ∀ k, Timed.Exact (m.cones.area k)) (hid : (m.net.node id).isLogic = true)
    (ha : m.isActive id = true) :
    (m.refineWinner id).Ensures fun m' => Refined m id m' ∧ Recovered m id m' := by
  obtain ⟨winner, -, -, hwin⟩ := hl.exists_winner hid
  obtain ⟨u, freed, hrem⟩ := removed_ok h hl hc hexact hid ha hwin
  obtain ⟨t, hback, hact, hfan⟩ := hrem.back
  have hfalling := (grounded_cones h hl).falling
  have hp : m.cones.Within id winner.leaves := hfalling.within hid hwin
  refine (refineWinner_cases h hl hc hid ha).mono fun m' hm' => ?_
  obtain ⟨hr, hout⟩ := hm'
  have hback' : m'.cones.reference winner Quantity.infinity u = (t, .ok freed) :=
    hr.agree.reference hfalling Topped.not_lt hp hback
  refine ⟨hr, ?_⟩
  cases hout with
  | kept hsel hu =>
    exact hrem.recovered hr hexact hid hwin (hsel.trans hwin) hback' (by rw [hact, hu]; rfl)
      (by rw [hfan, hu]; rfl) (le_refl _)
  | @exchanged m₁ winner₁ others u₁ freed₁ hr₁ hu₁ hwin₁ hcuts hderef hx =>
    obtain rfl : winner = winner₁ := Option.some_inj.1 (hwin.symm.trans hwin₁)
    -- the walk that had a limit is the one without
    have hp₁ : m₁.cones.Within id winner.leaves := by
      rw [Cones.Within, hr₁.agree.net]
      exact hp
    have hsame : m.cones.deref winner Quantity.infinity m.usage = (u₁, .ok freed₁) :=
      hr₁.agree.symm.deref (grounded_cones hr₁.valid hr₁.listed).falling Topped.not_lt hp₁ hderef
    obtain ⟨rfl, rfl⟩ : u = u₁ ∧ freed = freed₁ := by simpa [hrem.deref] using hsame
    obtain ⟨selected, added, hsel, href, hle⟩ :=
      hx.cost_le hr₁ hr hexact hrem.settled hrem.exact hcuts hback'
    exact hrem.recovered hr hexact hid hwin hsel href rfl rfl hle

section Rounds

/-- The costs of all cuts are exact if those of the parameters are. -/
theorem exact_cutArea {p : Params α} (hlut : ∀ x ∈ p.lutCost, Timed.Exact x)
    (hmux : Timed.Exact p.muxCost) (size muxDepth : Nat) :
    Timed.Exact (p.cutArea size muxDepth) := by
  unfold Params.cutArea
  split
  · refine (Timed.mul_exact hmux ?_).1
    rw [Timed.ofNat_eq]
    exact Timed.exact_num _
  · rw [Array.getD_eq_getD_getElem?]
    cases hget : p.lutCost.toArray[size]? with
    | none => exact Timed.exact_zero
    | some x => exact hlut x ⟨Array.mem_of_getElem? hget⟩

theorem Steady.exact (h : Steady m m') (hexact : ∀ k, Timed.Exact (m.cones.area k)) (k : Cut) :
    Timed.Exact (m'.cones.area k) := by
  rw [Cones.area, show m'.cones.params = m.cones.params from h.params]
  exact hexact k

variable [Topped α]

/-- A visit to a gate that has a choice refines it. A departure has no area. -/
theorem refineNode_recovered (h : Valid m) (hl : Listed m) (hc : Consistent m)
    (hexact : ∀ k, Timed.Exact (m.cones.area k)) (hlive : m.net.isLive id = true) :
    (m.refineNode id).Ensures fun m' => Covered m m' ∧ m'.mappedArea ≤ m.mappedArea := by
  unfold Mapper.refineNode
  split
  · rename_i hcond
    simp only [Bool.and_eq_true] at hcond
    obtain ⟨⟨ha, hid⟩, -⟩ := hcond
    refine (refineWinner_recovered h hl hc hexact hid ha).bind fun m₁ hm₁ => ?_
    obtain ⟨hr, winner, selected, u, u', freed, added, -, -, -, -, -, -, hdiff, hle⟩ := hm₁
    have hnet : m₁.net = m.net := hr.steady.net
    rw [propagate_eq hr.valid hr.listed (hnet ▸ hlive) false]
    refine .ok ⟨hr.covered.trans (covered_departStep hr.valid hr.listed hr.consistent id), ?_⟩
    show m₁.mappedArea ≤ m.mappedArea
    linarith
  · rw [propagate_eq h hl hlive false]
    exact .ok ⟨covered_departStep h hl hc id, le_refl m.mappedArea⟩

/-- So it is for any number of visits. -/
theorem refineAll_recovered (h : Valid m) (hl : Listed m) (hc : Consistent m)
    (hexact : ∀ k, Timed.Exact (m.cones.area k)) {ids : List NodeId}
    (hlive : ∀ id ∈ ids, m.net.isLive id = true) :
    (visitAll Mapper.refineNode ids m.clearDepart).Ensures fun m' =>
      Covered m m' ∧ m'.mappedArea ≤ m.mappedArea := by
  refine Step.Ensures.visitAll (I := fun _ m' => Covered m m' ∧ m'.mappedArea ≤ m.mappedArea)
    ⟨covered_clearDepart h hl hc, le_refl m.mappedArea⟩ fun id rest m' hsuf hm' => ?_
  obtain ⟨hm', hle⟩ := hm'
  have hnet : m'.net = m.net := hm'.steady.net
  refine (refineNode_recovered hm'.valid hm'.listed hm'.consistent (hm'.steady.exact hexact)
    (hnet ▸ hlive id (hsuf.subset (by simp)))).mono fun m'' hm'' => ?_
  exact ⟨hm'.trans hm''.1, hm''.2.trans hle⟩

/-- In every round that refines, the mapping is no larger after refinement than before. Each winner
that is refined on the way changes the area by the cost of the cut that is put in, less the cost of
the one that was taken out, and that is never more. -/
theorem area_never_grows (p : Params α) (ws : Workspace α) {m m' : Mapper α} {n : Nat}
    (hm : Mapper.start p ws = .ok m) (hr : Rounds n m m') (hn : 0 < n) (hrefine : p.refine = true)
    (hlut : ∀ x ∈ p.lutCost, Timed.Exact x) (hmux : Timed.Exact p.muxCost) :
    ∃ m₁ m₂ m₃, Mapper.generateAll { m' with enumerated := 0 } = .ok m₁ ∧
      m₁.discoverActive.bind Mapper.computeDepartures = .ok m₂ ∧ m₂.exactLocalArea = .ok m₃ ∧
      m'.coverRound = m₃.measureDelay.backfillDepartures.measureArea ∧
      m₃.mappedArea ≤ m₂.mappedArea ∧
      ∀ visited id rest, m₂.order.reverse = visited ++ id :: rest →
        ∃ m₄, visitAll Mapper.refineNode visited m₂.clearDepart = .ok m₄ ∧
          (m₄.isActive id = true → (m₄.net.node id).isLogic = true →
            ∃ m₅, m₄.refineWinner id = .ok m₅ ∧ Recovered m₄ id m₅) := by
  have hs := Started.of_start hm
  have hb := hs.between.rounds_ok hr
  have h₀ : Valid { m' with enumerated := 0 } := { hb.valid with }
  obtain ⟨m₁, hm₁, hv₁, hs₁, -, hl₁⟩ := generateAll_ok h₀
  obtain ⟨m₂, hm₂, hc₂⟩ := activeCover_ok hv₁ hl₁
  have hround : m₂.round = n := hc₂.steady.round.trans (hs₁.round.trans hb.round)
  have hparams : m₂.params = p :=
    hc₂.steady.params.trans (hs₁.params.trans (hb.params.trans hs.fresh.params))
  have hexact (k : Cut) : Timed.Exact (m₂.cones.area k) := by
    rw [Cones.area, show m₂.cones.params = p from hparams]
    exact exact_cutArea hlut hmux k.size k.muxDepth
  have hlive (id : NodeId) (hid : id ∈ m₂.order.reverse) : m₂.net.isLive id = true := by
    rwa [List.mem_reverse, hc₂.valid.order, Network.mem_upOrder] at hid
  have hvisited {ids : List NodeId} (hids : ids ⊆ m₂.order.reverse) :=
    refineAll_recovered hc₂.valid hc₂.listed hc₂.consistent hexact fun id hid => hlive id (hids hid)
  obtain ⟨m₃, hm₃, -, hle⟩ := hvisited (List.Subset.refl _)
  refine ⟨m₁, m₂, m₃, hm₁, hm₂, hm₃, ?_, hle, fun visited id rest hsplit => ?_⟩
  · have hrefines : (decide (0 < m₂.round) && m₂.params.refine) = true := by
      rw [hround, hparams, hrefine, decide_eq_true hn, Bool.and_self]
    rw [coverRound_eq, hm₁, Except.bind, Mapper.cover, hm₂, Except.bind, if_pos hrefines,
      Mapper.exactLocalArea, hm₃, Except.bind]
  · obtain ⟨m₄, hm₄, hc₄, -⟩ := hvisited (hsplit ▸ List.subset_append_left visited (id :: rest))
    refine ⟨m₄, hm₄, fun ha hid => ?_⟩
    obtain ⟨m₅, hm₅, -, hrec⟩ := refineWinner_recovered hc₄.valid hc₄.listed hc₄.consistent
      (hc₄.steady.exact hexact) hid ha
    exact ⟨m₅, hm₅, hrec⟩

end Rounds

theorem area_never_grows_conjunction : ∃ m m' m₁ m₂ m₃ : Mapper Mixed,
    Mapper.start .standard ⟨conjunction, none, #[]⟩ = .ok m ∧ Rounds 1 m m' ∧
      Mapper.generateAll { m' with enumerated := 0 } = .ok m₁ ∧
      m₁.discoverActive.bind Mapper.computeDepartures = .ok m₂ ∧ m₂.exactLocalArea = .ok m₃ ∧
      m₃.mappedArea ≤ m₂.mappedArea := by
  obtain ⟨m, hm⟩ := start_conjunction (α := Mixed) (p := .standard) (by decide) (by decide) none
  have hs := Started.of_start hm
  have hlast : m.lastRound + 1 = 4 := hs.lastRound
  obtain ⟨m', hr⟩ := hs.between.exists_rounds (show 1 ≤ m.lastRound by omega)
  have hlut (x : Mixed) (hx : x ∈ (Params.standard : Params Mixed).lutCost) : Timed.Exact x := by
    obtain rfl : x = 1 := (Vector.mem_replicate.1 hx).2
    exact Timed.exact_one
  obtain ⟨m₁, m₂, m₃, hm₁, hm₂, hm₃, -, hle, -⟩ :=
    area_never_grows _ _ hm hr (by decide) rfl hlut Timed.exact_one
  exact ⟨m, m', m₁, m₂, m₃, hm, hr, hm₁, hm₂, hm₃, hle⟩

end TechMap.Mapping

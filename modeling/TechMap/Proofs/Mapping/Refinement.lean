import Mathlib
import TechMap.Mapping.Refinement
import TechMap.Proofs.Mapping.Cover
import TechMap.Proofs.Mapping.Reference
import TechMap.Proofs.Numeric.Top

/-! Refinement of winners. Taking a winner out and putting a cut in leaves a consistent cover, and
the cut that is put in fits: either an attempt with it succeeded or it is the one taken out. -/

namespace TechMap.Mapping

variable {α : Type} {m : Mapper α} {id : NodeId}

theorem lt_size_of_isActive (h : Valid m) (ha : m.isActive id = true) : id < m.net.size := by
  rw [← h.active]
  by_contra hn
  rw [Mapper.isActive, Array.getD_eq_getD_getElem?, Array.getElem?_eq_none (Nat.le_of_not_lt hn)] at ha
  cases ha

/-- What the other nodes use. -/
abbrev Mapper.otherUses (m : Mapper α) (id : NodeId) : NodeId → List NodeId :=
  Function.update m.uses id []

theorem Consistent.tally (h : Consistent m) (hv : Valid m) (ha : m.isActive id = true) :
    Tally m.net (m.otherUses id) m.usage (m.uses id) [] where
  active := hv.active
  fanouts := hv.fanouts
  balance v hlogic := by
    rw [h.counts v hlogic, demand_except _ (lt_size_of_isActive hv ha) ha]
    rfl
  used := h.used
  through v hav l hl hpass := by
    by_cases he : v = id
    · rw [he, Mapper.otherUses, Function.update_self] at hl
      cases hl
    · rw [Mapper.otherUses, Function.update_of_ne he] at hl
      exact .inl (h.through v hav l hl hpass)

theorem consistent_of_tally (hv : Valid m) (ha : m.isActive id = true)
    (h : Tally m.net (m.otherUses id) m.usage (m.uses id) [])
    (hthrough : ∀ l ∈ m.uses id, (m.net.node l).isPassThrough = true → m.isActive l = true)
    (hsinks : ∀ i, (m.net.node i).isSink = true → m.isActive i = true)
    (hlive : ∀ i, m.isActive i = true → m.net.isLive i = true) : Consistent m where
  sinks := hsinks
  live := hlive
  counts v hlogic := by
    have := h.balance v hlogic
    rw [List.count_nil, Nat.add_zero] at this
    rw [this, demand_except m.uses (lt_size_of_isActive hv ha) ha]
  used := h.used
  through v hav l hl hpass := by
    by_cases he : v = id
    · exact hthrough l (he ▸ hl) hpass
    · rcases h.through v hav l (by rwa [Mapper.otherUses, Function.update_of_ne he]) hpass with h | h
      · exact h
      · cases h

/-- The cover stays as it is when the winners and the counts do. -/
theorem Consistent.congr {m' : Mapper α} (h : Consistent m) (hnet : m'.net = m.net)
    (huses : m'.uses = m.uses) (hactive : m'.usage.active = m.usage.active)
    (hfanouts : m'.usage.fanouts = m.usage.fanouts) : Consistent m' := by
  have hflag (i : NodeId) : m'.isActive i = m.isActive i := by rw [Mapper.isActive, hactive]; rfl
  have hcount (i : NodeId) : m'.usage.count i = m.usage.count i := by
    rw [Usage.count, hfanouts]; rfl
  refine ⟨fun i hi => ?_, fun i hi => ?_, fun v hi => ?_, fun v hi => ?_, fun v hi l hl hpass => ?_⟩
  · rw [hflag]; exact h.sinks i (hnet ▸ hi)
  · rw [hnet]; exact h.live i (hflag i ▸ hi)
  · rw [hcount, hnet, huses, hactive]; exact h.counts v (hnet ▸ hi)
  · rw [hcount, hflag]; exact h.used v (hnet ▸ hi)
  · rw [hflag]; exact h.through v (hflag v ▸ hi) l (huses ▸ hl) (hnet ▸ hpass)

theorem uses_setCuts (m : Mapper α) {id : NodeId} (hid : id < m.cuts.size) (cuts : List Cut)
    {i : NodeId} (h : i ≠ id) : (m.setCuts id cuts).uses i = m.uses i := by
  have hget : (m.setCuts id cuts).cuts.getD i [] = m.cuts.getD i [] :=
    (cutsOf_setCuts m hid cuts i).trans (if_neg h)
  rw [Mapper.uses, usesOf, hget]
  rfl

theorem otherUses_setCuts (m : Mapper α) {id : NodeId} (hid : id < m.cuts.size)
    (cuts : List Cut) : (m.setCuts id cuts).otherUses id = m.otherUses id := by
  funext i
  by_cases h : i = id
  · simp [h, Mapper.otherUses]
  · rw [Mapper.otherUses, Mapper.otherUses, Function.update_of_ne h, Function.update_of_ne h,
      uses_setCuts m hid cuts h]

/-- The gates below `id` have winners, whatever its own list is. -/
theorem winning_cones (hv : Valid m) (hl : Listed m) (id : NodeId) :
    m.cones.Winning (m.otherUses id) id := by
  intro v hlt hlogic
  cases hw : m.cutsOf v with
  | nil => exact absurd hw (hl v hlogic)
  | cons winner rest =>
    have hfit := hv.stored v winner (by simp [hw])
    refine ⟨winner, ?_, ?_, fun l hl => ⟨hfit.lt l hl, hfit.live l hl⟩⟩
    · show (m.cutsOf v).head? = _
      rw [hw]
      rfl
    · rw [Mapper.otherUses, Function.update_of_ne (ne_of_lt hlt), uses_of_isLogic hlogic hw]

theorem below_cones {cut : Cut} (h : Fits m.net m.params.muxes id cut) :
    m.cones.Below id cut.leaves := fun l hl => ⟨h.lt l hl, h.live l hl⟩

/-- The winner that is in could be put in. -/
theorem Consistent.fitting (h : Consistent m) (hv : Valid m) (hid : (m.net.node id).isLogic = true)
    (ha : m.isActive id = true) {winner : Cut} {others : List Cut}
    (hcuts : m.cutsOf id = winner :: others) {u : Usage}
    (hflag : ∀ v, (m.net.node v).isLogic = false → u.active.getD v false = m.isActive v) :
    Cones.Fitting m.net (m.otherUses id) u winner := by
  have huses : m.uses id = winner.leaves := uses_of_isLogic hid hcuts
  refine ⟨m.usage, huses ▸ h.tally hv ha, fun l hl => h.through id ha l (huses ▸ hl),
    fun v hv => (hflag v ?_).symm⟩
  simpa using Node.not_isLogic_of_isPassThrough hv

/-- Gates are live, so flags that differ only there are flags of live nodes. -/
theorem isLive_of_same {net : Network} {active active' : NodeId → Bool}
    (hlive : ∀ v, active v = true → net.isLive v = true)
    (hflag : ∀ v, (net.node v).isLogic = false → active' v = active v) {v : NodeId}
    (hv : active' v = true) : net.isLive v = true := by
  cases hlogic : (net.node v).isLogic with
  | true => exact Network.isLive_of_isLogic hlogic
  | false => exact hlive v (hflag v hlogic ▸ hv)

theorem setCuts_setCuts (m : Mapper α) (id : NodeId) (cuts cuts' : List Cut) :
    (m.setCuts id cuts).setCuts id cuts' = m.setCuts id cuts' := by
  simp only [Mapper.setCuts, Array.setIfInBounds_setIfInBounds]

/-- What the refinement of one gate does to the rest. -/
structure Refined (m : Mapper α) (id : NodeId) (m' : Mapper α) : Prop where
  valid : Valid m'
  steady : Steady m m'
  listed : Listed m'
  consistent : Consistent m'
  est : m'.est = m.est
  retained : m'.retained = m.retained
  others : ∀ i, i ≠ id → m'.cutsOf i = m.cutsOf i
  list : Rearranged (m'.cutsOf id) (m.cutsOf id)
  flags : ∀ v, (m.net.node v).isLogic = false ∨ id ≤ v → m'.isActive v = m.isActive v

theorem Refined.trans {m₁ m₂ : Mapper α} (h : Refined m id m₁) (h' : Refined m₁ id m₂) :
    Refined m id m₂ where
  valid := h'.valid
  steady := h.steady.trans h'.steady
  listed := h'.listed
  consistent := h'.consistent
  est := h'.est.trans h.est
  retained := h'.retained.trans h.retained
  others i hi := (h'.others i hi).trans (h.others i hi)
  list := h'.list.trans h.list
  flags v hv := by
    have hnet : m₁.net = m.net := h.steady.net
    exact (h'.flags v (hnet ▸ hv)).trans (h.flags v hv)

theorem refreshOthers_ok (h : Valid m) {winner : Cut} {others : List Cut}
    (hcuts : m.cutsOf id = winner :: others) : ∃ others',
    m.refreshOthers id = some (m.setCuts id (winner :: others')) ∧
      List.Forall₂ SameShape others' others := by
  have hall : (others.all fun c => !c.isMux || m.inRange c) = true := by
    rw [List.all_eq_true]
    intro c hc
    rw [h.inRange (h.stored id c (by simp [hcuts, hc])), Bool.or_true]
  refine ⟨others.map (m.setCuts id []).refreshDepth, ?_, ?_⟩
  · unfold Mapper.refreshOthers
    rw [hcuts]
    dsimp only
    rw [if_pos hall, setCuts_setCuts]
  · rw [List.forall₂_map_left_iff]
    exact List.forall₂_same.2 fun c _ => sameShape_refreshDepth _ c

/-- A list of the same shapes fits as well. -/
theorem fits_of_forall₂ {net : Network} {muxes : Bool} {cuts cuts' : List Cut}
    (h : List.Forall₂ SameShape cuts' cuts) (hf : ∀ c ∈ cuts, Fits net muxes id c) :
    ∀ c ∈ cuts', Fits net muxes id c := by
  induction h with
  | nil => simp
  | cons hs _ ih =>
    intro c hc
    rcases List.mem_cons.1 hc with rfl | hc
    · exact (hf _ (by simp)).congr hs.leaves fun hm => hs.isMux ▸ hm
    · exact ih (fun c hc => hf c (List.mem_cons_of_mem _ hc)) c hc

variable [Quantity α]

theorem withUsage_attempt (h : Valid m) (hl : Listed m) {cut : Cut} (limit : α)
    (hfit : Fits m.net m.params.muxes id cut)
    (ht : Tally m.net (m.otherUses id) m.usage [] []) :
    ∃ r, (m.withUsage fun c => c.attempt cut limit) =
      ({ m with usage := m.usage.clearUndo }, r) ∧ r ≠ .error .outOfRange ∧
        ∀ a, r = .ok a → Cones.Fitting m.net (m.otherUses id) m.usage cut := by
  obtain ⟨h1, h2, h3⟩ := Cones.attempt_spec (winning_cones h hl id) ht
    (below_cones hfit)
  refine ⟨(m.cones.attempt cut limit m.usage).2, ?_, h2, h3⟩
  unfold Mapper.withUsage
  rw [← h1]

/-- A cut of the list that is in time beats the best one so far. -/
def Mapper.Cheaper (m : Mapper α) (id : NodeId) (cuts : List (Cut × Nat)) (best best' : α × Nat) :
    Prop :=
  ∃ e ∈ cuts, best'.2 = e.2 ∧ m.isLate id e.1 = false ∧
    (m.cones.attempt e.1 best.1 m.usage).2 = .ok best'.1 ∧ Quantity.lt best'.1 best.1 = true

theorem Mapper.Cheaper.mono {cuts cuts' : List (Cut × Nat)} (hsub : cuts ⊆ cuts') {best best' : α × Nat}
    (h : Relation.ReflTransGen (m.Cheaper id cuts) best best') :
    Relation.ReflTransGen (m.Cheaper id cuts') best best' := by
  refine Relation.ReflTransGen.mono ?_ _ _ h
  rintro _ _ ⟨e, he, hstep⟩
  exact ⟨e, hsub he, hstep⟩

/-- Trying cuts changes no count, and ends with the last of those that each beat the one before. -/
theorem tryCuts_ok (h : Valid m) (hl : Listed m) {depth : Nat} {cuts : List (Cut × Nat)}
    (hfit : ∀ e ∈ cuts, Fits m.net m.params.muxes id e.1) (best : α × Nat)
    (ht : Tally m.net (m.otherUses id) m.usage [] []) :
    ∃ u best', Mapper.tryCuts id depth cuts best m = .ok ({ m with usage := u }, best'.2) ∧
      u.clearUndo = m.usage.clearUndo ∧
      Relation.ReflTransGen (m.Cheaper id cuts) best best' := by
  induction cuts generalizing m best with
  | nil => exact ⟨m.usage, best, rfl, rfl, .refl⟩
  | cons e rest ih =>
    obtain ⟨cut, i⟩ := e
    have hcut := hfit (cut, i) (by simp)
    have hrest := fun e he => hfit e (List.mem_cons_of_mem _ he)
    have hsub : rest ⊆ (cut, i) :: rest := List.subset_cons_self _ _
    -- the rest is tried in this state, or in the one that an attempt leaves
    have hskip : ∃ u best', Mapper.tryCuts id depth rest best m = .ok ({ m with usage := u }, best'.2) ∧
        u.clearUndo = m.usage.clearUndo ∧
        Relation.ReflTransGen (m.Cheaper id ((cut, i) :: rest)) best best' := by
      obtain ⟨u, best', hr, hu, hb⟩ := ih h hl hrest best ht
      exact ⟨u, best', hr, hu, Mapper.Cheaper.mono hsub hb⟩
    have hnext (best : α × Nat) : ∃ u best', Mapper.tryCuts id depth rest best
        { m with usage := m.usage.clearUndo } = .ok ({ m with usage := u }, best'.2) ∧
        u.clearUndo = m.usage.clearUndo ∧
        Relation.ReflTransGen (m.Cheaper id ((cut, i) :: rest)) best best' := by
      have h₁ : Valid { m with usage := m.usage.clearUndo } := { h with }
      obtain ⟨u, best', hr, hu, hb⟩ := ih (m := { m with usage := m.usage.clearUndo }) h₁ hl hrest
        best ht.clearUndo
      exact ⟨u, best', hr, hu, Mapper.Cheaper.mono (m := m) hsub hb⟩
    rw [Mapper.tryCuts]
    split
    · exact hskip
    rw [h.inRange hcut, Bool.not_true, if_neg (by simp)]
    cases hlate : m.isLate id cut with
    | true => exact hskip
    | false =>
      obtain ⟨r, hr, hne, -⟩ := withUsage_attempt h hl best.1 hcut ht
      have hattempt : (m.cones.attempt cut best.1 m.usage).2 = r := congrArg Prod.snd hr
      rw [if_neg (by simp), hr]
      match r with
      | .error .outOfRange => exact absurd rfl hne
      | .error .overLimit => exact hnext best
      | .error (.inactiveLeaf _) => exact hnext best
      | .error (.noCuts _) => exact hnext best
      | .ok cost =>
        dsimp only
        split
        · rename_i hlt
          obtain ⟨u, best', hr, hu, hb⟩ := hnext (cost, i)
          have hstep : m.Cheaper id ((cut, i) :: rest) best (cost, i) :=
            ⟨(cut, i), by simp, rfl, hlate, hattempt, hlt⟩
          exact ⟨u, best', hr, hu, .head hstep hb⟩
        · exact hnext best

section Promotion

omit [Quantity α]

theorem Valid.promote (h : Valid m) (id : NodeId) (i : Nat) :
    Valid (m.setCuts id (Cut.promote (m.cutsOf id) i)) :=
  h.setCuts fun c hc => h.stored id c ((Cut.perm_promote (m.cutsOf id) i).mem_iff.1 hc)

theorem Listed.promote (hl : Listed m) (hlt : id < m.cuts.size)
    (hid : (m.net.node id).isLogic = true) (i : Nat) :
    Listed (m.setCuts id (Cut.promote (m.cutsOf id) i)) := by
  intro j hj
  rw [cutsOf_setCuts m hlt]
  split
  · intro hnil
    have hperm := Cut.perm_promote (m.cutsOf id) i
    rw [hnil] at hperm
    exact hl id hid hperm.symm.eq_nil
  · exact hl j hj

theorem winner?_promote (hlt : id < m.cuts.size) {i : Nat} (hi : i < (m.cutsOf id).length) :
    (m.setCuts id (Cut.promote (m.cutsOf id) i)).winner? id = some (m.cutsOf id)[i] := by
  rw [Mapper.winner?, cutsOf_setCuts m hlt, if_pos rfl, Cut.head?_promote hi]

end Promotion

theorem installWinner_eq {cut : Cut} {i : Nat} {u : Usage} {cost : α}
    (hw : (m.setCuts id (Cut.promote (m.cutsOf id) i)).winner? id = some cut)
    (hr : (m.setCuts id (Cut.promote (m.cutsOf id) i)).cones.reference cut Quantity.infinity m.usage =
      (u, .ok cost)) :
    m.installWinner id i =
      .ok { m.setCuts id (Cut.promote (m.cutsOf id) i) with usage := u } := by
  unfold Mapper.installWinner
  dsimp only
  rw [hw]
  dsimp only [Mapper.withUsage]
  rw [show (m.setCuts id (Cut.promote (m.cutsOf id) i)).usage = m.usage from rfl, hr]

variable [Topped α]

/-- A fitting cut is promoted and put in. -/
theorem installWinner_ok (h : Valid m) (hl : Listed m) (hid : (m.net.node id).isLogic = true)
    (ha : m.isActive id = true) (ht : Tally m.net (m.otherUses id) m.usage [] [])
    (hsinks : ∀ i, (m.net.node i).isSink = true → m.isActive i = true)
    (hlive : ∀ i, m.isActive i = true → m.net.isLive i = true) {i : Nat}
    (hi : i < (m.cutsOf id).length)
    (hfit : Cones.Fitting m.net (m.otherUses id) m.usage (m.cutsOf id)[i]) :
    (m.installWinner id i).Ensures fun m' => Refined m id m' ∧
      m'.winner? id = some (m.cutsOf id)[i] ∧
      ∃ cost, m'.cones.reference (m.cutsOf id)[i] Quantity.infinity m.usage =
        (m'.usage, .ok cost) := by
  have hlt : id < m.cuts.size := h.lt_size (Network.isLive_of_isLogic hid)
  have h₁ := h.promote id i
  have hl₁ := hl.promote hlt hid i
  have hwin := winner?_promote hlt hi
  have huses : (m.setCuts id (Cut.promote (m.cutsOf id) i)).otherUses id = m.otherUses id :=
    otherUses_setCuts m hlt _
  have hw₁ := winning_cones h₁ hl₁ id
  rw [huses] at hw₁
  have hbelow := below_cones (m := m.setCuts id (Cut.promote (m.cutsOf id) i))
    (h.stored id _ (List.getElem_mem hi))
  obtain ⟨u, a, hr⟩ := Cones.reference_ok (Topped.not_lt) hw₁ ht hbelow hfit
  have hused := Cones.reference_spec Quantity.infinity hw₁ ht hbelow
  rw [hr] at hused
  rw [installWinner_eq hwin hr]
  have htally := hused.tally a rfl
  have hv' : Valid { m.setCuts id (Cut.promote (m.cutsOf id) i) with usage := u } :=
    { h₁ with active := htally.active, fanouts := htally.fanouts }
  have hflag (v : NodeId) (hv : (m.net.node v).isLogic = false ∨ id ≤ v) :
      u.active.getD v false = m.isActive v := Cones.same_of_outside (hused.flags v) hv
  have huseId : ({ m.setCuts id (Cut.promote (m.cutsOf id) i) with usage := u } : Mapper α).uses id =
      (m.cutsOf id)[i].leaves := uses_of_winner? hid hwin
  refine .ok ⟨⟨hv', ⟨rfl, rfl, rfl, rfl, rfl, rfl⟩, hl₁, ?_, rfl, rfl, fun j hj => ?_, ?_, hflag⟩,
    hwin, a, hr⟩
  · refine consistent_of_tally hv' ((hflag id (.inr (Nat.le_refl _))).trans ha) ?_
      (fun l hl hpass => hused.through a rfl l (huseId ▸ hl) hpass) (fun j hj => ?_)
      fun j hj => isLive_of_same hlive (fun v hv => hflag v (.inl hv)) hj
    · rw [huseId]
      exact huses ▸ htally
    · exact (hflag j (.inl (Node.not_isLogic_of_isSink hj))).trans (hsinks j hj)
  · exact (cutsOf_setCuts m hlt _ j).trans (if_neg hj)
  · show Rearranged ((m.setCuts id (Cut.promote (m.cutsOf id) i)).cutsOf id) (m.cutsOf id)
    rw [cutsOf_setCuts m hlt, if_pos rfl]
    exact .of_perm (Cut.perm_promote _ i)

/-- The winner stays, or a cut of the list that is in time takes its place. -/
def Replaced (m : Mapper α) (id : NodeId) (m' : Mapper α) : Prop :=
  ∃ w w', m.winner? id = some w ∧ m'.winner? id = some w' ∧ (w' = w ∨
    (∃ d ∈ m.cutsOf id, SameShape w' d) ∧ m.isLate id w' = false)

theorem getElem?_of_mem_zipIdx {w : Cut} {others : List Cut} {e : Cut × Nat}
    (h : e ∈ others.zipIdx 1) : (w :: others)[e.2]? = some e.1 := by
  obtain ⟨c, i⟩ := e
  obtain ⟨h1, hc⟩ := List.mk_mem_zipIdx_iff_le_and_getElem?_sub.1 h
  obtain ⟨j, rfl⟩ := Nat.exists_eq_add_of_le h1
  rw [Nat.add_comm, List.getElem?_cons_succ]
  simpa using hc

/-- In the place of a winner that was taken out goes the last of the cuts that each beat the one
before, the first of them being the winner. -/
def Exchanged (m : Mapper α) (id : NodeId) (u : Usage) (cost : α) (m' : Mapper α) : Prop :=
  ∃ best w cost', Relation.ReflTransGen
      (({ m with usage := u } : Mapper α).Cheaper id ((m.cutsOf id).tail.zipIdx 1)) (cost, 0) best ∧
    (m.cutsOf id)[best.2]? = some w ∧ m'.winner? id = some w ∧
    m'.cones.reference w Quantity.infinity u = (m'.usage, .ok cost')

/-- What follows once a winner is taken out. -/
theorem exchange_ok (h : Valid m) (hl : Listed m) (hc : Consistent m)
    (hid : (m.net.node id).isLogic = true) (ha : m.isActive id = true) {winner : Cut}
    {others : List Cut} (hcuts : m.cutsOf id = winner :: others) {u : Usage} {cost : α}
    (hfreed : Cones.Freed m.cones (m.otherUses id) id m.usage.clearUndo (u, .ok cost)) :
    Step.Ensures (match Mapper.tryCuts id winner.muxDepth (others.zipIdx 1) (cost, 0)
        { m with usage := u } with
      | .error e => .error e
      | .ok (m, i) => m.installWinner id i) fun m' => Refined m id m' ∧ Exchanged m id u cost m' := by
  have ht := hfreed.tally cost rfl
  have h₁ : Valid { m with usage := u } := { h with active := ht.active, fanouts := ht.fanouts }
  have hfits (e : Cut × Nat) (he : e ∈ others.zipIdx 1) : Fits m.net m.params.muxes id e.1 := by
    refine h.stored id e.1 ?_
    rw [hcuts]
    exact List.mem_cons_of_mem _ (List.fst_mem_of_mem_zipIdx he)
  obtain ⟨u', best, htry, hu', hbest⟩ := tryCuts_ok h₁ hl hfits (cost, 0) ht
  have hactive : u'.active = u.active := by have := congrArg Usage.active hu'; exact this
  have hfanouts : u'.fanouts = u.fanouts := by have := congrArg Usage.fanouts hu'; exact this
  have hflag (v : NodeId) (hv : (m.net.node v).isLogic = false ∨ id ≤ v) :
      u'.active.getD v false = m.isActive v := by
    rw [hactive]
    exact Cones.same_of_outside (hfreed.flags v) hv
  have ht' : Tally m.net (m.otherUses id) u' [] [] := ht.congr hactive hfanouts
  -- the winner can be put back in, and any other cut was put in to try it
  obtain ⟨w, hget, hfit⟩ : ∃ w, (m.cutsOf id)[best.2]? = some w ∧
      Cones.Fitting m.net (m.otherUses id) u' w := by
    rcases hbest.cases_tail with rfl | ⟨_, -, e, he, hi, -, hattempt, -⟩
    · exact ⟨winner, by rw [hcuts]; rfl, hc.fitting h hid ha hcuts fun v hv => hflag v (.inl hv)⟩
    · have hfit : Cones.Fitting m.net (m.otherUses id) u e.1 :=
        (Cones.attempt_spec (winning_cones h₁ hl id) ht (below_cones (hfits e he))).2.2 _ hattempt
      exact ⟨e.1, by rw [hcuts, hi]; exact getElem?_of_mem_zipIdx he, hfit.congr hactive⟩
  obtain ⟨hlt, rfl⟩ := List.getElem?_eq_some_iff.1 hget
  rw [htry]
  dsimp only
  have h₂ : Valid { m with usage := u' } := { h with active := ht'.active, fanouts := ht'.fanouts }
  refine (installWinner_ok h₂ hl hid ((hflag id (.inr (Nat.le_refl _))).trans ha) ht'
    (fun j hj => (hflag j (.inl (Node.not_isLogic_of_isSink hj))).trans (hc.sinks j hj))
    (fun j hj => isLive_of_same hc.live (fun v hv => hflag v (.inl hv)) hj) hlt hfit).mono
    fun m' hm' => ?_
  obtain ⟨hr, hwin, cost', hreference⟩ := hm'
  refine ⟨⟨hr.valid, ⟨hr.steady.params, hr.steady.work, hr.steady.round, hr.steady.stats,
    hr.steady.finished, hr.steady.target⟩, hr.listed, hr.consistent, hr.est, hr.retained,
    hr.others, hr.list, fun v hv => (hr.flags v hv).trans (hflag v hv)⟩, best, _, cost', ?_,
    List.getElem?_eq_getElem hlt, hwin, ?_⟩
  · rw [hcuts]
    exact hbest
  · rw [← hreference]
    exact Cones.reference_congr hu'.symm

omit [Quantity α] [Topped α] in
/-- A refresh of the depths leaves the winner and the counts. -/
theorem refresh_ok (h : Valid m) (hl : Listed m) (hc : Consistent m)
    (hid : (m.net.node id).isLogic = true) : ∃ m₁ winner others,
    m.refreshOthers id = some m₁ ∧ Refined m id m₁ ∧ m₁.usage = m.usage ∧
      m₁.cutsOf id = winner :: others ∧ m.winner? id = some winner := by
  have hlt : id < m.cuts.size := h.lt_size (Network.isLive_of_isLogic hid)
  obtain ⟨winner, others, hcuts, hwin⟩ := hl.exists_winner hid
  obtain ⟨others', href, hshape⟩ := refreshOthers_ok h hcuts
  set m₁ := m.setCuts id (winner :: others') with hm₁
  have hcuts₁ (j : NodeId) : m₁.cutsOf j = if j = id then winner :: others' else m.cutsOf j :=
    cutsOf_setCuts m hlt _ j
  have hcutsId : m₁.cutsOf id = winner :: others' := (hcuts₁ id).trans (if_pos rfl)
  have hshapes : List.Forall₂ SameShape (m₁.cutsOf id) (m.cutsOf id) := by
    rw [hcutsId, hcuts]
    exact .cons (.refl winner) hshape
  have h₁ : Valid m₁ := h.setCuts (hcutsId ▸ fits_of_forall₂ hshapes (h.stored id))
  have hl₁ : Listed m₁ := fun j hj => by
    rw [hcuts₁]
    split
    · simp
    · exact hl j hj
  have huses : m₁.uses = m.uses := by
    funext j
    by_cases he : j = id
    · rw [he, uses_of_isLogic (m := m₁) hid hcutsId, uses_of_isLogic hid hcuts]
    · exact uses_setCuts m hlt _ he
  exact ⟨m₁, winner, others', href, ⟨h₁, ⟨rfl, rfl, rfl, rfl, rfl, rfl⟩, hl₁,
    hc.congr rfl huses rfl rfl, rfl, rfl, fun j hj => (hcuts₁ j).trans (if_neg hj),
    .of_forall₂ hshapes, fun _ _ => rfl⟩, rfl, hcutsId, hwin⟩

/-- How a refinement ends. -/
inductive Outcome (m : Mapper α) (id : NodeId) (m' : Mapper α) : Prop
  | kept (hwin : m'.winner? id = m.winner? id) (hu : m'.usage = m.usage.clearUndo)
  | exchanged {m₁ : Mapper α} {winner : Cut} {others : List Cut} {u : Usage} {cost : α}
    (hr : Refined m id m₁) (hu : m₁.usage = m.usage) (hwin : m.winner? id = some winner)
    (hcuts : m₁.cutsOf id = winner :: others)
    (hderef : m₁.cones.deref winner (Quantity.ofNat refineLimit) m.usage = (u, .ok cost))
    (hx : Exchanged m₁ id u cost m')

theorem refineWinner_cases (h : Valid m) (hl : Listed m) (hc : Consistent m)
    (hid : (m.net.node id).isLogic = true) (ha : m.isActive id = true) :
    (m.refineWinner id).Ensures fun m' => Refined m id m' ∧ Outcome m id m' := by
  obtain ⟨m₁, winner, others, href, hr₁, hu₁, hcuts, hwin⟩ := refresh_ok h hl hc hid
  have hnet : m₁.net = m.net := hr₁.steady.net
  have hid₁ : (m₁.net.node id).isLogic = true := hnet ▸ hid
  have ha₁ : m₁.isActive id = true := (hr₁.flags id (.inr (Nat.le_refl _))).trans ha
  have hwin₁ : m₁.winner? id = some winner := by rw [Mapper.winner?, hcuts]; rfl
  have hkept (u : Usage) (hu : u = m₁.usage.clearUndo) :
      Refined m id { m₁ with usage := u } ∧ Outcome m id { m₁ with usage := u } := by
    subst hu
    exact ⟨{ hr₁ with
        valid := { hr₁.valid with }
        steady := { hr₁.steady with }
        consistent := hr₁.consistent.congr rfl rfl rfl rfl },
      .kept (hwin₁.trans hwin.symm) (congrArg Usage.clearUndo hu₁)⟩
  have ht₁ := hr₁.consistent.tally hr₁.valid ha₁
  rw [uses_of_isLogic hid₁ hcuts] at ht₁
  have hfreed := Cones.deref_spec (Quantity.ofNat refineLimit)
    (winning_cones hr₁.valid hr₁.listed id) ht₁
    (below_cones (hr₁.valid.stored id winner (by simp [hcuts])))
  unfold Mapper.refineWinner
  rw [href]
  dsimp only
  rw [hcuts]
  dsimp only [Mapper.withUsage]
  cases hd : m₁.cones.deref winner (Quantity.ofNat refineLimit) m₁.usage with
  | mk u r =>
  rw [hd] at hfreed
  have hundo : u.undoRelease = m₁.usage.clearUndo := hfreed.reverts.foldl
  cases r with
  | error e =>
    obtain rfl := hfreed.refusal e rfl
    exact .ok (hkept _ hundo)
  | ok cost =>
    dsimp only
    split
    · refine (exchange_ok hr₁.valid hr₁.listed hr₁.consistent hid₁ ha₁ hcuts hfreed).mono
        fun m' hm' => ?_
      exact ⟨hr₁.trans hm'.1, .exchanged hr₁ hu₁ hwin hcuts (hu₁ ▸ hd) hm'.2⟩
    · exact .ok (hkept _ hundo)

omit [Topped α] in
theorem Outcome.replaced {m' : Mapper α} (h : Outcome m id m') (hl : Listed m)
    (hid : (m.net.node id).isLogic = true) : Replaced m id m' := by
  cases h with
  | kept hwin hu =>
    obtain ⟨w, -, -, hw⟩ := hl.exists_winner hid
    exact ⟨w, w, hw, hwin.trans hw, .inl rfl⟩
  | @exchanged m₁ winner others u cost hr hu hwin hcuts hderef hx =>
    obtain ⟨best, w, -, hbest, hget, hw, -⟩ := hx
    refine ⟨winner, w, hwin, hw, ?_⟩
    rcases hbest.cases_tail with rfl | ⟨_, -, e, he, hi, hlate, -, -⟩
    · left
      simpa [hcuts] using hget.symm
    · rw [hcuts, hi] at hget
      rw [hcuts] at he
      obtain rfl : e.1 = w := Option.some_inj.1 ((getElem?_of_mem_zipIdx he).symm.trans hget)
      have hmem : e.1 ∈ m₁.cutsOf id := hcuts ▸ List.mem_of_getElem? hget
      have hest : (({ m₁ with usage := u } : Mapper α).isLate id e.1) = m.isLate id e.1 := by
        simp only [Mapper.isLate, Mapper.arrivalWith, hr.est, hr.steady.target]
      exact .inr ⟨hr.list.exists_of_mem hmem, hest ▸ hlate⟩

theorem refineWinner_ok (h : Valid m) (hl : Listed m) (hc : Consistent m)
    (hid : (m.net.node id).isLogic = true) (ha : m.isActive id = true) :
    (m.refineWinner id).Ensures fun m' => Refined m id m' ∧ Replaced m id m' :=
  (refineWinner_cases h hl hc hid ha).mono fun _ hm => ⟨hm.1, hm.2.replaced hl hid⟩

/-- A state of the same round with a consistent cover. -/
structure RefinedAll (m m' : Mapper α) : Prop where
  valid : Valid m'
  steady : Steady m m'
  listed : Listed m'
  consistent : Consistent m'

/-- What is kept once the lists are generated: the cuts of each gate, but for their order and the
depths of multiplexers. -/
structure Covered (m m' : Mapper α) : Prop extends RefinedAll m m' where
  lists : ∀ id, Rearranged (m'.cutsOf id) (m.cutsOf id)
  retained : m'.retained = m.retained
  arrival : m'.est.arrival = m.est.arrival

omit [Quantity α] [Topped α] in
theorem Covered.trans {m₁ m₂ : Mapper α} (h : Covered m m₁) (h' : Covered m₁ m₂) :
    Covered m m₂ where
  valid := h'.valid
  steady := h.steady.trans h'.steady
  listed := h'.listed
  consistent := h'.consistent
  lists id := (h'.lists id).trans (h.lists id)
  retained := h'.retained.trans h.retained
  arrival := h'.arrival.trans h.arrival

omit [Quantity α] [Topped α] in
theorem Refined.covered {m' : Mapper α} (h : Refined m id m') : Covered m m' where
  valid := h.valid
  steady := h.steady
  listed := h.listed
  consistent := h.consistent
  lists i := by
    by_cases he : i = id
    · exact he ▸ h.list
    · rw [h.others i he]
      exact .of_perm (.refl _)
  retained := h.retained
  arrival := congrArg Estimates.arrival h.est

/-- A visit refines the winner, if there is a choice, and passes the departure on. -/
theorem refineNode_eq (h : Valid m) (hl : Listed m) (hc : Consistent m)
    (hlive : m.net.isLive id = true) : ∃ m₁, Refined m id m₁ ∧
      ((m.net.node id).isLogic = true → Replaced m id m₁) ∧
        m.refineNode id = .ok (m₁.mapDepart (departStep m₁ id)) := by
  unfold Mapper.refineNode
  split
  · rename_i hcond
    simp only [Bool.and_eq_true] at hcond
    obtain ⟨m₁, hm₁, hr, hreplaced⟩ := refineWinner_ok h hl hc hcond.1.2 hcond.1.1
    have hnet : m₁.net = m.net := hr.steady.net
    refine ⟨m₁, hr, fun _ => hreplaced, ?_⟩
    rw [hm₁]
    exact propagate_eq hr.valid hr.listed (hnet ▸ hlive) false
  · refine ⟨m, ⟨h, .refl m, hl, hc, rfl, rfl, fun _ _ => rfl, .of_perm (.refl _), fun _ _ => rfl⟩,
      fun hid => ?_, propagate_eq h hl hlive false⟩
    obtain ⟨w, rest, -, hwin⟩ := hl.exists_winner hid
    exact ⟨w, w, hwin, hwin, .inl rfl⟩

omit [Topped α] in
theorem covered_departStep (h : Valid m) (hl : Listed m) (hc : Consistent m) (id : NodeId) :
    Covered m (m.mapDepart (departStep m id)) :=
  ⟨⟨{ h with depart := (size_departStep m id _).trans h.depart }, ⟨rfl, rfl, rfl, rfl, rfl, rfl⟩,
    hl, hc.congr rfl rfl rfl rfl⟩, fun _ => .of_perm (.refl _), rfl, rfl⟩

omit [Topped α] in
theorem covered_clearDepart (h : Valid m) (hl : Listed m) (hc : Consistent m) :
    Covered m m.clearDepart :=
  ⟨⟨{ h with depart := Array.size_replicate.trans h.depart }, ⟨rfl, rfl, rfl, rfl, rfl, rfl⟩, hl,
    hc.congr rfl rfl rfl rfl⟩, fun _ => .of_perm (.refl _), rfl, rfl⟩

/-- What every visit keeps, refinement keeps. -/
theorem exactLocalArea_keeps {I : List NodeId → Mapper α → Prop} (h : Valid m) (hl : Listed m)
    (hc : Consistent m) (h0 : I m.net.upOrder.reverse m.clearDepart)
    (hstep : ∀ id rest m' m₁, id :: rest <:+ m.net.upOrder.reverse → Covered m m' →
      I (id :: rest) m' → Refined m' id m₁ → ((m'.net.node id).isLogic = true → Replaced m' id m₁) →
        I rest (m₁.mapDepart (departStep m₁ id))) :
    m.exactLocalArea.Ensures fun m' => Covered m m' ∧ I [] m' := by
  unfold Mapper.exactLocalArea
  rw [h.order]
  refine Step.Ensures.visitAll (I := fun rest m' => Covered m m' ∧ I rest m')
    ⟨covered_clearDepart h hl hc, h0⟩ fun id rest m' hsuf hm' => ?_
  obtain ⟨hm', hI⟩ := hm'
  have hnet : m'.net = m.net := hm'.steady.net
  have hlive : m'.net.isLive id = true := by
    rw [hnet, ← Network.mem_upOrder, ← List.mem_reverse]
    exact hsuf.subset (by simp)
  obtain ⟨m₁, hr, hreplaced, he⟩ := refineNode_eq hm'.valid hm'.listed hm'.consistent hlive
  rw [he]
  exact .ok ⟨hm'.trans (hr.covered.trans
    (covered_departStep hr.valid hr.listed hr.consistent id)),
    hstep id rest m' m₁ hsuf hm' hI hr hreplaced⟩

/-- Refinement keeps the cover consistent. -/
theorem exactLocalArea_ok (h : Valid m) (hl : Listed m) (hc : Consistent m) :
    m.exactLocalArea.Ensures (Covered m) :=
  (exactLocalArea_keeps (I := fun _ _ => True) h hl hc trivial
    fun _ _ _ _ _ _ _ _ _ => trivial).mono fun _ hm => hm.1

end TechMap.Mapping

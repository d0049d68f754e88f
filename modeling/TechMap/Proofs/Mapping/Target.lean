import Mathlib
import TechMap.Proofs.Mapping.Lists
import TechMap.Proofs.Mapping.Slack

/-! The target that the first round sets, when times are exact and there are no multiplexers. What
a cover uses can arrive in the next round early enough for its departure of this round, as the
winner of this round is still to be had. So the next cover can keep the same bound. -/

namespace TechMap.Mapping

open Clock Timed

section Leaves

variable {net : Network} {muxes : Bool} {id : NodeId} {c : Cut}

/-- Outputs are not read, and every gate has an operand that is not the constant. -/
structure Plain (net : Network) : Prop where
  unread : ∀ id, ∀ l ∈ (net.node id).operands, (net.node l.id).isSink = false
  fed : ∀ id, (net.node id).isLogic = true → ∃ l ∈ (net.node id).operands, l.id ≠ NodeId.constant

end Leaves

variable {α : Type} {m m₁ : Mapper α} {id v : NodeId} {w c : Cut}

/-- The winner that a gate has from the round before. -/
def prior (m : Mapper α) (id : NodeId) : Option Cut := (m.winner? id).or (m.retained[id]?).join

theorem prior_eq (hw : prior m id = some w) : m.cutsOf id = [] ∧ (m.retained[id]?).join = some w ∨
    m.cutsOf id ≠ [] ∧ w ∈ m.cutsOf id := by
  rw [prior, Mapper.winner?] at hw
  cases hc : m.cutsOf id with
  | nil =>
    rw [hc] at hw
    exact .inl ⟨rfl, hw⟩
  | cons first rest =>
    rw [hc] at hw
    obtain rfl : first = w := Option.some.inj hw
    exact .inr ⟨by simp, by simp⟩

theorem fits_prior (h : Valid m) (hw : prior m id = some w) :
    Fits m.net m.params.muxes id w := by
  rcases prior_eq hw with ⟨-, hw⟩ | ⟨-, hw⟩
  · exact h.retained id w hw
  · exact h.stored id w hw

/-- A gate can choose its last winner, or a subset of it. -/
theorem dominates_pool (h : Valid m₁) (hcat : Cataloged m₁) (hl : Listed m₁)
    (hm : m₁.params.muxes = false) (hr : m₁.retained = m.retained)
    (hlogic : (m₁.net.node id).isLogic = true) (hw : prior m id = some w) :
    Cut.Dominates (pool m m₁ id) w.leaves := by
  unfold pool
  rcases prior_eq hw with ⟨hnil, hw⟩ | ⟨hne, hw⟩
  · rw [if_pos hnil, Mapper.enumerate, hm, hr, hw]
    have hfind := find?_isNarrow_operands h.canonical hlogic (fun l _ => hcat.lists l.id)
      fun l _ => hl l.id
    simp only [Bool.false_eq_true, if_false, Option.toList_some]
    rw [Cut.product_snd, hfind]
    cases hn : narrowCut? m₁.net id with
    | some d =>
      obtain rfl := (hcat.retained id w (hr ▸ hw)).narrow d hn
      exact Cut.dominates_of_mem (by simp)
    | none =>
      exact Cut.placeAll_keeps (I := fun cuts => Cut.Dominates cuts w.leaves)
        (fun u _ cuts hI => hI.place) (Cut.dominates_of_mem (by simp))
  · rw [if_neg hne]
    exact Cut.dominates_of_mem hw

/-- Active, or a source. -/
def InUse (m : Mapper α) (v : NodeId) : Prop :=
  m.isActive v = true ∨ (m.net.node v).isSource = true

variable [Quantity α] [Timed α] {T D : ℚ}

/-- A LUT takes a level from the latest of its leaves. -/
theorem val_delayOf (ht : ∀ i, IsTime (m.est.arrivalAt i)) (c : Cut) : val (delayOf m c) = 1 ∨
    ∃ l ∈ c.leaves, val (delayOf m c) = val (m.est.arrivalAt l) + 1 := by
  obtain ⟨htime, -, -, hsel⟩ := foldl_max (f := m.est.arrivalAt) (fun l _ => ht l) zero
  have htime : Exact (m.est.latest c) := htime.1
  have hsel : m.est.latest c = 0 ∨ ∃ l ∈ c.leaves, m.est.latest c = m.est.arrivalAt l := hsel
  rw [delayOf, (add_exact htime exact_one).2, val_one]
  obtain h0 | ⟨l, hl, he⟩ := hsel
  · exact Or.inl (by rw [h0, val_zero, zero_add])
  · exact Or.inr ⟨l, hl, by rw [he]⟩

theorem delayOf_add_le (ht : ∀ i, IsTime (m.est.arrivalAt i))
    (hl : ∀ l ∈ c.leaves, val (m.est.arrivalAt l) + (1 + D) ≤ T) (h1 : 1 + D ≤ T) :
    val (delayOf m c) + D ≤ T := by
  rcases val_delayOf ht c with he | ⟨l, hmem, he⟩ <;> rw [he]
  · exact h1
  · linarith [hl l hmem]

/-- What a round goes by that starts after a cover. All paths of that cover meet the bound. -/
structure Planned (m : Mapper α) (T : ℚ) : Prop where
  times : ∀ i, IsTime (m.est.arrivalAt i)
  target : Exact m.target
  target_le : val m.target ≤ T
  nonneg : 0 ≤ T
  live : ∀ v, m.isActive v = true → m.net.isLive v = true
  sinks : ∀ v, (m.net.node v).isSink = true → m.isActive v = true
  departs : ∀ v, InUse m v → IsTime (m.est.departAt v)
  sources : ∀ v, (m.net.node v).isSource = true → val (m.est.departAt v) ≤ T
  gates : ∀ v, m.isActive v = true → (m.net.node v).isLogic = true →
    ∃ w, prior m v = some w ∧ w.leaves ≠ [] ∧ ∀ l ∈ w.leaves, InUse m l ∧
      val (m.est.departAt v) + 1 ≤ val (m.est.departAt l)
  others : ∀ v, m.isActive v = true → (m.net.node v).isLogic = false →
    ∀ l ∈ (m.net.node v).operands, InUse m l.id ∧
      val (m.est.departAt v) + val (Mapper.edgeDelay (m.net.node v) : α) ≤
        val (m.est.departAt l.id)

/-- Generation in a round that started in `m`. -/
structure Regenerated (m m₁ : Mapper α) : Prop where
  steady : Steady m m₁
  times : ∀ i, IsTime (m₁.est.arrivalAt i)
  depart : m₁.est.depart = m.est.depart
  arrived : ∀ id, m.net.isLive id = true → Arrived m m₁ id
  pools : ∀ id w, (m.net.node id).isLogic = true → prior m id = some w →
    Cut.Dominates (pool m m₁ id) w.leaves

theorem InUse.live (hu : InUse m v) (hp : Planned m T) : m.net.isLive v = true := by
  rcases hu with ha | hs
  · exact hp.live v ha
  · exact Network.isLive_of_isSource hs

/-- A gate that may be chosen for its area arrives early enough for its departure. -/
theorem Timely.add_le {d : α} (h : Timely m id d) (hd : Exact d) (htarget : Exact m.target)
    (hdepart : Exact (m.est.departAt id)) (hle : val m.target ≤ T) :
    val d + (1 + val (m.est.departAt id)) ≤ T := by
  have hle' := h.2
  obtain ⟨hsum, hval⟩ := add_exact hdepart exact_one
  obtain ⟨hdiff, hval'⟩ := sub_exact htarget hsum
  rw [Mapper.required, le_exact hd hdiff, decide_eq_true_eq, hval', hval, val_one] at hle'
  linarith

/-- What the last cover used arrives early enough for its departure. -/
theorem Planned.meets (hp : Planned m T) (h : Valid m) (hn : Plain m.net)
    (hg : Regenerated m m₁) (hu : InUse m v) (hv : (m.net.node v).isSink = false) :
    val (m₁.est.arrivalAt v) + val (m.est.departAt v) ≤ T := by
  have hnet : m₁.net = m.net := hg.steady.net
  induction v using Nat.strong_induction_on with
  | _ v ih =>
    have hactive (hs : (m.net.node v).isSource = false) : m.isActive v = true :=
      hu.resolve_right (by simp [hs])
    have hdv := hp.departs v hu
    cases hg.arrived v (hu.live hp) with
    | source hid h0 =>
      rw [h0, val_zero, zero_add]
      exact hp.sources v (hnet ▸ hid)
    | @through l hid hops h0 =>
      rw [hnet] at hid hops h0
      have hl : l ∈ (m.net.node v).operands := by simp [hops]
      have ha := hactive (Node.not_isSource_of_isPassThrough hid)
      obtain ⟨hul, hdl⟩ := hp.others v ha (Node.not_isLogic_of_isPassThrough hid) l hl
      have hmeet := ih l.id (h.canonical.lt v l hl) hul (hn.unread v l hl)
      rw [h0, (add_exact (hg.times l.id).1 (exact_edgeDelay _).1).2]
      linarith
    | sink hid =>
      rw [hnet, hv] at hid
      cases hid
    | @gate first hid hwon =>
      -- The last winner `w` would arrive in time. A choice for area is bound by the departure, and
      -- any other is no slower than the subset of `w` that the pool still has.
      rw [hnet] at hid
      obtain ⟨w, hw, hne, hleaf⟩ := hp.gates v (hactive (Node.not_isSource_of_isLogic hid)) hid
      have hfit := fits_prior h hw
      have hmeet (l : NodeId) (hl : l ∈ w.leaves) :
          val (m₁.est.arrivalAt l) + (1 + val (m.est.departAt v)) ≤ T := by
        obtain ⟨hul, hdl⟩ := hleaf l hl
        obtain ⟨i, o, ho, rfl⟩ := hfit.referenced l hl
        linarith [ih o.id (hfit.lt o.id hl) hul (hn.unread i o ho)]
      have h1 : 1 + val (m.est.departAt v) ≤ T := by
        obtain ⟨l, hl⟩ := List.exists_mem_of_ne_nil _ hne
        linarith [hmeet l hl, (hg.times l).2]
      have hsame : m₁.est.departAt v = m.est.departAt v := departAt_congr hg.depart v
      rw [hwon.arrival]
      rcases hwon.choice with htimely | hall
      · have := htimely.add_le (isTime_delayOf hg.times first).1 (hg.steady.target ▸ hp.target)
          (hsame ▸ hdv.1) (hg.steady.target ▸ hp.target_le)
        rw [hsame] at this
        linarith
      · obtain ⟨c, hc, hsub⟩ := hg.pools v w hid hw
        have hle : val (delayOf m₁ first) ≤ val (delayOf m₁ c) := hall c hc
        have := delayOf_add_le hg.times (fun l hl => hmeet l (hsub hl)) h1
        linarith

/-- The lists and arrivals of the round let its cover keep the bound. -/
theorem Planned.schedule (hp : Planned m T) (h : Valid m) (hn : Plain m.net)
    (hm : m.params.muxes = false) (hv : Valid m₁) (hg : Regenerated m m₁) :
    Schedule m₁ T ∧ Punctual m₁ := by
  have hnet : m₁.net = m.net := hg.steady.net
  have hluts : m₁.params.muxes = false := hg.steady.params ▸ hm
  have hf : Forward m₁ := forward_of_arrived hv hluts hg.times fun i hi => hg.arrived i (hnet ▸ hi)
  refine ⟨⟨hg.times, hg.steady.target ▸ hp.target, hg.steady.target ▸ hp.target_le, hp.nonneg,
    hf.through, fun i hi l hl => ?_, hnet ▸ hn.unread, hluts⟩,
    ⟨hg.times, fun i c hc => (hv.stored i c hc).lut hluts, fun i w hw => by rw [hf.gate i w hw]⟩⟩
  rw [hnet] at hi hl
  have hactive := hp.sinks i hi
  obtain ⟨hul, hdl⟩ := hp.others i hactive (Node.not_isLogic_of_isSink hi) l hl
  have hmeet := hp.meets h hn hg hul (hn.unread i l hl)
  linarith [(hp.departs l.id hul).2]

/-- Generation leaves every gate a cut that is no slower than its last winner can be. -/
theorem generateAll_regenerated (h : Valid m) (hcat : Cataloged m)
    (hlen : ∀ id, (m.cutsOf id).length ≤ m.params.cutsPerNode) (hm : m.params.muxes = false)
    (ht : ∀ i, IsTime (m.est.arrivalAt i)) : m.generateAll.Ensures fun m₁ =>
      Valid m₁ ∧ Listed m₁ ∧ Cataloged m₁ ∧ Regenerated m m₁ := by
  refine (((generateAll_ok h).and (generateAll_cataloged h hcat hlen)).and
    (generateAll_arrived h hm ht)).mono fun m₁ hm₁ => ?_
  obtain ⟨⟨⟨hv, hst, -, hl⟩, hcat₁, -⟩, ht₁, hret, hdepart, harrived⟩ := hm₁
  have hnet : m₁.net = m.net := hst.net
  refine ⟨hv, hl, hcat₁, hst, ht₁, hdepart, harrived, fun id w hid hw => ?_⟩
  exact dominates_pool hv hcat₁ hl (hst.params ▸ hm) hret (hnet ▸ hid) hw

/-- A state at the end of a round, with all that the next round is planned from. -/
structure Routed (m : Mapper α) : Prop where
  valid : Valid m
  listed : Listed m
  cataloged : Cataloged m
  consistent : Consistent m
  departed : Departed m
  times : ∀ i, IsTime (m.est.arrivalAt i)

/-- A round that was planned keeps the bound. -/
theorem coverRound_routed [Topped α] (h : Valid m) (hcat : Cataloged m)
    (hlen : ∀ id, (m.cutsOf id).length ≤ m.params.cutsPerNode) (hm : m.params.muxes = false)
    (ht : ∀ i, IsTime (m.est.arrivalAt i)) : m.coverRound.Ensures fun m₂ =>
      Routed m₂ ∧ ∀ T, Plain m.net → Planned m T → val m₂.delay ≤ T := by
  have h₀ : Valid { m with enumerated := 0 } := { h with }
  rw [coverRound_eq]
  refine (generateAll_regenerated h₀ (hcat.congr rfl rfl hcat.lists rfl) hlen hm ht).bind
    fun m₁ ⟨hv₁, hl₁, hcat₁, hg⟩ => ?_
  obtain ⟨m₂, hm₂, hc₂, hd₂⟩ := (cover_ok hv₁ hl₁).and (cover_departed hv₁ hl₁)
  refine ⟨m₂, hm₂, ⟨hc₂.valid, hc₂.listed, hc₂.cataloged hcat₁, hc₂.consistent, hd₂, fun i => ?_⟩,
    fun T hn hp => ?_⟩
  · rw [Estimates.arrivalAt, hc₂.arrival]
    exact hg.times i
  · have hp₀ : Planned { m with enumerated := 0 } T := { hp with }
    obtain ⟨hs, hpunctual⟩ := hp₀.schedule h₀ hn hm hv₁ hg
    exact (cover_slack hs hv₁ hl₁ hpunctual).of_ok hm₂

theorem Routed.latest (h : Routed m) (hu : InUse m v) : Latest m [] v :=
  h.departed.1 v (.inr (hu.symm.imp_left Node.not_isLogic_of_isSource))

/-- What an active node uses is in use and departs late enough for it. -/
theorem Routed.asked {u : NodeId} (h : Routed m) (ha : m.isActive u = true) (hu : v ∈ m.uses u) :
    InUse m v ∧ val (m.est.departAt u) + val (useDelay m u v) ≤ val (m.est.departAt v) := by
  have huse : InUse m v := h.consistent.closed h.valid ha hu
  have hle : val (m.est.departAt u + useDelay m u v) ≤ val (m.est.departAt v) :=
    (h.latest huse).le u ⟨by simp, ha, hu⟩
  rw [(add_exact (h.latest (.inl ha)).time.1 (exact_useDelay m u v).1).2] at hle
  exact ⟨huse, hle⟩

/-- The delay is a time, and no source departs later. -/
theorem Routed.delay (h : Routed m) : IsTime m.delay ∧
    ∀ v, (m.net.node v).isSource = true → val (m.est.departAt v) ≤ val m.delay := by
  have htime (v : NodeId) (hv : v ∈ m.net.sources) : IsTime (m.est.departAt v) :=
    (h.latest (.inr (List.mem_filter.1 hv).2)).time
  obtain ⟨hdelay, -, hle, -⟩ := foldl_max htime zero
  rw [h.departed.2]
  refine ⟨hdelay, fun v hv => hle v (List.mem_filter.2 ⟨?_, hv⟩)⟩
  exact Network.mem_ids.2 (Network.lt_size_of_isLive (Network.isLive_of_isSource hv))

omit [Timed α] in
/-- The winner of this round is at hand in the next. -/
theorem Handed.prior {m' : Mapper α} (h : Handed m m') (hw : m.winner? id = some w)
    (hlogic : (m.net.node id).isLogic = true) : prior m' id = some w := by
  rcases h.lists with ⟨-, hcuts, -⟩ | ⟨hnil, hretained⟩
  · have hlist : m'.cutsOf id = m.cutsOf id := cutsOf_congr hcuts id
    rw [Mapping.prior, Mapper.winner?, hlist, ← Mapper.winner?, hw]
    rfl
  · rw [Mapping.prior, Mapper.winner?, hnil, hretained, if_pos hlogic, hw]
    rfl

/-- The bound that the first round sets for the others. -/
def bound (p : Params α) (first : RoundStats α) : ℚ :=
  max (val (first.delay * p.delayFactor)) (val first.delay)

section Runs

variable [Topped α] {p : Params α} {ws : Workspace α} {m' m₂ : Mapper α} {n : Nat}

theorem Started.coverRound (hs : Started p ws m) (hm : p.muxes = false) (hr : Rounds n m m')
    (ht : ∀ i, IsTime (m'.est.arrivalAt i)) : m'.coverRound.Ensures fun m₂ =>
      Routed m₂ ∧ ∀ T, Plain m'.net → Planned m' T → val m₂.delay ≤ T := by
  have hb := hs.between.rounds_ok hr
  obtain ⟨hcat, hlen⟩ := hr.cataloged hs
  exact coverRound_routed hb.valid hcat hlen (by rw [hb.params, hs.fresh.params, hm]) ht

omit [Topped α] in
theorem Started.times (hs : Started p ws m) (i : NodeId) : IsTime (m.est.arrivalAt i) := by
  rw [hs.fresh.arrivals]
  exact zero

omit [Timed α] in
/-- A round hands its cover on. -/
theorem Rounds.handed (hs : Started p ws m) (hr : Rounds n m m') {m'' : Mapper α}
    (hstep : m'.step = .ok (true, m'')) : ∃ m₂, m'.coverRound = .ok m₂ ∧ m₂.round = n ∧
      m₂.params = p ∧ m₂.net = m.net ∧ m₂.target = m'.target ∧ m₂.stats = m'.stats ∧
      Handed m₂ m'' := by
  have hb := hs.between.rounds_ok hr
  obtain ⟨m₁, m₂, hm₁, hm₂, hst, hcov, hnext⟩ := hb.step_parts hstep
  have hst := hst.trans hcov.steady
  refine ⟨m₂, ?_, hst.round.trans hb.round, ?_, ?_, hst.target, hst.stats, hnext⟩
  · rw [coverRound_eq, hm₁]
    exact hm₂
  · exact hst.params.trans (hb.params.trans hs.fresh.params)
  · exact hst.net.trans hb.net

theorem Rounds.times (hs : Started p ws m) (hm : p.muxes = false) (hr : Rounds n m m')
    (i : NodeId) : IsTime (m'.est.arrivalAt i) := by
  induction n generalizing m' i with
  | zero =>
    cases hr
    exact hs.times i
  | succ n ih =>
    obtain _ | ⟨hr, hstep⟩ := hr
    obtain ⟨m₂, hcover, -, -, -, -, -, hnext⟩ := Rounds.handed hs hr hstep
    have hrouted := ((hs.coverRound hm hr (ih hr)).of_ok hcover).1
    rw [Estimates.arrivalAt, hnext.arrival]
    exact hrouted.times i

omit [Timed α] [Topped α] in
/-- Compaction renumbers operands only, and the constant stays where it is. -/
theorem Started.plain (hs : Started p ws m)
    (h0 : ws.net.Canonical ∨ (ws.net.node NodeId.constant).isSource = true) (hn : Plain ws.net) :
    Plain m.net := by
  rcases hs.work with ⟨-, hw⟩ | ⟨hnot, hw⟩
  · rw [Mapper.net, hw]
    exact hn
  obtain ⟨c, hr⟩ := renumbered_of_compact hw
  have hold (i : NodeId) (hi : m.net.isLive i = true) : ∃ id, c.get id = some i ∧
      m.net.node i = (ws.net.node id).mapLits c.move := by
    obtain ⟨id, hid⟩ := hr.surj i (Network.lt_size_of_isLive hi)
    exact ⟨id, hid, hr.node id i hid⟩
  refine ⟨fun i l hl => ?_, fun i hi => ?_⟩
  · obtain ⟨id, hid, hnode⟩ := hold i (Network.isLive_of_operand hl)
    rw [hnode, Node.operands_mapLits] at hl
    obtain ⟨o, ho, rfl⟩ := List.mem_map.1 hl
    obtain ⟨j, -, hj⟩ := hr.lt id i hid o ho
    rw [Compaction.move_eq hj]
    have hnode' : m.net.node j = _ := hr.node o.id j hj
    rw [hnode', Node.isSink_mapLits]
    exact hn.unread id o ho
  · obtain ⟨id, hid, hnode⟩ := hold i (Network.isLive_of_isLogic hi)
    rw [hnode, Node.isLogic_mapLits] at hi
    obtain ⟨o, ho, hne⟩ := hn.fed id hi
    obtain ⟨j, -, hj⟩ := hr.lt id i hid o ho
    refine ⟨c.move o, ?_, fun hzero => hne ?_⟩
    · rw [hnode, Node.operands_mapLits]
      exact List.mem_map_of_mem ho
    · rw [Compaction.move_eq hj] at hzero
      have hzero : j = NodeId.constant := hzero
      exact hr.inj o.id NodeId.constant j hj (hzero ▸ hr.first (h0.resolve_left hnot))

end Runs

end TechMap.Mapping

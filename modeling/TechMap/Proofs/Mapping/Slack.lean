import Mathlib
import TechMap.Proofs.Mapping.Departures

/-! Time to spare in a cover, when times are exact and there are no multiplexers. A node that is used
arrives early enough for what its users ask for: it departs within the bound that the outputs keep.
Reselection and refinement may take a slower cut than generation did, but not one that breaks the
bound. -/

namespace TechMap.Mapping

open Clock Timed

variable {α : Type} [Quantity α] {m m' m₁ : Mapper α} {T : ℚ} {id u v : NodeId} {w first : Cut}
  {cuts cuts' : List Cut}

section Selection

theorem scanAreas_chosen {depth : Nat} {delay : α} {cuts : List (Cut × Nat)} {best b : α × Nat}
    (h : m.scanAreas id depth delay cuts best = some b) : b.2 = best.2 ∨
      ∃ e ∈ cuts, e.2 = b.2 ∧ (e.2 = 0 ∨ Quantity.lt delay (m.cutCost id e.1).delay = false) := by
  induction cuts generalizing best with
  | nil => exact .inl (congrArg Prod.snd (Option.some.inj h)).symm
  | cons e rest ih =>
    obtain ⟨c, i⟩ := e
    have hrest (best' : α × Nat) (h : m.scanAreas id depth delay rest best' = some b) :
        b.2 = best'.2 ∨ ∃ e ∈ (c, i) :: rest, e.2 = b.2 ∧
          (e.2 = 0 ∨ Quantity.lt delay (m.cutCost id e.1).delay = false) :=
      (ih h).imp_right fun ⟨e, he, h⟩ => ⟨e, List.mem_cons_of_mem _ he, h⟩
    rw [Mapper.scanAreas] at h
    split at h
    · exact hrest _ h
    split at h
    · cases h
    extract_lets cost at h
    split at h
    · exact .inl (congrArg Prod.snd (Option.some.inj h)).symm
    rename_i hslow
    split at h
    · refine (hrest _ h).elim (fun hb => .inr ⟨(c, i), by simp, hb.symm, ?_⟩) .inr
      rw [Bool.not_eq_true, Bool.and_eq_false_iff] at hslow
      exact hslow.imp_left fun h0 => by simpa using h0
    · exact hrest _ h

variable [Clock α]

/-- Reselection takes no cut that is slower than the first. -/
theorem reselect_le (ht : ∀ i, IsTime (m.est.arrivalAt i)) (hluts : ∀ c ∈ cuts, c.isMux = false)
    (h : m.reselect id cuts = some cuts') (hf : cuts.head? = some first)
    (hw : cuts'.head? = some w) : key (delayOf m w) ≤ key (delayOf m first) := by
  unfold Mapper.reselect at h
  split at h
  · cases h
    rw [hf] at hw
    rw [Option.some.inj hw]
  · cases hf
  · rename_i first' rest _
    obtain rfl : first' = first := Option.some.inj hf
    split at h
    · obtain ⟨best, hbest, h⟩ := Option.bind_eq_some_iff.1 h
      obtain rfl : Cut.promote (first' :: rest) best.2 = cuts' := Option.some.inj h
      have hzero (h0 : best.2 = 0) : key (delayOf m w) ≤ key (delayOf m first') := by
        rw [h0, Cut.promote_zero] at hw
        rw [Option.some.inj hw]
      rcases scanAreas_chosen hbest with h0 | ⟨⟨c, i⟩, he, hi, hslow⟩
      · exact hzero h0
      rcases hslow with h0 | hslow
      · exact hzero (hi.symm.trans h0)
      · subst hi
        have hget := List.mem_zipIdx_iff_getElem?.1 he
        obtain ⟨hlt, hget⟩ := List.getElem?_eq_some_iff.1 hget
        rw [Cut.head?_promote hlt] at hw
        obtain rfl : c = w := hget.symm.trans (Option.some.inj hw)
        rw [delay_cutCost (hluts _ (by simp)), delay_cutCost (hluts c (List.fst_mem_of_mem_zipIdx he)),
          lt_eq (isTime_delayOf ht _) (isTime_delayOf ht _), decide_eq_false_iff_not] at hslow
        exact not_lt.1 hslow
    · cases h

/-- No winner is slower than the node. -/
structure Punctual (m : Mapper α) : Prop where
  times : ∀ i, IsTime (m.est.arrivalAt i)
  luts : ∀ i, ∀ c ∈ m.cutsOf i, c.isMux = false
  winner : ∀ i w, m.winner? i = some w → key (delayOf m w) ≤ key (m.est.arrivalAt i)

theorem Punctual.congr (h : Punctual m) (ha : m'.est.arrival = m.est.arrival)
    (hcuts : m'.cuts = m.cuts) : Punctual m' := by
  have hat (i : NodeId) : m'.est.arrivalAt i = m.est.arrivalAt i := arrivalAt_congr ha i
  have hlist (i : NodeId) : m'.cutsOf i = m.cutsOf i := cutsOf_congr hcuts i
  refine ⟨fun i => hat i ▸ h.times i, fun i => hlist i ▸ h.luts i, fun i w hw => ?_⟩
  rw [Mapper.winner?, hlist] at hw
  rw [hat, delayOf, latest_congr fun l _ => hat l]
  exact h.winner i w hw

theorem Punctual.chooseWinner {r : Mapper α × Cut} (h : Punctual m)
    (hc : m.chooseWinner id = .ok r) : Punctual r.1 := by
  unfold Mapper.chooseWinner at hc
  split at hc
  · cases hc
  rename_i cuts hre
  dsimp only at hc
  split at hc
  · cases hc
  rename_i winner rest
  cases hc
  have hperm := perm_reselect hre
  by_cases hlt : id < m.cuts.size
  · have hlist (i : NodeId) := cutsOf_setCuts m hlt (winner :: rest) i
    refine ⟨h.times, fun i c hc => ?_, fun i w hw => ?_⟩
    · rw [hlist] at hc
      split at hc
      · exact h.luts id c (hperm.mem_iff.1 hc)
      · exact h.luts i c hc
    · rw [Mapper.winner?, hlist] at hw
      split at hw
      · rename_i he
        subst he
        obtain ⟨first, hf⟩ : ∃ first, (m.cutsOf i).head? = some first := by
          cases hm : m.cutsOf i with
          | nil => rw [hm] at hperm; cases hperm.eq_nil
          | cons first _ => exact ⟨first, rfl⟩
        exact (reselect_le h.times (h.luts i) hre hf hw).trans (h.winner i first hf)
      · exact h.winner i w hw
  · refine h.congr rfl ?_
    simp only [Mapper.setCuts, Array.setIfInBounds, dif_neg hlt]

end Selection

/-- Discovery leaves every winner as fast as its node. -/
theorem Punctual.discoverActive [Clock α] (h : Punctual m) (hd : m.discoverActive = .ok m') :
    Punctual m' :=
  discoverActive_keeps (fun _ _ hs hp => hp.congr hs.arrival hs.cuts)
    (fun _ _ _ hp hc => hp.chooseWinner hc) h hd

variable [Timed α] {rest : List NodeId}

/-- What a cover has to go by: its arrivals are consistent, and they leave the outputs in time. -/
structure Schedule (m : Mapper α) (T : ℚ) : Prop where
  times : ∀ i, IsTime (m.est.arrivalAt i)
  target : Exact m.target
  target_le : val m.target ≤ T
  nonneg : 0 ≤ T
  through : ∀ i, (m.net.node i).isPassThrough = true → ∀ l ∈ (m.net.node i).operands,
    m.est.arrivalAt i = m.est.arrivalAt l.id + Mapper.edgeDelay (m.net.node i)
  outputs : ∀ i, (m.net.node i).isSink = true → ∀ l ∈ (m.net.node i).operands,
    val (m.est.arrivalAt l.id) ≤ T
  unread : ∀ i, ∀ l ∈ (m.net.node i).operands, (m.net.node l.id).isSink = false
  luts : m.params.muxes = false

theorem Schedule.congr (h : Schedule m T) (hs : Steady m m')
    (ha : m'.est.arrival = m.est.arrival) : Schedule m' T := by
  have hnet : m'.net = m.net := hs.net
  have hat (i : NodeId) : m'.est.arrivalAt i = m.est.arrivalAt i := arrivalAt_congr ha i
  refine ⟨fun i => hat i ▸ h.times i, hs.target ▸ h.target, hs.target ▸ h.target_le, h.nonneg,
    fun i hi l hl => ?_, fun i hi l hl => ?_, fun i l hl => ?_, hs.params ▸ h.luts⟩
  · rw [hnet] at hi hl ⊢
    rw [hat, hat]
    exact h.through i hi l hl
  · rw [hnet] at hi hl
    rw [hat]
    exact h.outputs i hi l hl
  · rw [hnet] at hl ⊢
    exact h.unread i l hl

/-- Outputs are not used. -/
theorem Schedule.not_isSink (hs : Schedule m T) (h : Valid m) (hu : v ∈ m.uses u) :
    (m.net.node v).isSink = false := by
  obtain ⟨i, l, hl, rfl⟩ := exists_operand_of_mem_uses h hu
  exact hs.unread i l hl

/-- A cut that delays the node no further, or not beyond the bound. -/
def Keeps (m : Mapper α) (T : ℚ) (id : NodeId) (w : Cut) : Prop :=
  ∀ l ∈ w.leaves, val (m.est.arrivalAt l) + 1 ≤ val (m.est.arrivalAt id) ∨
    val (m.est.arrivalAt l) + 1 + val (m.est.departAt id) ≤ T

theorem arrival_lt_delayOf (ht : ∀ i, IsTime (m.est.arrivalAt i)) {l : NodeId}
    (hl : l ∈ w.leaves) : val (m.est.arrivalAt l) + 1 ≤ val (delayOf m w) := by
  obtain ⟨htime, -, hle, -⟩ := foldl_max (f := m.est.arrivalAt) (fun l _ => ht l) zero
  have htime : Exact (m.est.latest w) := htime.1
  rw [delayOf, (add_exact htime exact_one).2, val_one]
  exact add_le_add_left (hle l hl) 1

theorem Punctual.keeps (h : Punctual m) (hw : m.winner? id = some w) : Keeps m T id w :=
  fun _ hl => .inl ((arrival_lt_delayOf h.times hl).trans (h.winner id w hw))

/-- A cut that refinement finds in time. -/
theorem Schedule.keeps (hs : Schedule m T) (hd : IsTime (m.est.departAt id))
    (hlate : m.isLate id w = false) : Keeps m T id w := by
  have hsum (l : NodeId) := Clock.add (hs.times l) .level
  obtain ⟨htime, -, hle, -⟩ := foldl_max (f := fun l => m.est.arrivalAt l + 1)
    (fun l _ => hsum l) zero
  have htime : Exact (m.arrivalWith w) := htime.1
  have hlate : (Quantity.lt (m.est.arrivalAt id) (m.arrivalWith w) &&
    Quantity.lt m.target (m.arrivalWith w + m.est.departAt id)) = false := hlate
  have hleaf (l : NodeId) (hl : l ∈ w.leaves) :
      val (m.est.arrivalAt l) + 1 ≤ val (m.arrivalWith w) := by
    have := hle l hl
    have hval := (add_exact (hs.times l).1 exact_one).2
    rw [val_one] at hval
    exact hval ▸ this
  obtain ⟨hexact, hval⟩ := add_exact htime hd.1
  rw [lt_exact (hs.times id).1 htime, lt_exact hs.target hexact, hval,
    Bool.and_eq_false_iff, decide_eq_false_iff_not, decide_eq_false_iff_not, not_lt, not_lt] at hlate
  intro l hl
  refine hlate.imp (hleaf l hl).trans fun htarget => ?_
  linarith [hleaf l hl, hs.target_le]

theorem exact_edgeDelay (node : Node) :
    Exact (Mapper.edgeDelay node : α) ∧ 0 ≤ val (Mapper.edgeDelay node : α) :=
  exact_of_isDelay (isDelay_edgeDelay node)

theorem exact_useDelay (m : Mapper α) (u v : NodeId) :
    Exact (useDelay m u v) ∧ 0 ≤ val (useDelay m u v) := exact_of_isDelay (isDelay_useDelay m u v)

/-- What the visited nodes use arrives in time for them. -/
def Slack (m : Mapper α) (T : ℚ) (rest : List NodeId) : Prop := ∀ u v, Asks m rest u v →
  val (m.est.arrivalAt v) + (val (m.est.departAt u) + val (useDelay m u v)) ≤ T

theorem Slack.congr (h : Slack m T rest) (hs : SameUsers m m' rest)
    (ha : m'.est.arrival = m.est.arrival) : Slack m' T rest := by
  intro u v hu
  have hu := hs.asks.1 hu
  rw [hs.depart u hu.1 hu.2.1, useDelay_congr hs.net (hs.lists u hu.1), Estimates.arrivalAt, ha]
  exact h u v hu

/-- A node that is used is in time. -/
theorem Slack.early (h : Slack m T rest) (hd : Departing m rest) (hu : Asks m rest u v) :
    val (m.est.arrivalAt v) ≤ T := by
  have hdepart := (hd u (.inr (.inr hu.2.1))).time.2
  linarith [h u v hu, (exact_useDelay m u v).2]

/-- The departure of a node that is in time is too. -/
theorem Slack.depart (h : Slack m T rest) (hd : Departing m rest) (hv : Latest m rest v)
    (hearly : val (m.est.arrivalAt v) ≤ T) :
    val (m.est.arrivalAt v) + val (m.est.departAt v) ≤ T := by
  rcases hv.attained with h0 | ⟨u, hu, he⟩
  · rw [h0, val_zero, add_zero]
    exact hearly
  · have hdepart := (hd u (.inr (.inr hu.2.1))).time.1
    rw [he, (add_exact hdepart (exact_useDelay m u v).1).2]
    exact h u v hu

/-- Nothing asks an output to depart. -/
theorem Schedule.depart_sink (hs : Schedule m T) (h : Valid m) (hv : Latest m rest v)
    (hsink : (m.net.node v).isSink = true) : m.est.departAt v = 0 := by
  refine hv.attained.resolve_right fun ⟨u, hu, _⟩ => ?_
  rw [hs.not_isSink h hu.2.2] at hsink
  cases hsink

theorem Schedule.arrival_through (hs : Schedule m T) (hid : (m.net.node id).isPassThrough = true)
    {l : Lit} (hl : l ∈ (m.net.node id).operands) : val (m.est.arrivalAt id) =
      val (m.est.arrivalAt l.id) + val (Mapper.edgeDelay (m.net.node id) : α) := by
  rw [hs.through id hid l hl, (add_exact (hs.times l.id).1 (exact_edgeDelay _).1).2]

/-- What an active node asks for when it is visited leaves enough time. -/
theorem Schedule.asks (hs : Schedule m T) (h : Valid m) (hd : Latest m rest id)
    (hown : (m.net.node id).isSink = false →
      val (m.est.arrivalAt id) + val (m.est.departAt id) ≤ T)
    (hkeep : ∀ w, m.winner? id = some w → Keeps m T id w) (hv : v ∈ m.uses id) :
    val (m.est.arrivalAt v) + (val (m.est.departAt id) + val (useDelay m id v)) ≤ T := by
  rcases mem_uses hv with ⟨hlogic, w, hw, hl⟩ | ⟨hlogic, l, hl, rfl⟩
  · have hlut := (h.stored id w (List.mem_of_mem_head? hw)).lut hs.luts
    have hown := hown (Node.not_isSink_of_isLogic hlogic)
    rw [useDelay_lut hlogic hw hlut, val_one]
    rcases hkeep w hw v hl with hle | hle <;> linarith
  · rw [useDelay, if_neg (by simp [hlogic])]
    rcases (Node.kind_of_operand (h.unmapped id) hl).resolve_left (by simp [hlogic])
      with hpass | hsink
    · have hown := hown (Node.not_isSink_of_isPassThrough hpass)
      rw [hs.arrival_through hpass hl] at hown
      linarith
    · rw [edgeDelay_of_isSink hsink, hs.depart_sink h hd hsink, val_zero, add_zero, add_zero]
      exact hs.outputs id hsink l hl

/-- A visit keeps what was in time. -/
theorem Slack.visit (h : Slack m T (id :: rest)) (hid : id ∉ rest)
    (hown : m.isActive id = true → ∀ v ∈ m.uses id,
      val (m.est.arrivalAt v) + (val (m.est.departAt id) + val (useDelay m id v)) ≤ T) :
    Slack m T rest := by
  intro u v hu
  rcases (asks_cons hid).1 hu with hu | ⟨rfl, hact, hv⟩
  · exact h u v hu
  · exact hown hact v hv

/-- All active nodes but the outputs are in time. -/
def Early (m : Mapper α) (T : ℚ) : Prop :=
  ∀ v, m.isActive v = true → (m.net.node v).isSink = false → val (m.est.arrivalAt v) ≤ T

/-- What discovery reaches is no later than what it was reached from. -/
theorem Schedule.early (hs : Schedule m T) (h : Valid m) (hp : Punctual m) (hd : Discovered m) :
    Early m T := by
  intro v ha hsink
  induction hk : m.net.size - v using Nat.strong_induction_on generalizing v with
  | _ k ih =>
    subst hk
    obtain ⟨u, hu, hv⟩ := (hd.used v ha).resolve_left (by simp [hsink])
    have hlt := lt_of_mem_uses h hv
    have hsize := Network.lt_size_of_isLive (hd.live u hu)
    have hstep (hu' : (m.net.node u).isSink = false) : val (m.est.arrivalAt u) ≤ T :=
      ih _ (Nat.sub_lt_sub_left (lt_trans hlt hsize) hlt) u hu hu' rfl
    rcases mem_uses hv with ⟨hlogic, w, hw, hl⟩ | ⟨hlogic, l, hl, rfl⟩
    · have hle := hstep (Node.not_isSink_of_isLogic hlogic)
      have hlt : val (m.est.arrivalAt v) + 1 ≤ val (m.est.arrivalAt u) :=
        (arrival_lt_delayOf hp.times hl).trans (hp.winner u w hw)
      linarith
    · rcases (Node.kind_of_operand (h.unmapped u) hl).resolve_left (by simp [hlogic])
        with hpass | hsink
      · have hle := hstep (Node.not_isSink_of_isPassThrough hpass)
        rw [hs.arrival_through hpass hl] at hle
        have hedge : 0 ≤ val (Mapper.edgeDelay (m.net.node u) : α) := (exact_edgeDelay _).2
        linarith
      · exact hs.outputs u hsink l hl

theorem Early.congr (h : Early m T) (hnet : m'.net = m.net)
    (ha : m'.est.arrival = m.est.arrival) (hact : m'.usage.active = m.usage.active) :
    Early m' T := by
  intro v hv hsink
  rw [Mapper.isActive, hact] at hv
  rw [arrivalAt_congr ha]
  exact h v hv (hnet ▸ hsink)

theorem Slack.clear (hlive : ∀ i, m.isActive i = true → m.net.isLive i = true) :
    Slack m T m.net.upOrder.reverse := fun _ _ hu =>
  absurd (List.mem_reverse.2 (Network.mem_upOrder.2 (hlive _ hu.2.1))) hu.1

/-- The first pass leaves all that is used in time. -/
theorem computeDepartures_slack (hs : Schedule m T) (h : Valid m) (hl : Listed m)
    (hp : Punctual m) (hd : Discovered m) : m.computeDepartures.Ensures fun m' =>
      Schedule m' T ∧ Punctual m' ∧ Early m' T ∧ Departing m' [] ∧ Slack m' T [] := by
  have he := hs.early h hp hd
  refine (computeDepartures_keeps (I := fun rest m' => Departing m' rest ∧ Slack m' T rest) h hl
    (fun m₁ hf hest _ => ⟨?_, ?_⟩) fun id rest m' m'' hsuf hf hI hc => ?_).mono
      fun m' ⟨hf, hdep, hslack⟩ => ⟨hs.congr hf.steady hf.arrival, hp.congr hf.arrival hf.cuts,
        he.congr hf.net hf.arrival hf.active, hdep, hslack⟩
  · exact (Departing.clear hd.live).congr hf.net (congrArg Estimates.depart hest) hf.cuts hf.active
  · rw [← hf.net]
    exact Slack.clear (hf.live hd)
  · obtain ⟨hdep, hslack⟩ := hI
    have hsuf : id :: rest <:+ m'.net.upOrder.reverse := hf.net ▸ hsuf
    have hid : Latest m' (id :: rest) id := hdep id (.inl List.mem_cons_self)
    have hs' := hs.congr hf.steady hf.arrival
    have hp' := hp.congr hf.arrival hf.cuts
    have he' := he.congr hf.net hf.arrival hf.active
    have hslack' : Slack m' T rest := hslack.visit (Network.not_mem_of_suffix hsuf) fun hact v hu =>
      hs'.asks hf.valid hid (fun hsink => hslack.depart hdep hid (he' id hact hsink))
        (fun w hw => hp'.keeps hw) hu
    exact ⟨(hdep.visit hf.valid (hf.listed hl) (hf.live hd) hsuf).congr hc.net hc.depart hc.cuts
      hc.active,
      hslack'.congr (sameUsers_counted hf.valid (hf.listed hl) (hf.live hd) hsuf hc) hc.arrival⟩

omit [Quantity α] [Timed α] in
/-- In a consistent cover a gate is used by a node with a larger number. -/
theorem Consistent.exists_user (hc : Consistent m) (h : Valid m) (ha : m.isActive id = true)
    (hlogic : (m.net.node id).isLogic = true) :
    ∃ u, id < u ∧ m.isActive u = true ∧ id ∈ m.uses u := by
  have hpos := (hc.used id hlogic).1 ha
  rw [hc.counts id hlogic] at hpos
  obtain ⟨u, -, hu, hmem⟩ := exists_of_demand_pos hpos
  exact ⟨u, lt_of_mem_uses h hmem, hu, hmem⟩

/-- All users of a gate were visited before it, so it is in time. -/
theorem Slack.early_of_isLogic (h : Slack m T (id :: rest)) (hd : Departing m (id :: rest))
    (hm : Valid m) (hc : Consistent m) (hsuf : id :: rest <:+ m.net.upOrder.reverse)
    (ha : m.isActive id = true) (hlogic : (m.net.node id).isLogic = true) :
    val (m.est.arrivalAt id) ≤ T := by
  obtain ⟨u, hlt, hu, hmem⟩ := hc.exists_user hm ha hlogic
  refine h.early hd ⟨fun hin => ?_, hu, hmem⟩
  rcases List.mem_cons.1 hin with rfl | hin
  · exact lt_irrefl _ hlt
  · exact lt_asymm hlt (Network.lt_of_mem_suffix hsuf hin)

/-- The winner that refinement leaves is as fast as the node, or in time. -/
theorem Replaced.keeps (hr : Replaced m id m') (hs : Schedule m T)
    (ht : ∀ i, IsTime (m.est.arrivalAt i)) (hd : IsTime (m.est.departAt id))
    (hw : ∀ w, m.winner? id = some w → key (delayOf m w) ≤ key (m.est.arrivalAt id))
    (hest : m'.est = m.est) {w : Cut} (hwin : m'.winner? id = some w) : Keeps m' T id w := by
  have hsame : Keeps m' T id w ↔ Keeps m T id w := by rw [Keeps, Keeps, hest]
  rw [hsame]
  obtain ⟨w₀, w', hw₀, hw', hkind⟩ := hr
  obtain rfl : w' = w := Option.some.inj (hw'.symm.trans hwin)
  rcases hkind with rfl | ⟨-, hlate⟩
  · exact fun l hl => .inl ((arrival_lt_delayOf ht hl).trans (hw w' hw₀))
  · exact hs.keeps hd hlate

/-- The pass that refines, with `rest` still to be visited. The gates in `rest` have the winners of
the first pass, and what is no gate has been active since discovery. -/
structure Refining (m m' : Mapper α) (T : ℚ) (rest : List NodeId) : Prop where
  departing : Departing m' rest
  slack : Slack m' T rest
  winner : ∀ i ∈ rest, ∀ w, m'.winner? i = some w → key (delayOf m' w) ≤ key (m'.est.arrivalAt i)
  flags : ∀ i, (m'.net.node i).isLogic = false → m'.isActive i = m.isActive i

theorem Refining.visit (h : Refining m m' T (id :: rest)) (hs : Schedule m T) (he : Early m T)
    (hc : Covered m m') (hsuf : id :: rest <:+ m'.net.upOrder.reverse) (hr : Refined m' id m₁)
    (hreplaced : (m'.net.node id).isLogic = true → Replaced m' id m₁) :
    Refining m (m₁.mapDepart (departStep m₁ id)) T rest := by
  have hs' : Schedule m' T := hs.congr hc.steady hc.arrival
  have hs₁ : Schedule m₁ T := hs'.congr hr.steady (congrArg Estimates.arrival hr.est)
  have hnet : m'.net = m.net := hc.steady.net
  have hnet₁ : m₁.net = m'.net := hr.steady.net
  have hsuf₁ : id :: rest <:+ m₁.net.upOrder.reverse := hnet₁ ▸ hsuf
  have hid : id ∉ rest := Network.not_mem_of_suffix hsuf
  have hdep₁ := h.departing.refined hsuf hr
  have hslack₁ := h.slack.congr (hr.sameUsers hsuf) (congrArg Estimates.arrival hr.est)
  have hlatest : Latest m₁ (id :: rest) id := hdep₁ id (.inl List.mem_cons_self)
  have hearly (hact : m₁.isActive id = true) (hsink : (m₁.net.node id).isSink = false) :
      val (m₁.est.arrivalAt id) ≤ T := by
    cases hlogic : (m₁.net.node id).isLogic with
    | true => exact hslack₁.early_of_isLogic hdep₁ hr.valid hr.consistent hsuf₁ hact hlogic
    | false =>
      rw [hnet₁] at hlogic hsink
      rw [hr.flags id (.inl hlogic), h.flags id hlogic] at hact
      rw [hr.est, arrivalAt_congr hc.arrival]
      exact he id hact (hnet ▸ hsink)
  have hslack₂ : Slack m₁ T rest := hslack₁.visit hid fun hact v hv => by
    refine hs₁.asks hr.valid hlatest (fun hsink => hslack₁.depart hdep₁ hlatest (hearly hact hsink))
      (fun w hw => ?_) hv
    have hlogic := (hr.valid.stored id w (List.mem_of_mem_head? hw)).logic
    exact (hreplaced (hnet₁ ▸ hlogic)).keeps hs' hs'.times
      (h.departing id (.inl List.mem_cons_self)).time (h.winner id List.mem_cons_self) hr.est hw
  refine ⟨hdep₁.visit hr.valid hr.listed hr.consistent.live hsuf₁, hslack₂.congr
    (sameUsers_visit hr.valid hr.listed hr.consistent.live hsuf₁) rfl, fun i hi w hw => ?_,
    fun i hi => ?_⟩
  · have hne : i ≠ id := fun he => hid (he ▸ hi)
    have hw : m₁.winner? i = some w := hw
    rw [Mapper.winner?, hr.others i hne] at hw
    show key (delayOf m₁ w) ≤ key (m₁.est.arrivalAt i)
    rw [delayOf, hr.est]
    exact h.winner i (List.mem_cons_of_mem _ hi) w hw
  · have hi : (m'.net.node i).isLogic = false := hnet₁ ▸ hi
    exact (hr.flags i (.inl hi)).trans (h.flags i hi)

/-- The pass that refines does too, although it takes slower winners. -/
theorem exactLocalArea_slack [Topped α] (hs : Schedule m T) (h : Valid m) (hl : Listed m)
    (hc : Consistent m) (hp : Punctual m) (he : Early m T) :
    m.exactLocalArea.Ensures fun m' => Departing m' [] ∧ Slack m' T [] := by
  have h0 : Refining m m.clearDepart T m.net.upOrder.reverse :=
    ⟨Departing.clear hc.live, Slack.clear hc.live, fun i _ => hp.winner i, fun _ _ => rfl⟩
  refine (exactLocalArea_keeps (I := fun rest m' => Refining m m' T rest) h hl hc h0
    fun id rest m' m₁ hsuf hm' hI hr hreplaced => ?_).mono
      fun _ ⟨_, hm⟩ => ⟨hm.departing, hm.slack⟩
  exact hI.visit hs he hm' (hm'.steady.net ▸ hsuf) hr hreplaced

/-- A source departs by the bound, so the cover keeps it. -/
theorem measure_slack (hs : Schedule m T) (h : Valid m) (hl : Listed m) (hc : Consistent m)
    (hd : Departing m []) (hslack : Slack m T []) :
    m.measureDelay.backfillDepartures.measureArea.Ensures fun m' => val m'.delay ≤ T := by
  refine (measure_ok h hl hc).mono fun m' hm' => ?_
  rw [hm'.2.1]
  set sources := m.order.filter fun id => (m.net.node id).isSource with hsources
  have hsource (v : NodeId) (hv : v ∈ sources) : Latest m [] v :=
    hd v (.inr (.inl (Node.not_isLogic_of_isSource (List.mem_filter.1 hv).2)))
  obtain ⟨-, -, -, hsel⟩ := foldl_max (f := m.est.departAt) (fun v hv => (hsource v hv).time) zero
  show val (sources.foldl (fun acc id => max acc (m.est.departAt id)) 0) ≤ T
  rcases hsel with h0 | ⟨v, hv, he⟩
  · rw [h0, val_zero]
    exact hs.nonneg
  · rw [he]
    rcases (hsource v hv).attained with h0 | ⟨u, hu, -⟩
    · rw [h0, val_zero]
      exact hs.nonneg
    · have := hslack.depart hd (hsource v hv) (hslack.early hd hu)
      linarith [(hs.times v).2]

/-- With refinement or without, a cover that can keep the bound keeps it. -/
theorem cover_slack [Topped α] (hs : Schedule m T) (h : Valid m) (hl : Listed m)
    (hp : Punctual m) : m.cover.Ensures fun m' => val m'.delay ≤ T := by
  refine cover_keeps
    (F := fun m' => Schedule m' T ∧ Punctual m' ∧ Early m' T ∧ Departing m' [] ∧ Slack m' T [])
    (P := fun m' => Schedule m' T ∧ Departing m' [] ∧ Slack m' T []) h hl
    (fun m₂ hm₂ hv₂ hl₂ hd₂ => ?_) (fun m₃ ⟨hs₃, _, _, hdep⟩ => ⟨hs₃, hdep⟩)
    (fun m₃ ⟨hv₃, hl₃, hc₃, hs₃, hp₃, he₃, _⟩ => ?_)
    fun m₄ ⟨hv₄, hl₄, hc₄, hs₄, hd₄, hslack₄⟩ => measure_slack hs₄ hv₄ hl₄ hc₄ hd₄ hslack₄
  · obtain ⟨-, hst₂, -, -, -, harr₂, -⟩ := (discoverActive_ok h hl).of_ok hm₂
    exact computeDepartures_slack (hs.congr hst₂ harr₂) hv₂ hl₂ (hp.discoverActive hm₂) hd₂
  · exact ((exactLocalArea_ok hv₃ hl₃ hc₃).and
      (exactLocalArea_slack hs₃ hv₃ hl₃ hc₃ hp₃ he₃)).mono fun m₄ ⟨hm₄, hdep⟩ =>
        ⟨hs₃.congr hm₄.steady hm₄.arrival, hdep⟩

end TechMap.Mapping

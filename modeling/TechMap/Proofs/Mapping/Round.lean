import Mathlib
import TechMap.Mapping.Run
import TechMap.Proofs.Mapping.Refinement

/-! One round. Up to the statistics it never fails and leaves a consistent cover, and what it takes
over into the next round is valid again. -/

namespace TechMap.Mapping

variable {α : Type} [Quantity α]

namespace Mapper

/-- A round after generation and before its statistics: the cover, refinement, area and delay. -/
def cover (m : Mapper α) : Step α :=
  ((m.discoverActive.bind computeDepartures).bind fun m =>
    if 0 < m.round && m.params.refine then m.exactLocalArea else .ok m).bind fun m =>
      m.measureDelay.backfillDepartures.measureArea

/-- A round before its statistics: the lists, the cover, refinement, area and delay. -/
def coverRound (m : Mapper α) : Step α :=
  (((generateAll { m with enumerated := 0 }).bind fun m =>
    m.discoverActive.bind computeDepartures).bind fun m =>
      if 0 < m.round && m.params.refine then m.exactLocalArea else .ok m).bind fun m =>
        m.measureDelay.backfillDepartures.measureArea

/-- What the next round starts from. -/
def nextRound (m : Mapper α) : Step α :=
  (((if m.isProbeRound then m else m.blendFanouts).closeRound.endRound false).bind fun m =>
    .ok { m with round := m.round + 1 })

end Mapper

variable {m m' : Mapper α}

theorem bind_eq_ok {σ ε τ : Type} {s : Except ε σ} {f : σ → Except ε τ} {r : τ}
    (h : Except.bind s f = .ok r) : ∃ a, s = .ok a ∧ f a = .ok r := by
  cases s with
  | error e => cases h
  | ok a => exact ⟨a, rfl, h⟩

theorem bind_assoc {σ ε τ ρ : Type} (s : Except ε σ) (f : σ → Except ε τ) (g : τ → Except ε ρ) :
    Except.bind (Except.bind s f) g = Except.bind s fun a => Except.bind (f a) g := by
  cases s <;> rfl

theorem coverRound_eq (m : Mapper α) :
    m.coverRound = (Mapper.generateAll { m with enumerated := 0 }).bind Mapper.cover := by
  have hcover : Mapper.cover = fun m : Mapper α => Except.bind m.discoverActive fun m =>
      Except.bind m.computeDepartures fun m =>
        Except.bind (if 0 < m.round && m.params.refine then m.exactLocalArea else .ok m) fun m =>
          m.measureDelay.backfillDepartures.measureArea := by
    funext m
    simp only [Mapper.cover, bind_assoc]
  rw [hcover]
  simp only [Mapper.coverRound, bind_assoc]

/-- As long as nothing is instantiated, the cover only goes into the estimates. -/
theorem updateFanouts_eq (m : Mapper α) : m.updateFanouts false =
    m.cover.bind fun m => .ok (if m.isProbeRound then m else m.blendFanouts) := by
  simp only [Mapper.updateFanouts, Mapper.cover, bind_assoc, Bool.false_eq_true, if_false]

/-- The parts of a round that went through. -/
theorem coverRound_parts (h : m.coverRound = .ok m') : ∃ m₁ m₂ m₃ m₄,
    Mapper.generateAll { m with enumerated := 0 } = .ok m₁ ∧ m₁.discoverActive = .ok m₂ ∧
    m₂.computeDepartures = .ok m₃ ∧
    (if 0 < m₃.round && m₃.params.refine then m₃.exactLocalArea else .ok m₃) = .ok m₄ ∧
    m₄.measureDelay.backfillDepartures.measureArea = .ok m' := by
  obtain ⟨m₄, h, h₅⟩ := bind_eq_ok h
  obtain ⟨m₃, h, h₄⟩ := bind_eq_ok h
  obtain ⟨m₁, h₁, h⟩ := bind_eq_ok h
  obtain ⟨m₂, h₂, h₃⟩ := bind_eq_ok h
  exact ⟨m₁, m₂, m₃, m₄, h₁, h₂, h₃, h₄, h₅⟩

theorem step_of_lt (hf : m.finished = false) (hlt : m.round < m.lastRound)
    (h : m.coverRound = .ok m') : m.step = m'.nextRound.bind fun m => .ok (true, m) := by
  obtain ⟨m₁, m₂, m₃, m₄, h₁, h₂, h₃, h₄, h₅⟩ := coverRound_parts h
  have hlast : (m.round == m.lastRound) = false := by simpa using hlt.ne
  unfold Mapper.step
  rw [if_neg (by simp [hf]), hlast]
  dsimp only
  rw [h₁, Except.bind, Mapper.updateFanouts, h₂, Except.bind, h₃, Except.bind, h₄, Except.bind, h₅,
    Except.bind]
  unfold Mapper.nextRound
  simp only [Bool.false_eq_true, if_false]
  generalize (if m'.isProbeRound then m' else m'.blendFanouts) = m''
  show Except.bind (m''.closeRound.endRound false) _ = _
  cases m''.closeRound.endRound false <;> rfl

theorem step_of_last (hf : m.finished = false) (hlast : m.round = m.lastRound)
    (h : m.coverRound = .ok m') :
    m.step = m'.instantiate.bind fun m => .ok (false, m.closeRound.finish) := by
  obtain ⟨m₁, m₂, m₃, m₄, h₁, h₂, h₃, h₄, h₅⟩ := coverRound_parts h
  have hlast : (m.round == m.lastRound) = true := by simpa using hlast
  unfold Mapper.step
  rw [if_neg (by simp [hf]), hlast]
  dsimp only
  rw [h₁, Except.bind, Mapper.updateFanouts, h₂, Except.bind, h₃, Except.bind, h₄, Except.bind, h₅,
    Except.bind]
  cases m'.instantiate with
  | error e => rfl
  | ok m' =>
    simp [Except.bind, Mapper.endRound]

theorem size_backfill (net : Network) (depart : Array α) (order : List NodeId) :
    (Mapper.backfill net depart order).size = depart.size := by
  unfold Mapper.backfill
  refine List.foldlRecOn (motive := fun filled : Array α => filled.size = depart.size) order.reverse _ rfl
    fun filled hfilled id _ => ?_
  dsimp only
  split
  · exact hfilled
  · refine List.foldlRecOn (motive := fun filled : Array α => filled.size = depart.size) _ _ hfilled
      fun filled' hfilled' l _ => ?_
    split
    · exact (Array.size_setIfInBounds ..).trans hfilled'
    · exact hfilled'

/-- Area, delay and filled departures touch neither lists nor counts. -/
theorem measure_ok (h : Valid m) (hl : Listed m) (hc : Consistent m) :
    m.measureDelay.backfillDepartures.measureArea.Ensures fun m' => Covered m m' ∧
      m'.delay = m.measureDelay.delay ∧ m'.est = m.measureDelay.backfillDepartures.est ∧
      m'.cuts = m.cuts ∧ m'.usage = m.usage := by
  have hsize : m.measureDelay.backfillDepartures.est.depart.size = m.net.size := by
    have hfilled (filled : Array α) (hf : filled.size = m.est.depart.size) :
        (m.est.depart.zipWith (fun d f =>
          if Quantity.isInfinite d && !Quantity.isInfinite f then f else d) filled).size =
            m.net.size := by
      rw [Array.size_zipWith, hf, Nat.min_self, h.depart]
    exact hfilled _ (size_backfill ..)
  unfold Mapper.measureArea
  refine Step.Ensures.visitAll (I := fun _ => _) ⟨⟨⟨{ h with depart := hsize },
    ⟨rfl, rfl, rfl, rfl, rfl, rfl⟩, hl, hc.congr rfl rfl rfl rfl⟩, fun _ => .of_perm (.refl _), rfl,
    rfl⟩, rfl, rfl, rfl, rfl⟩ fun id rest m' _ hm' => ?_
  obtain ⟨hr, hd, he, hcuts, hu⟩ := hm'
  split
  · rename_i hcond
    obtain ⟨w, rest, -, hw⟩ := hr.listed.exists_winner (Bool.and_eq_true_iff.1 hcond).2
    rw [hw]
    exact .ok ⟨⟨⟨{ hr.valid with }, { hr.steady with }, hr.listed,
      hr.consistent.congr rfl rfl rfl rfl⟩, hr.lists, hr.retained, hr.arrival⟩, hd, he, hcuts, hu⟩
  · exact .ok ⟨hr, hd, he, hcuts, hu⟩

/-- The active set with its counts and departures is a consistent cover. -/
theorem activeCover_ok (h : Valid m) (hl : Listed m) :
    Step.Ensures (m.discoverActive.bind Mapper.computeDepartures) (Covered m) := by
  refine (discoverActive_ok h hl).bind fun m₁ hm₁ => ?_
  obtain ⟨hv₁, hs₁, hl₁, hd₁, hlists₁, harr₁, hret₁⟩ := hm₁
  refine (computeDepartures_ok hv₁ hl₁ hd₁).mono fun m₂ hm₂ => ?_
  obtain ⟨hv₂, hs₂, hl₂, hc₂, hcuts₂, hret₂, harr₂⟩ := hm₂
  refine ⟨⟨hv₂, hs₁.trans hs₂, hl₂, hc₂⟩, fun id => ?_, hret₂.trans hret₁, harr₂.trans harr₁⟩
  rw [Mapper.cutsOf, hcuts₂]
  exact .of_perm (hlists₁ id)

theorem cover_ok [Topped α] (h : Valid m) (hl : Listed m) : m.cover.Ensures (Covered m) := by
  unfold Mapper.cover
  refine Step.Ensures.bind (P := Covered m) ((activeCover_ok h hl).bind fun m₁ hm₁ => ?_)
    fun m₂ hm₂ => ?_
  · split
    · exact (exactLocalArea_ok hm₁.valid hm₁.listed hm₁.consistent).mono fun m₂ hm₂ => hm₁.trans hm₂
    · exact .ok hm₁
  · exact (measure_ok hm₂.valid hm₂.listed hm₂.consistent).mono fun m₃ hm₃ => hm₂.trans hm₃.1

/-- A cover that has `P`: a valid state with lists and exact counts. -/
structure CoverWith (P : Mapper α → Prop) (m : Mapper α) : Prop where
  valid : Valid m
  listed : Listed m
  consistent : Consistent m
  holds : P m

/-- What departures establish (`F`), what is left of it with refinement or without (`P`), and what
the measures make of that (`Q`). -/
theorem cover_keeps [Topped α] {F P Q : Mapper α → Prop} (h : Valid m) (hl : Listed m)
    (hfirst : ∀ m', m.discoverActive = .ok m' → Valid m' → Listed m' → Discovered m' →
      m'.computeDepartures.Ensures F)
    (hskip : ∀ m', F m' → P m')
    (hrefine : ∀ m', CoverWith F m' → m'.exactLocalArea.Ensures P)
    (hmeasure : ∀ m', CoverWith P m' → m'.measureDelay.backfillDepartures.measureArea.Ensures Q) :
    m.cover.Ensures Q := by
  unfold Mapper.cover
  refine Step.Ensures.bind (P := CoverWith P) (Step.Ensures.bind (P := CoverWith F) ?_
    fun m₃ hm₃ => ?_) hmeasure
  · obtain ⟨m₂, hm₂, hv₂, -, hl₂, hd₂, -⟩ := discoverActive_ok h hl
    rw [hm₂]
    exact ((computeDepartures_ok hv₂ hl₂ hd₂).and (hfirst m₂ hm₂ hv₂ hl₂ hd₂)).mono
      fun m₃ ⟨⟨hv₃, _, hl₃, hc₃, _⟩, hf₃⟩ => ⟨hv₃, hl₃, hc₃, hf₃⟩
  · split
    · exact ((exactLocalArea_ok hm₃.valid hm₃.listed hm₃.consistent).and (hrefine m₃ hm₃)).mono
        fun m₄ ⟨hm₄, hp₄⟩ => ⟨hm₄.valid, hm₄.listed, hm₄.consistent, hp₄⟩
    · exact .ok { hm₃ with holds := hskip m₃ hm₃.holds }

/-- Up to the instantiation, an update of the fanouts is a cover and a blend of the estimates. -/
theorem updateFanouts_keeps {Q : Mapper α → Prop} (hcover : m.cover.Ensures Q)
    (hblend : ∀ m', Q m' → Q m'.blendFanouts) : (m.updateFanouts false).Ensures Q := by
  rw [updateFanouts_eq]
  refine hcover.bind fun m' hm' => .ok ?_
  split
  · exact hm'
  · exact hblend m' hm'

/-- Fanouts are updated without an error, and the cover stays consistent. -/
theorem updateFanouts_ok [Topped α] (h : Valid m) (hl : Listed m) :
    (m.updateFanouts false).Ensures (Covered m) := by
  refine updateFanouts_keeps (cover_ok h hl) fun m' hm' => ?_
  exact ⟨⟨{ hm'.valid with }, { hm'.steady with }, hm'.listed, hm'.consistent.congr rfl rfl rfl rfl⟩,
    hm'.lists, hm'.retained, hm'.arrival⟩

/-- A round never fails. -/
theorem coverRound_ok [Topped α] (h : Valid m) : m.coverRound.Ensures (RefinedAll m) := by
  have h₀ : Valid { m with enumerated := 0 } := { h with }
  rw [coverRound_eq]
  refine (generateAll_ok h₀).bind fun m₁ hm₁ => ?_
  obtain ⟨hv₁, hs₁, -, hl₁⟩ := hm₁
  have hs₁ : Steady m m₁ := { hs₁ with }
  refine (cover_ok hv₁ hl₁).mono fun m₂ hm₂ => ?_
  exact { hm₂.toRefinedAll with steady := hs₁.trans hm₂.steady }

theorem closeRound_eq (m : Mapper α) : ∃ log, m.closeRound = { m with
    target := if m.round = 0 then m.delay * m.params.delayFactor else m.target
    bestArrival := min m.bestArrival m.delay
    work := { m.work with log := log }
    stats := { m.stats with
      rounds := m.stats.rounds ++ [⟨m.round, m.area, m.delay, m.enumerated⟩]
      bestArrival := min m.bestArrival m.delay } } := by
  unfold Mapper.closeRound Mapper.report
  extract_lets target best stats m₁
  split <;> exact ⟨_, rfl⟩

/-- What a round hands on: its lists, or no lists and their winners. -/
structure Handed (m m' : Mapper α) : Prop where
  valid : Valid m'
  params : m'.params = m.params
  net : m'.net = m.net
  remap : m'.work.remap = m.work.remap
  round : m'.round = m.round + 1
  finished : m'.finished = m.finished
  rounds : m'.stats.rounds = m.stats.rounds ++ [⟨m.round, m.area, m.delay, m.enumerated⟩]
  target : m'.target = if m.round = 0 then m.delay * m.params.delayFactor else m.target
  arrival : m'.est.arrival = m.est.arrival
  depart : m'.est.depart = m.est.depart
  usage : m'.usage = m.usage
  lists : m.round ≠ 0 ∧ m'.cuts = m.cuts ∧ m'.retained = m.retained ∨
    (∀ id, m'.cutsOf id = []) ∧
    ∀ id, (m'.retained[id]?).join = if (m.net.node id).isLogic then m.winner? id else none

omit [Quantity α] in
theorem cutsOf_dropped (cuts : Array (List Cut)) (id : NodeId) :
    (cuts.map fun _ => ([] : List Cut)).getD id [] = [] := by
  rw [Array.getD_eq_getD_getElem?, Array.getElem?_map]
  cases cuts[id]? <;> rfl

omit [Quantity α] in
theorem retained_dropped (m : Mapper α) (id : NodeId) :
    ((m.cuts.mapIdx (Mapper.keptWinner m.net))[id]?).join =
      if (m.net.node id).isLogic then m.winner? id else none := by
  rw [Array.getElem?_mapIdx, Mapper.winner?, Mapper.cutsOf, Array.getD_eq_getD_getElem?]
  cases m.cuts[id]? with
  | none => simp
  | some cuts => rfl

omit [Quantity α] in
/-- The lists of all nodes are in the table, so dropping them is fine. -/
theorem endRound_cases (h : m.cuts.size = m.net.size) :
    m.round ≠ 0 ∧ m.endRound false = .ok m ∨ m.endRound false = .ok { m with
      retained := m.cuts.mapIdx (Mapper.keptWinner m.net)
      cuts := m.cuts.map fun _ => [] } := by
  have hstale : m.hasStaleCuts = false := by
    unfold Mapper.hasStaleCuts
    rw [List.drop_of_length_le (by simp [h])]
    rfl
  unfold Mapper.endRound
  extract_lets drop
  rw [hstale]
  split
  · rename_i hkeep
    exact .inl ⟨by simp_all [drop], rfl⟩
  · exact .inr rfl

theorem nextRound_ok (h : Valid m) : m.nextRound.Ensures (Handed m) := by
  unfold Mapper.nextRound
  generalize hb : (if m.isProbeRound then m else m.blendFanouts) = m₁
  obtain ⟨fanout, rfl⟩ : ∃ fanout, m₁ = { m with est := { m.est with fanout := fanout } } := by
    subst hb
    split <;> exact ⟨_, rfl⟩
  obtain ⟨log, hlog⟩ := closeRound_eq { m with est := { m.est with fanout := fanout } }
  have hsize : (Mapper.closeRound { m with est := { m.est with fanout := fanout } }).cuts.size =
      (Mapper.closeRound { m with est := { m.est with fanout := fanout } }).net.size := by
    rw [hlog]
    exact h.cuts
  rcases endRound_cases hsize with ⟨hround, he⟩ | he <;> rw [he, hlog]
  · rw [hlog] at hround
    exact .ok ⟨{ h with }, rfl, rfl, rfl, rfl, rfl, rfl, rfl, rfl, rfl, rfl, .inl ⟨hround, rfl, rfl⟩⟩
  · have hretained := retained_dropped m
    refine .ok ⟨{ h with cuts := ?_, stored := fun id c hc => ?_, retained := fun id c hc => ?_ },
      rfl, rfl, rfl, rfl, rfl, rfl, rfl, rfl, rfl, rfl, .inr ⟨cutsOf_dropped m.cuts, hretained⟩⟩
    · exact (Array.size_map ..).trans h.cuts
    · rw [Mapper.cutsOf, cutsOf_dropped] at hc
      cases hc
    · have hc : ((m.cuts.mapIdx (Mapper.keptWinner m.net))[id]?).join = some c := hc
      rw [hretained] at hc
      split at hc
      · exact h.stored id c (List.mem_of_mem_head? hc)
      · cases hc

end TechMap.Mapping

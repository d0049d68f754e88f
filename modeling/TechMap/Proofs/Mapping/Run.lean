import Mathlib
import TechMap.Proofs.Mapping.Instantiation
import TechMap.Proofs.Mapping.Round

/-! Whole runs. A run that starts makes all its rounds, numbered from zero, and the last one
instantiates. Where it does not start the network is the given one or its compaction. -/

namespace TechMap.Mapping

open Network

variable {α : Type}

/-- `n` rounds, none of them the last. -/
inductive Rounds [Quantity α] : Nat → Mapper α → Mapper α → Prop
  | none (m : Mapper α) : Rounds 0 m m
  | more {n : Nat} {m m' m'' : Mapper α} (h : Rounds n m m') (hs : m'.step = .ok (true, m'')) :
      Rounds (n + 1) m m''

/-- The state after `n` rounds of a run that started in `m₀`. -/
structure Between (m₀ m : Mapper α) (n : Nat) : Prop where
  valid : Valid m
  params : m.params = m₀.params
  net : m.net = m₀.net
  remap : m.work.remap = m₀.work.remap
  round : m.round = n
  finished : m.finished = false
  rounds : m.stats.rounds.map (·.round) = List.range n
  le_last : n ≤ m₀.lastRound

/-- The state after the last round. -/
structure Final (m₀ m : Mapper α) : Prop where
  rounds : m.stats.rounds.map (·.round) = List.range (m₀.lastRound + 1)
  maps : ∃ c : Compaction, m.work.remap = m₀.work.remap.map (fun r => r.apply c) ∧
    Maps m₀.params.muxes m₀.net m.net c
  clean : m.net.checkMuxes.isClean = true
  lut6s : m.stats.lut6s = m.net.countLut6
  muxes : m.stats.muxes = m.net.countMux

variable [Quantity α] {m₀ m m' : Mapper α} {n : Nat}

omit [Quantity α] in
theorem finish_eq (m : Mapper α) : ∃ log, m.finish = { m with
    finished := true
    work := { m.work with log := log }
    stats := { m.stats with lut6s := m.net.countLut6, muxes := m.net.countMux } } := by
  unfold Mapper.finish Mapper.report
  extract_lets
  split <;> exact ⟨_, rfl⟩

omit [Quantity α] in
theorem Between.lastRound (h : Between m₀ m n) : m.lastRound = m₀.lastRound := by
  rw [Mapper.lastRound, h.params]
  rfl

/-- A round that is not the last goes on to the next. -/
theorem Between.step_lt [Topped α] (h : Between m₀ m n) (hlt : n < m₀.lastRound) :
    ∃ m', m.step = .ok (true, m') ∧ Between m₀ m' (n + 1) := by
  obtain ⟨m₁, hcover, hm₁⟩ := coverRound_ok h.valid
  obtain ⟨m₂, hnext, hm₂⟩ := nextRound_ok hm₁.valid
  have hst := hm₁.steady
  refine ⟨m₂, ?_, hm₂.valid, ?_, ?_, ?_, ?_, ?_, ?_, hlt⟩
  · rw [step_of_lt h.finished (by rw [h.round, h.lastRound]; exact hlt) hcover, hnext]
    rfl
  · exact hm₂.params.trans (hst.params.trans h.params)
  · exact hm₂.net.trans (hst.net.trans h.net)
  · exact hm₂.remap.trans ((congrArg Workspace.remap hst.work).trans h.remap)
  · rw [hm₂.round, hst.round, h.round]
  · exact hm₂.finished.trans (hst.finished.trans h.finished)
  · rw [hm₂.rounds, hst.stats, List.map_append, h.rounds, List.range_succ, List.map_singleton,
      hst.round, h.round]

/-- The parts of the last round. -/
theorem Between.last_parts [Topped α] (h : Between m₀ m m₀.lastRound) : ∃ m₁ m₂,
    m.coverRound = .ok m₁ ∧ m₁.instantiate = .ok m₂ ∧ Steady m m₁ ∧ Mapped m₁ m₂ ∧
      m₂.net.checkMuxes.isClean = true ∧ m.step = .ok (false, m₂.closeRound.finish) := by
  obtain ⟨m₁, hcover, hm₁⟩ := coverRound_ok h.valid
  obtain ⟨m₂, hinst, hm₂, hclean⟩ := instantiate_ok hm₁.valid hm₁.listed hm₁.consistent
  refine ⟨m₁, m₂, hcover, hinst, hm₁.steady, hm₂, hclean, ?_⟩
  rw [step_of_last h.finished (by rw [h.round, h.lastRound]) hcover, hinst]
  rfl

/-- The last round ends the run. -/
theorem Between.step_last [Topped α] (h : Between m₀ m m₀.lastRound) :
    ∃ m', m.step = .ok (false, m') ∧ Final m₀ m' := by
  obtain ⟨m₁, m₂, -, -, hst, hm₂, hclean, hstep⟩ := h.last_parts
  have hnet : m₁.net = m₀.net := hst.net.trans h.net
  have hremap : m₁.work.remap = m₀.work.remap :=
    (congrArg Workspace.remap hst.work).trans h.remap
  obtain ⟨log, hlog⟩ := closeRound_eq m₂
  obtain ⟨log', hlog'⟩ := finish_eq m₂.closeRound
  refine ⟨m₂.closeRound.finish, hstep, ?_⟩
  rw [hlog', hlog]
  refine ⟨?_, ?_, hclean, rfl, rfl⟩
  · show (m₂.stats.rounds ++ [_]).map RoundStats.round = _
    rw [hm₂.rounds, hst.stats, List.map_append, h.rounds, List.range_succ, List.map_singleton,
      hm₂.round, hst.round, h.round]
  · obtain ⟨c, hc, hmaps⟩ := hm₂.maps
    refine ⟨c, hc.trans (by rw [hremap]), ?_⟩
    rw [hst.params, h.params, hnet] at hmaps
    exact hmaps

/-- The last round is recorded as any other. -/
theorem Between.last_record [Topped α] (h : Between m₀ m m₀.lastRound)
    (hs : m.step = .ok (false, m')) : ∃ m₁ s, m.coverRound = .ok m₁ ∧
      m'.stats.rounds = m.stats.rounds ++ [s] ∧ s.round = m.round ∧ s.delay = m₁.delay ∧
      m'.delay = m₁.delay := by
  obtain ⟨m₁, m₂, hcover, -, hst, hm₂, -, hstep⟩ := h.last_parts
  obtain rfl : m₂.closeRound.finish = m' := by simpa using hstep.symm.trans hs
  obtain ⟨log, hlog⟩ := closeRound_eq m₂
  obtain ⟨log', hlog'⟩ := finish_eq m₂.closeRound
  refine ⟨m₁, ⟨m₂.round, m₂.area, m₂.delay, m₂.enumerated⟩, hcover, ?_,
    hm₂.round.trans hst.round, hm₂.delay, ?_⟩
  · rw [hlog', hlog, ← hst.stats, ← hm₂.rounds]
  · rw [hlog', hlog]
    exact hm₂.delay

theorem Between.rounds_ok [Topped α] (h : Between m₀ m₀ 0) (hr : Rounds n m₀ m) :
    Between m₀ m n := by
  generalize hs : m₀ = s at hr
  induction hr with
  | none m => exact hs ▸ h
  | @more k a b c hr hstep ih =>
    subst hs
    have hb := ih rfl
    rcases Nat.lt_or_eq_of_le hb.le_last with hlt | rfl
    · obtain ⟨m', hm', hbetween⟩ := hb.step_lt hlt
      rw [hm'] at hstep
      cases hstep
      exact hbetween
    · obtain ⟨m', hm', -⟩ := hb.step_last
      rw [hm'] at hstep
      cases hstep

theorem Between.exists_rounds [Topped α] (h : Between m₀ m₀ 0) (hn : n ≤ m₀.lastRound) :
    ∃ m, Rounds n m₀ m := by
  induction n with
  | zero => exact ⟨m₀, .none m₀⟩
  | succ n ih =>
    obtain ⟨m, hm⟩ := ih (Nat.le_of_succ_le hn)
    obtain ⟨m', hm', -⟩ := (h.rounds_ok hm).step_lt hn
    exact ⟨m', .more hm hm'⟩

/-- Every round of a run generates its lists and updates its fanouts without an error. -/
theorem Between.survey_ok [Topped α] (h : Between m₀ m n) : ∃ m₁ m₂,
    Mapper.generateAll { m with enumerated := 0 } = .ok m₁ ∧ m₁.updateFanouts false = .ok m₂ ∧
      Valid m₁ ∧ Listed m₁ ∧ Steady { m with enumerated := 0 } m₁ ∧ Covered m₁ m₂ := by
  have h₀ : Valid { m with enumerated := 0 } := { h.valid with }
  obtain ⟨m₁, hm₁, hv₁, hs₁, -, hl₁⟩ := generateAll_ok h₀
  obtain ⟨m₂, hm₂, hc₂⟩ := updateFanouts_ok hv₁ hl₁
  exact ⟨m₁, m₂, hm₁, hm₂, hv₁, hl₁, hs₁, hc₂⟩

theorem Between.lt_of_step [Topped α] (h : Between m₀ m n) (hs : m.step = .ok (true, m')) :
    n < m₀.lastRound := by
  refine lt_of_le_of_ne h.le_last fun he => ?_
  subst he
  obtain ⟨_, hlast, -⟩ := h.step_last
  rw [hlast] at hs
  cases hs

/-- The parts of a round that is not the last. -/
theorem Between.step_parts [Topped α] (h : Between m₀ m n) (hs : m.step = .ok (true, m')) :
    ∃ m₁ m₂, Mapper.generateAll { m with enumerated := 0 } = .ok m₁ ∧ m₁.cover = .ok m₂ ∧
      Steady { m with enumerated := 0 } m₁ ∧ Covered m₁ m₂ ∧ Handed m₂ m' := by
  have hlt := h.lt_of_step hs
  have h₀ : Valid { m with enumerated := 0 } := { h.valid with }
  obtain ⟨m₁, hm₁, hv₁, hs₁, -, hl₁⟩ := generateAll_ok h₀
  obtain ⟨m₂, hm₂, hc₂⟩ := cover_ok hv₁ hl₁
  obtain ⟨m₃, hm₃, hh₃⟩ := nextRound_ok hc₂.valid
  have hcover : m.coverRound = .ok m₂ := by
    rw [coverRound_eq, hm₁]
    exact hm₂
  rw [step_of_lt h.finished (by rw [h.round, h.lastRound]; exact hlt) hcover, hm₃] at hs
  cases hs
  exact ⟨m₁, m₂, hm₁, hm₂, hs₁, hc₂, hh₃⟩

/-- What a round hands on whenever it is handed it, every round starts with. -/
theorem Between.rounds_keep [Topped α] {I : Mapper α → Prop} (h : Between m₀ m₀ 0) (h0 : I m₀)
    (hround : ∀ n a m₁ m₂ b, Between m₀ a n → I a →
      Mapper.generateAll { a with enumerated := 0 } = .ok m₁ → Covered m₁ m₂ → Handed m₂ b → I b)
    (hr : Rounds n m₀ m) : I m := by
  induction n generalizing m with
  | zero =>
    cases hr
    exact h0
  | succ n ih =>
    obtain _ | ⟨hr, hs⟩ := hr
    have hb := h.rounds_ok hr
    obtain ⟨m₁, m₂, hm₁, -, -, hcov, hnext⟩ := hb.step_parts hs
    exact hround n _ m₁ m₂ _ hb (ih hr) hm₁ hcov hnext

/-- Every round records the delay of its cover. -/
theorem Between.record [Topped α] (h : Between m₀ m n) : ∃ m₁ goesOn m' s, m.coverRound = .ok m₁ ∧
    m.step = .ok (goesOn, m') ∧ m'.stats.rounds = m.stats.rounds ++ [s] ∧ s.round = n ∧
    s.delay = m₁.delay := by
  rcases Nat.lt_or_eq_of_le h.le_last with hlt | rfl
  · obtain ⟨m', hstep, -⟩ := h.step_lt hlt
    obtain ⟨m₁, m₂, hm₁, hm₂, hst, hcov, hnext⟩ := h.step_parts hstep
    have hst := hst.trans hcov.steady
    refine ⟨m₂, true, m', ⟨m₂.round, m₂.area, m₂.delay, m₂.enumerated⟩, ?_, hstep, ?_,
      hst.round.trans h.round, rfl⟩
    · rw [coverRound_eq, hm₁]
      exact hm₂
    · rw [hnext.rounds, hst.stats]
  · obtain ⟨m', hstep, -⟩ := h.step_last
    obtain ⟨m₁, s, hcover, hrounds, hround, hdelay, -⟩ := h.last_record hstep
    exact ⟨m₁, false, m', s, hcover, hstep, hrounds, hround.trans h.round, hdelay⟩

theorem runFor_of_rounds (h : Rounds n m m') (k : Nat) : m.runFor (n + k) = m'.runFor k := by
  induction h generalizing k with
  | none m => rw [Nat.zero_add]
  | more h hs ih =>
    rw [Nat.add_right_comm, Nat.add_assoc, ih, Mapper.runFor, hs]

/-- All rounds but the last, and the last. -/
theorem Between.run_ok [Topped α] (h : Between m₀ m₀ 0) : ∃ m m', Rounds m₀.lastRound m₀ m ∧
    m.step = .ok (false, m') ∧ m₀.run = .ok m' ∧ Final m₀ m' := by
  obtain ⟨m, hm⟩ := h.exists_rounds (Nat.le_refl _)
  obtain ⟨m', hm', hfinal⟩ := (h.rounds_ok hm).step_last
  refine ⟨m, m', hm, hm', ?_, hfinal⟩
  rw [Mapper.run, h.round, Nat.sub_zero, runFor_of_rounds hm, Mapper.runFor, hm']

/-- The state before the first round. -/
structure Fresh (p : Params α) (m : Mapper α) : Prop where
  valid : Valid m
  params : m.params = p
  round : m.round = 0
  finished : m.finished = false
  rounds : m.stats.rounds = []
  lists : ∀ id, m.cutsOf id = []
  seeds : ∀ id : NodeId, (m.retained[id]?).join = none
  arrivals : ∀ id, m.est.arrivalAt id = 0

/-- A run that started, perhaps after a compaction. -/
structure Started (p : Params α) (w : Workspace α) (m : Mapper α) : Prop where
  fresh : Fresh p m
  rounds : 0 < p.rounds
  work : (w.net.Canonical ∧ m.work = w.startRemap) ∨
    (¬ w.net.Canonical ∧ w.startRemap.compact = .ok m.work)

/-- The network of the error is the given one or its compaction, and a remap that is not empty has
come along. -/
def Untouched (w w' : Workspace α) : Prop :=
  (w'.net = w.net ∧ ∀ r, w.remap = some r → r.isEmpty = false → w'.remap = some r) ∨
    ∃ c, w.net.compact = (w'.net, .ok c) ∧
      ∀ r, w.remap = some r → r.isEmpty = false → w'.remap = some (r.apply c)

omit [Quantity α] in
theorem startRemap_eq {w : Workspace α} {r : Remap} (hr : w.remap = some r)
    (he : r.isEmpty = false) : w.startRemap.remap = some r := by
  simp [Workspace.startRemap, hr, he]

omit [Quantity α] in
theorem compact_start_cases (w : Workspace α) :
    (∃ e, w.startRemap.compact = .error e ∧ Untouched w e.state) ∨
      ∃ w', w.startRemap.compact = .ok w' ∧ Untouched w w' ∧ w'.net.Canonical := by
  rcases compact_cases w.net with ⟨e, he, -⟩ | ⟨net', c, hc, hr⟩
  · left
    have he : w.startRemap.net.compact = (w.net, .error e) := he
    refine ⟨⟨e, { w.startRemap with net := w.net }⟩, ?_,
      .inl ⟨rfl, fun r hr hne => startRemap_eq hr hne⟩⟩
    unfold Workspace.compact
    rw [he]
  · right
    have hc' : w.startRemap.net.compact = (net', .ok c) := hc
    refine ⟨_, workspace_compact_ok hc', .inr ⟨c, hc, fun r hr' hne => ?_⟩, hr.canonical⟩
    show w.startRemap.remap.map _ = _
    rw [startRemap_eq hr' hne]
    rfl

omit [Quantity α] in
theorem renumbered_of_compact {w w' : Workspace α} (h : w.compact = .ok w') :
    ∃ c, Renumbered w.net w'.net c := by
  unfold Workspace.compact at h
  split at h
  · cases h
  · rename_i net c hc
    cases h
    exact ⟨c, compact_spec hc⟩

theorem ofWorkspace_cases (params : Params α) (w : Workspace α) (hc : w.net.Canonical)
    (hslots : params.cutsPerNode ≠ 0) :
    (∃ e, Mapper.ofWorkspace params w = .error ⟨e, w⟩) ∨
      ∃ m, Mapper.ofWorkspace params w = .ok m ∧ Fresh params m ∧ m.work = w := by
  unfold Mapper.ofWorkspace
  split
  · exact .inl ⟨_, rfl⟩
  · rename_i hfind
    have hlists := getD_replicate w.net.size ([] : List Cut)
    have hseeds (id : NodeId) :
        ((Array.replicate w.net.size (none : Option Cut))[id]?).join = none := by
      simp only [Array.getElem?_replicate]
      split <;> rfl
    have harrivals := getD_replicate w.net.size (0 : α)
    refine .inr ⟨_, rfl, ⟨⟨hc, fun id => ?_, rfl, Array.size_replicate, Array.size_replicate,
      Array.size_replicate, Array.size_replicate, Array.size_replicate, fun id c hc => ?_,
      fun id c hc => ?_, Memo.clean_ofSize _, Nat.pos_of_ne_zero hslots, rfl⟩,
      rfl, rfl, rfl, rfl, hlists, hseeds, harrivals⟩, rfl⟩
    · show (w.net.node id).isMapped = false
      rcases Nat.lt_or_ge id w.net.size with hlt | hge
      · simpa using List.find?_eq_none.1 hfind id (mem_ids.2 hlt)
      · exact congrArg Node.isMapped (node_of_ge hge)
    · have hc : c ∈ (Array.replicate w.net.size ([] : List Cut)).getD id [] := hc
      rw [hlists] at hc
      cases hc
    · have hc : ((Array.replicate w.net.size (none : Option Cut))[id]?).join = some c := hc
      rw [hseeds] at hc
      cases hc

theorem start_cases (params : Params α) (w : Workspace α) :
    (∃ e, Mapper.start params w = .error e ∧ Untouched w e.state) ∨
      ∃ m, Mapper.start params w = .ok m ∧ Started params w m := by
  have hgiven : Untouched w w := .inl ⟨rfl, fun r hr _ => hr⟩
  have hstart : Untouched w w.startRemap := .inl ⟨rfl, fun r hr hne => startRemap_eq hr hne⟩
  unfold Mapper.start
  split
  · exact .inl ⟨_, rfl, hgiven⟩
  rename_i hrounds
  split
  · exact .inl ⟨_, rfl, hgiven⟩
  rename_i hslots
  extract_lets w₁
  split
  · exact .inl ⟨_, rfl, hstart⟩
  split
  · rename_i hcan
    have hcan : w.net.Canonical := isCanonical_iff.1 hcan
    rcases ofWorkspace_cases params w₁ hcan hslots with ⟨e, he⟩ | ⟨m, hm, hf, hw⟩
    · exact .inl ⟨_, he, hstart⟩
    · exact .inr ⟨m, hm, hf, Nat.pos_of_ne_zero hrounds, .inl ⟨hcan, hw⟩⟩
  · rename_i hnot
    have hnot : ¬ w.net.Canonical := fun hc => hnot (isCanonical_iff.2 hc)
    rcases compact_start_cases w with ⟨e, he, hu⟩ | ⟨w', hw', hu, hcan⟩
    · refine .inl ⟨e, ?_, hu⟩
      rw [he]
      rfl
    · rw [hw']
      rcases ofWorkspace_cases params w' hcan hslots with ⟨e, he⟩ | ⟨m, hm, hf, hw⟩
      · exact .inl ⟨_, he, hu⟩
      · exact .inr ⟨m, hm, hf, Nat.pos_of_ne_zero hrounds, .inr ⟨hnot, hw ▸ hw'⟩⟩

theorem Started.of_start {p : Params α} {w : Workspace α} (h : Mapper.start p w = .ok m) :
    Started p w m := by
  rcases start_cases p w with ⟨e, he, -⟩ | ⟨m', hm', hs⟩
  · rw [he] at h
    cases h
  · rw [hm'] at h
    cases h
    exact hs

/-- A canonical network without mapped nodes starts. -/
theorem start_ok {p : Params α} {w : Workspace α} (hr : 0 < p.rounds) (hslots : 0 < p.cutsPerNode)
    (hc : w.net.Canonical) (hm : ∀ n ∈ w.net.nodes.toList, n.isMapped = false) :
    ∃ m, Mapper.start p w = .ok m := by
  have hdangling : w.startRemap.net.dangling? = none := dangling?_eq_none_iff.2 hc.live
  have hcan : w.startRemap.net.isCanonical = true := isCanonical_iff.2 hc
  have hfind : (w.startRemap.net.ids.find? fun id =>
      (w.startRemap.net.node id).isMapped) = none := by
    refine List.find?_eq_none.2 fun id hid => ?_
    have hlt : id < w.net.nodes.size := mem_ids.1 hid
    rw [show w.startRemap.net.node id = w.net.nodes[id] from node_eq_getElem hlt,
      hm _ (Array.getElem_mem_toList hlt)]
    simp
  unfold Mapper.start
  rw [if_neg hr.ne', if_neg hslots.ne']
  dsimp only
  rw [hdangling]
  dsimp only
  rw [if_pos hcan, Mapper.ofWorkspace, hfind]
  exact ⟨_, rfl⟩

theorem Started.between {p : Params α} {w : Workspace α} (h : Started p w m) : Between m m 0 :=
  ⟨h.fresh.valid, rfl, rfl, rfl, h.fresh.round, h.fresh.finished, by rw [h.fresh.rounds]; rfl,
    Nat.zero_le _⟩

theorem Started.lastRound {p : Params α} {w : Workspace α} (h : Started p w m) :
    m.lastRound + 1 = p.rounds + p.probe.toNat := by
  have := h.rounds
  rw [Mapper.lastRound, h.fresh.params]
  omega

theorem Started.constant {p : Params α} {w : Workspace α} (h : Started p w m)
    (h0 : w.net.node NodeId.constant = .const) : m.net.node NodeId.constant = .const := by
  rcases h.work with ⟨-, hw⟩ | ⟨-, hw⟩
  · rw [Mapper.net, hw]
    exact h0
  · obtain ⟨c, hr⟩ := renumbered_of_compact hw
    have h0 : w.startRemap.net.node NodeId.constant = .const := h0
    rw [Mapper.net, hr.node _ _ (hr.first (by rw [h0]; rfl)), h0]
    rfl

theorem map_of_run {p : Params α} {w : Workspace α} (hm : Mapper.start p w = .ok m) (hrun : m.run = .ok m') :
    map p w = .ok (m'.work, m'.stats) := by
  unfold map
  rw [hm]
  dsimp only
  rw [hrun]

/-- Mapping fails where it does not start, and only there. -/
theorem map_cases [Topped α] (p : Params α) (w : Workspace α) :
    (∃ e, Mapper.start p w = .error e ∧ map p w = .error e ∧ Untouched w e.state) ∨
      ∃ m m', Mapper.start p w = .ok m ∧ Started p w m ∧ map p w = .ok (m'.work, m'.stats) ∧
        Final m m' := by
  rcases start_cases p w with ⟨e, he, hu⟩ | ⟨m, hm, hs⟩
  · exact .inl ⟨e, he, by rw [map, he], hu⟩
  · obtain ⟨-, m', -, -, hrun, hfinal⟩ := hs.between.run_ok
    exact .inr ⟨m, m', hm, hs, map_of_run hm hrun, hfinal⟩

/-- A network of one gate. -/
def conjunction : Network :=
  ⟨#[.const, .pi, .pi, .and (.ofNode 1) (.ofNode 2), .po (.ofNode 3)]⟩

theorem canonical_conjunction : conjunction.Canonical := isCanonical_iff.1 (by decide)

theorem start_conjunction {p : Params α} (hr : 0 < p.rounds) (hslots : 0 < p.cutsPerNode)
    (remap : Option Remap) : ∃ m, Mapper.start p ⟨conjunction, remap, #[]⟩ = .ok m :=
  start_ok hr hslots canonical_conjunction
    (show ∀ n ∈ conjunction.nodes.toList, n.isMapped = false by decide)

/-- Rounds of the mapping of one gate. -/
theorem rounds_conjunction {n : Nat} (hn : n < 4) : ∃ m m' : Mapper Single,
    Mapper.start .standard ⟨conjunction, none, #[]⟩ = .ok m ∧ Rounds n m m' ∧
      m.net = conjunction := by
  obtain ⟨m, hm⟩ := start_conjunction (α := Single) (p := .standard) (by decide) (by decide) none
  have hs := Started.of_start hm
  have hlast : m.lastRound + 1 = 4 := hs.lastRound
  obtain ⟨m', hr⟩ := hs.between.exists_rounds (n := n) (by omega)
  refine ⟨m, m', hm, hr, ?_⟩
  rcases hs.work with ⟨-, hw⟩ | ⟨hnot, -⟩
  · rw [Mapper.net, hw]
    rfl
  · exact absurd canonical_conjunction hnot

end TechMap.Mapping

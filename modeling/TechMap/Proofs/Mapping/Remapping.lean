import Mathlib
import TechMap.Proofs.Mapping.Blind
import TechMap.Proofs.Mapping.Correctness

/-! What a run does to the remap. Only compactions change it, so a run with another remap gives the
same network, and there is one compaction that every remap follows. -/

namespace TechMap.Mapping

open Network

variable {α : Type} {q : Option Remap} {m m' : Mapper α} {c : Compaction}

/-- Only nodes below `n` have new numbers. -/
def Inside (c : Compaction) (n : Nat) : Prop := ∀ id i, c.get id = some i → id < n

/-- A remap that is kept follows a compaction. -/
def moved (c : Compaction) (q : Option Remap) : Option Remap := q.map fun r => r.apply c

theorem moved_follow (c c' : Compaction) (q : Option Remap) :
    moved c' (moved c q) = moved (c.follow c') q := by
  cases q with
  | none => rfl
  | some r => exact congrArg some (r.apply_follow c c')

theorem Inside.follow {n : Nat} (h : Inside c n) (c' : Compaction) : Inside (c.follow c') n :=
  fun id _ hi => by
    obtain ⟨j, hj, -⟩ := Compaction.get_follow_eq_some.1 hi
    exact h id j hj

theorem compact_withRemap (h : m.compact = .ok m') : ∃ c, Inside c m.net.size ∧
    ∀ q, (m.withRemap q).compact = .ok (m'.withRemap (moved c q)) := by
  rcases compact_cases m.net with ⟨e, he, -⟩ | ⟨net', c, hc, hr⟩
  · rw [Mapper.compact, Workspace.compact, show m.work.net.compact = _ from he] at h
    cases h
  · rw [compact_step_ok hc] at h
    cases h
    refine ⟨c, fun id i hi => lt_size_of_isLive (hr.live id i hi), fun q => ?_⟩
    rw [compact_step_ok (m := m.withRemap q) hc]
    rfl

/-- With demoted multiplexers, before the second compaction. -/
def demoted (m : Mapper α) (r : Network × Nat) : Mapper α :=
  Mapper.report { m.setNet r.1 with stats := { (m.setNet r.1).stats with demoted := r.2 } }
    (.legalized r.2 m.net.countMux r.1.countMux (m.net.countLut6 + r.2))

theorem demoted_withRemap (m : Mapper α) (r : Network × Nat) :
    demoted (m.withRemap q) r = (demoted m r).withRemap q := by
  symm
  exact (report_withRemap _ _).symm

theorem legalize_of_muxes {r : Network × Nat} (hpos : 0 < m.net.countMux)
    (hl : m.legalizer m.net = .ok r) : m.legalize = (demoted m r).compact := by
  rw [Mapper.legalize, if_pos hpos, hl]
  rfl

theorem legalize_withRemap (h : m.legalize = .ok m') :
    (∀ q, (m.withRemap q).legalize = .ok (m'.withRemap q)) ∨
      ∃ c, ∀ q, (m.withRemap q).legalize = .ok (m'.withRemap (moved c q)) := by
  by_cases hpos : 0 < m.net.countMux
  · cases hl : m.legalizer m.net with
    | error e =>
      rw [Mapper.legalize, if_pos hpos, hl] at h
      cases h
    | ok r =>
      rw [legalize_of_muxes hpos hl] at h
      obtain ⟨c, -, hc⟩ := compact_withRemap h
      refine .inr ⟨c, fun q => ?_⟩
      rw [legalize_of_muxes (m := m.withRemap q) hpos hl, ← hc q]
      exact congrArg Mapper.compact (demoted_withRemap m r)
  · rw [Mapper.legalize, if_neg hpos] at h
    cases h
    exact .inl fun q => if_neg hpos

theorem mappedNodes_withRemap (m : Mapper α) (ids : List NodeId) (acc : List (NodeId × Node))
    (memo : Memo) : (m.withRemap q).mappedNodes ids acc memo = m.mappedNodes ids acc memo := by
  induction ids generalizing acc memo with
  | nil => rfl
  | cons id rest ih =>
    simp only [Mapper.mappedNodes, ih]
    rfl

theorem size_implement (net : Network) (order : List NodeId) (nodes : List (NodeId × Node)) :
    (Mapper.implement net order nodes).size = net.size := by
  have hset (net' : Network) (hs : net'.size = net.size) (id : NodeId) (node : Node) :
      (net'.set id node).size = net.size := (size_set net' id node).trans hs
  unfold Mapper.implement
  refine List.foldlRecOn (motive := fun n : Network => n.size = net.size) order _ ?_
    fun n hn id _ => ?_
  · exact List.foldlRecOn (motive := fun n : Network => n.size = net.size) nodes _ rfl
      fun n hn e _ => hset n hn e.1 e.2
  · split
    · exact hset n hn id .removed
    · exact hn

/-- The mapped network, before it is compacted. -/
def implemented (m : Mapper α) (nodes : List (NodeId × Node)) (memo : Memo) : Mapper α :=
  Mapper.setNet { m with memo := memo } (Mapper.implement m.net m.order nodes)

/-- The last step of a run reports broken rules. -/
def checked (m : Mapper α) : Mapper α :=
  if m.params.muxes && !m.net.checkMuxes.isClean then m.report (.violated m.net.checkMuxes) else m

theorem checked_withRemap (m : Mapper α) : checked (m.withRemap q) = (checked m).withRemap q := by
  have hreport := report_withRemap (q := q) m (.violated m.net.checkMuxes)
  symm
  refine (apply_ite (Mapper.withRemap · q)
    ((m.params.muxes && !m.net.checkMuxes.isClean) = true) _ _).trans ?_
  rw [← hreport]
  rfl

theorem instantiate_of_nodes {nodes : List (NodeId × Node)} {memo : Memo}
    (h : m.mappedNodes m.order [] m.memo = (memo, .ok nodes)) : m.instantiate =
      Except.bind (Except.bind (implemented m nodes memo).compact Mapper.legalize)
        fun m => .ok (checked m) := by
  rw [Mapper.instantiate, h]
  rfl

/-- Instantiation compacts once or twice, and its remap follows both compactions. -/
theorem instantiate_withRemap (h : m.instantiate = .ok m') : ∃ c, Inside c m.net.size ∧
    ∀ q, (m.withRemap q).instantiate = .ok (m'.withRemap (moved c q)) := by
  cases hn : m.mappedNodes m.order [] m.memo with
  | mk memo result =>
  cases result with
  | error e =>
    rw [Mapper.instantiate, hn] at h
    cases h
  | ok nodes =>
    rw [instantiate_of_nodes hn] at h
    obtain ⟨m₂, h, hlast⟩ := bind_eq_ok h
    obtain ⟨m₁, hcompact, hlegal⟩ := bind_eq_ok h
    cases hlast
    obtain ⟨c, hin, hc⟩ := compact_withRemap hcompact
    have hin : Inside c m.net.size := (size_implement m.net m.order nodes) ▸ hin
    have hstep (q : Option Remap) : (m.withRemap q).instantiate =
        Except.bind ((m₁.withRemap (moved c q)).legalize) fun m => .ok (checked m) := by
      rw [instantiate_of_nodes (m := m.withRemap q)
        ((mappedNodes_withRemap m m.order [] m.memo).trans hn)]
      show Except.bind (Except.bind ((implemented m nodes memo).withRemap q).compact _) _ = _
      rw [hc q]
      rfl
    rcases legalize_withRemap hlegal with hq | ⟨c', hq⟩
    · refine ⟨c, hin, fun q => ?_⟩
      rw [hstep, hq]
      exact congrArg Except.ok (checked_withRemap m₂)
    · refine ⟨c.follow c', hin.follow c', fun q => ?_⟩
      rw [hstep, hq, moved_follow]
      exact congrArg Except.ok (checked_withRemap m₂)

variable [Quantity α] {p : Params α} {w : Workspace α}

theorem ofWorkspace_withRemap (h : Mapper.ofWorkspace p w = .ok m) : m.net = w.net ∧
    ∀ q, Mapper.ofWorkspace p { w with remap := q } = .ok (m.withRemap q) := by
  unfold Mapper.ofWorkspace at h
  cases hfind : w.net.ids.find? fun id => (w.net.node id).isMapped with
  | some id =>
    rw [hfind] at h
    cases h
  | none =>
    rw [hfind] at h
    cases h
    refine ⟨rfl, fun q => ?_⟩
    have hfind' : (w.net.ids.find? fun id => (w.net.node id).isMapped) = none := hfind
    rw [Mapper.ofWorkspace]
    dsimp only
    rw [hfind']
    rfl

theorem start_eq (hrounds : p.rounds ≠ 0) (hslots : p.cutsPerNode ≠ 0)
    (hd : w.net.dangling? = none) : Mapper.start p w =
      if w.net.isCanonical then Mapper.ofWorkspace p w.startRemap
      else w.startRemap.compact.bind (Mapper.ofWorkspace p) := by
  rw [Mapper.start, if_neg hrounds, if_neg hslots]
  dsimp only
  rw [show w.startRemap.net.dangling? = none from hd]
  rfl

theorem guards_of_start (h : Mapper.start p w = .ok m) :
    p.rounds ≠ 0 ∧ p.cutsPerNode ≠ 0 ∧ w.net.dangling? = none := by
  unfold Mapper.start at h
  split at h
  · cases h
  rename_i hrounds
  split at h
  · cases h
  rename_i hslots
  refine ⟨hrounds, hslots, ?_⟩
  cases hd : w.net.dangling? with
  | none => rfl
  | some d =>
    dsimp only at h
    rw [show w.startRemap.net.dangling? = some d from hd] at h
    cases h

/-- A run that starts does so with every remap, which has then followed the first compaction, if
there was one. -/
theorem start_withRemap (h : Mapper.start p w = .ok m) :
    (m.net = w.net ∧ ∀ q, Mapper.start p { w with remap := q } =
      .ok (m.withRemap (Workspace.startRemap { w with remap := q }).remap)) ∨
    ∃ c, Inside c w.net.size ∧ ∀ q, Mapper.start p { w with remap := q } =
      .ok (m.withRemap (moved c (Workspace.startRemap { w with remap := q }).remap)) := by
  obtain ⟨hrounds, hslots, hd⟩ := guards_of_start h
  have hstart (q : Option Remap) := start_eq (w := { w with remap := q }) hrounds hslots hd
  rw [start_eq hrounds hslots hd] at h
  by_cases hcan : w.net.isCanonical = true
  · rw [if_pos hcan] at h
    obtain ⟨hnet, hq⟩ := ofWorkspace_withRemap h
    refine .inl ⟨hnet, fun q => ?_⟩
    rw [hstart, if_pos (by exact hcan)]
    exact hq _
  · rw [if_neg hcan] at h
    obtain ⟨w₁, hw₁, hm⟩ := bind_eq_ok h
    obtain ⟨-, hq⟩ := ofWorkspace_withRemap hm
    rcases compact_cases w.net with ⟨e, he, -⟩ | ⟨net', c, hc, hr⟩
    · rw [Workspace.compact, show w.startRemap.net.compact = _ from he] at hw₁
      cases hw₁
    · rw [workspace_compact_ok (w := w.startRemap) hc] at hw₁
      cases hw₁
      refine .inr ⟨c, fun id i hi => lt_size_of_isLive (hr.live id i hi), fun q => ?_⟩
      rw [hstart, if_neg (by exact hcan),
        workspace_compact_ok (w := Workspace.startRemap { w with remap := q }) hc]
      exact hq _

variable [Topped α] {m₀ : Mapper α} {n : Nat} {w' : Workspace α} {stats : Stats α}

/-- A round that is not the last leaves every remap alone. -/
theorem Between.step_withRemap (h : Between m₀ m n) (hs : m.step = .ok (true, m'))
    (q : Option Remap) : (m.withRemap q).step = .ok (true, m'.withRemap q) := by
  have hlt : m.round < m.lastRound := by
    rw [h.round, h.lastRound]
    exact h.lt_of_step hs
  obtain ⟨m₁, hcover, -⟩ := coverRound_ok h.valid
  have hcover' := (coverRound_blind m q).trans (congrArg (carry q _) hcover)
  rw [step_of_lt h.finished hlt hcover] at hs
  obtain ⟨m₂, hnext, hm₂⟩ := bind_eq_ok hs
  cases hm₂
  have hnext' := (nextRound_blind m₁ q).trans (congrArg (carry q _) hnext)
  rw [step_of_lt (m := m.withRemap q) h.finished hlt hcover']
  exact congrArg (Except.bind · fun m => .ok (true, m)) hnext'

theorem Rounds.withRemap (h : Between m₀ m₀ 0) (hr : Rounds n m₀ m) (q : Option Remap) :
    Rounds n (m₀.withRemap q) (m.withRemap q) := by
  induction n generalizing m with
  | zero =>
    cases hr
    exact .none _
  | succ n ih =>
    obtain _ | ⟨hr, hstep⟩ := hr
    exact .more (ih hr) ((h.rounds_ok hr).step_withRemap hstep q)

/-- A whole run compacts whatever remap it is started with in the same way. -/
theorem Between.run_withRemap (h : Between m₀ m₀ 0) (hrun : m₀.run = .ok m') :
    ∃ c, Inside c m₀.net.size ∧ ∀ q, (m₀.withRemap q).run = .ok (m'.withRemap (moved c q)) := by
  obtain ⟨m, m'', hr, hstep, hrun', -⟩ := h.run_ok
  obtain rfl : m' = m'' := by simpa using hrun.symm.trans hrun'
  have hb := h.rounds_ok hr
  obtain ⟨m₁, m₂, hcover, hinst, hst, -, -, hlast⟩ := hb.last_parts
  obtain rfl : m₂.closeRound.finish = m' := by simpa using hlast.symm.trans hstep
  obtain ⟨c, hin, hc⟩ := instantiate_withRemap hinst
  have hnet : m₁.net = m₀.net := hst.net.trans hb.net
  refine ⟨c, hnet ▸ hin, fun q => ?_⟩
  have hcover' := (coverRound_blind m q).trans (congrArg (carry q _) hcover)
  have hlast' : (m.withRemap q).step =
      .ok (false, m₂.closeRound.finish.withRemap (moved c q)) := by
    rw [step_of_last (m := m.withRemap q) hb.finished (by exact hb.round.trans hb.lastRound.symm)
      hcover', hc q, ← finish_withRemap, ← closeRound_withRemap]
    rfl
  have hr' := runFor_of_rounds (Rounds.withRemap h hr q) 1
  rw [Mapper.run, show (m₀.withRemap q).round = 0 from h.round, Nat.sub_zero]
  refine hr'.trans ?_
  rw [Mapper.runFor, hlast']

omit [Topped α] in
theorem map_eq_ok (h : map p w = .ok (w', stats)) : ∃ m m', Mapper.start p w = .ok m ∧
    m.run = .ok m' ∧ m'.work = w' ∧ m'.stats = stats := by
  unfold map at h
  cases hm : Mapper.start p w with
  | error e =>
    rw [hm] at h
    cases h
  | ok m =>
    cases hrun : m.run with
    | error e =>
      rw [hm] at h
      dsimp only at h
      rw [hrun] at h
      cases h
    | ok m' =>
      rw [hm] at h
      dsimp only at h
      rw [hrun] at h
      cases h
      exact ⟨m, m', rfl, hrun, rfl, rfl⟩

/-- Mapping succeeds with every remap if it does with one. The network is the same, and all remaps
follow the same compaction. -/
theorem map_withRemap (h : map p w = .ok (w', stats)) : ∃ c, Inside c w.net.size ∧
    ∀ q, map p { w with remap := q } =
      .ok ({ w' with remap := moved c (Workspace.startRemap { w with remap := q }).remap }, stats) := by
  obtain ⟨m, m', hm, hrun, rfl, rfl⟩ := map_eq_ok h
  obtain ⟨c, hin, hc⟩ := (Started.of_start hm).between.run_withRemap hrun
  rcases start_withRemap hm with ⟨hnet, hq⟩ | ⟨c₀, hin₀, hq⟩
  · exact ⟨c, hnet ▸ hin, fun q => map_of_run (hq q) (hc _)⟩
  · refine ⟨c₀.follow c, hin₀.follow c, fun q => ?_⟩
    rw [← moved_follow]
    exact map_of_run (hq q) (hc _)

/-- Remaps compose, and so do the remaps of a run: whatever remap it is given, a run follows it with
the remap that it builds from nothing. -/
theorem map_compose : (∀ (r : Remap) (c : Compaction), r.apply c = r.compose (.ofCompaction c)) ∧
    (∀ (r s : Remap) (l : Lit), (r.compose s).lit l = (r.lit l).bind s.lit) ∧
    (∀ r s t : Remap, (r.compose s).compose t = r.compose (s.compose t)) ∧
    ∀ (p : Params Single) (w w' : Workspace Single) (stats : Stats Single) (r : Remap),
      w.remap = some r → r.isEmpty = false → map p w = .ok (w', stats) →
      ∃ f, map p { w with remap := some .empty } = .ok ({ w' with remap := some f }, stats) ∧
        w'.remap = some (r.compose f) := by
  refine ⟨Remap.apply_eq_compose, Remap.lit_compose, Remap.compose_assoc,
    fun p w w' stats r hr hne h => ?_⟩
  obtain ⟨c, hin, hq⟩ := map_withRemap h
  refine ⟨(Remap.identity w.net.size).apply c, hq (some .empty), ?_⟩
  have hself : { w with remap := some r } = w := by rw [← hr]
  have hown := hq (some r)
  rw [startRemap_eq rfl hne, hself, h] at hown
  have hremap : w'.remap = moved c (some r) :=
    congrArg (fun res => res.1.remap) (Except.ok.inj hown)
  rw [hremap, moved, Option.map_some, Remap.apply_eq_compose_identity hin]

/-- A remap with an entry that is inverted, one that is missing and one out of range. -/
def inverted : Remap := ⟨#[some ⟨3, true⟩, none, some (.ofNode 9)]⟩

theorem map_compose_conjunction : ∃ (w' : Workspace Single) (stats : Stats Single) (f : Remap),
    map .standard ⟨conjunction, some inverted, #[]⟩ = .ok (w', stats) ∧
      map .standard ⟨conjunction, some .empty, #[]⟩ =
        .ok ({ w' with remap := some f }, stats) ∧
      w'.remap = some (inverted.compose f) := by
  obtain ⟨w', stats, h⟩ := map_conjunction (some inverted)
  obtain ⟨-, -, -, hmap⟩ := map_compose
  obtain ⟨f, hf, hr⟩ := hmap _ _ w' stats _ rfl rfl h
  exact ⟨w', stats, f, h, hf, hr⟩

end TechMap.Mapping

import Mathlib
import TechMap.Proofs.Mapping.Run

/-! What mapping guarantees. A run that starts never fails, the mapped network computes what the
given one does for every node that is left, and it has the shape that its consumers rely on. -/

namespace TechMap.Mapping

open Network

/-- Every round of a run that starts succeeds, all but the last ask for another one, and the rounds
are recorded in order. So mapping only fails where it does not start, with the network as it was or
compacted. -/
theorem run_total (p : Params Single) (w : Workspace Single) :
    (∀ m, Mapper.start p w = .ok m →
      (∀ n m', Rounds n m m' → n < p.rounds + p.probe.toNat ∧
        ∃ m'', m'.step = .ok (decide (n + 1 < p.rounds + p.probe.toNat), m'') ∧
          m''.stats.rounds.map (·.round) = List.range (n + 1)) ∧
      ∃ m' m'', Rounds (p.rounds + p.probe.toNat - 1) m m' ∧ m'.step = .ok (false, m'') ∧
        m.run = .ok m'') ∧
    ∀ e, map p w = .error e → Mapper.start p w = .error e ∧ Untouched w e.state := by
  refine ⟨fun m hm => ?_, fun e he => ?_⟩
  · have hs : Started p w m := by
      rcases start_cases p w with ⟨e, he, -⟩ | ⟨m', hm', hs⟩
      · rw [he] at hm; cases hm
      · rw [hm'] at hm; cases hm; exact hs
    have hlast := hs.lastRound
    refine ⟨fun n m' hr => ?_, ?_⟩
    · have hb := hs.between.rounds_ok hr
      have hle := hb.le_last
      refine ⟨by omega, ?_⟩
      rcases Nat.lt_or_eq_of_le hle with hlt | rfl
      · obtain ⟨m'', hstep, hnext⟩ := hb.step_lt hlt
        exact ⟨m'', by rw [hstep, decide_eq_true (by omega)], hnext.rounds⟩
      · obtain ⟨m'', hstep, hfinal⟩ := hb.step_last
        exact ⟨m'', by rw [hstep, decide_eq_false (by omega)], hfinal.rounds⟩
    · obtain ⟨m', m'', hr, hstep, hrun, -⟩ := hs.between.run_ok
      exact ⟨m', m'', by rwa [← hlast, Nat.add_sub_cancel], hstep, hrun⟩
  · rcases map_cases p w with ⟨e', hstart, hmap, hu⟩ | ⟨m, m', -, -, hmap, -⟩
    · rw [hmap] at he
      cases he
      exact ⟨hstart, hu⟩
    · rw [hmap] at he
      cases he

theorem run_total_conjunction : ∃ m m' : Mapper Single,
    Mapper.start .standard ⟨conjunction, none, #[]⟩ = .ok m ∧ m.run = .ok m' := by
  obtain ⟨hrun, -⟩ := run_total .standard ⟨conjunction, none, #[]⟩
  obtain ⟨m, hm⟩ := start_conjunction (α := Single) (p := .standard) (by decide) (by decide) none
  obtain ⟨-, -, m', -, -, hm'⟩ := hrun m hm
  exact ⟨m, m', hm, hm'⟩

theorem map_conjunction (remap : Option Remap) : ∃ (w' : Workspace Single) (stats : Stats Single),
    map .standard ⟨conjunction, remap, #[]⟩ = .ok (w', stats) := by
  obtain ⟨m, hm⟩ := start_conjunction (α := Single) (p := .standard) (by decide) (by decide) remap
  rcases map_cases (Params.standard : Params Single) ⟨conjunction, remap, #[]⟩ with
    ⟨e, he, -⟩ | ⟨m, m', -, -, hmap, -⟩
  · rw [he] at hm
    cases hm
  · exact ⟨_, _, hmap⟩

/-- Sources and sinks stay what they are, and every node that the remap still knows has the word
that the given network computes for it. -/
theorem map_function (p : Params Single) (w w' : Workspace Single) (stats : Stats Single)
    (hc : w.net.isCanonical = true) (h0 : w.net.node NodeId.constant = .const)
    (hempty : w.remap = some .empty) (h : map p w = .ok (w', stats)) :
    ∃ remap, w'.remap = some remap ∧
      (∀ id, (w.net.node id).isSource = true →
        ∃ i, remap.get id = some (.ofNode i) ∧ w'.net.node i = w.net.node id) ∧
      (∀ id, (w.net.node id).isSink = true → ∃ i a b, remap.get id = some (.ofNode i) ∧
        (w.net.node id = .po a ∧ w'.net.node i = .po b ∨
          w.net.node id = .seq a ∧ w'.net.node i = .seq b)) ∧
      (∀ a b, (w.net.node a).isSource = true → (w.net.node b).isSource = true →
        remap.get a = remap.get b → a = b) ∧
      ∀ source source' : NodeId → UInt64,
        (∀ id l, (w.net.node id).isInput = true → remap.get id = some l →
          source' l.id = source id) →
        ∃ values values', w.net.simulate source = .ok values ∧
          w'.net.simulate source' = .ok values' ∧
          ∀ id l, remap.get id = some l → litValue values' l = values.getD id 0 := by
  rcases map_cases p w with ⟨e, -, hmap, -⟩ | ⟨m, m', -, hs, hmap, hfinal⟩
  · rw [hmap] at h
    cases h
  rw [hmap] at h
  obtain ⟨rfl, rfl⟩ : m'.work = w' ∧ m'.stats = stats := by simpa using h
  have hcan := isCanonical_iff.1 hc
  have hwork : m.work = w.startRemap := by
    rcases hs.work with ⟨-, hw⟩ | ⟨hnot, -⟩
    · exact hw
    · exact absurd hcan hnot
  have hnet : m.net = w.net := by rw [Mapper.net, hwork]; rfl
  obtain ⟨c, hremap, hm⟩ := hfinal.maps
  rw [hnet] at hm
  have hstart : m.work.remap = some (.identity w.net.size) := by
    rw [hwork]
    simp [Workspace.startRemap, hempty, Remap.isEmpty, Remap.empty]
  rw [hstart, Option.map_some] at hremap
  have hget (id : NodeId) (hid : id < w.net.size) :
      ((Remap.identity w.net.size).apply c).get id = (c.get id).map Lit.ofNode := by
    rw [Remap.get_identity_apply, if_pos hid]
  have hsome (id : NodeId) (l : Lit)
      (hl : ((Remap.identity w.net.size).apply c).get id = some l) :
      c.get id = some l.id ∧ l = .ofNode l.id := by
    rw [Remap.get_identity_apply] at hl
    split at hl
    · obtain ⟨i, hi, rfl⟩ := Option.map_eq_some_iff.1 hl
      exact ⟨hi, rfl⟩
    · cases hl
  refine ⟨_, hremap, fun id hid => ?_, fun id hid => ?_, fun a b ha hb hab => ?_,
    fun source source' hagree => ?_⟩
  · obtain ⟨i, hi⟩ := hm.total id (.inl hid)
    obtain ⟨g, hg⟩ := hm.root id i hi (.inl hid)
    refine ⟨i, ?_, by rw [← Node.mapLits_of_isSource (g := g) hid]; exact hg⟩
    rw [hget id (lt_size_of_isLive (isLive_of_isSource hid)), hi]
    rfl
  · obtain ⟨i, hi⟩ := hm.total id (.inr hid)
    obtain ⟨g, hg⟩ := hm.root id i hi (.inr hid)
    have hlit : ((Remap.identity w.net.size).apply c).get id = some (.ofNode i) := by
      rw [hget id (lt_size_of_isLive (isLive_of_isSink hid)), hi]
      rfl
    have hg : m'.work.net.node i = (w.net.node id).mapLits g := hg
    cases hn : w.net.node id <;> rw [hn] at hid hg <;> try cases hid
    · rename_i a
      exact ⟨i, a, g a, hlit, .inl ⟨rfl, hg⟩⟩
    · rename_i a
      exact ⟨i, a, g a, hlit, .inr ⟨rfl, hg⟩⟩
  · obtain ⟨i, hi⟩ := hm.total a (.inl ha)
    rw [hget a (lt_size_of_isLive (isLive_of_isSource ha)), hi,
      hget b (lt_size_of_isLive (isLive_of_isSource hb))] at hab
    obtain ⟨j, hj, hij⟩ := Option.map_eq_some_iff.1 hab.symm
    exact hm.inj a b i hi (by rw [hj]; cases hij; rfl)
  · obtain ⟨values, hv, -, hval⟩ := simulate_canonical hcan source
    obtain ⟨values', hv', -, hval'⟩ := simulate_canonical hm.canonical source'
    refine ⟨values, values', hv, hv', fun id l hl => ?_⟩
    obtain ⟨hid, hl'⟩ := hsome id l hl
    rw [hl', litValue_eq_readLit]
    refine hm.word h0 source source' _ _ hval hval' (fun i j hj hin => ?_) id l.id hid
    refine hagree i (.ofNode j) hin ?_
    rw [hget i (lt_size_of_isLive (isLive_of_isSource (Node.isSource_of_isInput hin))), hj]
    rfl

theorem map_function_conjunction : ∃ (w' : Workspace Single) (stats : Stats Single) (remap : Remap)
    (i : NodeId),
    map .standard ⟨conjunction, some .empty, #[]⟩ = .ok (w', stats) ∧
      w'.remap = some remap ∧ remap.get 4 = some (.ofNode i) := by
  obtain ⟨w', stats, h⟩ := map_conjunction (some .empty)
  obtain ⟨remap, hremap, -, hsink, -⟩ :=
    map_function .standard ⟨conjunction, some .empty, #[]⟩ w' stats (by decide) rfl rfl h
  obtain ⟨i, -, -, hi, -⟩ := hsink 4 rfl
  exact ⟨w', stats, remap, i, h, hremap, hi⟩

/-- The shape of a mapped network. -/
theorem map_shape (p : Params Single) (w w' : Workspace Single) (stats : Stats Single)
    (h0 : w.net.node NodeId.constant = .const) (h : map p w = .ok (w', stats)) :
    w'.net.isCanonical = true ∧
    (∀ i < w'.net.size, (w'.net.node i).isRemoved = false ∧ (w'.net.node i).isLogic = false ∧
      ((w'.net.node i).isSource = true ∨ (w'.net.node i).isSink = true ∨
        ∃ s, (w'.net.node s).isSink = true ∧ w'.net.Reaches s i)) ∧
    (∀ i inputs table, w'.net.node i = .lut6 inputs table → inputs.length ≤ 6 ∧
      (inputs.map (·.id)).Nodup ∧ (∀ l ∈ inputs, l.id ≠ NodeId.constant) ∧
      ∀ v, Table.Depends table v ↔ v < inputs.length) ∧
    (∀ i s t e, w'.net.node i = .mux s t e → s.id ≠ t.id ∧ s.id ≠ e.id ∧ t.id ≠ e.id) ∧
    w'.net.checkMuxes.isClean = true ∧
    (p.muxes = false → ∀ i, (w'.net.node i).isMux = false) ∧
    stats.lut6s = w'.net.countLut6 ∧ stats.muxes = w'.net.countMux := by
  rcases map_cases p w with ⟨e, -, hmap, -⟩ | ⟨m, m', -, hs, hmap, hfinal⟩
  · rw [hmap] at h
    cases h
  rw [hmap] at h
  obtain ⟨rfl, rfl⟩ : m'.work = w' ∧ m'.stats = stats := by simpa using h
  obtain ⟨c, -, hm⟩ := hfinal.maps
  rw [hs.fresh.params] at hm
  refine ⟨isCanonical_iff.2 hm.canonical, fun i hi => ⟨?_, hm.gateless i, ?_⟩,
    fun i inputs table hn => ?_, fun i s t e hn => ?_, hfinal.clean, hm.mux, hfinal.lut6s,
    hfinal.muxes⟩
  · exact Bool.not_eq_true' _ ▸ hm.live i hi
  · rcases hm.kept i hi with hk | hk
    · exact .inl hk
    · exact .inr (.inr hk)
  · have htight := hm.tight i
    have hne := hm.ne_zero (hs.constant h0) i
    rw [Mapper.net, hn] at htight hne
    obtain ⟨h6, hnodup, hdep⟩ := htight
    refine ⟨h6, hnodup, hne rfl, fun v => ⟨fun hv => ?_, fun hv => ?_⟩⟩
    · exact (hdep v hv.lt).1 ((Table.dependsOn_iff hv.lt table).2 hv)
    · have hlt : v < 6 := lt_of_lt_of_le hv h6
      exact (Table.dependsOn_iff hlt table).1 ((hdep v hlt).2 hv)
  · have htight := hm.tight i
    rw [Mapper.net, hn] at htight
    exact htight

theorem map_shape_conjunction : ∃ (w' : Workspace Single) (stats : Stats Single),
    map .standard ⟨conjunction, none, #[]⟩ = .ok (w', stats) ∧
      w'.net.isCanonical = true ∧ stats.lut6s = w'.net.countLut6 := by
  obtain ⟨w', stats, h⟩ := map_conjunction none
  obtain ⟨hcan, -, -, -, -, -, hlut6s, -⟩ :=
    map_shape .standard ⟨conjunction, none, #[]⟩ w' stats rfl h
  exact ⟨w', stats, h, hcan, hlut6s⟩

end TechMap.Mapping

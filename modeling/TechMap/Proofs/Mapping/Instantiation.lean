import Mathlib
import TechMap.Proofs.Mapping.Maps
import TechMap.Proofs.Mapping.Step

/-! Instantiation never fails. It leaves a mapping whose multiplexers obey all rules, and the remap
has followed both compactions. -/

namespace TechMap.Mapping

open Network

variable {α : Type} {m m' : Mapper α} {c : Compaction}

/-- The state has a mapping of the network of `m₀`, and the remap says where the nodes went. -/
structure Mapped (m₀ m : Mapper α) : Prop where
  params : m.params = m₀.params
  round : m.round = m₀.round
  finished : m.finished = m₀.finished
  rounds : m.stats.rounds = m₀.stats.rounds
  delay : m.delay = m₀.delay
  maps : ∃ c : Compaction, m.work.remap = m₀.work.remap.map (fun r => r.apply c) ∧
    Maps m₀.params.muxes m₀.net m.net c

theorem workspace_compact_ok {w : Workspace α} {net' : Network}
    (h : w.net.compact = (net', .ok c)) : w.compact = .ok
      { net := net', remap := w.remap.map fun r => r.apply c,
        log := w.log.push (.compacted w.net.size net'.size) } := by
  unfold Workspace.compact
  rw [h]

theorem compact_step_ok {net' : Network} (h : m.net.compact = (net', .ok c)) :
    m.compact = .ok { m with work :=
      { net := net', remap := m.work.remap.map fun r => r.apply c,
        log := m.work.log.push (.compacted m.net.size net'.size) } } := by
  unfold Mapper.compact
  rw [workspace_compact_ok h]
  rfl

/-- Where there is no multiplexer no rule is broken. -/
theorem isMux_of_countMux {net : Network} (h : net.countMux = 0) (id : NodeId) :
    (net.node id).isMux = false := by
  rcases Nat.lt_or_ge id net.size with hlt | hge
  · have hall := Array.countP_eq_zero.1 (show net.nodes.countP Node.isMux = 0 from h)
    have hlt' : id < net.nodes.size := hlt
    rw [node_eq_getElem hlt']
    simpa using hall net.nodes[id] (Array.getElem_mem hlt')
  · rw [node_of_ge hge]
    rfl

theorem legal_of_countMux {net : Network} (h : net.countMux = 0) : net.Settled ∧ net.Shallow := by
  have hnil (id : NodeId) : (net.node id).muxData = [] := by
    by_contra hne
    obtain ⟨l, hl⟩ := List.exists_mem_of_ne_nil _ hne
    have := isMux_of_muxData hl
    rw [isMux_of_countMux h] at this
    cases this
  refine ⟨⟨fun id l hl => ?_, fun id l hl => ?_, fun id l hl => ?_⟩, fun id l hl => ?_⟩ <;>
    rw [hnil] at hl <;> cases hl

/-- A compaction that renumbers demoted multiplexers, and all the rest, goes on with a mapping. -/
theorem compact_mapped {m₀ : Mapper α} (h : Mapped m₀ m) (hd : Demoted m.net m'.net)
    (hwork : m'.work.remap = m.work.remap) (hparams : m'.params = m.params)
    (hround : m'.round = m.round) (hfinished : m'.finished = m.finished)
    (hrounds : m'.stats.rounds = m.stats.rounds) (hdelay : m'.delay = m.delay) :
    m'.compact.Ensures fun m'' => Mapped m₀ m'' ∧ ∃ c', Renumbered m'.net m''.net c' := by
  obtain ⟨c, hremap, hm⟩ := h.maps
  obtain ⟨net', c', hcompact, hr⟩ := compact_ok (hd.canonical hm.canonical).grounded
    fun _ _ => trivial
  rw [compact_step_ok hcompact]
  refine .ok ⟨⟨hparams.trans h.params, hround.trans h.round, hfinished.trans h.finished,
    hrounds.trans h.rounds, hdelay.trans h.delay, c.follow c', ?_, hm.demote hd hr⟩, c', hr⟩
  dsimp only
  rw [hwork, hremap, Option.map_map]
  congr 1
  funext r
  exact r.apply_follow c c'

theorem legalize_ok {m₀ : Mapper α} (h : Mapped m₀ m) (hl : m.legalizer = demoteMuxes) :
    m.legalize.Ensures fun m' => Mapped m₀ m' ∧ m'.net.checkMuxes.isClean = true := by
  obtain ⟨c, -, hm⟩ := h.maps
  unfold Mapper.legalize
  extract_lets total lut6s
  split
  · obtain ⟨hd, hs, hsh⟩ := legalize_spec hm.canonical
    rw [hl]
    unfold demoteMuxes
    dsimp only
    set legal := m.net.legalize
    set m₁ : Mapper α := { m.setNet legal.1 with
      stats := { (m.setNet legal.1).stats with demoted := legal.2 } }
    set m₂ := m₁.report (.legalized legal.2 total legal.1.countMux (lut6s + legal.2))
    have hsame : m₂.net = legal.1 ∧ m₂.work.remap = m.work.remap ∧ m₂.params = m.params ∧
        m₂.round = m.round ∧ m₂.finished = m.finished ∧ m₂.stats.rounds = m.stats.rounds ∧
        m₂.delay = m.delay := by
      simp only [m₂, Mapper.report]
      split <;> exact ⟨rfl, rfl, rfl, rfl, rfl, rfl, rfl⟩
    obtain ⟨hnet, h1, h2, h3, h4, h5, h6⟩ := hsame
    refine (compact_mapped h (hnet ▸ hd) h1 h2 h3 h4 h5 h6).mono fun m' hm' => ?_
    obtain ⟨hm', c', hr⟩ := hm'
    rw [hnet] at hr
    exact ⟨hm', isClean_checkMuxes (hr.settled hs) (hr.shallow hsh)⟩
  · rename_i hzero
    obtain ⟨hs, hsh⟩ := legal_of_countMux (Nat.eq_zero_of_not_pos hzero)
    exact .ok ⟨h, isClean_checkMuxes hs hsh⟩

/-- Instantiation succeeds, with a mapping that breaks no rule. -/
theorem instantiate_ok (h : Valid m) (hl : Listed m) (hc : Consistent m) :
    m.instantiate.Ensures fun m' => Mapped m m' ∧ m'.net.checkMuxes.isClean = true := by
  obtain ⟨memo, nodes, hnodes, -, hids, hbuilt⟩ := mappedNodes_ok h hl m.order [] h.memo
  have himp := implemented_implement h hids hbuilt
  obtain ⟨net', c, hcompact, hr⟩ := compact_ok (himp.grounded h hc)
    fun id hid => himp.needed_of_root hc hid
  have hmaps := himp.maps h hc hr
  unfold Mapper.instantiate
  rw [hnodes, List.reverse_nil, List.nil_append]
  dsimp only
  set m₁ : Mapper α := Mapper.setNet { m with memo := memo } (Mapper.implement m.net m.order nodes)
  have hfirst : m₁.compact = .ok { m₁ with work :=
      { net := net', remap := m.work.remap.map fun r => r.apply c,
        log := m.work.log.push (.compacted m₁.net.size net'.size) } } := compact_step_ok hcompact
  refine Step.Ensures.bind (P := fun m' => Mapped m m' ∧ m'.net.checkMuxes.isClean = true)
    ?_ fun m' hm' => ?_
  · show Step.Ensures (Except.bind m₁.compact Mapper.legalize) _
    rw [hfirst]
    exact legalize_ok ⟨rfl, rfl, rfl, rfl, rfl, c, rfl, hmaps⟩ h.demotes
  · refine .ok ?_
    rw [hm'.2]
    simpa using hm'

end TechMap.Mapping

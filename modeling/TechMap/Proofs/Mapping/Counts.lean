import Mathlib
import TechMap.Proofs.Mapping.Run

/-! The counts of a cover are exact in every round. What active nodes demand of a gate splits into
the active gates that have it as a leaf of their winner and the operands of other active nodes. -/

namespace TechMap.Mapping

variable {α : Type} {m : Mapper α}

/-- How many active gates have `v` as a leaf of their winner. -/
def gateUses (m : Mapper α) (v : NodeId) : Nat :=
  ((Finset.range m.net.size).filter fun u => m.isActive u = true ∧ (m.net.node u).isLogic = true ∧
    ∃ cut ∈ m.winner? u, v ∈ cut.leaves).card

/-- How many operands of active pass-throughs and sinks are `v`. -/
def nodeUses (m : Mapper α) (v : NodeId) : Nat :=
  ∑ u ∈ (Finset.range m.net.size).filter fun u => m.isActive u = true ∧
    ((m.net.node u).isPassThrough = true ∨ (m.net.node u).isSink = true),
    ((m.net.node u).operands.map (·.id)).count v

/-- What one active node demands. -/
theorem count_uses (h : Valid m) (v u : NodeId) : (m.uses u).count v =
    (if (m.net.node u).isLogic = true ∧ ∃ cut ∈ m.winner? u, v ∈ cut.leaves then 1 else 0) +
      if (m.net.node u).isPassThrough = true ∨ (m.net.node u).isSink = true then
        ((m.net.node u).operands.map (·.id)).count v else 0 := by
  by_cases hlogic : (m.net.node u).isLogic = true
  · have hother : ¬ ((m.net.node u).isPassThrough = true ∨ (m.net.node u).isSink = true) := by
      cases hn : m.net.node u <;> simp_all [Node.isLogic, Node.isPassThrough, Node.isSink]
    rw [if_neg hother, Nat.add_zero]
    cases hw : m.cutsOf u with
    | nil =>
      have hnone : m.winner? u = none := by rw [Mapper.winner?, hw]; rfl
      have huses : m.uses u = [] := by
        have hw : m.cuts.getD u [] = [] := hw
        simp [Mapper.uses, usesOf, hlogic, hw]
      simp [huses, hnone]
    | cons winner rest =>
      have hsome : m.winner? u = some winner := by rw [Mapper.winner?, hw]; rfl
      have hnodup : winner.leaves.Nodup :=
        (h.stored u winner (by simp [hw])).proper.sorted.imp fun h => ne_of_lt h
      rw [uses_of_isLogic hlogic hw, hnodup.count]
      simp [hlogic, hsome]
  · rw [if_neg (by simp [hlogic]), Nat.zero_add, uses_of_not_isLogic hlogic]
    split
    · rfl
    · rename_i hother
      have hnone : (m.net.node u).operands = [] := by
        have := h.unmapped u
        cases hn : m.net.node u <;>
          simp_all [Node.isLogic, Node.isPassThrough, Node.isSink, Node.isMapped, Node.operands]
      simp [hnone]

theorem demand_eq (h : Valid m) (v : NodeId) :
    demand m.net.size m.uses m.usage.active v = gateUses m v + nodeUses m v := by
  rw [gateUses, nodeUses, Finset.card_filter, Finset.sum_filter, ← Finset.sum_add_distrib]
  refine Finset.sum_congr rfl fun u _ => ?_
  have hflag : m.usage.active.getD u false = m.isActive u := rfl
  rw [hflag]
  by_cases ha : m.isActive u = true
  · rw [if_pos ha, count_uses h]
    simp [ha]
  · simp [ha]

/-- The network is not touched before the last round. -/
theorem Between.net_survey {m₀ m m₁ m₂ : Mapper α} {n : Nat} (h : Between m₀ m n)
    (h₁ : Steady { m with enumerated := 0 } m₁) (h₂ : Covered m₁ m₂) : m₂.net = m₀.net :=
  h₂.steady.net.trans (h₁.net.trans h.net)

/-- In every round the count of a gate is how often the active nodes use it, a gate is active
exactly if that is at least once, and the gates and pass-throughs that active gates need are
active. -/
theorem fanouts_exact (p : Params Single) (w : Workspace Single) {m m' : Mapper Single} {n : Nat}
    (hm : Mapper.start p w = .ok m) (hr : Rounds n m m') : ∃ m₁ m₂,
      Mapper.generateAll { m' with enumerated := 0 } = .ok m₁ ∧
      m₁.updateFanouts false = .ok m₂ ∧ m₂.net = m.net ∧
      ∀ v, (m₂.net.node v).isLogic = true →
        m₂.usage.count v = gateUses m₂ v + nodeUses m₂ v ∧
        (m₂.isActive v = true ↔ 0 < m₂.usage.count v) ∧
        (m₂.isActive v = true → ∃ cut, m₂.winner? v = some cut ∧ ∀ l ∈ cut.leaves,
          (m₂.net.node l).isLogic = true ∨ (m₂.net.node l).isPassThrough = true →
            m₂.isActive l = true) := by
  have hb := (Started.of_start hm).between.rounds_ok hr
  obtain ⟨m₁, m₂, hm₁, hm₂, -, -, hs₁, hc₂⟩ := hb.survey_ok
  have hv₂ := hc₂.valid
  refine ⟨m₁, m₂, hm₁, hm₂, hb.net_survey hs₁ hc₂, fun v hv => ⟨?_, hc₂.consistent.used v hv,
    fun ha => ?_⟩⟩
  · rw [hc₂.consistent.counts v hv, demand_eq hv₂]
  · obtain ⟨cut, rest, hcuts⟩ := List.exists_cons_of_ne_nil (hc₂.listed v hv)
    refine ⟨cut, by rw [Mapper.winner?, hcuts]; rfl, fun l hl hkind => ?_⟩
    have huse : l ∈ m₂.uses v := by rwa [uses_of_isLogic hv hcuts]
    refine (hc₂.consistent.closed hv₂ ha huse).resolve_right fun hsource => ?_
    rcases hkind with hk | hk
    · rw [Node.not_isLogic_of_isSource hsource] at hk
      cases hk
    · cases hn : m₂.net.node l <;> simp_all [Node.isSource, Node.isPassThrough]

theorem fanouts_exact_conjunction : ∃ m m' m₁ m₂ : Mapper Single,
    Mapper.start .standard ⟨conjunction, none, #[]⟩ = .ok m ∧ Rounds 1 m m' ∧
      Mapper.generateAll { m' with enumerated := 0 } = .ok m₁ ∧ m₁.updateFanouts false = .ok m₂ ∧
      m₂.usage.count 3 = gateUses m₂ 3 + nodeUses m₂ 3 := by
  obtain ⟨m, m', hm, hr, hnet⟩ := rounds_conjunction (n := 1) (by omega)
  obtain ⟨m₁, m₂, hm₁, hm₂, hnet₂, hcounts⟩ := fanouts_exact _ _ hm hr
  exact ⟨m, m', m₁, m₂, hm, hr, hm₁, hm₂, (hcounts 3 (by rw [hnet₂, hnet]; rfl)).1⟩

end TechMap.Mapping

import Mathlib
import TechMap.Proofs.Mapping.Target

/-! Forward and backward times of a cover agree, when times are exact, there are no multiplexers and
winners stay as generation chose them. Arrivals are the longest paths up to a node, departures those
from it on, and a path from a source to an output has both as its parts. -/

namespace TechMap.Mapping

open Clock Timed

variable {α : Type} [Quantity α]

/-- The nodes that the outputs read. -/
def outputs (net : Network) : List NodeId :=
  net.sinks.flatMap fun id => (net.node id).operands.map (·.id)

section Cover

variable {m m' : Mapper α} {id : NodeId} {w : Cut}

end Cover

variable [Timed α] {m m' : Mapper α} {u v : NodeId} {w : Cut} {D : ℚ} {n : Nat}

/-- A cover whose arrivals and departures are both longest paths. -/
structure Balanced (m : Mapper α) : Prop where
  valid : Valid m
  listed : Listed m
  plain : Plain m.net
  fed : ∀ i w, m.winner? i = some w → w.leaves ≠ []
  discovered : Discovered m
  departed : Departed m
  forward : Forward m

theorem Forward.lut (h : Forward m) (hv : Valid m) (hw : m.winner? u = some w) :
    (m.net.node u).isLogic = true ∧ w.isMux = false := by
  have hfit := hv.stored u w (List.mem_of_mem_head? hw)
  exact ⟨hfit.logic, hfit.lut h.luts⟩

namespace Balanced

theorem time (h : Balanced m) (hu : m.isActive u = true ∨ (m.net.node u).isSource = true) :
    Latest m [] u :=
  h.departed.1 u (.inr (hu.symm.imp_left Node.not_isLogic_of_isSource))

theorem not_isSink (h : Balanced m) (hu : v ∈ m.uses u) : (m.net.node v).isSink = false := by
  obtain ⟨i, l, hl, rfl⟩ := exists_operand_of_mem_uses h.valid hu
  exact h.plain.unread i l hl

/-- What a node asks for is no later than the departure of what it uses. -/
theorem asked (h : Balanced m) (ha : m.isActive u = true) (hu : v ∈ m.uses u) :
    val (m.est.departAt u) + val (useDelay m u v) ≤ val (m.est.departAt v) := by
  have hle := (h.time (.inl (h.discovered.closed u ha v hu))).le u ⟨by simp, ha, hu⟩
  rwa [show key (m.est.departAt u + useDelay m u v) = _ from
    (add_exact (h.time (.inl ha)).time.1 (exact_useDelay m u v).1).2] at hle

/-- A departure is 0, or some user asks for it. -/
theorem attained (h : Balanced m) (hv : Latest m [] v) : val (m.est.departAt v) = 0 ∨
    ∃ u, m.isActive u = true ∧ v ∈ m.uses u ∧
      val (m.est.departAt v) = val (m.est.departAt u) + val (useDelay m u v) := by
  rcases hv.attained with h0 | ⟨u, ⟨-, ha, hu⟩, he⟩
  · exact .inl (by rw [h0, val_zero])
  · refine .inr ⟨u, ha, hu, ?_⟩
    rw [he, (add_exact (h.time (.inl ha)).time.1 (exact_useDelay m u v).1).2]

/-- Nothing asks an output to depart. -/
theorem depart_sink (h : Balanced m) (ha : m.isActive u = true)
    (hsink : (m.net.node u).isSink = true) : m.est.departAt u = 0 := by
  refine (h.time (.inl ha)).attained.resolve_right fun ⟨w, hw, _⟩ => ?_
  rw [h.not_isSink hw.2.2] at hsink
  cases hsink

end Balanced

section Runs

variable [Topped α] {p : Params α} {ws : Workspace α}

end Runs

end TechMap.Mapping

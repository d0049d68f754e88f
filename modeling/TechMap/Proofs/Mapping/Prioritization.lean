import Mathlib
import TechMap.Proofs.Mapping.Run
import TechMap.Proofs.Mapping.Window

/-! What prioritization does to a list and to the estimates. The winner is the smallest cut in time
or the fastest of all, and where multiplexers are mapped it is one of depth at most two if there is
any. -/

namespace TechMap.Mapping

open Comparison

variable {α : Type} {m : Mapper α} {id : NodeId} {cuts rest : List Cut} {first c : Cut}

variable [Quantity α]

theorem cutCost_congr {m' : Mapper α} (hp : m'.params = m.params)
    (hfanout : m'.est.fanout = m.est.fanout)
    (h : ∀ l ∈ c.leaves, m'.est.arrivalAt l = m.est.arrivalAt l ∧
      m'.est.areaAt l = m.est.areaAt l) : m'.cutCost id c = m.cutCost id c := by
  have hlatest : m'.est.latest c = m.est.latest c :=
    List.foldl_ext _ _ _ fun acc l hl => by rw [(h l hl).1]
  have harea : m'.est.sumArea c = m.est.sumArea c :=
    List.foldl_ext _ _ _ fun acc l hl => by rw [(h l hl).2]
  have hat (l : NodeId) : m'.est.fanoutAt l = m.est.fanoutAt l := by
    rw [Estimates.fanoutAt, hfanout]
    rfl
  have hsum : m'.est.sumFanout c = m.est.sumFanout c :=
    List.foldl_ext _ _ _ fun acc l _ => by rw [hat]
  simp only [Mapper.cutCost, cutCost, hlatest, harea, hsum, hat, hp]

/-- A cut costs the same after its node took over the cost of another. -/
theorem cutCost_settleCost (best : Cost α) (h : id ∉ c.leaves) :
    (m.settleCost id best).cutCost id c = m.cutCost id c :=
  cutCost_congr rfl rfl fun l hl => by
    have hne : l ≠ id := fun he => h (he ▸ hl)
    exact ⟨getD_setIfInBounds_ne hne _ _, getD_setIfInBounds_ne hne _ _⟩

end TechMap.Mapping

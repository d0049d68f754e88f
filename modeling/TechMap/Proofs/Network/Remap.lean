import Mathlib
import TechMap.Network.Remap

/-! Remaps compose. A compaction is a remap that inverts nothing, so to follow with one is to compose,
and composition is associative. -/

namespace TechMap

namespace Compaction

/-- A compaction and then another one. -/
def follow (c c' : Compaction) : Compaction := ⟨c.map.map fun entry => entry.bind c'.get⟩

variable {c c' : Compaction}

theorem get_follow (id : NodeId) : (c.follow c').get id = (c.get id).bind c'.get := by
  simp only [get, follow, Array.getElem?_map]
  cases c.map[id]? <;> rfl

theorem get_follow_eq_some {id k : NodeId} :
    (c.follow c').get id = some k ↔ ∃ i, c.get id = some i ∧ c'.get i = some k := by
  rw [get_follow, Option.bind_eq_some_iff]

theorem lit_follow (l : Lit) : (c.follow c').lit l = (c.lit l).bind c'.lit := by
  simp only [lit, get_follow]
  cases c.get l.id <;> rfl

end Compaction

namespace Remap

variable {r s t : Remap} {c c' : Compaction}

theorem apply_follow (r : Remap) (c c' : Compaction) :
    (r.apply c).apply c' = r.apply (c.follow c') := by
  simp only [apply, Array.map_map, Remap.mk.injEq]
  refine Array.map_congr_left fun entry _ => ?_
  cases entry <;> simp [Compaction.lit_follow]

theorem get_identity_apply (n : Nat) (c : Compaction) (id : NodeId) :
    ((identity n).apply c).get id = if id < n then (c.get id).map Lit.ofNode else none := by
  simp only [get, apply, identity, Array.getElem?_map, List.getElem?_toArray, List.getElem?_map]
  by_cases h : id < n
  · simp [h, Compaction.lit, Lit.ofNode]
    rfl
  · simp [h]

theorem xor_xor (l : Lit) (a b : Bool) : (l.xor a).xor b = l.xor (a ^^ b) := by
  simp [Lit.xor]

/-- An inversion goes through. -/
theorem lit_xor (r : Remap) (l : Lit) (b : Bool) :
    r.lit (l.xor b) = (r.lit l).map (·.xor b) := by
  simp only [lit, Option.map_map]
  congr 1
  funext res
  exact (xor_xor res l.sign b).symm

theorem get_compose (r s : Remap) (id : NodeId) :
    (r.compose s).get id = (r.get id).bind s.lit := by
  simp only [get, compose, Array.getElem?_map]
  cases r.map[id]? <;> rfl

/-- A composition maps signals as its parts do one after the other. -/
theorem lit_compose (r s : Remap) (l : Lit) : (r.compose s).lit l = (r.lit l).bind s.lit := by
  simp only [lit, get_compose]
  cases r.get l.id with
  | none => rfl
  | some res => exact (lit_xor s res l.sign).symm

theorem compose_assoc (r s t : Remap) : (r.compose s).compose t = r.compose (s.compose t) := by
  simp only [compose, Array.map_map, Remap.mk.injEq]
  refine Array.map_congr_left fun entry _ => ?_
  cases entry with
  | none => rfl
  | some l => exact (lit_compose s t l).symm

/-- Only what is mapped matters. -/
theorem compose_congr (h : ∀ id, s.get id = t.get id) : r.compose s = r.compose t := by
  have hlit : s.lit = t.lit := funext fun l => by rw [lit, lit, h]
  rw [compose, compose, hlit]

theorem get_ofCompaction (c : Compaction) (id : NodeId) :
    (ofCompaction c).get id = (c.get id).map Lit.ofNode := by
  simp only [get, ofCompaction, Array.getElem?_map, Compaction.get]
  cases c.map[id]? <;> rfl

theorem lit_ofCompaction (c : Compaction) (l : Lit) : (ofCompaction c).lit l = c.lit l := by
  simp only [lit, get_ofCompaction, Compaction.lit]
  cases c.get l.id <;> simp [Lit.ofNode, Lit.xor]

theorem apply_eq_compose (r : Remap) (c : Compaction) : r.apply c = r.compose (ofCompaction c) := by
  have hlit : (ofCompaction c).lit = c.lit := funext (lit_ofCompaction c)
  rw [apply, compose, hlit]

/-- An identity that knows all nodes of a compaction becomes that compaction. -/
theorem apply_eq_compose_identity {n : Nat} (hc : ∀ id i, c.get id = some i → id < n) :
    r.apply c = r.compose ((identity n).apply c) := by
  rw [apply_eq_compose]
  refine compose_congr fun id => ?_
  rw [get_ofCompaction, get_identity_apply]
  split
  · rfl
  · rename_i hid
    rw [Option.map_eq_none_iff, Option.eq_none_iff_forall_ne_some]
    exact fun i hi => hid (hc id i hi)

end Remap

end TechMap

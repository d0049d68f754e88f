import Mathlib
import TechMap.Mapping.Reference
import TechMap.Proofs.Network.Basic

/-! How often the active nodes use a node, and what one release or one retain does to that. The log
of a walk, replayed from its end, restores the counts and the flags. -/

namespace TechMap.Mapping

/-- The leaves of a gate's winner, the operands of any other node. -/
def usesOf (net : Network) (cuts : Array (List Cut)) (id : NodeId) : List NodeId :=
  if (net.node id).isLogic then ((cuts.getD id []).head?.map Cut.leaves).getD []
  else (net.node id).operands.map (·.id)

/-- The uses of `v` by active nodes below `n`. -/
def demand (n : Nat) (uses : NodeId → List NodeId) (active : Array Bool) (v : NodeId) : Nat :=
  ∑ u ∈ Finset.range n, if active.getD u false then (uses u).count v else 0

variable {n : Nat} {uses : NodeId → List NodeId} {active : Array Bool} {id v : NodeId}

theorem demand_congr {uses' : NodeId → List NodeId} {active' : Array Bool}
    (ha : ∀ u < n, active'.getD u false = active.getD u false)
    (h : ∀ u < n, active.getD u false = true → (uses' u).count v = (uses u).count v) :
    demand n uses' active' v = demand n uses active v := by
  refine Finset.sum_congr rfl fun u hu => ?_
  have hu := Finset.mem_range.1 hu
  rw [ha u hu]
  split
  · rename_i hact; exact h u hu hact
  · rfl

theorem set_getD {β : Type} (xs : Array β) (i : Nat) (d : β) :
    xs.setIfInBounds i (xs.getD i d) = xs := by
  refine Array.ext (by simp) fun j hj hj' => ?_
  rw [Array.getElem_setIfInBounds hj']
  split
  · rename_i he; subst he; simp [Array.getD_eq_getD_getElem?, hj']
  · rfl

/-- A write of the old value takes a write back. -/
theorem set_set_getD {β : Type} (xs : Array β) (i : Nat) {x y d : β} (hy : xs.getD i d = y) :
    (xs.setIfInBounds i x).setIfInBounds i y = xs := by
  rw [Array.setIfInBounds_setIfInBounds, ← hy]
  exact set_getD xs i d

/-- What one node adds when it becomes active. -/
theorem demand_activate (uses : NodeId → List NodeId) (h : id < n) (hs : id < active.size)
    (hf : active.getD id false = false) (v : NodeId) : demand n uses (active.setIfInBounds id true) v =
      demand n uses active v + (uses id).count v := by
  have hid := Finset.mem_range.2 h
  rw [demand, demand, ← Finset.add_sum_erase _ _ hid, ← Finset.add_sum_erase _ _ hid,
    getD_set _ hs, if_pos rfl, hf]
  simp only [if_true, Bool.false_eq_true, if_false, Nat.zero_add]
  rw [Nat.add_comm]
  congr 1
  refine Finset.sum_congr rfl fun u hu => ?_
  rw [getD_set _ hs, if_neg (Finset.ne_of_mem_erase hu)]

theorem demand_deactivate (uses : NodeId → List NodeId) (h : id < n) (hs : id < active.size)
    (ht : active.getD id false = true) (v : NodeId) :
    demand n uses (active.setIfInBounds id false) v + (uses id).count v =
      demand n uses active v := by
  have hoff : (active.setIfInBounds id false).getD id false = false := by
    rw [getD_set active hs, if_pos rfl]
  have := demand_activate uses h (by rwa [Array.size_setIfInBounds]) hoff v
  rw [← this, set_set_getD (d := false) _ _ ht]

/-- The share of one active node. -/
theorem demand_except (uses : NodeId → List NodeId) (h : id < n) (ht : active.getD id false = true) (v : NodeId) :
    demand n uses active v =
      demand n (Function.update uses id []) active v + (uses id).count v := by
  have hid := Finset.mem_range.2 h
  rw [demand, demand, ← Finset.add_sum_erase _ _ hid, ← Finset.add_sum_erase _ _ hid, ht]
  simp only [if_true, Function.update_self, List.count_nil, Nat.zero_add]
  rw [Nat.add_comm]
  congr 1
  refine Finset.sum_congr rfl fun u hu => ?_
  rw [Function.update_of_ne (Finset.ne_of_mem_erase hu)]

theorem count_le_demand (h : id < n) (ht : active.getD id false = true) (v : NodeId) :
    (uses id).count v ≤ demand n uses active v := by
  rw [demand_except uses h ht v]
  exact Nat.le_add_left _ _

theorem exists_of_demand_pos (h : 0 < demand n uses active v) :
    ∃ u < n, active.getD u false = true ∧ v ∈ uses u := by
  obtain ⟨u, hu, hpos⟩ := Finset.exists_ne_zero_of_sum_ne_zero (Nat.pos_iff_ne_zero.1 h)
  split at hpos
  · rename_i hact
    exact ⟨u, Finset.mem_range.1 hu, hact, List.count_pos_iff.1 (Nat.pos_of_ne_zero hpos)⟩
  · exact absurd rfl hpos

theorem demand_pos {u : NodeId} (hu : u < n) (ha : active.getD u false = true) (hv : v ∈ uses u) :
    0 < demand n uses active v :=
  lt_of_lt_of_le (List.count_pos_iff.2 hv) (count_le_demand hu ha v)

namespace Usage

variable {u u' : Usage}

theorem count_release (h : id < u.fanouts.size) (v : NodeId) :
    (u.release id).count v = if v = id then u.count id - 1 else u.count v :=
  getD_set _ h _ _ _

theorem count_retain (h : id < u.fanouts.size) (v : NodeId) :
    (u.retain id).count v = if v = id then u.count id + 1 else u.count v :=
  getD_set _ h _ _ _

theorem active_release (u : Usage) (id : NodeId) : (u.release id).active =
    if u.count id - 1 = 0 then u.active.setIfInBounds id false else u.active := rfl

theorem active_retain (u : Usage) (id : NodeId) : (u.retain id).active =
    if u.count id + 1 = 1 then u.active.setIfInBounds id true else u.active := rfl

/-- The log of `u'` leads back to `u` with the log that `u` has. -/
def Reverts (revert : Usage → NodeId → Usage) (u u' : Usage) : Prop :=
  ∃ ids, u'.undo = ids ++ u.undo ∧ ids.foldl revert u'.clearUndo = u.clearUndo

variable {revert : Usage → NodeId → Usage}

theorem Reverts.refl (u : Usage) : Reverts revert u u := ⟨[], rfl, rfl⟩

theorem Reverts.step {u₁ : Usage} (hlog : u₁.undo = id :: u.undo)
    (h1 : revert u₁.clearUndo id = u.clearUndo) (h : Reverts revert u₁ u') :
    Reverts revert u u' := by
  obtain ⟨ids, hu, hids⟩ := h
  exact ⟨ids ++ [id], by rw [hu, hlog, List.append_assoc]; rfl,
    by rw [List.foldl_append, hids]; exact h1⟩

theorem unrelease_release (hf : id < u.fanouts.size)
    (h0 : 0 < u.count id) (h1 : u.count id = 1 → u.active.getD id false = true) :
    (u.release id).clearUndo.unrelease id = u.clearUndo := by
  have hc : (u.release id).clearUndo.count id = u.count id - 1 := by
    have := count_release hf id
    rwa [if_pos rfl] at this
  have hfan : (u.release id).fanouts.setIfInBounds id (u.count id - 1 + 1) =
      u.fanouts := by
    refine set_set_getD (d := 0) _ _ ?_
    rw [Nat.sub_add_cancel h0]
    rfl
  have hact : (if u.count id - 1 = 0 then
      (u.release id).active.setIfInBounds id true else (u.release id).active) =
        u.active := by
    rw [active_release]
    split
    · exact set_set_getD (d := false) _ _ (h1 (by omega))
    · rfl
  unfold unrelease
  rw [hc]
  show Usage.mk _ _ _ = _
  rw [hact, hfan]
  rfl

theorem unretain_retain (hf : id < u.fanouts.size)
    (h1 : u.count id = 0 → u.active.getD id false = false) :
    (u.retain id).clearUndo.unretain id = u.clearUndo := by
  have hc : (u.retain id).clearUndo.count id = u.count id + 1 := by
    have := count_retain hf id
    rwa [if_pos rfl] at this
  have hfan : (u.retain id).fanouts.setIfInBounds id (u.count id + 1 - 1) =
      u.fanouts := set_set_getD (d := 0) _ _ rfl
  have hact : (if u.count id + 1 - 1 = 0 then
      (u.retain id).active.setIfInBounds id false else (u.retain id).active) =
        u.active := by
    rw [active_retain]
    simp only [Nat.add_sub_cancel, Nat.add_eq_right]
    split
    · rename_i h; exact set_set_getD (d := false) _ _ (h1 h)
    · rfl
  unfold unretain
  rw [hc]
  show Usage.mk _ _ _ = _
  rw [hact, hfan]
  rfl

/-- A walk that started with an empty log is taken back. -/
theorem Reverts.foldl (h : Reverts revert u.clearUndo u') :
    u'.undo.foldl revert u'.clearUndo = u.clearUndo := by
  obtain ⟨ids, hu, hids⟩ := h
  rw [hu, show u.clearUndo.undo = [] from rfl, List.append_nil]
  exact hids

end Usage

end TechMap.Mapping

import Mathlib
import TechMap.Proofs.Mapping.Usage
import TechMap.Proofs.Network.Basic

/-! Reference counts with uses from outside. A gate's count is what it is used from outside and by the
active nodes, but for what a walk has still to add or to take off. One release and one retain each
keep this, and so do whole walks. The two walks need nothing of the cuts but that leaves have smaller
numbers than their gate. -/

namespace TechMap.Mapping

/-- The counts of the gates, with `minus` still to be added and `plus` to be taken off, are `ext` and
what the active nodes demand. A gate is active if and only if it is used. -/
structure Balance (net : Network) (ext : NodeId → Nat) (uses : NodeId → List NodeId) (u : Usage)
    (plus minus : List NodeId) : Prop where
  active : u.active.size = net.size
  fanouts : u.fanouts.size = net.size
  counts : ∀ v, (net.node v).isLogic = true →
    u.count v + minus.count v = ext v + demand net.size uses u.active v + plus.count v
  used : ∀ v, (net.node v).isLogic = true → (u.active.getD v false = true ↔ 0 < u.count v)

theorem count_cons_eq (id v : NodeId) (l : List NodeId) :
    (id :: l).count v = [id].count v + l.count v := by
  rw [← List.count_append, List.singleton_append]

namespace Usage

variable {u : Usage} {id : NodeId}

theorem count_release_add (hf : id < u.fanouts.size) (h : 0 < u.count id) (v : NodeId) :
    (u.release id).count v + [id].count v = u.count v := by
  rw [count_release hf]
  split
  · rename_i he; subst he; rw [List.count_singleton_self]; omega
  · rename_i he; rw [List.count_cons_of_ne (Ne.symm he)]; rfl

theorem count_retain_eq (hf : id < u.fanouts.size) (v : NodeId) :
    (u.retain id).count v = u.count v + [id].count v := by
  rw [count_retain hf]
  split
  · rename_i he; subst he; rw [List.count_singleton_self]
  · rename_i he; rw [List.count_cons_of_ne (Ne.symm he)]; rfl

theorem active_release_of_pos (hf : id < u.fanouts.size) (h : (u.release id).count id ≠ 0) :
    (u.release id).active = u.active := by
  rw [count_release hf, if_pos rfl] at h
  rw [active_release, if_neg h]

theorem active_release_of_zero (hf : id < u.fanouts.size) (h : (u.release id).count id = 0) :
    (u.release id).active = u.active.setIfInBounds id false := by
  rw [count_release hf, if_pos rfl] at h
  rw [active_release, if_pos h]

theorem active_retain_of_pos (h : u.count id ≠ 0) : (u.retain id).active = u.active := by
  rw [active_retain, if_neg (by omega)]

theorem active_retain_of_zero (h : u.count id = 0) :
    (u.retain id).active = u.active.setIfInBounds id true := by
  rw [active_retain, if_pos (by omega)]

end Usage

namespace Balance

variable {net : Network} {ext : NodeId → Nat} {uses : NodeId → List NodeId} {u : Usage} {id : NodeId}
  {plus minus rest : List NodeId}

theorem lt_active (h : Balance net ext uses u plus minus) (hid : (net.node id).isLogic = true) :
    id < net.size ∧ id < u.active.size ∧ id < u.fanouts.size := by
  have := Network.lt_size_of_isLive (Network.isLive_of_isLogic hid)
  exact ⟨this, h.active ▸ this, h.fanouts ▸ this⟩

theorem count_cons_of_isLogic {v : NodeId} (hid : ¬ (net.node id).isLogic = true)
    (hv : (net.node v).isLogic = true) (l : List NodeId) : (id :: l).count v = l.count v := by
  have hne : id ≠ v := fun he => hid (he ▸ hv)
  exact List.count_cons_of_ne hne

/-- Only gates are counted. -/
theorem drop_plus (h : Balance net ext uses u (id :: plus) minus)
    (hid : ¬ (net.node id).isLogic = true) : Balance net ext uses u plus minus :=
  { h with counts := fun v hv => count_cons_of_isLogic hid hv plus ▸ h.counts v hv }

theorem drop_minus (h : Balance net ext uses u plus (id :: minus))
    (hid : ¬ (net.node id).isLogic = true) : Balance net ext uses u plus minus :=
  { h with counts := fun v hv => count_cons_of_isLogic hid hv minus ▸ h.counts v hv }

/-- A pending gate has a use to release. -/
theorem count_pos (h : Balance net ext uses u (id :: rest) []) (hid : (net.node id).isLogic = true) :
    0 < u.count id := by
  have := h.counts id hid
  simp only [List.count_nil, List.count_cons_self] at this
  omega

/-- The release of one use out of several. -/
theorem release (h : Balance net ext uses u (id :: rest) []) (hid : (net.node id).isLogic = true)
    (h0 : (u.release id).count id ≠ 0) : Balance net ext uses (u.release id) rest [] := by
  obtain ⟨-, -, hf⟩ := h.lt_active hid
  have hact := Usage.active_release_of_pos hf h0
  refine ⟨hact ▸ h.active, by simpa [Usage.fanouts_release] using h.fanouts, fun v hv => ?_,
    fun v hv => ?_⟩
  · have hb := h.counts v hv
    have hcount := Usage.count_release_add hf (h.count_pos hid) v
    rw [hact]
    rw [count_cons_eq] at hb
    omega
  · rw [hact, h.used v hv, u.count_release hf]
    split
    · rename_i he
      subst he
      rw [u.count_release hf, if_pos rfl] at h0
      omega
    · rfl

/-- The release of the last use. The gate is freed, and what it uses is pending. -/
theorem release_last (h : Balance net ext uses u (id :: rest) [])
    (hid : (net.node id).isLogic = true) (h0 : (u.release id).count id = 0) :
    Balance net ext uses (u.release id) (uses id ++ rest) [] := by
  obtain ⟨hn, ha, hf⟩ := h.lt_active hid
  have hact := Usage.active_release_of_zero hf h0
  have hold : u.active.getD id false = true := (h.used id hid).2 (h.count_pos hid)
  refine ⟨by simpa [hact] using h.active, by simpa [Usage.fanouts_release] using h.fanouts,
    fun v hv => ?_, fun v hv => ?_⟩
  · have hb := h.counts v hv
    have hcount := Usage.count_release_add hf (h.count_pos hid) v
    have hd := demand_deactivate uses hn ha hold v
    rw [hact, List.count_append]
    rw [count_cons_eq] at hb
    omega
  · rw [hact, getD_set _ ha]
    split
    · rename_i he; subst he; simp [h0]
    · rename_i he; rw [h.used v hv, u.count_release hf, if_neg he]

/-- One more use of a gate that has some. -/
theorem retain (h : Balance net ext uses u plus (id :: rest)) (hid : (net.node id).isLogic = true)
    (h0 : u.count id ≠ 0) : Balance net ext uses (u.retain id) plus rest := by
  obtain ⟨-, -, hf⟩ := h.lt_active hid
  have hact := Usage.active_retain_of_pos h0
  refine ⟨hact ▸ h.active, by simpa [Usage.fanouts_retain] using h.fanouts, fun v hv => ?_,
    fun v hv => ?_⟩
  · have hb := h.counts v hv
    rw [hact, Usage.count_retain_eq hf]
    rw [count_cons_eq] at hb
    omega
  · rw [hact, h.used v hv, u.count_retain hf]
    split
    · rename_i he; subst he; omega
    · rfl

/-- The first use of a gate. It becomes active, and what it uses is pending. -/
theorem retain_first (h : Balance net ext uses u plus (id :: rest))
    (hid : (net.node id).isLogic = true) (h0 : u.count id = 0) :
    Balance net ext uses (u.retain id) plus (uses id ++ rest) := by
  obtain ⟨hn, ha, hf⟩ := h.lt_active hid
  have hact := Usage.active_retain_of_zero h0
  have hold : u.active.getD id false = false := by
    have := h.used id hid
    rw [h0] at this
    simpa using this
  refine ⟨by simpa [hact] using h.active, by simpa [Usage.fanouts_retain] using h.fanouts,
    fun v hv => ?_, fun v hv => ?_⟩
  · have hb := h.counts v hv
    have hd := demand_activate uses hn ha hold v
    rw [hact, List.count_append, hd, Usage.count_retain_eq hf]
    rw [count_cons_eq] at hb
    omega
  · rw [hact, getD_set _ ha, u.count_retain hf]
    split
    · simp
    · exact h.used v hv

theorem clearUndo (h : Balance net ext uses u plus minus) :
    Balance net ext uses u.clearUndo plus minus := ⟨h.active, h.fanouts, h.counts, h.used⟩

/-- The same on both sides. -/
theorem add (h : Balance net ext uses u plus minus) (l : List NodeId) :
    Balance net ext uses u (l ++ plus) (l ++ minus) := by
  refine { h with counts := fun v hv => ?_ }
  have := h.counts v hv
  rw [List.count_append, List.count_append]
  omega

/-- The uses of an active node are taken out of the demand. -/
theorem except (h : Balance net ext uses u plus minus) (hn : id < net.size)
    (ha : u.active.getD id false = true) :
    Balance net ext (Function.update uses id []) u (uses id ++ plus) minus := by
  refine { h with counts := fun v hv => ?_ }
  have := h.counts v hv
  rw [demand_except uses hn ha] at this
  rw [List.count_append]
  omega

theorem of_except (h : Balance net ext (Function.update uses id []) u (uses id ++ plus) minus)
    (hn : id < net.size) (ha : u.active.getD id false = true) :
    Balance net ext uses u plus minus := by
  refine { h with counts := fun v hv => ?_ }
  have := h.counts v hv
  rw [List.count_append] at this
  rw [demand_except uses hn ha]
  omega

/-- The uses from outside fix the counts and the flags of the gates, from the top of the table down. -/
theorem unique {t : Usage} (hu : Balance net ext uses u [] []) (ht : Balance net ext uses t [] [])
    (huses : ∀ w, ∀ v ∈ uses w, v < w ∧ (net.node w).isLogic = true) {v : NodeId}
    (hv : (net.node v).isLogic = true) :
    u.count v = t.count v ∧ u.active.getD v false = t.active.getD v false := by
  induction hn : net.size - v using Nat.strong_induction_on generalizing v with
  | _ n ih =>
    have hlt := (hu.lt_active hv).1
    have hdemand : demand net.size uses u.active v = demand net.size uses t.active v := by
      refine Finset.sum_congr rfl fun w _ => ?_
      by_cases hw : v ∈ uses w
      · obtain ⟨hvw, hlogic⟩ := huses w v hw
        have hless : net.size - w < n := hn ▸ Nat.sub_lt_sub_left hlt hvw
        rw [(ih _ hless hlogic rfl).2]
      · rw [List.count_eq_zero_of_not_mem hw, ite_self, ite_self]
    have hcount : u.count v = t.count v := by
      have hcu := hu.counts v hv
      have hct := ht.counts v hv
      simp only [List.count_nil] at hcu hct
      omega
    exact ⟨hcount, by rw [Bool.eq_iff_iff, hu.used v hv, ht.used v hv, hcount]⟩

end Balance

end TechMap.Mapping

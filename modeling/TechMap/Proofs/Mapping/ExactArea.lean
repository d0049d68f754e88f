import Mathlib
import TechMap.Proofs.Mapping.FreeCone

/-! The area of a cover. What a walk takes out or puts in below a gate changes the area of the cover
by what the walk answers, if costs are exact. The answer depends neither on the winner of that gate
nor on the limit, as long as the walk goes through. -/

namespace TechMap.Mapping.Cones

variable {α : Type} {c c' : Cones α} {ext : NodeId → Nat} {root : NodeId} {u u' s t : Usage}
  {cut : Cut} {pending : List NodeId} {limit limit' acc cost : α}

/-- The same winners for the same costs, but for that of `root`. -/
structure Agree (root : NodeId) (c c' : Cones α) : Prop where
  net : c'.net = c.net
  params : c'.params = c.params
  winner : ∀ v, v ≠ root → c'.winner? v = c.winner? v

namespace Agree

theorem symm (h : Agree root c c') : Agree root c' c :=
  ⟨h.net.symm, h.params.symm, fun v hv => (h.winner v hv).symm⟩

theorem trans {c'' : Cones α} (h : Agree root c c') (h' : Agree root c' c'') : Agree root c c'' :=
  ⟨h'.net.trans h.net, h'.params.trans h.params,
    fun v hv => (h'.winner v hv).trans (h.winner v hv)⟩

/-- What is settled without the root does not depend on the root's winner. -/
theorem settled (h : Agree root c c') (hu : c.Settled ext {root} u) : c'.Settled ext {root} u := by
  have husers (v : NodeId) : c'.users u {root} v = c.users u {root} v := by
    unfold users
    rw [h.net]
    refine Finset.filter_congr fun w _ => ?_
    by_cases hw : w = root
    · simp [hw]
    · rw [leavesAt, h.winner w hw]
      rfl
  refine ⟨h.net ▸ hu.active, h.net ▸ hu.fanouts, fun v hv => ?_, fun v hv => hu.used v (h.net ▸ hv)⟩
  rw [husers]
  exact hu.counts v (h.net ▸ hv)

variable [Quantity α]

theorem area (h : Agree root c c') : c'.area = c.area := by
  funext cut
  rw [Cones.area, h.params]
  rfl

theorem areaAt (h : Agree root c c') {v : NodeId} (hv : v ≠ root) : c'.areaAt v = c.areaAt v := by
  rw [Cones.areaAt, h.winner v hv, h.area]
  rfl

/-- The root is not below itself, so a walk below it does not ask for its winner. -/
theorem free (h : Agree root c c') (hc : c.Falling) (hlim : ∀ a : α, Quantity.lt limit' a = false)
    (hp : c.Within root pending) (hr : c.free limit pending acc u = (u', .ok cost)) :
    c'.free limit' pending acc u = (u', .ok cost) := by
  induction pending, acc, u using free_induction c limit with
  | done acc u =>
    rw [Cones.free] at hr ⊢
    exact hr
  | dangling acc u id rest hn => exact absurd hn hp.get?_ne_none
  | skip acc u id rest hlt hid ih =>
    rw [free_skip hlt hid] at hr
    rw [free_skip (h.net ▸ hlt) (h.net ▸ hid)]
    exact ih hp.tail hr
  | outOfRange acc u id rest hid hge =>
    rw [free_outOfRange hid hge] at hr
    cases hr
  | bare acc u id rest hid hge hpos h0 hnone =>
    rw [free_bare hid hge hpos h0 hnone] at hr
    cases hr
  | overLimit acc u id rest next hid hge hpos h0 hnext hover =>
    rw [free_over hid hge hpos h0 hnext hover] at hr
    cases hr
  | last acc u id rest next hid hge hpos h0 hnext hunder ih =>
    have hnext' : c'.winner? id = some next := by
      rw [h.winner id (ne_of_lt (hp id (by simp)).1)]
      exact hnext
    rw [free_last hid hge hpos h0 hnext hunder] at hr
    rw [free_last (h.net ▸ hid) hge hpos h0 hnext' (by simp [hlim]), h.area]
    exact ih (hc.within_append hp hid hnext) hr
  | more acc u id rest hid hge hpos h0 ih =>
    rw [free_more hid hge hpos h0] at hr
    rw [free_more (h.net ▸ hid) hge hpos h0]
    exact ih hp.tail hr
  | idle acc u id rest hid hge h0 ih =>
    rw [free_idle hid hge h0] at hr
    rw [free_idle (h.net ▸ hid) hge h0]
    exact ih hp.tail hr

theorem use (h : Agree root c c') (hc : c.Falling) (hlim : ∀ a : α, Quantity.lt limit' a = false)
    (hp : c.Within root pending) (hr : c.use limit pending acc u = (u', .ok cost)) :
    c'.use limit' pending acc u = (u', .ok cost) := by
  induction pending, acc, u using use_induction c limit with
  | done acc u =>
    rw [Cones.use] at hr ⊢
    exact hr
  | dangling acc u id rest hn => exact absurd hn hp.get?_ne_none
  | inactive acc u id rest hlt hid hthrough =>
    rw [use_inactive hlt hid hthrough] at hr
    cases hr
  | skip acc u id rest hlt hid hthrough ih =>
    rw [use_skip hlt hid hthrough] at hr
    rw [use_skip (h.net ▸ hlt) (h.net ▸ hid) (h.net ▸ hthrough)]
    exact ih hp.tail hr
  | bare acc u id rest hid hlt h0 hnone =>
    rw [use_bare hid hlt h0 hnone] at hr
    cases hr
  | overLimit acc u id rest next hid hlt h0 hnext hover =>
    rw [use_over hid hlt h0 hnext hover] at hr
    cases hr
  | first acc u id rest next hid hlt h0 hnext hunder ih =>
    have hnext' : c'.winner? id = some next := by
      rw [h.winner id (ne_of_lt (hp id (by simp)).1)]
      exact hnext
    rw [use_first hid hlt h0 hnext hunder] at hr
    rw [use_first (h.net ▸ hid) hlt h0 hnext' (by simp [hlim]), h.area]
    exact ih (hc.within_append hp hid hnext) hr
  | more acc u id rest hid hlt h0 ih =>
    rw [use_more hid hlt h0] at hr
    rw [use_more (h.net ▸ hid) hlt h0]
    exact ih hp.tail hr
  | outOfRange acc u id rest hid hge =>
    rw [use_outOfRange hid hge] at hr
    cases hr

theorem deref (h : Agree root c c') (hc : c.Falling) (hlim : ∀ a : α, Quantity.lt limit' a = false)
    (hp : c.Within root cut.leaves) (hr : c.deref cut limit u = (u', .ok cost)) :
    c'.deref cut limit' u = (u', .ok cost) := by
  unfold Cones.deref at hr ⊢
  dsimp only at hr ⊢
  rw [h.area, if_neg (by simp [hlim])]
  split at hr
  · cases hr
  · exact h.free hc hlim hp hr

theorem reference (h : Agree root c c') (hc : c.Falling)
    (hlim : ∀ a : α, Quantity.lt limit' a = false) (hp : c.Within root cut.leaves)
    (hr : c.reference cut limit u = (u', .ok cost)) :
    c'.reference cut limit' u = (u', .ok cost) := by
  unfold Cones.reference at hr ⊢
  dsimp only at hr ⊢
  rw [h.area, if_neg (by simp [hlim])]
  split at hr
  · cases hr
  · exact h.use hc hlim hp hr

end Agree

variable [Quantity α]

/-- What putting a cut in costs. -/
theorem reference_cost (hc : c.Grounded) (hs : c.Settled ext {root} s)
    (hp : c.Within root cut.leaves) (hr : c.reference cut limit s = (t, .ok cost)) :
    ∃ added, Dropped c.net t.active s.active added ∧
      (∀ v, s.active.getD v false = true → t.active.getD v false = true) ∧
      cost = c.total (0 + c.area cut) added := by
  have hret : c.Retained ext (c.gateLeaves {root}) root cut.leaves cut.leaves (0 + c.area cut)
      s.clearUndo (t, .ok cost) := hr ▸ reference_retained (hc.ranked root) (hc.settled_iff.1 hs) hp
  obtain ⟨added, hadded, hcost, -⟩ := hret.added cost rfl
  exact ⟨added, hadded, hret.grows, hcost⟩

section Sums

variable [Timed α] {a b : Array Bool} {ids : List NodeId}

/-- The active gates. -/
def gates (c : Cones α) (active : Array Bool) : Finset NodeId :=
  {v ∈ Finset.range c.net.size | (c.net.node v).isLogic = true ∧ active.getD v false = true}

omit [Quantity α] [Timed α] in
theorem mem_gates {v : NodeId} : v ∈ c.gates a ↔
    (c.net.node v).isLogic = true ∧ a.getD v false = true := by
  rw [gates, Finset.mem_filter, Finset.mem_range]
  exact and_iff_right_of_imp fun h => Network.lt_size_of_isLive (Network.isLive_of_isLogic h.1)

omit [Quantity α] [Timed α] in
theorem gates_dropped (hd : Dropped c.net a b ids)
    (hle : ∀ v, b.getD v false = true → a.getD v false = true) :
    c.gates a = c.gates b ∪ ids.toFinset ∧ Disjoint (c.gates b) ids.toFinset := by
  constructor
  · ext v
    rw [Finset.mem_union, mem_gates, mem_gates, List.mem_toFinset, hd.2 v]
    have := hle v
    cases hb : b.getD v false <;> simp_all
  · rw [Finset.disjoint_left]
    intro v hv hin
    have hoff := ((hd.2 v).1 (List.mem_toFinset.1 hin)).2.2
    rw [(mem_gates.1 hv).2] at hoff
    cases hoff

/-- The areas of the winners of all active gates. -/
def mapped (c : Cones α) (active : Array Bool) : ℚ :=
  ∑ v ∈ c.gates active, Timed.val (c.areaAt v)

/-- The same without `root`. -/
def mappedBeside (c : Cones α) (root : NodeId) (active : Array Bool) : ℚ :=
  ∑ v ∈ (c.gates active).erase root, Timed.val (c.areaAt v)

theorem Agree.mappedBeside (h : Agree root c c') (active : Array Bool) :
    c'.mappedBeside root active = c.mappedBeside root active := by
  unfold Cones.mappedBeside Cones.gates
  rw [h.net]
  refine Finset.sum_congr rfl fun v hv => ?_
  rw [h.areaAt (Finset.ne_of_mem_erase hv)]

/-- The area of a cover with a gate's cut in is what is left with the cut out, and the cost of the
cut. -/
theorem mapped_eq_cost (hexact : ∀ k, Timed.Exact (c.area k))
    (hroot : (c.net.node root).isLogic = true) (hon : b.getD root false = true)
    (hcut : c.winner? root = some cut) (hd : Dropped c.net a b ids)
    (hle : ∀ v, b.getD v false = true → a.getD v false = true) :
    c.mapped a = c.mappedBeside root b + Timed.val (c.total (0 + c.area cut) ids) := by
  have harea : c.areaAt root = c.area cut := by simp [areaAt, hcut]
  obtain ⟨hunion, hdisjoint⟩ := gates_dropped hd hle
  calc c.mapped a
      = ∑ v ∈ c.gates b, Timed.val (c.areaAt v) + ∑ v ∈ ids.toFinset, Timed.val (c.areaAt v) := by
        rw [mapped, hunion, Finset.sum_union hdisjoint]
    _ = Timed.val (c.area cut) + c.mappedBeside root b +
          (ids.map fun v => Timed.val (c.areaAt v)).sum := by
        rw [← Finset.add_sum_erase _ _ (mem_gates.2 ⟨hroot, hon⟩), harea, List.sum_toFinset _ hd.1]
        rfl
    _ = c.mappedBeside root b + Timed.val (c.total (0 + c.area cut) ids) := by
        rw [(total_start hexact cut ids).2]
        ring

theorem reference_exact (hexact : ∀ k, Timed.Exact (c.area k)) (hc : c.Grounded)
    (hs : c.Settled ext {root} s) (hp : c.Within root cut.leaves)
    (hr : c.reference cut limit s = (t, .ok cost)) : Timed.Exact cost := by
  obtain ⟨added, -, -, rfl⟩ := reference_cost hc hs hp hr
  exact (total_start hexact cut added).1

theorem mapped_reference (hexact : ∀ k, Timed.Exact (c.area k)) (hc : c.Grounded)
    (hs : c.Settled ext {root} s) (hroot : (c.net.node root).isLogic = true)
    (hon : s.active.getD root false = true) (hcut : c.winner? root = some cut)
    (hr : c.reference cut limit s = (t, .ok cost)) :
    c.mapped t.active = c.mappedBeside root s.active + Timed.val cost := by
  obtain ⟨added, hadded, hgrows, rfl⟩ :=
    reference_cost hc hs (hc.falling.within hroot hcut) hr
  exact mapped_eq_cost hexact hroot hon hcut hadded hgrows

end Sums

end TechMap.Mapping.Cones

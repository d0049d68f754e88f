import Mathlib
import TechMap.Proofs.Mapping.Cone
import TechMap.Proofs.Numeric.Timed

/-! Maximal fanout free cones. From counts that agree with some uses from outside, taking out the
winner of an active gate always succeeds. It leaves the only counts that agree with the same uses from
outside without that cut, and frees exactly the gates that they leave unused. Putting the cut back
in restores what was before. -/

namespace TechMap.Mapping

/-- Counts and flags of what is not a gate are the same. -/
def SameElsewhere (net : Network) (u s : Usage) : Prop :=
  ∀ v, ¬ (net.node v).isLogic = true →
    s.count v = u.count v ∧ s.active.getD v false = u.active.getD v false

theorem array_ext_getD {β : Type} {xs ys : Array β} (d : β) (hs : xs.size = ys.size)
    (h : ∀ i, xs.getD i d = ys.getD i d) : xs = ys := by
  refine Array.ext hs fun i hi hi' => ?_
  simpa [Array.getD_eq_getD_getElem?, hi, hi'] using h i

theorem Dropped.perm {net : Network} {a b : Array Bool} {ids ids' : List NodeId}
    (h : Dropped net a b ids) (h' : Dropped net a b ids') : ids.Perm ids' :=
  (List.perm_ext_iff_of_nodup h.1 h'.1).2 fun v => (h.2 v).trans (h'.2 v).symm

namespace Balance

variable {net : Network} {ext : NodeId → Nat} {uses : NodeId → List NodeId} {u s t : Usage}

theorem ext_usage (hs : Balance net ext uses s [] []) (ht : Balance net ext uses t [] [])
    (huses : ∀ w, ∀ v ∈ uses w, v < w ∧ (net.node w).isLogic = true)
    (hsu : SameElsewhere net u s) (htu : SameElsewhere net u t) :
    s.fanouts = t.fanouts ∧ s.active = t.active := by
  have hsame (v : NodeId) :
      s.count v = t.count v ∧ s.active.getD v false = t.active.getD v false := by
    by_cases hv : (net.node v).isLogic = true
    · exact hs.unique ht huses hv
    · exact ⟨(hsu v hv).1.trans (htu v hv).1.symm, (hsu v hv).2.trans (htu v hv).2.symm⟩
  exact ⟨array_ext_getD 0 (hs.fanouts.trans ht.fanouts.symm) fun v => (hsame v).1,
    array_ext_getD false (hs.active.trans ht.active.symm) fun v => (hsame v).2⟩

end Balance

namespace Cones

variable {α : Type} {c : Cones α} {ext : NodeId → Nat} {skip : Finset NodeId} {root : NodeId}
  {cut : Cut} {u s : Usage}

/-- The leaves of a node's winner. -/
def leavesAt (c : Cones α) (id : NodeId) : List NodeId := ((c.winner? id).map Cut.leaves).getD []

/-- The active gates outside `skip` whose winner has leaf `v`. -/
def users (c : Cones α) (u : Usage) (skip : Finset NodeId) (v : NodeId) : Finset NodeId :=
  {w ∈ Finset.range c.net.size | w ∉ skip ∧ (c.net.node w).isLogic = true ∧
    u.active.getD w false = true ∧ v ∈ c.leavesAt w}

/-- Every gate is counted once for each active gate outside `skip` that has it as a leaf, besides its
uses from outside. It is active if and only if it is used. -/
structure Settled (c : Cones α) (ext : NodeId → Nat) (skip : Finset NodeId) (u : Usage) : Prop where
  active : u.active.size = c.net.size
  fanouts : u.fanouts.size = c.net.size
  counts : ∀ v, (c.net.node v).isLogic = true → u.count v = ext v + (c.users u skip v).card
  used : ∀ v, (c.net.node v).isLogic = true → (u.active.getD v false = true ↔ 0 < u.count v)

/-- Every gate has a winner, a set of nodes of smaller number. -/
def Grounded (c : Cones α) : Prop :=
  ∀ v, (c.net.node v).isLogic = true → ∃ w, c.winner? v = some w ∧ w.leaves.Nodup ∧
    ∀ l ∈ w.leaves, l < v

/-- The winners that there are have leaves of smaller number, each once. -/
def Falling (c : Cones α) : Prop :=
  ∀ v, (c.net.node v).isLogic = true → ∀ w, c.winner? v = some w → w.leaves.Nodup ∧
    ∀ l ∈ w.leaves, l < v

/-- What a node uses as a gate outside `skip`. -/
def gateLeaves (c : Cones α) (skip : Finset NodeId) (id : NodeId) : List NodeId :=
  if id ∉ skip ∧ (c.net.node id).isLogic = true then c.leavesAt id else []

theorem leavesAt_of_winner (h : c.winner? root = some cut) : c.leavesAt root = cut.leaves := by
  rw [leavesAt, h]
  rfl

theorem mem_gateLeaves {v w : NodeId} : v ∈ c.gateLeaves skip w ↔
    w ∉ skip ∧ (c.net.node w).isLogic = true ∧ v ∈ c.leavesAt w := by
  unfold gateLeaves
  split <;> simp_all

theorem gateLeaves_insert (c : Cones α) (root : NodeId) :
    c.gateLeaves {root} = Function.update (c.gateLeaves ∅) root [] := by
  funext w
  by_cases h : w = root
  · subst h; simp [gateLeaves]
  · simp [gateLeaves, h]

namespace Falling

/-- The leaves of a gate's winner lie below the gate, and in the table with it. -/
theorem within (h : c.Falling) (hroot : (c.net.node root).isLogic = true)
    (hcut : c.winner? root = some cut) : c.Within root cut.leaves := by
  have hsize := Network.lt_size_of_isLive (Network.isLive_of_isLogic hroot)
  intro l hl
  have hlt := (h root hroot cut hcut).2 l hl
  exact ⟨hlt, lt_trans hlt hsize⟩

/-- A walk that goes on with the leaves stays below its root. -/
theorem within_append {rest : List NodeId} (h : c.Falling) {id : NodeId}
    (hp : c.Within root (id :: rest)) (hid : (c.net.node id).isLogic = true)
    (hcut : c.winner? id = some cut) : c.Within root (cut.leaves ++ rest) := by
  intro x hx
  rcases List.mem_append.1 hx with hx | hx
  · obtain ⟨hlt, hsize⟩ := h.within hid hcut x hx
    exact ⟨lt_trans hlt (hp id (by simp)).1, hsize⟩
  · exact hp x (List.mem_cons_of_mem _ hx)

theorem leavesAt (h : c.Falling) {w : NodeId} (hw : (c.net.node w).isLogic = true) :
    (c.leavesAt w).Nodup ∧ ∀ l ∈ c.leavesAt w, l < w := by
  cases hk : c.winner? w with
  | none => simp [Cones.leavesAt, hk]
  | some k =>
    rw [leavesAt_of_winner hk]
    exact h w hw k hk

theorem lt (h : c.Falling) {v w : NodeId} (hv : v ∈ c.gateLeaves skip w) :
    v < w ∧ (c.net.node w).isLogic = true := by
  obtain ⟨-, hw, hv⟩ := mem_gateLeaves.1 hv
  exact ⟨(h.leavesAt hw).2 v hv, hw⟩

theorem demand_eq (h : c.Falling) (skip : Finset NodeId) (u : Usage) (v : NodeId) :
    demand c.net.size (c.gateLeaves skip) u.active v = (c.users u skip v).card := by
  rw [users, Finset.card_filter]
  refine Finset.sum_congr rfl fun w _ => ?_
  by_cases hw : w ∉ skip ∧ (c.net.node w).isLogic = true
  · rw [gateLeaves, if_pos hw, (h.leavesAt hw.2).1.count]
    by_cases ha : u.active.getD w false = true <;> simp [ha, hw]
  · rw [gateLeaves, if_neg hw, List.count_nil, ite_self, if_neg fun hin => hw ⟨hin.1, hin.2.1⟩]

/-- The two ways to count agree. -/
theorem settled_iff (h : c.Falling) :
    c.Settled ext skip u ↔ Balance c.net ext (c.gateLeaves skip) u [] [] := by
  constructor
  · exact fun hs => ⟨hs.active, hs.fanouts, fun v hv => by
      simpa [h.demand_eq] using hs.counts v hv, hs.used⟩
  · exact fun hb => ⟨hb.active, hb.fanouts, fun v hv => by
      simpa [h.demand_eq] using hb.counts v hv, hb.used⟩

/-- The cut of an active gate is still to be released when the gate itself is left out. -/
theorem pending (h : c.Falling) (hu : c.Settled ext ∅ u) (hroot : (c.net.node root).isLogic = true)
    (hon : u.active.getD root false = true) (hcut : c.winner? root = some cut) :
    Balance c.net ext (c.gateLeaves {root}) u.clearUndo cut.leaves [] := by
  have hb := h.settled_iff.1 hu
  have hleaves : c.gateLeaves ∅ root = cut.leaves := by
    rw [gateLeaves, if_pos ⟨Finset.notMem_empty _, hroot⟩, leavesAt_of_winner hcut]
  have := (hb.except (hb.lt_active hroot).1 hon).clearUndo
  rwa [← gateLeaves_insert, hleaves, List.append_nil] at this

end Falling

namespace Grounded

theorem falling (h : c.Grounded) : c.Falling := by
  intro v hv w hw
  obtain ⟨k, hk, hnodup, hlt⟩ := h v hv
  obtain rfl : w = k := by simpa [hw] using hk
  exact ⟨hnodup, hlt⟩

theorem lt (h : c.Grounded) {v w : NodeId} (hv : v ∈ c.gateLeaves skip w) :
    v < w ∧ (c.net.node w).isLogic = true := h.falling.lt hv

theorem ranked (h : c.Grounded) (root : NodeId) : c.Ranked (c.gateLeaves {root}) root := by
  intro v hv hl
  obtain ⟨w, hw, -, hlt⟩ := h v hl
  refine ⟨w, hw, ?_, hlt⟩
  rw [← leavesAt_of_winner hw, gateLeaves, if_pos ⟨by simpa using ne_of_lt hv, hl⟩]

theorem settled_iff (h : c.Grounded) :
    c.Settled ext skip u ↔ Balance c.net ext (c.gateLeaves skip) u [] [] := h.falling.settled_iff

/-- At most one state agrees with given uses from outside. -/
theorem settled_unique {t : Usage} (h : c.Grounded) (hs : c.Settled ext skip s)
    (ht : c.Settled ext skip t) (hsu : SameElsewhere c.net u s) (htu : SameElsewhere c.net u t) :
    s.fanouts = t.fanouts ∧ s.active = t.active :=
  (h.settled_iff.1 hs).ext_usage (h.settled_iff.1 ht) (fun _ _ hv => h.lt hv) hsu htu

end Grounded

variable [Quantity α]

section Exact

variable [Timed α]

theorem areaAt_exact (h : ∀ k, Timed.Exact (c.area k)) (id : NodeId) :
    Timed.Exact (c.areaAt id) := by
  unfold areaAt
  cases c.winner? id with
  | none => exact Timed.exact_zero
  | some w => exact h w

theorem total_start (h : ∀ k, Timed.Exact (c.area k)) (cut : Cut) (ids : List NodeId) :
    Timed.Exact (c.total (0 + c.area cut) ids) ∧ Timed.val (c.total (0 + c.area cut) ids) =
      Timed.val (c.area cut) + (ids.map fun id => Timed.val (c.areaAt id)).sum := by
  obtain ⟨hsum, hval⟩ := Timed.add_exact Timed.exact_zero (h cut)
  obtain ⟨hexact, htotal⟩ := Timed.foldl_add_exact (areaAt_exact h) hsum ids
  exact ⟨hexact, htotal.trans (by rw [hval, Timed.val_zero, zero_add])⟩

/-- The order of the summands does not matter. -/
theorem total_perm (h : ∀ k, Timed.Exact (c.area k)) {ids ids' : List NodeId}
    (hp : ids.Perm ids') (cut : Cut) :
    c.total (0 + c.area cut) ids = c.total (0 + c.area cut) ids' := by
  obtain ⟨hx, hval⟩ := total_start h cut ids
  obtain ⟨hx', hval'⟩ := total_start h cut ids'
  rw [← hx, ← hx', hval, hval', (hp.map _).sum_eq]

end Exact

variable [Topped α]

/-- The winner of an active gate can be taken out. -/
theorem deref_settled (hc : c.Grounded) (hu : c.Settled ext ∅ u)
    (hroot : (c.net.node root).isLogic = true) (hon : u.active.getD root false = true)
    (hcut : c.winner? root = some cut) : ∃ u' cost freed,
      c.deref cut Quantity.infinity u = (u', .ok cost) ∧ c.Settled ext {root} u' ∧
        SameElsewhere c.net u u' ∧ u'.active.getD root false = true ∧
        (∀ v, u'.active.getD v false = true → u.active.getD v false = true) ∧
        Dropped c.net u.active u'.active freed ∧ cost = c.total (0 + c.area cut) freed := by
  have hr : c.Released ext (c.gateLeaves {root}) root Quantity.infinity (0 + c.area cut) u.clearUndo
      (c.deref cut Quantity.infinity u) :=
    deref_released (hc.ranked root) (hc.falling.pending hu hroot hon hcut)
      (hc.falling.within hroot hcut)
  generalize c.deref cut Quantity.infinity u = r at hr
  rcases r with ⟨u', e | cost⟩
  · obtain ⟨-, a, ha⟩ := hr.refusal e rfl
    rw [Topped.not_lt] at ha
    cases ha
  · obtain ⟨freed, hfreed, hcost⟩ := hr.freed cost rfl
    refine ⟨u', cost, freed, rfl, hc.settled_iff.2 (hr.balance cost rfl), fun v hv => ?_, ?_,
      hr.falls, hfreed, hcost⟩
    · rcases hr.frame v with hlogic | hsame
      · exact absurd hlogic.2 hv
      · exact ⟨hsame.2, hsame.1⟩
    · rcases hr.frame root with hlogic | hsame
      · exact absurd hlogic.1 (lt_irrefl _)
      · exact hsame.1.trans hon

/-- Where only active pass-throughs lie under what was freed, the walk that puts the cut back in goes
through. -/
theorem reference_succeeds (hc : c.Grounded) (hu : c.Settled ext ∅ u) (hs : c.Settled ext {root} s)
    (hsame : SameElsewhere c.net u s) (hroot : (c.net.node root).isLogic = true)
    (hon : u.active.getD root false = true) (hcut : c.winner? root = some cut)
    (hthrough : ∀ v, v = root ∨ (c.net.node v).isLogic = true ∧ u.active.getD v false = true ∧
      s.active.getD v false = false → ∀ l ∈ c.leavesAt v, (c.net.node l).isPassThrough = true →
        u.active.getD l false = true) :
    ∃ t cost, c.reference cut Quantity.infinity s = (t, .ok cost) := by
  have hb := hc.settled_iff.1 hu
  have hused (v : NodeId) (hv : (c.net.node v).isLogic = true) (ha : u.active.getD v false = true)
      (hfree : v = root ∨ s.active.getD v false = false) (l : NodeId) (hl : l ∈ c.leavesAt v) :
      c.Runs u l := by
    rintro (hlogic | hpass)
    · refine (hb.used l hlogic).2 ?_
      have hmem : l ∈ c.gateLeaves ∅ v := mem_gateLeaves.2 ⟨Finset.notMem_empty _, hv, hl⟩
      have hpos := demand_pos (hb.lt_active hv).1 ha hmem
      have hcount := hb.counts l hlogic
      simp only [List.count_nil] at hcount
      omega
    · exact hthrough v (hfree.imp_right fun h => ⟨hv, ha, h⟩) l hl hpass
  have hroots (l : NodeId) (hl : l ∈ cut.leaves) : c.Runs u l :=
    hused root hroot hon (.inl rfl) l (leavesAt_of_winner hcut ▸ hl)
  have hclosed (v : NodeId) (hv : c.Runs u v) (hlogic : (c.net.node v).isLogic = true)
      (h0 : s.clearUndo.count v = 0) (l : NodeId) (hl : l ∈ c.gateLeaves {root} v) : c.Runs u l := by
    have hoff : s.active.getD v false = false := by
      have hiff := hs.used v hlogic
      rw [show s.count v = 0 from h0] at hiff
      simpa using hiff
    exact hused v hlogic (hv (.inl hlogic)) (.inr hoff) l (mem_gateLeaves.1 hl).2.2
  have hactive (v : NodeId) (hv : c.Runs u v) (hpass : (c.net.node v).isPassThrough = true) :
      s.active.getD v false = true := by
    rw [← hv (.inr hpass)]
    exact (hsame v fun hlogic => ne_of_isPassThrough hpass hlogic rfl).2
  unfold reference
  dsimp only
  rw [if_neg (by simp [Topped.not_lt])]
  exact use_succeeds Topped.not_lt (hc.ranked root) hclosed hs.fanouts hactive
    (hc.falling.within hroot hcut) hroots

omit [Topped α] in
/-- Once it is back in, counts and flags are what they were. -/
theorem reference_restores {t : Usage} {cost limit : α} (hc : c.Grounded) (hu : c.Settled ext ∅ u)
    (hs : c.Settled ext {root} s) (hsame : SameElsewhere c.net u s)
    (hroot : (c.net.node root).isLogic = true) (hon : s.active.getD root false = true)
    (hcut : c.winner? root = some cut) (hr : c.reference cut limit s = (t, .ok cost)) :
    t.fanouts = u.fanouts ∧ t.active = u.active ∧
      ∃ added, Dropped c.net u.active s.active added ∧ cost = c.total (0 + c.area cut) added := by
  have hb := hc.settled_iff.1 hu
  have hret : c.Retained ext (c.gateLeaves {root}) root cut.leaves cut.leaves (0 + c.area cut)
      s.clearUndo (t, .ok cost) := hr ▸ reference_retained (hc.ranked root) (hc.settled_iff.1 hs)
        (hc.falling.within hroot hcut)
  have hbt : Balance c.net ext (c.gateLeaves ∅) t [] [] := by
    refine Balance.of_except ?_ (hb.lt_active hroot).1 (hret.grows root hon)
    rw [← gateLeaves_insert, gateLeaves, if_pos ⟨Finset.notMem_empty _, hroot⟩,
      leavesAt_of_winner hcut, List.append_nil]
    exact hret.balance cost rfl
  have hsameT : SameElsewhere c.net u t := by
    intro v hv
    rcases hret.frame v with hlogic | he
    · exact absurd hlogic.2 hv
    · exact ⟨he.2.trans (hsame v hv).1, he.1.trans (hsame v hv).2⟩
  obtain ⟨hfan, hact⟩ := hbt.ext_usage hb (fun _ _ hv => hc.lt hv) hsameT fun _ _ => ⟨rfl, rfl⟩
  obtain ⟨added, hadded, hcost, -⟩ := hret.added cost rfl
  exact ⟨hfan, hact, added, hact ▸ hadded, hcost⟩

/-- The cut can be put back in, if the pass-throughs under what was freed are active. -/
theorem reference_settled (hc : c.Grounded) (hu : c.Settled ext ∅ u) (hs : c.Settled ext {root} s)
    (hsame : SameElsewhere c.net u s) (hroot : (c.net.node root).isLogic = true)
    (hon : u.active.getD root false = true) (hon' : s.active.getD root false = true)
    (hcut : c.winner? root = some cut)
    (hthrough : ∀ v, v = root ∨ (c.net.node v).isLogic = true ∧ u.active.getD v false = true ∧
      s.active.getD v false = false → ∀ l ∈ c.leavesAt v, (c.net.node l).isPassThrough = true →
        u.active.getD l false = true) :
    ∃ t cost added, c.reference cut Quantity.infinity s = (t, .ok cost) ∧
      t.fanouts = u.fanouts ∧ t.active = u.active ∧
        Dropped c.net u.active s.active added ∧ cost = c.total (0 + c.area cut) added := by
  obtain ⟨t, cost, ht⟩ := reference_succeeds hc hu hs hsame hroot hon hcut hthrough
  obtain ⟨hfan, hact, added, hadded, hcost⟩ :=
    reference_restores hc hu hs hsame hroot hon' hcut ht
  exact ⟨t, cost, added, ht, hfan, hact, hadded, hcost⟩

/-- Taking out the winner of an active gate frees its maximal fanout free cone, and putting it in is
the inverse. -/
theorem free_cone (c : Cones α) (ext : NodeId → Nat) (u : Usage) (root : NodeId) (cut : Cut)
    (hc : c.Grounded) (hu : c.Settled ext ∅ u) (hroot : (c.net.node root).isLogic = true)
    (hon : u.active.getD root false = true) (hcut : c.winner? root = some cut) : ∃ u' cost freed,
      c.deref cut Quantity.infinity u = (u', .ok cost) ∧
      (c.Settled ext {root} u' ∧ SameElsewhere c.net u u' ∧
        ∀ s, c.Settled ext {root} s → SameElsewhere c.net u s →
          s.fanouts = u'.fanouts ∧ s.active = u'.active) ∧
      (Dropped c.net u.active u'.active freed ∧ cost = c.total (0 + c.area cut) freed ∧
        ∀ [Timed α], (∀ k, Timed.Exact (c.area k)) → Timed.val cost =
          Timed.val (c.area cut) + (freed.map fun id => Timed.val (c.areaAt id)).sum) ∧
      ((∀ v ∈ root :: freed, ∀ l ∈ c.leavesAt v, (c.net.node l).isPassThrough = true →
          u.active.getD l false = true) →
        ∃ u'' cost', c.reference cut Quantity.infinity u' = (u'', .ok cost') ∧
          u''.fanouts = u.fanouts ∧ u''.active = u.active ∧
          ∀ [Timed α], (∀ k, Timed.Exact (c.area k)) → cost' = cost) := by
  obtain ⟨u', cost, freed, hderef, hs, hsame, hon', -, hfreed, rfl⟩ :=
    deref_settled hc hu hroot hon hcut
  refine ⟨u', _, freed, hderef, ⟨hs, hsame, fun s hs' hsame' => hc.settled_unique hs' hs hsame' hsame⟩,
    ⟨hfreed, rfl, fun h => (total_start h cut freed).2⟩, fun hthrough => ?_⟩
  obtain ⟨u'', cost', added, href, hfan, hact, hadded, rfl⟩ :=
    reference_settled hc hu hs hsame hroot hon hon' hcut fun v hv =>
      hthrough v (List.mem_cons.2 (hv.imp_right (hfreed.2 v).2))
  exact ⟨u'', _, href, hfan, hact, fun h => total_perm h (hadded.perm hfreed) cut⟩

/-- Gate 3 is a leaf of the two gates after it, and gate 5 is used from outside. -/
def reconvergent : Cones Mixed where
  net := ⟨#[.const, .pi, .pi, .and (.ofNode 1) (.ofNode 2), .and (.ofNode 3) ⟨1, true⟩,
    .and (.ofNode 3) (.ofNode 4)]⟩
  cuts := #[[], [], [], [.ofSorted [1, 2]], [.ofSorted [1, 3]], [.ofSorted [3, 4]]]
  params := .standard

theorem free_cone_reconvergent : ∃ u u' u'' cost cost',
    u.fanouts = #[0, 0, 0, 2, 1, 1] ∧
      reconvergent.deref (.ofSorted [3, 4]) Quantity.infinity u = (u', .ok cost) ∧
      reconvergent.reference (.ofSorted [3, 4]) Quantity.infinity u' = (u'', .ok cost') ∧
      u''.fanouts = u.fanouts ∧ u''.active = u.active ∧ cost' = cost := by
  have hgate (v : NodeId) (hv : (reconvergent.net.node v).isLogic = true) : v = 3 ∨ v = 4 ∨ v = 5 := by
    have hlt : v < 6 := Network.lt_size_of_isLive (Network.isLive_of_isLogic hv)
    interval_cases v
    iterate 3 cases hv
    iterate 3 decide
  have hgrounded : reconvergent.Grounded := by
    intro v hv
    rcases hgate v hv with rfl | rfl | rfl
    · exact ⟨.ofSorted [1, 2], rfl, by decide, by decide⟩
    · exact ⟨.ofSorted [1, 3], rfl, by decide, by decide⟩
    · exact ⟨.ofSorted [3, 4], rfl, by decide, by decide⟩
  let u : Usage := ⟨#[false, false, false, true, true, true], #[0, 0, 0, 2, 1, 1], []⟩
  have hsettled : reconvergent.Settled (fun v => if v = 5 then 1 else 0) ∅ u := by
    refine ⟨rfl, rfl, fun v hv => ?_, fun v hv => ?_⟩
    · rcases hgate v hv with rfl | rfl | rfl <;> decide
    · rcases hgate v hv with rfl | rfl | rfl <;> decide
  have hexact (k : Cut) : Timed.Exact (reconvergent.area k) := by
    show Timed.Exact (if 0 < k.muxDepth then (1 : Mixed) * Quantity.ofNat k.muxDepth
      else (Vector.replicate 7 (1 : Mixed)).toArray.getD k.size 0)
    split
    · rfl
    · rw [Vector.toArray_replicate, Array.getD_eq_getD_getElem?, Array.getElem?_replicate]
      split <;> rfl
  have hthrough (l : NodeId) : (reconvergent.net.node l).isPassThrough = false := by
    rcases Nat.lt_or_ge l 6 with hl | hl
    · interval_cases l <;> rfl
    · rw [Network.node_of_ge hl]
      rfl
  obtain ⟨u', cost, freed, hderef, -, -, hback⟩ :=
    free_cone reconvergent _ u 5 (.ofSorted [3, 4]) hgrounded hsettled rfl rfl rfl
  obtain ⟨u'', cost', href, hfan, hact, hcost⟩ := hback fun v _ l _ hl => by
    rw [hthrough l] at hl
    cases hl
  exact ⟨u, u', u'', cost, cost', rfl, hderef, href, hfan, hact, hcost hexact⟩

end Cones

end TechMap.Mapping

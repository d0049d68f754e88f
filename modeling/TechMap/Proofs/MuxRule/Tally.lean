import Mathlib
import TechMap.Proofs.MuxRule.Legal

/-! The number that legalization returns. In a canonical network each demotion meets a multiplexer, so
it takes one away and adds a LUT. A settling pass then demotes nothing exactly if it leaves as many
multiplexers as there were, and the passes end. -/

namespace TechMap.Network

variable {net net' : Network} {id : NodeId} {k : Nat} {s s' : Network × Nat}

theorem count_demote (p : Node → Bool) (hlt : id < net.size) :
    (net.demote id).count p =
      (net.count p - if p (net.node id) then 1 else 0) + if p (net.node id).demoted then 1 else 0 := by
  have hlt' : id < net.nodes.size := hlt
  rw [demote_eq, count, count, set, Array.setIfInBounds, dif_pos hlt', Array.countP_set,
    ← node_eq_getElem hlt']

theorem countMux_demote (h : (net.node id).isMux = true) :
    (net.demote id).countMux + 1 = net.countMux := by
  have hlt : id < net.nodes.size := lt_size_of_isLive (isLive_of_isMux h)
  have hpos : 0 < net.countMux := by
    refine Array.countP_pos_iff.2 ⟨net.nodes[id], Array.getElem_mem hlt, ?_⟩
    rwa [← node_eq_getElem hlt]
  have hcount := count_demote Node.isMux hlt
  rw [h, Node.isMux_demoted, if_pos rfl, if_neg (by simp)] at hcount
  simp only [countMux] at hpos ⊢
  omega

theorem countLut6_demote (h : (net.node id).isMux = true) :
    (net.demote id).countLut6 = net.countLut6 + 1 := by
  have hlt := lt_size_of_isLive (isLive_of_isMux h)
  have hcount := count_demote Node.isLut6 hlt
  have hkind : (net.node id).isLut6 = false ∧ (net.node id).demoted.isLut6 = true := by
    cases hn : net.node id <;> simp_all [Node.isMux, Node.isLut6, Node.demoted]
  rwa [hkind.1, hkind.2, if_pos rfl, if_neg (by simp)] at hcount

/-- From `k` on, each demotion that was counted made a LUT of a multiplexer. -/
structure Tallied (net : Network) (k : Nat) (s : Network × Nat) : Prop where
  demoted : Demoted net s.1
  muxes : s.1.countMux + s.2 = net.countMux + k
  luts : s.1.countLut6 + k = net.countLut6 + s.2

namespace Tallied

theorem refl (net : Network) (k : Nat) : Tallied net k (net, k) := ⟨.refl net, rfl, rfl⟩

theorem trans (h : Tallied net k s) (h' : Tallied s.1 s.2 s') : Tallied net k s' := by
  refine ⟨h.demoted.trans h'.demoted, ?_, ?_⟩
  · have := h.muxes; have := h'.muxes; omega
  · have := h.luts; have := h'.luts; omega

theorem demote (h : Tallied net k s) (hm : (s.1.node id).isMux = true) :
    Tallied net k (s.1.demote id, s.2 + 1) := by
  refine h.trans ⟨demoted_demote s.1 id, ?_, ?_⟩
  · have := countMux_demote hm
    show (s.1.demote id).countMux + (s.2 + 1) = s.1.countMux + s.2
    omega
  · have := countLut6_demote hm
    show (s.1.demote id).countLut6 + s.2 = s.1.countLut6 + (s.2 + 1)
    omega

end Tallied

/-- No data operand of a multiplexer is the multiplexer itself, so it is one as long as they are
looked at. -/
theorem tallied_settleData (fanouts : Array Nat) (data : List Lit) (s : Network × Nat)
    (hid : (s.1.node id).isMux = true) (hne : ∀ l ∈ data, l.id ≠ id) :
    Tallied s.1 s.2 (settleData fanouts id data s) := by
  induction data generalizing s with
  | nil => exact .refl _ _
  | cons l rest ih =>
    obtain ⟨net, k⟩ := s
    obtain ⟨hl, hne⟩ := List.forall_mem_cons.1 hne
    rw [settleData]
    split
    · rename_i hn
      split
      · have hstep : Tallied net k (net.demote l.id, k + 1) := (Tallied.refl net k).demote (by rw [hn]; rfl)
        refine hstep.trans (ih _ ?_ hne)
        rw [demote_eq, node_set_of_ne (Ne.symm hl)]
        exact hid
      · exact ih (net, k) hid hne
    · exact ih (net, k) hid hne
    · exact (Tallied.refl net k).demote hid

theorem tallied_settleAll (fanouts : Array Nat) (ids : List NodeId) (s : Network × Nat)
    (hc : s.1.Canonical) : Tallied s.1 s.2
      (ids.foldl (fun s id => settleData fanouts id (s.1.node id).muxData s) s) := by
  induction ids generalizing s with
  | nil => exact .refl _ _
  | cons id rest ih =>
    have hfirst : Tallied s.1 s.2 (settleData fanouts id (s.1.node id).muxData s) := by
      cases hm : (s.1.node id).isMux with
      | true => exact tallied_settleData fanouts _ s hm fun l hl =>
          ne_of_lt (hc.lt id l (mem_operands_of_muxData hl))
      | false =>
        have hnil : (s.1.node id).muxData = [] := by
          cases hn : s.1.node id <;> simp_all [Node.isMux, Node.muxData]
        rw [hnil]
        exact .refl _ _
    exact hfirst.trans (ih _ (hfirst.demoted.canonical hc))

theorem tallied_settlePass (hc : net.Canonical) (k : Nat) : Tallied net k (net.settlePass k) :=
  tallied_settleAll _ _ (net, k) hc

theorem tallied_settle (hc : net.Canonical) (k : Nat) : Tallied net k (net.settle k) := by
  induction net, k using settle.induct with
  | case1 net k next hlt ih =>
    have hpass : Tallied net k next := tallied_settlePass hc k
    rw [settle, if_pos hlt]
    exact hpass.trans (ih (hpass.demoted.canonical hc))
  | case2 net k next hge =>
    rw [settle, if_neg hge]
    exact tallied_settlePass hc k

/-- Pass after pass. The first that demotes nothing is the last. -/
inductive Passes : Network → Nat → Network × Nat → Prop
  | last {net : Network} {k : Nat} (h : (net.settlePass k).2 = k) : Passes net k (net.settlePass k)
  | more {net : Network} {k : Nat} {r : Network × Nat} (h : (net.settlePass k).2 ≠ k)
    (hr : Passes (net.settlePass k).1 (net.settlePass k).2 r) : Passes net k r

theorem passes_settle (hc : net.Canonical) (k : Nat) : Passes net k (net.settle k) := by
  induction net, k using settle.induct with
  | case1 net k next hlt ih =>
    have hpass : Tallied net k next := tallied_settlePass hc k
    have := hpass.muxes
    rw [settle, if_pos hlt]
    exact .more (show next.2 ≠ k by omega) (ih (hpass.demoted.canonical hc))
  | case2 net k next hge =>
    have hpass : Tallied net k next := tallied_settlePass hc k
    have := hpass.muxes
    have := hpass.demoted.countMux_le.1
    rw [settle, if_neg hge]
    exact .last (show next.2 = k by omega)

theorem tallied_trimStep (h : Tallied net k (s.1, s.2)) (level : Array Nat) (id : NodeId) :
    Tallied net k ((trimStep (s.1, s.2, level) id).1, (trimStep (s.1, s.2, level) id).2.1) := by
  unfold trimStep
  dsimp only
  split
  · exact h
  · rename_i data hdata
    split
    · refine h.demote ?_
      cases hn : s.1.node id <;> simp_all [Node.isMux, Node.muxData]
    · exact h

theorem tallied_trimSteps (ids : List NodeId) {t : Network × Nat × Array Nat}
    (h : Tallied net k (t.1, t.2.1)) :
    Tallied net k ((ids.foldl trimStep t).1, (ids.foldl trimStep t).2.1) := by
  induction ids generalizing t with
  | nil => exact h
  | cons id rest ih => exact ih (tallied_trimStep (s := (t.1, t.2.1)) h t.2.2 id)

theorem tallied_trimChains (net : Network) (k : Nat) : Tallied net k (net.trimChains k) :=
  tallied_trimSteps net.upOrder (t := (net, k, Array.replicate net.size 0)) (.refl net k)

theorem tallied_legalize (hc : net.Canonical) : Tallied net 0 net.legalize :=
  (tallied_settle hc 0).trans (tallied_trimChains _ _)

end TechMap.Network

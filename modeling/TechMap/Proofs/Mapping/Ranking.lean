import Mathlib
import TechMap.Proofs.Mapping.CycleWalk
import TechMap.Proofs.Mapping.Selection
import TechMap.Proofs.Numeric.Clock

/-! The first cut of an ordered list. Areas need not be ordered by their comparison, so nothing is
said about them: the first cut is the fastest of all, or it meets the required time. -/

namespace TechMap.Mapping

section Sorting

variable {β : Type} {le : β → β → Bool} {key : β → ℚ} {xs ys : List β}

/-- The comparison never contradicts the keys. -/
def Respects (le : β → β → Bool) (key : β → ℚ) (xs : List β) : Prop :=
  ∀ a ∈ xs, ∀ b ∈ xs, if le a b then key a ≤ key b else key b ≤ key a

theorem Respects.mono (h : Respects le key xs) (hs : ∀ x ∈ ys, x ∈ xs) : Respects le key ys :=
  fun a ha b hb => h a (hs a ha) b (hs b hb)

theorem pairwise_merge (h : Respects le key (xs ++ ys)) (hx : xs.Pairwise (key · ≤ key ·))
    (hy : ys.Pairwise (key · ≤ key ·)) : (xs.merge ys le).Pairwise (key · ≤ key ·) := by
  induction xs generalizing ys with
  | nil => simpa using hy
  | cons x xs ihx =>
    induction ys with
    | nil => simpa using hx
    | cons y ys ihy =>
      obtain ⟨hx1, hx2⟩ := List.pairwise_cons.1 hx
      obtain ⟨hy1, hy2⟩ := List.pairwise_cons.1 hy
      have hxy := h x (by simp) y (by simp)
      rw [List.cons_merge_cons]
      split
      · rename_i hle
        rw [if_pos hle] at hxy
        refine List.pairwise_cons.2 ⟨fun z hz => ?_, ihx (h.mono (by simp; tauto)) hx2 hy⟩
        rcases List.mem_merge.1 hz with hz | hz
        · exact hx1 z hz
        · rcases List.mem_cons.1 hz with rfl | hz
          · exact hxy
          · exact hxy.trans (hy1 z hz)
      · rename_i hle
        rw [if_neg hle] at hxy
        refine List.pairwise_cons.2 ⟨fun z hz => ?_, ihy (h.mono (by simp; tauto)) hy2⟩
        rcases List.mem_merge.1 hz with hz | hz
        · rcases List.mem_cons.1 hz with rfl | hz
          · exact hxy
          · exact hxy.trans (hx1 z hz)
        · exact hy1 z hz

/-- Sorting sorts the keys, whatever the comparison does among equal ones. -/
theorem pairwise_mergeSort (h : Respects le key xs) :
    (xs.mergeSort le).Pairwise (key · ≤ key ·) := by
  induction hn : xs.length using Nat.strong_induction_on generalizing xs with
  | _ n ih =>
    match xs with
    | [] => simp
    | [a] => simp
    | a :: b :: rest =>
      rw [List.mergeSort]
      simp only [List.MergeSort.Internal.splitInTwo_fst, List.MergeSort.Internal.splitInTwo_snd]
      simp only [List.length_cons] at hn
      refine pairwise_merge (h.mono fun x hx => ?_) (ih _ ?_ (h.mono fun x hx => ?_) rfl)
        (ih _ ?_ (h.mono fun x hx => ?_) rfl)
      · rcases List.mem_append.1 hx with hx | hx
        · exact List.mem_of_mem_take (List.mem_mergeSort.1 hx)
        · exact List.mem_of_mem_drop (List.mem_mergeSort.1 hx)
      · simp only [List.length_take, List.length_cons]
        omega
      · exact List.mem_of_mem_take hx
      · simp only [List.length_drop, List.length_cons]
        omega
      · exact List.mem_of_mem_drop hx

end Sorting

variable {α : Type} [Quantity α]

namespace Ranked

theorem perm_sortByDelay (costs : List (Ranked α)) : (sortByDelay costs).Perm costs :=
  List.mergeSort_perm _ _

theorem perm_sortByArea (costs : List (Ranked α)) : (sortByArea costs).Perm costs :=
  List.mergeSort_perm _ _

/-- The cuts in time before the others. -/
theorem perm_split (required : α) (costs : List (Ranked α)) :
    ((sortByDelay costs).filter (fun c => !Quantity.lt required c.2.delay)
      ++ (sortByDelay costs).filter (fun c => Quantity.lt required c.2.delay)).Perm costs := by
  have := List.filter_append_perm (fun c : Ranked α => !Quantity.lt required c.2.delay)
    (sortByDelay costs)
  simp only [Bool.not_not] at this
  exact this.trans (perm_sortByDelay costs)

theorem perm_sortHead (n : Nat) (costs : List (Ranked α)) :
    (sortByArea (costs.take n) ++ costs.drop n).Perm costs := by
  have := (perm_sortByArea (costs.take n)).append_right (costs.drop n)
  rwa [List.take_append_drop] at this

theorem perm_sortInWindow (required : α) (slots : Nat) (costs : List (Ranked α)) :
    (sortInWindow required slots costs).Perm costs := by
  unfold sortInWindow
  extract_lets sorted split timely split' start
  have hsplit : split.Perm costs := perm_split required costs
  have hsplit' : split'.Perm split := perm_sortHead timely split
  have := (perm_sortByDelay (split'.drop start)).append_left (split'.take start)
  rw [List.take_append_drop] at this
  exact (this.trans hsplit').trans hsplit

variable [Clock α]

open Clock

theorem respects_byDelay {costs : List (Ranked α)} (h : ∀ c ∈ costs, IsTime c.2.delay) :
    Respects (fun a b => (a.2.byDelay b.2).isLE) (fun c => key c.2.delay) costs := by
  intro a ha b hb
  simp only [Cost.byDelay, order_eq (h a ha) (h b hb)]
  rcases lt_trichotomy (key a.2.delay) (key b.2.delay) with hlt | heq | hgt
  · simp [compare_lt_iff_lt.2 hlt, hlt.le]
  · rw [heq]
    split <;> exact le_rfl
  · simp [compare_gt_iff_gt.2 hgt, hgt.le]

theorem first_sortByDelay {costs rest : List (Ranked α)} {first : Ranked α}
    (h : ∀ c ∈ costs, IsTime c.2.delay) (hs : sortByDelay costs = first :: rest) :
    ∀ c ∈ costs, key first.2.delay ≤ key c.2.delay := by
  intro c hc
  have hsorted := pairwise_mergeSort (respects_byDelay h)
  have hc : c ∈ sortByDelay costs := (perm_sortByDelay costs).mem_iff.2 hc
  unfold sortByDelay at hs hc
  rw [hs] at hsorted hc
  rcases List.mem_cons.1 hc with rfl | hc
  · exact le_rfl
  · exact (List.pairwise_cons.1 hsorted).1 c hc

theorem first_sortInWindow {costs rest : List (Ranked α)} {first : Ranked α} {required : α}
    {slots : Nat} (h : ∀ c ∈ costs, IsTime c.2.delay)
    (hs : sortInWindow required slots costs = first :: rest) :
    Quantity.le first.2.delay required = true ∨
      ∀ c ∈ costs, key first.2.delay ≤ key c.2.delay := by
  unfold sortInWindow at hs
  extract_lets sorted split timely split' start at hs
  have hsplit : split.Perm costs := perm_split required costs
  have hsplit' : split'.Perm split := perm_sortHead timely split
  rcases Nat.eq_zero_or_pos start with h0 | hpos
  · -- without a window the whole list is in order of delay
    rw [h0, List.take_zero, List.nil_append, List.drop_zero] at hs
    have hall (c : Ranked α) (hc : c ∈ split') : c ∈ costs :=
      hsplit.mem_iff.1 (hsplit'.mem_iff.1 hc)
    have := first_sortByDelay (fun c hc => h c (hall c hc)) hs
    exact .inr fun c hc => this c (hsplit'.mem_iff.2 (hsplit.mem_iff.2 hc))
  · left
    have hstart : start ≤ timely := by
      simp only [start]
      split
      · exact Nat.min_le_left _ _
      · exact Nat.le_refl _
    have htake : split.take timely = split.takeWhile fun c => Quantity.le c.2.delay required :=
      (List.prefix_iff_eq_take.1 (List.takeWhile_prefix _)).symm
    have hfirst : first ∈ sortByArea (split.take timely) := by
      have hlen : (sortByArea (split.take timely)).length = timely := by
        rw [(perm_sortByArea _).length_eq, htake]
      have hhead : split'.take start = (sortByArea (split.take timely)).take start := by
        simp only [split']
        rw [List.take_append_of_le_length (by omega)]
      rw [hhead] at hs
      obtain ⟨a, as, ha⟩ := List.exists_cons_of_length_pos (l := sortByArea (split.take timely))
        (by omega)
      obtain ⟨k, hk⟩ := Nat.exists_eq_succ_of_ne_zero hpos.ne'
      rw [ha, hk, Nat.succ_eq_add_one, List.take_succ_cons, List.cons_append] at hs
      rw [ha, (List.cons.inj hs).1]
      exact List.mem_cons_self
    have hfirst := (perm_sortByArea _).mem_iff.1 hfirst
    rw [htake] at hfirst
    exact List.mem_takeWhile_imp (p := fun c : Ranked α => Quantity.le c.2.delay required) hfirst

end Ranked

theorem perm_sortCosts (m : Mapper α) (id : NodeId) (costs : List (Ranked α)) :
    (m.sortCosts id costs).Perm costs := by
  unfold Mapper.sortCosts
  split
  · exact Ranked.perm_sortByDelay costs
  · exact Ranked.perm_sortInWindow _ _ costs

theorem map_snd_costs (m : Mapper α) (id : NodeId) (cuts : List Cut) :
    (cuts.zipIdx.map fun e => (e.2, m.cutCost id e.1)).map (·.2) = cuts.map (m.cutCost id) := by
  rw [List.map_map]
  conv_rhs => rw [← List.zipIdx_map_fst 0 cuts, List.map_map]
  rfl

/-- The costs of the reordered cuts are the ranked costs. -/
theorem map_cutCost_sortCuts {m : Mapper α} (hm : m.params.muxes = false) (id : NodeId)
    (cuts : List Cut) :
    (m.sortCuts id cuts).map (m.cutCost id) = (m.rankCosts id cuts).map (·.2) := by
  have hperm : (m.rankCosts id cuts).Perm (cuts.zipIdx.map fun e => (e.2, m.cutCost id e.1)) :=
    perm_sortCosts m id _
  have htargets : ((m.rankCosts id cuts).map (·.1)).Perm (List.range cuts.length) := by
    have := hperm.map (·.1)
    simpa [Function.comp_def, List.range_eq_range'] using this
  have hcost (r : Ranked α) (hr : r ∈ m.rankCosts id cuts) :
      cuts[r.1]?.map (m.cutCost id) = some r.2 := by
    obtain ⟨e, he, rfl⟩ := List.mem_map.1 (hperm.mem_iff.1 hr)
    rw [List.mem_zipIdx_iff_getElem?.1 he]
    rfl
  have hmap := congrArg (List.map (Option.map (m.cutCost id))) (map_some_reorder htargets)
  rw [List.map_map, List.map_map, List.map_map] at hmap
  refine List.map_injective_iff.2 (Option.some_injective _) ?_
  rw [Mapper.sortCuts, hm, if_neg (by simp), List.map_map, List.map_map]
  exact hmap.trans (List.map_congr_left hcost)

theorem perm_sortCuts {m : Mapper α} (hm : m.params.muxes = false) (id : NodeId)
    (cuts : List Cut) : (m.sortCuts id cuts).Perm cuts := by
  unfold Mapper.sortCuts
  rw [hm, if_neg (by simp)]
  exact perm_reorder _ _

/-- The cut may be chosen for its area, as it meets the required time. -/
def Timely (m : Mapper α) (id : NodeId) (delay : α) : Prop :=
  m.isDelayRound = false ∧ Quantity.le delay (m.required id) = true

variable [Clock α] {m : Mapper α} {id : NodeId} {cuts rest : List Cut} {first : Cut}

open Clock

theorem first_sortCosts {costs rest : List (Ranked α)} {first : Ranked α}
    (h : ∀ c ∈ costs, IsTime c.2.delay) (hs : m.sortCosts id costs = first :: rest) :
    Timely m id first.2.delay ∨ ∀ c ∈ costs, key first.2.delay ≤ key c.2.delay := by
  unfold Mapper.sortCosts at hs
  split at hs
  · exact .inr (Ranked.first_sortByDelay h hs)
  · rename_i hround
    exact (Ranked.first_sortInWindow h hs).imp_left fun hle => ⟨by simp_all, hle⟩

/-- Without multiplexers the winner is the fastest cut, or it meets the required time. -/
theorem first_sortCuts (hm : m.params.muxes = false)
    (h : ∀ c ∈ cuts, IsTime (m.cutCost id c).delay) (hs : m.sortCuts id cuts = first :: rest) :
    Timely m id (m.cutCost id first).delay ∨
      ∀ c ∈ cuts, key (m.cutCost id first).delay ≤ key (m.cutCost id c).delay := by
  have hmap := map_cutCost_sortCuts hm id cuts
  rw [hs, List.map_cons] at hmap
  obtain ⟨best, others, hc, hbest, -⟩ := List.map_eq_cons_iff.1 hmap.symm
  have hcosts := map_snd_costs m id cuts
  have htime (r : Ranked α) (hr : r ∈ cuts.zipIdx.map fun e => (e.2, m.cutCost id e.1)) :
      IsTime r.2.delay := by
    have hr := List.mem_map_of_mem (f := Prod.snd) hr
    rw [hcosts] at hr
    obtain ⟨c, hc, he⟩ := List.mem_map.1 hr
    exact he ▸ h c hc
  rw [← hbest]
  refine (first_sortCosts htime hc).imp_right fun hall c hcm => ?_
  have hcm := List.mem_map_of_mem (f := m.cutCost id) hcm
  rw [← hcosts] at hcm
  obtain ⟨r, hr, he⟩ := List.mem_map.1 hcm
  exact he ▸ hall r hr

end TechMap.Mapping

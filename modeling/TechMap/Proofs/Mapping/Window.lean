import Mathlib
import TechMap.Proofs.Mapping.Ranking
import TechMap.Proofs.Mapping.Valid
import TechMap.Proofs.Numeric.Comparison

/-! The order of a cut list under a required time. In front stand cuts that meet it, by area; from
some slot on the list is ordered by delay. How many cuts there are and how many of them are in time
says where that slot is. -/

namespace TechMap.Mapping

section Splitting

variable {β : Type} {p : β → Bool} {xs : List β}

/-- A list in which nothing follows that should have come before. -/
theorem filter_append_filter_not (h : xs.Pairwise fun a b => p b = true → p a = true) :
    xs.filter p ++ xs.filter (fun x => !p x) = xs := by
  induction xs with
  | nil => rfl
  | cons x xs ih =>
    obtain ⟨hx, hxs⟩ := List.pairwise_cons.1 h
    cases hp : p x with
    | true => simp [hp, ih hxs]
    | false =>
      have hnone : xs.filter p = [] := List.filter_eq_nil_iff.2 fun y hy hpy => by
        rw [hx y hy hpy] at hp
        cases hp
      have := ih hxs
      rw [hnone, List.nil_append] at this
      simp [hp, hnone, this]

theorem takeWhile_eq_filter (h : xs.Pairwise fun a b => p b = true → p a = true) :
    xs.takeWhile p = xs.filter p := by
  have hnone : (xs.filter fun x => !p x).takeWhile p = [] :=
    List.takeWhile_eq_nil_iff.2 fun hne hp => by
      have := (List.mem_filter.1 (List.get_mem _ ⟨0, hne⟩)).2
      rw [hp] at this
      cases this
  conv_lhs => rw [← filter_append_filter_not h]
  rw [List.takeWhile_append_of_pos fun x hx => (List.mem_filter.1 hx).2, hnone, List.append_nil]

end Splitting

variable {α β γ : Type} [Quantity α]

/-- Where the slots begin that are in order of delay, in a list of `length` cuts of which `timely`
meet the required time. -/
def windowStart (slots length timely : Nat) : Nat :=
  if slots ≤ length then Nat.min timely (length - slots) else timely

theorem windowStart_le (slots length timely : Nat) : windowStart slots length timely ≤ timely := by
  unfold windowStart
  split
  · exact Nat.min_le_left _ _
  · exact Nat.le_refl _

/-- Ordered by delay. -/
def ByDelay (cost : β → Cost α) (xs : List β) : Prop :=
  xs.Pairwise fun a b => ((cost a).byDelay (cost b)).isLE = true

/-- Cuts in time up to slot `start`, by area and none of them larger than one in time that comes
later; from there on by delay. -/
structure InWindow (cost : β → Cost α) (required : α) (start : Nat) (xs : List β) : Prop where
  timely : ∀ c ∈ xs.take start, Quantity.le (cost c).delay required = true
  area : (xs.take start).Pairwise fun a b => ((cost a).byArea (cost b)).isLE = true
  least : ∀ a ∈ xs.take start, ∀ b ∈ xs.drop start,
    Quantity.le (cost b).delay required = true → ((cost a).byArea (cost b)).isLE = true
  delay : ByDelay cost (xs.drop start)

theorem byDelay_map (cost : β → Cost α) (xs : List β) : ByDelay id (xs.map cost) ↔ ByDelay cost xs :=
  List.pairwise_map

theorem inWindow_map {cost : β → Cost α} {required : α} {start : Nat} {xs : List β} :
    InWindow id required start (xs.map cost) ↔ InWindow cost required start xs := by
  constructor
  · intro ⟨h1, h2, h3, h4⟩
    rw [← List.map_take] at h1 h2 h3
    rw [← List.map_drop] at h3 h4
    exact ⟨fun c hc => h1 _ (List.mem_map_of_mem hc), List.pairwise_map.1 h2,
      fun a ha b hb => h3 _ (List.mem_map_of_mem ha) _ (List.mem_map_of_mem hb),
      (byDelay_map cost _).1 h4⟩
  · intro ⟨h1, h2, h3, h4⟩
    refine ⟨?_, ?_, ?_, ?_⟩
    · rw [← List.map_take]
      exact List.forall_mem_map.2 h1
    · rw [← List.map_take]
      exact List.pairwise_map.2 h2
    · rw [← List.map_take, ← List.map_drop]
      exact List.forall_mem_map.2 fun a ha => List.forall_mem_map.2 (h3 a ha)
    · rw [← List.map_drop]
      exact (byDelay_map cost _).2 h4

variable [Comparison α]

open Comparison

instance : Std.TransCmp (Cost.byDelay : Cost α → Cost α → Ordering) :=
  inferInstanceAs (Std.TransCmp (compareLex (Ordering.byKey Cost.delay Quantity.order)
    (compareLex (compareOn Cost.size) (compareLex (Ordering.byKey Cost.area Quantity.order)
      fun a b => Ordering.byKey Cost.fanout Quantity.order b a))))

instance : Std.TransCmp (Cost.byArea : Cost α → Cost α → Ordering) :=
  inferInstanceAs (Std.TransCmp (compareLex (Ordering.byKey Cost.area Quantity.order)
    (compareLex (compareOn Cost.size) (compareLex (Ordering.byKey Cost.delay Quantity.order)
      fun a b => Ordering.byKey Cost.fanout Quantity.order b a))))

omit [Comparison α] in
theorem isLE_delay {a b : Cost α} (h : (a.byDelay b).isLE = true) :
    (Quantity.order a.delay b.delay).isLE = true := (Ordering.isLE_then_iff_and.1 h).1

omit [Comparison α] in
theorem isLE_area {a b : Cost α} (h : (a.byArea b).isLE = true) :
    (Quantity.order a.area b.area).isLE = true := (Ordering.isLE_then_iff_and.1 h).1

theorem isLE_or_isLE (cmp : γ → γ → Ordering) [Std.OrientedCmp cmp] (a b : γ) :
    (cmp a b).isLE = true ∨ (cmp b a).isLE = true := by
  have hswap : cmp b a = (cmp a b).swap := Std.OrientedCmp.eq_swap
  rw [hswap]
  cases cmp a b <;> simp

/-- A sort by a total preorder. -/
theorem pairwise_mergeSort_cmp (cmp : γ → γ → Ordering) [Std.TransCmp cmp] (f : β → γ)
    (xs : List β) : (xs.mergeSort fun a b => (cmp (f a) (f b)).isLE).Pairwise
      fun a b => (cmp (f a) (f b)).isLE = true :=
  List.pairwise_mergeSort (fun _ _ _ => Std.TransCmp.isLE_trans)
    (fun a b => Bool.or_eq_true_iff.2 (isLE_or_isLE cmp (f a) (f b))) xs

namespace Ranked

variable {costs : List (Ranked α)} {required : α} {slots : Nat}

theorem byDelay_sortByDelay (costs : List (Ranked α)) : ByDelay Prod.snd (sortByDelay costs) :=
  pairwise_mergeSort_cmp Cost.byDelay Prod.snd costs

theorem byArea_sortByArea (costs : List (Ranked α)) : (sortByArea costs).Pairwise
    fun a b => (a.2.byArea b.2).isLE = true :=
  pairwise_mergeSort_cmp Cost.byArea Prod.snd costs

/-- Does the cut meet the required time? -/
def isTimely (required : α) (c : Ranked α) : Bool := Quantity.le c.2.delay required

/-- Sorting by delay brings the cuts in time to the front, so setting the late ones apart moves
nothing. -/
theorem sortInWindow_eq (h : ∀ c ∈ costs, IsNumber c.2.delay) (required : α) (slots : Nat) :
    sortInWindow required slots costs =
      let timely := (sortByDelay costs).filter (isTimely required)
      let ranked := sortByArea timely ++ (sortByDelay costs).filter fun c => !isTimely required c
      let start := windowStart slots costs.length timely.length
      ranked.take start ++ sortByDelay (ranked.drop start) := by
  have hnum (c : Ranked α) (hc : c ∈ sortByDelay costs) : IsNumber c.2.delay :=
    h c ((perm_sortByDelay costs).mem_iff.1 hc)
  have hsorted := byDelay_sortByDelay costs
  have hlen : (sortByDelay costs).length = costs.length := (perm_sortByDelay costs).length_eq
  generalize hs : sortByDelay costs = sorted at hnum hsorted hlen ⊢
  have hsplit : sorted.filter (fun c => !Quantity.lt required c.2.delay)
      ++ sorted.filter (fun c => Quantity.lt required c.2.delay) = sorted := by
    have := filter_append_filter_not (p := fun c : Ranked α => !Quantity.lt required c.2.delay)
      (hsorted.imp_of_mem fun {a b} ha hb hab hlt => ?_)
    · simpa using this
    · rw [Bool.not_eq_true'] at hlt ⊢
      exact Bool.eq_false_iff.2 fun hlt' => Bool.eq_false_iff.1 hlt
        (lt_mono (hnum a ha) (hnum b hb) (isLE_delay hab) hlt')
  have hdown : sorted.Pairwise fun a b => isTimely required b = true → isTimely required a = true :=
    hsorted.imp_of_mem fun ha hb hab => le_mono (hnum _ ha) (hnum _ hb) (isLE_delay hab)
  have htimely : sorted.takeWhile (fun c => Quantity.le c.2.delay required) =
      sorted.filter (isTimely required) := takeWhile_eq_filter hdown
  have hparts := filter_append_filter_not hdown
  unfold sortInWindow
  rw [hs]
  dsimp only
  rw [hsplit, htimely]
  set timely := sorted.filter (isTimely required)
  have htake : sorted.take timely.length = timely := by
    conv_lhs => rw [← hparts]
    exact List.take_left
  have hdrop : sorted.drop timely.length = sorted.filter fun c => !isTimely required c := by
    conv_lhs => rw [← hparts]
    exact List.drop_left
  have hranked : (sortByArea timely ++ sorted.filter fun c => !isTimely required c).length =
      costs.length := by
    rw [← hlen, List.length_append, (perm_sortByArea timely).length_eq, ← List.length_append, hparts]
  rw [htake, hdrop, hranked]
  rfl

theorem inWindow_sortInWindow (h : ∀ c ∈ costs, IsNumber c.2.delay) (required : α) (slots : Nat) :
    InWindow Prod.snd required
      (windowStart slots costs.length (costs.countP (isTimely required)))
      (sortInWindow required slots costs) := by
  rw [sortInWindow_eq h]
  have hcount : ((sortByDelay costs).filter (isTimely required)).length =
      costs.countP (isTimely required) := by
    rw [← List.countP_eq_length_filter, (perm_sortByDelay costs).countP_eq]
  dsimp only
  rw [hcount]
  set timely := sortByArea ((sortByDelay costs).filter (isTimely required)) with htimely
  set late := (sortByDelay costs).filter fun c => !isTimely required c with hlate
  set start := windowStart slots costs.length (costs.countP (isTimely required))
  have hlen : timely.length = costs.countP (isTimely required) :=
    (perm_sortByArea _).length_eq.trans hcount
  have hstart : start ≤ timely.length := hlen ▸ windowStart_le _ _ _
  have hfront : (timely ++ late).take start = timely.take start :=
    List.take_append_of_le_length hstart
  have hback : (timely ++ late).drop start = timely.drop start ++ late :=
    List.drop_append_of_le_length hstart
  have hsize : (timely.take start).length = start := List.length_take_of_le hstart
  have htake : (timely.take start ++ sortByDelay (timely.drop start ++ late)).take start =
      timely.take start := List.take_left' hsize
  have hdrop : (timely.take start ++ sortByDelay (timely.drop start ++ late)).drop start =
      sortByDelay (timely.drop start ++ late) := List.drop_left' hsize
  have hsorted := byArea_sortByArea ((sortByDelay costs).filter (isTimely required))
  rw [← htimely] at hsorted
  rw [hfront, hback]
  refine ⟨?_, ?_, ?_, ?_⟩
  · rw [htake]
    intro c hc
    have := (perm_sortByArea _).mem_iff.1 (htimely ▸ List.mem_of_mem_take hc)
    exact (List.mem_filter.1 this).2
  · rw [htake]
    exact hsorted.sublist (List.take_sublist _ _)
  · rw [htake, hdrop]
    intro a ha b hb hle
    rcases List.mem_append.1 ((perm_sortByDelay _).mem_iff.1 hb) with hb | hb
    · rw [← List.take_append_drop start timely] at hsorted
      exact (List.pairwise_append.1 hsorted).2.2 a ha b hb
    · have := (List.mem_filter.1 hb).2
      rw [isTimely, hle] at this
      cases this
  · rw [hdrop]
    exact byDelay_sortByDelay _

end Ranked

section First

variable {cost : β → Cost α} {required : α} {first : β} {rest : List β}

/-- The first of a list that is ordered by delay is the fastest. -/
theorem ByDelay.isLE_first (h : ByDelay cost (first :: rest)) {c : β} (hc : c ∈ first :: rest) :
    ((cost first).byDelay (cost c)).isLE = true := by
  rcases List.mem_cons.1 hc with rfl | hc
  · exact Std.ReflCmp.isLE_rfl
  · exact (List.pairwise_cons.1 h).1 c hc

omit [Comparison α] in
theorem InWindow.byDelay {xs : List β} (h : InWindow cost required 0 xs) : ByDelay cost xs := by
  simpa using h.delay

/-- If the slots by delay do not begin at once, the first cut is in time, and the smallest that is. -/
theorem InWindow.isLE_first {start : Nat} (h : InWindow cost required start (first :: rest))
    (hstart : start ≠ 0) : Quantity.le (cost first).delay required = true ∧
      ∀ c ∈ first :: rest, Quantity.le (cost c).delay required = true →
        ((cost first).byArea (cost c)).isLE = true := by
  obtain ⟨k, rfl⟩ := Nat.exists_eq_succ_of_ne_zero hstart
  have hmem : first ∈ (first :: rest).take (k + 1) := by simp
  refine ⟨h.timely first hmem, fun c hc hle => ?_⟩
  rw [← List.take_append_drop (k + 1) (first :: rest)] at hc
  rcases List.mem_append.1 hc with hc | hc
  · rcases List.mem_cons.1 (List.take_succ_cons ▸ hc) with rfl | hc
    · exact Std.ReflCmp.isLE_rfl
    · have harea := h.area
      rw [List.take_succ_cons] at harea
      exact (List.pairwise_cons.1 harea).1 c hc
  · exact h.least first hmem c hc hle

end First

/-- Where the slots begin that are in order of delay when the cuts of a node are sorted. -/
def suffixStart (m : Mapper α) (id : NodeId) (cuts : List Cut) : Nat :=
  windowStart m.params.delaySlots cuts.length
    (cuts.countP fun c => Quantity.le (m.cutCost id c).delay (m.required id))

section Selection

variable {m : Mapper α} {id : NodeId} {cuts : List Cut}

/-- Without a window the list is sorted by delay. -/
theorem byDelay_sortCuts (hm : m.params.muxes = false)
    (hr : m.isProbeRound = true ∨ m.isDelayRound = true) :
    ByDelay (m.cutCost id) (m.sortCuts id cuts) := by
  have hround : (m.isProbeRound || m.isDelayRound) = true := by simpa using hr
  rw [← byDelay_map, map_cutCost_sortCuts hm, byDelay_map, Mapper.rankCosts, Mapper.sortCosts,
    if_pos hround]
  exact Ranked.byDelay_sortByDelay _

theorem inWindow_sortCuts (hm : m.params.muxes = false) (hp : m.isProbeRound = false)
    (hd : m.isDelayRound = false) (h : ∀ c ∈ cuts, IsNumber (m.cutCost id c).delay) :
    InWindow (m.cutCost id) (m.required id) (suffixStart m id cuts) (m.sortCuts id cuts) := by
  have hcosts := map_snd_costs m id cuts
  rw [← inWindow_map, map_cutCost_sortCuts hm, inWindow_map, Mapper.rankCosts, Mapper.sortCosts,
    if_neg (by simp [hp, hd])]
  set costs := cuts.zipIdx.map fun e => (e.2, m.cutCost id e.1)
  have hnum (c : Ranked α) (hc : c ∈ costs) : IsNumber c.2.delay := by
    have hc := List.mem_map_of_mem (f := Prod.snd) hc
    rw [hcosts] at hc
    obtain ⟨d, hd, he⟩ := List.mem_map.1 hc
    exact he ▸ h d hd
  have hcount : costs.countP (Ranked.isTimely (m.required id)) =
      cuts.countP fun c => Quantity.le (m.cutCost id c).delay (m.required id) := by
    have hcount := congrArg (List.countP fun c => Quantity.le c.delay (m.required id)) hcosts
    rw [List.countP_map (l := cuts)] at hcount
    exact List.countP_map.symm.trans hcount
  have hlen : costs.length = cuts.length := by simpa using congrArg List.length hcosts
  have := Ranked.inWindow_sortInWindow hnum (m.required id) m.params.delaySlots
  rwa [hcount, hlen] at this

end Selection

end TechMap.Mapping

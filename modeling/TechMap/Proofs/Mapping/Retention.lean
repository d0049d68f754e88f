import Mathlib
import TechMap.Proofs.Cut.Product
import TechMap.Proofs.Mapping.Arrivals
import TechMap.Proofs.Mapping.Reserve
import TechMap.Proofs.Numeric.Extended

/-! A retained winner and the winner that takes its place. Enumeration starts from the retained one,
so some cut that lies within it is ordered with the others, and it costs no more where more leaves
never cost less. The first of an ordered list is as fast as any other cut of it or as small. -/

namespace TechMap.Mapping

open Comparison Timed

variable {α : Type} [Quantity α] {m m' : Mapper α} {id : NodeId} {cuts rest : List Cut}
  {first c d w : Cut}

omit [Quantity α] in
theorem getD_of_forall {P : α → Prop} {xs : Array α} {d : α} (hd : P d) (h : ∀ x ∈ xs, P x)
    (i : Nat) : P (xs.getD i d) := by
  rw [Array.getD_eq_getD_getElem?]
  cases hi : xs[i]? with
  | none => exact hd
  | some x => exact h x (Array.mem_of_getElem? hi)

theorem first_of_head?_truncate (h : (m.truncate (first :: rest)).head? = some c) : c = first := by
  rcases Nat.eq_zero_or_pos m.params.cutsPerNode with h0 | hpos
  · have hlen := length_truncate_le m (first :: rest)
    have hnone : m.truncate (first :: rest) = [] := by
      refine List.length_eq_zero_iff.1 (Nat.le_zero.1 (hlen.trans ?_))
      simp [Mapper.capacity, h0]
    rw [hnone] at h
    cases h
  · rw [head?_truncate hpos] at h
    exact (Option.some.inj h).symm

/-- The winner is as fast as any other cut of its list, or as small. -/
theorem first_sortCuts_undominated [Comparison α] (hm : m.params.muxes = false)
    (h : ∀ c ∈ cuts, IsNumber (m.cutCost id c).delay) (hs : m.sortCuts id cuts = first :: rest)
    (hc : c ∈ cuts) :
    (Quantity.order (m.cutCost id first).delay (m.cutCost id c).delay).isLE = true ∨
      (Quantity.order (m.cutCost id first).area (m.cutCost id c).area).isLE = true := by
  have hmem (d : Cut) : d ∈ first :: rest ↔ d ∈ cuts := by
    rw [← hs]
    exact (perm_sortCuts hm id cuts).mem_iff
  have hfast (hd : ByDelay (m.cutCost id) (first :: rest)) :=
    isLE_delay (hd.isLE_first ((hmem c).2 hc))
  by_cases hround : m.isProbeRound = true ∨ m.isDelayRound = true
  · exact .inl (hfast (hs ▸ byDelay_sortCuts hm hround))
  obtain ⟨hp, hd⟩ : m.isProbeRound = false ∧ m.isDelayRound = false := by simpa using hround
  have hw := inWindow_sortCuts hm hp hd h
  rw [hs] at hw
  by_cases hstart : suffixStart m id cuts = 0
  · rw [hstart] at hw
    exact .inl (hfast hw.byDelay)
  obtain ⟨hle, hleast⟩ := hw.isLE_first hstart
  by_cases htimely : Quantity.le (m.cutCost id c).delay (m.required id) = true
  · exact .inr (isLE_area (hleast c ((hmem c).2 hc) htimely))
  · -- the winner is in time and the cut is not
    refine .inl ((isLE_or_isLE Quantity.order _ _).resolve_right fun hlate => htimely ?_)
    exact le_mono (h c hc) (h first ((hmem first).1 (by simp))) hlate hle

/-- Estimates and areas are exact, no area is below zero, and more leaves never cost less. -/
structure Priced [Timed α] (m : Mapper α) : Prop where
  arrival : ∀ i, Exact (m.est.arrivalAt i)
  area : ∀ i, Exact (m.est.areaAt i) ∧ 0 ≤ val (m.est.areaAt i)
  lut : ∀ x ∈ m.params.lutCost, Exact x
  mono : ∀ i j : Fin 7, i ≤ j → val m.params.lutCost[i] ≤ val m.params.lutCost[j]

section Cost

variable [Timed α]

theorem foldl_max_exact {f : NodeId → α} (h : ∀ i, Exact (f i)) {acc : α} (hacc : Exact acc)
    (ls : List NodeId) : Exact (ls.foldl (fun acc l => max acc (f l)) acc) ∧
      ∀ q, val (ls.foldl (fun acc l => max acc (f l)) acc) ≤ q ↔
        val acc ≤ q ∧ ∀ l ∈ ls, val (f l) ≤ q := by
  induction ls generalizing acc with
  | nil => simp [hacc]
  | cons l ls ih =>
    obtain ⟨hmax, hval⟩ := max_exact hacc (h l)
    obtain ⟨hexact, hle⟩ := ih hmax
    refine ⟨hexact, fun q => (hle q).trans ?_⟩
    rw [hval, max_le_iff, List.forall_mem_cons, and_assoc]

theorem latest_exact {e : Estimates α} (h : ∀ i, Exact (e.arrivalAt i)) (c : Cut) :
    Exact (e.latest c) ∧
      ∀ q, val (e.latest c) ≤ q ↔ 0 ≤ q ∧ ∀ l ∈ c.leaves, val (e.arrivalAt l) ≤ q := by
  obtain ⟨hexact, hle⟩ := foldl_max_exact h exact_zero c.leaves
  exact ⟨hexact, fun q => by rw [← val_zero (α := α)]; exact hle q⟩

theorem sumArea_exact {e : Estimates α} (h : ∀ i, Exact (e.areaAt i)) (c : Cut) :
    Exact (e.sumArea c) ∧ val (e.sumArea c) = (c.leaves.map fun l => val (e.areaAt l)).sum := by
  obtain ⟨hexact, hsum⟩ := foldl_add_exact h exact_zero c.leaves
  exact ⟨hexact, hsum.trans (by rw [val_zero, zero_add])⟩

namespace Priced

theorem exact_lut (h : Priced m) (n : Nat) : Exact (m.params.lutCost.toArray.getD n 0) :=
  getD_of_forall exact_zero (fun x hx => h.lut x ((Vector.mem_toArray_iff _ _).1 hx)) n

theorem lut_mono (h : Priced m) {i j : Nat} (hij : i ≤ j) (hj : j < 7) :
    val (m.params.lutCost.toArray.getD i 0) ≤ val (m.params.lutCost.toArray.getD j 0) := by
  have hget {n : Nat} (hn : n < 7) :
      m.params.lutCost.toArray.getD n 0 = m.params.lutCost[(⟨n, hn⟩ : Fin 7)] := by
    simp [Array.getD, hn]
  rw [hget (hij.trans_lt hj), hget hj]
  exact h.mono _ _ hij

theorem exact_delay (h : Priced m) (hc : c.isMux = false) : Exact (m.cutCost id c).delay ∧
    val (m.cutCost id c).delay = val (m.est.latest c) + 1 := by
  obtain ⟨hexact, hval⟩ := add_exact (latest_exact h.arrival c).1 exact_one
  simp only [Mapper.cutCost, cutCost, hc, Bool.false_eq_true, if_false]
  exact ⟨hexact, hval.trans (by rw [val_one])⟩

theorem exact_area (h : Priced m) (hc : c.isMux = false) : Exact (m.cutCost id c).area ∧
    val (m.cutCost id c).area = (c.leaves.map fun l => val (m.est.areaAt l)).sum +
      val (m.params.lutCost.toArray.getD c.size 0) := by
  obtain ⟨hsum, hval⟩ := sumArea_exact (fun i => (h.area i).1) c
  obtain ⟨hexact, hadd⟩ := add_exact hsum (h.exact_lut c.size)
  simp only [Mapper.cutCost, cutCost, hc, Bool.false_eq_true, if_false]
  exact ⟨hexact, hadd.trans (by rw [hval])⟩

/-- A cut that lies within another is no later and no larger. -/
theorem cost_mono (h : Priced m) (id : NodeId) (hc : c.isMux = false) (hd : d.isMux = false)
    (hsub : c.leaves.Sublist d.leaves) (h6 : d.size ≤ Cut.maxSize) :
    val (m.cutCost id c).delay ≤ val (m.cutCost id d).delay ∧
      val (m.cutCost id c).area ≤ val (m.cutCost id d).area := by
  rw [(h.exact_delay hc).2, (h.exact_delay hd).2, (h.exact_area hc).2, (h.exact_area hd).2]
  constructor
  · have hd := ((latest_exact h.arrival d).2 _).1 le_rfl
    have hle := ((latest_exact h.arrival c).2 _).2
      ⟨hd.1, fun l hl => hd.2 l (hsub.subset hl)⟩
    exact add_le_add_left hle 1
  · refine add_le_add ?_ (h.lut_mono hsub.length_le (Nat.lt_succ_of_le h6))
    refine (hsub.map _).sum_le_sum fun x hx => ?_
    obtain ⟨l, -, rfl⟩ := List.mem_map.1 hx
    exact (h.area l).2

end Priced

end Cost

omit [Quantity α] in
/-- If enumeration does not end early, some cut that it found lies within the retained winner. -/
theorem exists_sublist_enumerate (hm : m.params.muxes = false)
    (hw : (m.retained[id]?).join = some w) (hlut : w.isMux = false) {node : Node}
    (hc : c ∈ m.enumerate id node) (h2 : 2 ≤ c.size) :
    (∀ d ∈ m.enumerate id node, d.isMux = false) ∧
      ∃ d ∈ m.enumerate id node, d.leaves.Sublist w.leaves := by
  rw [enumerate_of_no_muxes hm, hw, Option.toList_some, Cut.product_snd] at hc ⊢
  set us := Cut.unions (node.operands.map fun l => operandCut l :: m.cutsOf l.id) .empty
  have hus (u : Cut) (hu : u ∈ us) : u.isMux = false := (Cut.mem_unions.1 hu).isMux rfl
  cases hn : us.find? Cut.isNarrow with
  | some d =>
    rw [hn] at hc
    obtain rfl := List.mem_singleton.1 hc
    have h1 : c.size ≤ 1 := by simpa [Cut.isNarrow] using List.find?_some hn
    omega
  | none =>
    obtain ⟨d, hd, -, hsub⟩ := Cut.exists_sublist_placeAll hus (List.mem_singleton_self w) hlut
    refine ⟨fun u hu => ?_, d, hd, hsub⟩
    rcases Cut.mem_placeAll hu with hu | hu
    · exact List.mem_singleton.1 hu ▸ hlut
    · exact hus u hu

/-- A gate that grows its list anew, from a retained LUT cut, finds no winner of two leaves or more
that is both slower and larger than that cut. The costs are those before the visit, and the visit
does not change them. -/
theorem retained_winner [Measured α] (m : Mapper α) (id : NodeId) (h : Ready m id) (hp : Priced m)
    (hm : m.params.muxes = false) (hnil : m.cutsOf id = []) {w : Cut}
    (hw : (m.retained[id]?).join = some w) (hlut : w.isMux = false) (h6 : w.size ≤ 6) :
    ∃ m', m.generateCuts id = .ok m' ∧
      (0 < m.params.cutsPerNode → m'.winner? id ≠ none) ∧
      (∀ first, m'.winner? id = some first → first ∈ m.enumerate id (m.net.node id) ∧
        (2 ≤ first.size → ¬ (Quantity.lt (m.cutCost id w).delay (m.cutCost id first).delay = true ∧
          Quantity.lt (m.cutCost id w).area (m.cutCost id first).area = true))) ∧
      ∀ c, id ∉ c.leaves → m'.cutCost id c = m.cutCost id c := by
  obtain ⟨first, rest, m', hm', hs, hlist, hest, hst⟩ := h.generateCuts hnil
  have hwinner : m'.winner? id = (m'.truncate (first :: rest)).head? := by
    rw [Mapper.winner?, hlist]
  refine ⟨m', hm', fun hpos => ?_, fun c hc => ?_, fun c hc => ?_⟩
  · rw [hwinner, head?_truncate (hst.params ▸ hpos)]
    simp
  · obtain rfl := first_of_head?_truncate (hwinner ▸ hc)
    have hmem (d : Cut) : d ∈ m.enumerate id (m.net.node id) ↔ d ∈ c :: rest := by
      rw [← hs]
      exact (perm_sortCuts hm id _).mem_iff.symm
    refine ⟨(hmem c).2 (by simp), fun h2 => ?_⟩
    obtain ⟨hluts, d, hd, hsub⟩ := exists_sublist_enumerate hm hw hlut ((hmem c).2 (by simp)) h2
    have hcm := hluts c ((hmem c).2 (by simp))
    obtain ⟨hdelay, harea⟩ := hp.cost_mono id (hluts d hd) hlut hsub h6
    have hchosen := first_sortCuts_undominated hm
      (fun u hu => Measured.isNumber (hp.exact_delay (hluts u hu)).1) hs hd
    rw [Measured.isLE_order (hp.exact_delay hcm).1 (hp.exact_delay (hluts d hd)).1,
      Measured.isLE_order (hp.exact_area hcm).1 (hp.exact_area (hluts d hd)).1] at hchosen
    rintro ⟨hslow, hlarge⟩
    rw [lt_exact (hp.exact_delay hlut).1 (hp.exact_delay hcm).1, decide_eq_true_eq] at hslow
    rw [lt_exact (hp.exact_area hlut).1 (hp.exact_area hcm).1, decide_eq_true_eq] at hlarge
    rcases hchosen with hle | hle
    · exact absurd (hle.trans hdelay) (not_le.2 hslow)
    · exact absurd (hle.trans harea) (not_le.2 hlarge)
  · rw [Mapper.cutCost, hst.params, hest]
    exact cutCost_settleCost (m.cutCost id first) hc

theorem priced_crowded (winner : Option Cut) : Priced (crowded Extended winner) where
  arrival := getD_of_forall exact_zero
    (show ∀ x ∈ (#[0, 0, 0, 0, 2, 0, 0] : Array Extended), num (val x) = x by decide)
  area := getD_of_forall (P := fun x => Exact x ∧ 0 ≤ val x) ⟨exact_zero, val_zero.ge⟩
    (show ∀ x ∈ (#[0, 5, 0, 0, 0, 0, 0] : Array Extended), num (val x) = x ∧ 0 ≤ val x by
      decide +kernel)
  lut x hx := (Vector.mem_replicate.1 hx).2 ▸ exact_one
  mono i j _ := by
    show val (Vector.replicate 7 (1 : Extended))[i] ≤ val (Vector.replicate 7 (1 : Extended))[j]
    simp

/-- The retained cut is the fastest and the largest, and another one takes its place. -/
theorem retained_winner_crowded : ∃ m' first,
    (crowded Extended (some (.ofSorted [1, 2, 3]))).generateCuts 5 = .ok m' ∧
      m'.winner? 5 = some first ∧
      ¬ (Quantity.lt ((crowded Extended none).cutCost 5 (.ofSorted [1, 2, 3])).delay
          ((crowded Extended none).cutCost 5 first).delay = true ∧
        Quantity.lt ((crowded Extended none).cutCost 5 (.ofSorted [1, 2, 3])).area
          ((crowded Extended none).cutCost 5 first).area = true) := by
  set w : Cut := .ofSorted [1, 2, 3]
  obtain ⟨m', hm', hne, hwinner, -⟩ := retained_winner (crowded Extended (some w)) 5
    (ready_crowded Extended (by decide)) (priced_crowded _) rfl rfl (w := w) rfl rfl (by decide)
  obtain ⟨first, hfirst⟩ := Option.ne_none_iff_exists'.1 (hne (by decide))
  obtain ⟨hmem, hbest⟩ := hwinner first hfirst
  refine ⟨m', first, hm', hfirst, hbest ?_⟩
  have hwide : ∀ c ∈ (crowded Extended (some w)).enumerate 5 (ternary.node 5), 2 ≤ c.size := by
    decide +kernel
  exact hwide first hmem

end TechMap.Mapping

import Mathlib
import TechMap.Proofs.Mapping.Prioritization

/-! What a list that was grown keeps. The slots in order of delay are counted from the end of all
cuts, and a list is cut off at its front part. So the fastest cut is sure to stay only if those slots
begin within that part; where they begin later, a list is filled with the smallest cuts in time. -/

namespace TechMap.Mapping

open Comparison

variable {α : Type} {m : Mapper α} {id : NodeId} {β : Type}

/-- All that the list of a gate is grown from has estimates. -/
structure Ready (m : Mapper α) (id : NodeId) : Prop where
  gate : (m.net.node id).isLogic = true
  lt : id < m.size
  operands : ∀ l ∈ (m.net.node id).operands, l.id < m.size
  lists : ∀ l ∈ (m.net.node id).operands, ∀ c ∈ m.cutsOf l.id, m.inRange c = true
  seed : ∀ w, (m.retained[id]?).join = some w → m.inRange w = true

theorem inRange_iff {c : Cut} : m.inRange c = true ↔ ∀ l ∈ c.leaves, l < m.size := by
  simp [Mapper.inRange]

theorem Ready.inRange_enumerate (h : Ready m id) :
    ∀ c ∈ m.enumerate id (m.net.node id), m.inRange c = true := by
  intro c hc
  rcases mem_leaves_enumerate hc with hc | hc
  · exact h.seed c hc
  · refine inRange_iff.2 fun x hx => ?_
    obtain ⟨l, hl, rfl | ⟨d, hd, hx⟩⟩ := hc x hx
    · exact h.operands l hl
    · exact inRange_iff.1 (h.lists l hl d hd) x hx

variable [Quantity α]

/-- A gate without a list gets one. -/
theorem Ready.generateCuts (h : Ready m id) (hnil : m.cutsOf id = []) :
    ∃ first rest m', m.generateCuts id = .ok m' ∧
      m.sortCuts id (m.enumerate id (m.net.node id)) = first :: rest ∧
      m'.cutsOf id = m'.truncate (first :: rest) ∧
      m'.est = (m.settleCost id (m.cutCost id first)).est ∧ Steady m m' := by
  set m₁ := { m with enumerated := m.enumerated + (m.enumerate id (m.net.node id)).length }
  have hne : m.enumerate id (m.net.node id) ≠ [] := enumerate_ne_nil h.gate
  obtain ⟨first, rest, hs, hp⟩ := prioritize_eq m₁ id hne
  set settled := m₁.settleCost id (m₁.cutCost id first)
  have hcan : m₁.canPrioritize id (m.enumerate id (m.net.node id)) = true := by
    simp only [Mapper.canPrioritize, Bool.or_eq_true, Bool.and_eq_true, decide_eq_true_eq,
      List.all_eq_true]
    exact .inr ⟨h.lt, h.inRange_enumerate⟩
  have hgrow : m.generateLogic id (m.net.node id) =
      .ok (settled.setCuts id (settled.truncate (first :: rest))) := by
    unfold Mapper.generateLogic
    extract_lets cuts m₂
    rw [if_pos hcan, hp]
  refine ⟨first, rest, settled.setCuts id (settled.truncate (first :: rest)), ?_, hs, ?_, rfl,
    ⟨rfl, rfl, rfl, rfl, rfl, rfl⟩⟩
  · have hlive := Network.isLive_of_isLogic h.gate
    have hgate := h.gate
    unfold Mapper.generateCuts
    rw [Network.get?_eq_some (Network.lt_size_of_isLive hlive)]
    cases hn : m.net.node id <;> rw [hn] at hgate <;> try cases hgate
    all_goals
      dsimp only
      rw [hnil, ← hn]
      exact hgrow
  · exact (cutsOf_setCuts settled h.lt _ id).trans (if_pos rfl)

section Front

variable {cost : β → Cost α} {required : α} {start slots : Nat} {xs : List β}

/-- A front part that ends before the slots by delay begin holds cuts in time, by area, and what it
leaves out is no smaller or late. -/
theorem InWindow.take (h : InWindow cost required start xs) (hle : slots ≤ start) :
    (∀ c ∈ xs.take slots, Quantity.le (cost c).delay required = true) ∧
    ∀ a ∈ xs.take slots, ∀ b ∈ xs.drop slots, Quantity.le (cost b).delay required = true →
      ((cost a).byArea (cost b)).isLE = true := by
  have hfront : xs.take slots = (xs.take start).take slots := by
    rw [List.take_take, Nat.min_eq_left hle]
  have hsub (c : β) (hc : c ∈ xs.take slots) : c ∈ xs.take start :=
    List.mem_of_mem_take (hfront ▸ hc)
  refine ⟨fun c hc => h.timely c (hsub c hc), fun a ha b hb hb' => ?_⟩
  rw [← List.take_append_drop start xs, List.drop_append] at hb
  rcases List.mem_append.1 hb with hb | hb
  · have harea := h.area
    rw [← List.take_append_drop slots (xs.take start), ← hfront] at harea
    exact (List.pairwise_append.1 harea).2.2 a ha b hb
  · exact h.least a (hsub a ha) b (List.mem_of_mem_drop hb) hb'

variable [Comparison α]

/-- A front part that reaches into the slots by delay holds a cut that is at least as fast as any
that it leaves out. -/
theorem InWindow.exists_fast (h : InWindow cost required start xs) (hlt : start < slots) {b : β}
    (hb : b ∈ xs.drop slots) :
    ∃ a ∈ xs.take slots, ((cost a).byDelay (cost b)).isLE = true := by
  obtain ⟨k, rfl⟩ := Nat.exists_eq_add_of_lt hlt
  rw [Nat.add_assoc, ← List.drop_drop] at hb
  rw [Nat.add_assoc, List.take_add]
  have hfast := h.delay
  cases hd : xs.drop start with
  | nil =>
    rw [hd, List.drop_nil] at hb
    cases hb
  | cons a rest =>
    rw [hd] at hb hfast
    exact ⟨a, by simp, hfast.isLE_first (List.mem_of_mem_drop hb)⟩

theorem exists_fastest (cost : β → Cost α) (hne : xs ≠ []) :
    ∃ a ∈ xs, ∀ b ∈ xs, ((cost a).byDelay (cost b)).isLE = true := by
  have hperm := List.mergeSort_perm xs fun a b => ((cost a).byDelay (cost b)).isLE
  have hsorted : ByDelay cost _ := pairwise_mergeSort_cmp Cost.byDelay cost xs
  cases hs : xs.mergeSort fun a b => ((cost a).byDelay (cost b)).isLE with
  | nil =>
    rw [hs] at hperm
    exact absurd hperm.symm.eq_nil hne
  | cons a rest =>
    rw [hs] at hperm hsorted
    exact ⟨a, hperm.mem_iff.1 (by simp), fun b hb => hsorted.isLE_first (hperm.mem_iff.2 hb)⟩

theorem InWindow.exists_fastest (h : InWindow cost required start xs) (hne : xs ≠ [])
    (hslots : start < slots ∨ xs.length ≤ slots) :
    ∃ a ∈ xs.take slots, ∀ b ∈ xs, ((cost a).byDelay (cost b)).isLE = true := by
  obtain ⟨c, hc, hfast⟩ := Mapping.exists_fastest cost hne
  rw [← List.take_append_drop slots xs] at hc
  rcases List.mem_append.1 hc with hc | hc
  · exact ⟨c, hc, hfast⟩
  · have hlt : start < slots := hslots.resolve_right fun hle => by
      rw [List.drop_eq_nil_of_le hle] at hc
      cases hc
    obtain ⟨a, ha, hac⟩ := h.exists_fast hlt hc
    exact ⟨a, ha, fun b hb => Std.TransCmp.isLE_trans hac (hfast b hb)⟩

end Front

/-- Outside the probe round and the delay round a list that was grown keeps a fastest of all
enumerated cuts if the slots by delay begin within the list or nothing is cut off. If they begin
later it keeps cuts in time only, and none is left out that is in time and smaller. -/
theorem reserved_slots (m : Mapper Single) (id : NodeId) (h : Ready m id)
    (hm : m.params.muxes = false) (hp : m.isProbeRound = false) (hd : m.isDelayRound = false)
    (hnil : m.cutsOf id = [])
    (hnum : ∀ c ∈ m.enumerate id (m.net.node id), (m.cutCost id c).delay.isNaN = false) :
    ∃ m' dropped, m.generateCuts id = .ok m' ∧
      (m'.cutsOf id ++ dropped).Perm (m.enumerate id (m.net.node id)) ∧
      (m'.cutsOf id).length =
        min m.params.cutsPerNode (m.enumerate id (m.net.node id)).length ∧
      (suffixStart m id (m.enumerate id (m.net.node id)) < m.params.cutsPerNode ∨
          (m.enumerate id (m.net.node id)).length ≤ m.params.cutsPerNode →
        ∃ c ∈ m'.cutsOf id, ∀ d ∈ m.enumerate id (m.net.node id),
          Quantity.le (m.cutCost id c).delay (m.cutCost id d).delay = true) ∧
      (m.params.cutsPerNode ≤ suffixStart m id (m.enumerate id (m.net.node id)) →
        (∀ c ∈ m'.cutsOf id, Quantity.le (m.cutCost id c).delay (m.required id) = true) ∧
        ∀ c ∈ m'.cutsOf id, ∀ d ∈ dropped,
          Quantity.le (m.cutCost id d).delay (m.required id) = true →
            ((m.cutCost id c).byArea (m.cutCost id d)).isLE = true) := by
  obtain ⟨first, rest, m', hm', hs, hlist, -, hst⟩ := h.generateCuts hnil
  have hw := inWindow_sortCuts hm hp hd hnum
  have hperm := perm_sortCuts hm id (m.enumerate id (m.net.node id))
  rw [hs] at hw hperm
  have hprobe : m'.isProbeRound = false := by
    rwa [Mapper.isProbeRound, hst.params, hst.round]
  rw [Mapper.truncate, if_neg (by simp [hprobe]), hst.params] at hlist
  set slots := m.params.cutsPerNode
  refine ⟨m', (first :: rest).drop slots, hm', ?_, ?_, fun hslots => ?_, fun hslots => ?_⟩
  · rw [hlist, List.take_append_drop]
    exact hperm
  · rw [hlist, List.length_take, hperm.length_eq]
  · rw [← hperm.length_eq] at hslots
    obtain ⟨c, hc, hfast⟩ := hw.exists_fastest (by simp) hslots
    have hcm := hperm.mem_iff.1 (List.mem_of_mem_take hc)
    refine ⟨c, hlist ▸ hc, fun d hdm => ?_⟩
    exact le_of_isLE (hnum c hcm) (hnum d hdm)
      (isLE_delay (hfast d (hperm.mem_iff.2 hdm)))
  · rw [hlist]
    exact hw.take hslots

/-- The conjunction of three inputs, as two gates. -/
def ternary : Network :=
  ⟨#[.const, .pi, .pi, .pi, .and (.ofNode 1) (.ofNode 2), .and (.ofNode 4) (.ofNode 3),
    .po (.ofNode 5)]⟩

/-- The list of the outer gate has one slot. The inner gate is late, and the first input is large. -/
def crowded (α : Type) [Quantity α] (winner : Option Cut) : Mapper α :=
  let p : Params α := { Params.standard with cutsPerNode := 1 }
  let m := (Mapper.start p ⟨ternary, none, #[]⟩).toOption.get rfl
  { m with
    round := 1
    target := 10
    cuts := #[[], [], [], [], [.ofSorted [1, 2]], [], []]
    retained := #[none, none, none, none, none, winner, none]
    est := { m.est with
      area := #[0, 5, 0, 0, 0, 0, 0]
      arrival := #[0, 0, 0, 0, 2, 0, 0]
      depart := #[0, 0, 0, 0, 0, 0, 0] } }

theorem ready_crowded (α : Type) [Quantity α] {winner : Option Cut}
    (h : ∀ w ∈ winner, ∀ l ∈ w.leaves, l < 7) : Ready (crowded α winner) 5 where
  gate := rfl
  lt := show 5 < 7 by decide
  operands := show ∀ l ∈ (ternary.node 5).operands, l.id < 7 by decide
  lists l hl c hc := by
    obtain rfl | rfl := List.mem_pair.1 (show l ∈ [Lit.ofNode 4, Lit.ofNode 3] from hl)
    · obtain rfl := List.mem_singleton.1 hc
      rfl
    · cases hc
  seed w hw := inRange_iff.2 (h w hw)

/-- Both cuts of the gate are in time. The slot goes to the smaller one, and the only fastest cut is
lost. -/
theorem reserved_slots_crowded : ∃ m' d, (crowded Single none).generateCuts 5 = .ok m' ∧
    d ∈ (crowded Single none).enumerate 5 (ternary.node 5) ∧ m'.cutsOf 5 ≠ [] ∧
      ∀ c ∈ m'.cutsOf 5, Quantity.lt ((crowded Single none).cutCost 5 d).delay
        ((crowded Single none).cutCost 5 c).delay = true := by
  have hall : (crowded Single none).enumerate 5 (ternary.node 5) =
      [.ofSorted [3, 4], .ofSorted [1, 2, 3]] := by
    decide +kernel
  obtain ⟨m', dropped, hm', hperm, hlen, -, hlate⟩ := reserved_slots (crowded Single none) 5
    (ready_crowded Single (by simp)) rfl rfl rfl rfl (by decide +kernel)
  rw [show (crowded Single none).net.node 5 = ternary.node 5 from rfl, hall] at hperm hlen hlate
  obtain ⟨-, hsmall⟩ := hlate (by decide +kernel)
  obtain ⟨c, hc⟩ := List.length_eq_one_iff.1 hlen
  rw [hc] at hperm hsmall
  have hcm : c ∈ [Cut.ofSorted [3, 4], .ofSorted [1, 2, 3]] := hperm.mem_iff.1 (by simp)
  have hfirst : c = .ofSorted [3, 4] := by
    rcases List.mem_pair.1 hcm with rfl | rfl
    · rfl
    · have hd : Cut.ofSorted [3, 4] ∈ dropped := by
        have : Cut.ofSorted [3, 4] ∈ [Cut.ofSorted [1, 2, 3]] ++ dropped := hperm.mem_iff.2 (by simp)
        simpa [Cut.ofSorted] using this
      exact absurd (hsmall (.ofSorted [1, 2, 3]) (by simp) _ hd (by decide +kernel))
        (by decide +kernel)
  refine ⟨m', .ofSorted [1, 2, 3], hm', by simp [hall], by simp [hc], fun c' hc' => ?_⟩
  rw [hc, hfirst] at hc'
  obtain rfl := List.mem_singleton.1 hc'
  decide +kernel

end TechMap.Mapping

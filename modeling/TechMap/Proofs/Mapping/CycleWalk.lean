import Mathlib
import TechMap.Cut.Basic
import TechMap.Mapping.CycleWalk
import TechMap.Proofs.Network.Basic

/-! The walk that reorders in place puts every element where it belongs. Before step `i` the slots
below `i` are done, and for the others `place` and `holder` are inverse to each other. -/

namespace TechMap.Mapping

variable {β : Type}

theorem getElem?_swapIfInBounds (xs : Array β) {i j : Nat} (hi : i < xs.size) (hj : j < xs.size)
    (k : Nat) : (xs.swapIfInBounds i j)[k]? =
      if k = i then xs[j]? else if k = j then xs[i]? else xs[k]? := by
  rw [Array.swapIfInBounds_def, dif_pos hi, dif_pos hj, Array.getElem?_swap]
  grind

theorem getD_swapIfInBounds (xs : Array β) {i j : Nat} (hi : i < xs.size) (hj : j < xs.size)
    (d : β) (k : Nat) : (xs.swapIfInBounds i j).getD k d =
      if k = i then xs.getD j d else if k = j then xs.getD i d else xs.getD k d := by
  simp only [Array.getD_eq_getD_getElem?, getElem?_swapIfInBounds xs hi hj]
  split_ifs <;> rfl

namespace Walk

/-- Where element `t` is, and which element slot `j` holds. -/
def placeOf (s : Walk β) (t : Nat) : Nat := s.place.getD t 0

def holderOf (s : Walk β) (j : Nat) : Nat := s.holder.getD j 0

structure Before (targets : List Nat) (start : Array β) (i : Nat) (s : Walk β) : Prop where
  place : s.place.size = start.size
  holder : s.holder.size = start.size
  items : s.items.size = start.size
  done : ∀ j < i, s.items[j]? = (targets[j]?).bind fun t => start[t]?
  held : ∀ j, i ≤ j → j < start.size → s.holderOf j ∉ targets.take i ∧
    s.holderOf j < start.size ∧ s.placeOf (s.holderOf j) = j ∧ s.items[j]? = start[s.holderOf j]?
  placed : ∀ t < start.size, t ∉ targets.take i →
    i ≤ s.placeOf t ∧ s.placeOf t < start.size ∧ s.holderOf (s.placeOf t) = t

theorem before_zero (targets : List Nat) (items : Array β) :
    Before targets items 0 ⟨Array.range items.size, Array.range items.size, items⟩ := by
  have hget (j : Nat) (hj : j < items.size) : (Array.range items.size).getD j 0 = j := by
    simp [Array.getD_eq_getD_getElem?, hj]
  refine ⟨by simp, by simp, rfl, by simp, fun j _ hj => ?_, fun t ht _ => ?_⟩
  · simp only [holderOf, placeOf, hget j hj]
    simp [hj]
  · simp only [holderOf, placeOf, hget t ht]
    simp [ht]

theorem not_mem_take {targets : List Nat} {i t : Nat} (hn : targets.Nodup)
    (ht : targets[i]? = some t) : t ∉ targets.take i := by
  intro hm
  have := hn.sublist (List.take_sublist (i + 1) targets)
  rw [List.take_add_one, ht, List.nodup_append] at this
  exact this.2.2 t hm t (by simp) rfl

/-- All that the step to slot `i` reads or writes exists. -/
structure InBounds (s : Walk β) (i target : Nat) : Prop where
  known : target < s.place.size
  slot : i < s.holder.size ∧ i < s.items.size
  held : s.holderOf i < s.place.size
  source : s.placeOf target < s.holder.size ∧ s.placeOf target < s.items.size

namespace InBounds

variable {s : Walk β} {i t : Nat}

theorem holderOf_step (h : s.InBounds i t) (j : Nat) : (s.step i t).holderOf j =
    if j = i then s.holderOf (s.placeOf t) else if j = s.placeOf t then s.holderOf i
    else s.holderOf j :=
  getD_swapIfInBounds s.holder h.slot.1 h.source.1 0 j

theorem placeOf_step (h : s.InBounds i t) (x : Nat) : (s.step i t).placeOf x =
    if x = s.holderOf i then s.placeOf t else s.placeOf x :=
  getD_set s.place h.held (s.placeOf t) 0 x

theorem items_step (h : s.InBounds i t) (j : Nat) : (s.step i t).items[j]? =
    if j = i then s.items[s.placeOf t]? else if j = s.placeOf t then s.items[i]?
    else s.items[j]? :=
  getElem?_swapIfInBounds s.items h.slot.2 h.source.2 j

end InBounds

namespace Before

variable {targets : List Nat} {items : Array β} {i t : Nat} {s : Walk β}

theorem inBounds (h : Before targets items i s) (hn : targets.Nodup) (hi : i < items.size)
    (ht : targets[i]? = some t) (hlt : t < items.size) : s.InBounds i t := by
  have hnew : t ∉ targets.take i := not_mem_take hn ht
  obtain ⟨-, hw, -⟩ := h.placed t hlt hnew
  obtain ⟨-, hin, -, -⟩ := h.held i (Nat.le_refl _) hi
  exact ⟨h.place ▸ hlt, ⟨h.holder ▸ hi, h.items ▸ hi⟩, h.place ▸ hin, h.holder ▸ hw, h.items ▸ hw⟩

theorem mem_take_succ (ht : targets[i]? = some t) (x : Nat) :
    x ∈ targets.take (i + 1) ↔ x ∈ targets.take i ∨ x = t := by
  rw [List.take_add_one, ht]
  simp

/-- A slot that is still to come holds what it held, or what slot `i` gave up to it. -/
theorem held_step (h : Before targets items i s) (hn : targets.Nodup) (hi : i < items.size)
    (ht : targets[i]? = some t) (hlt : t < items.size) {j : Nat} (hj : i + 1 ≤ j)
    (hjn : j < items.size) :
    (s.step i t).holderOf j ∉ targets.take (i + 1) ∧ (s.step i t).holderOf j < items.size ∧
      (s.step i t).placeOf ((s.step i t).holderOf j) = j ∧
      (s.step i t).items[j]? = items[(s.step i t).holderOf j]? := by
  have hb := h.inBounds hn hi ht hlt
  obtain ⟨hiw, -, hwt⟩ := h.placed t hlt (not_mem_take hn ht)
  obtain ⟨hnoti, hin, hbacki, hitem⟩ := h.held i (Nat.le_refl _) hi
  obtain ⟨hnot, hlt', hback, hsame⟩ := h.held j (by omega) hjn
  have hji : ¬ j = i := by omega
  simp only [mem_take_succ ht, hb.holderOf_step, hb.placeOf_step, hb.items_step, if_neg hji]
  by_cases hjw : j = s.placeOf t
  · have hne : s.holderOf i ≠ t := by
      rintro rfl
      omega
    simp only [if_pos hjw, if_true]
    exact ⟨not_or.2 ⟨hnoti, hne⟩, hin, hjw.symm, hitem⟩
  · have hne : s.holderOf j ≠ t := by
      rintro rfl
      omega
    have hne' : s.holderOf j ≠ s.holderOf i := by
      intro he
      rw [he] at hback
      omega
    simp only [if_neg hjw, if_neg hne']
    exact ⟨not_or.2 ⟨hnot, hne⟩, hlt', hback, hsame⟩

/-- An element that is still to be placed is behind slot `i`, where `holder` has it. -/
theorem placed_step (h : Before targets items i s) (hn : targets.Nodup) (hi : i < items.size)
    (ht : targets[i]? = some t) (hlt : t < items.size) {x : Nat} (hx : x < items.size)
    (hxt : x ∉ targets.take (i + 1)) :
    i + 1 ≤ (s.step i t).placeOf x ∧ (s.step i t).placeOf x < items.size ∧
      (s.step i t).holderOf ((s.step i t).placeOf x) = x := by
  have hb := h.inBounds hn hi ht hlt
  obtain ⟨hiw, hwn, hwt⟩ := h.placed t hlt (not_mem_take hn ht)
  rw [mem_take_succ ht, not_or] at hxt
  obtain ⟨hle, hlt', hback⟩ := h.placed x hx hxt.1
  rw [hb.placeOf_step, hb.holderOf_step]
  by_cases he : x = s.holderOf i
  · have hne : s.placeOf t ≠ i := by
      intro hwi
      rw [hwi] at hwt
      exact hxt.2 (he.trans hwt)
    rw [if_pos he, if_neg hne, if_pos rfl]
    exact ⟨by omega, hwn, he.symm⟩
  · have hne : s.placeOf x ≠ i := by
      intro hxi
      rw [hxi] at hback
      exact he hback.symm
    have hne' : s.placeOf x ≠ s.placeOf t := by
      intro hxw
      rw [hxw, hwt] at hback
      exact hxt.2 hback.symm
    rw [if_neg he, if_neg hne, if_neg hne']
    exact ⟨by omega, hlt', hback⟩

theorem step (h : Before targets items i s) (hn : targets.Nodup) (hi : i < items.size)
    (ht : targets[i]? = some t) (hlt : t < items.size) :
    Before targets items (i + 1) (s.step i t) := by
  obtain ⟨hiw, hwn, hwt⟩ := h.placed t hlt (not_mem_take hn ht)
  refine ⟨?_, ?_, ?_, fun j hj => ?_, fun j hj hjn => h.held_step hn hi ht hlt hj hjn,
    fun x hx hxt => h.placed_step hn hi ht hlt hx hxt⟩
  · simp [Walk.step, h.place]
  · simp [Walk.step, h.holder]
  · simp [Walk.step, h.items]
  · rw [(h.inBounds hn hi ht hlt).items_step]
    rcases Nat.lt_or_eq_of_le (Nat.le_of_lt_succ hj) with hj | rfl
    · rw [if_neg hj.ne, if_neg (by omega)]
      exact h.done j hj
    · rw [if_pos rfl, ht, (h.held _ hiw hwn).2.2.2, hwt]
      rfl

end Before

theorem run_take_succ {targets : List Nat} {items : Array β} {i t : Nat}
    (ht : targets[i]? = some t) :
    run (targets.take (i + 1)) items = (run (targets.take i) items).step i t := by
  have hlen : (targets.take i).length = i := by
    obtain ⟨hi, -⟩ := List.getElem?_eq_some_iff.1 ht
    rw [List.length_take]
    omega
  rw [List.take_add_one, ht]
  simp [run, List.zipIdx_append, hlen]

/-- The first `i` steps leave a walk that stands before slot `i`. -/
theorem before_run {targets : List Nat} {items : Array β}
    (h : targets.Perm (List.range items.size)) {i : Nat} (hi : i ≤ targets.length) :
    Before targets items i (run (targets.take i) items) := by
  have hlen : targets.length = items.size := by simpa using h.length_eq
  induction i with
  | zero => exact before_zero targets items
  | succ i ih =>
    have ht : targets[i]? = some targets[i] := List.getElem?_eq_getElem hi
    have hlt : targets[i] < items.size := by
      simpa using h.mem_iff.1 (List.getElem_mem hi)
    rw [run_take_succ ht]
    exact (ih (by omega)).step (h.nodup_iff.2 List.nodup_range) (by omega) ht hlt

end Walk

/-- Slot `i` receives the element that was in slot `targets[i]`. -/
theorem map_some_reorder {targets : List Nat} {items : List β}
    (h : targets.Perm (List.range items.length)) :
    (reorder targets items).map some = targets.map fun t => items[t]? := by
  have hlt (t : Nat) (ht : t ∈ targets) : t < items.length := by simpa using h.mem_iff.1 ht
  have hlen : targets.length = items.length := by simpa using h.length_eq
  have hrun : Walk.Before targets items.toArray targets.length (Walk.run targets items.toArray) := by
    have hrun : Walk.Before targets items.toArray _ (Walk.run (targets.take targets.length) _) :=
      Walk.before_run h (Nat.le_refl _)
    rwa [List.take_length] at hrun
  refine List.ext_getElem? fun i => ?_
  rw [List.getElem?_map, List.getElem?_map, reorder, Array.getElem?_toList]
  rcases Nat.lt_or_ge i targets.length with hi | hi
  · rw [hrun.done i hi, List.getElem?_eq_getElem hi]
    have := hlt targets[i] (List.getElem_mem hi)
    simp [this]
  · have hsize : (Walk.run targets items.toArray).items.size ≤ i := by
      rw [hrun.items, List.size_toArray]
      omega
    rw [Array.getElem?_eq_none hsize, List.getElem?_eq_none hi]
    rfl

theorem perm_walk (targets : List (Nat × Nat)) (s : Walk β) :
    (targets.foldl (fun s e => s.step e.2 e.1) s).items.toList.Perm s.items.toList := by
  induction targets generalizing s with
  | nil => exact .refl _
  | cons e rest ih =>
    refine (ih _).trans ?_
    simp only [Walk.step, Array.swapIfInBounds]
    split
    · split
      · exact (Array.swap_perm _ _).toList
      · exact .refl _
    · exact .refl _

theorem perm_reorder (targets : List Nat) (items : List β) : (reorder targets items).Perm items := by
  unfold reorder Walk.run
  exact perm_walk _ _

/-- The walk never leaves its arrays, slot `i` receives what slot `targets[i]` held, and nothing is
lost or doubled. -/
theorem reorder_exact {targets : List Nat} {items : List β}
    (h : targets.Perm (List.range items.length)) :
    (∀ i t : Nat, targets[i]? = some t → (Walk.run (targets.take i) items.toArray).InBounds i t) ∧
    (∀ i t : Nat, targets[i]? = some t → t < items.length ∧ (reorder targets items)[i]? = items[t]?) ∧
    (reorder targets items).Perm items := by
  have hlt {i t : Nat} (ht : targets[i]? = some t) : t < items.length := by
    simpa using h.mem_iff.1 (List.mem_of_getElem? ht)
  refine ⟨fun i t ht => ?_, fun i t ht => ⟨hlt ht, ?_⟩, perm_reorder targets items⟩
  · obtain ⟨hi, -⟩ := List.getElem?_eq_some_iff.1 ht
    have hsize : targets.length = items.length := by simpa using h.length_eq
    have hrun : Walk.Before targets items.toArray i (Walk.run (targets.take i) _) :=
      Walk.before_run h hi.le
    exact hrun.inBounds (h.nodup_iff.2 List.nodup_range) (by simpa using hsize ▸ hi) ht (hlt ht)
  · have hslot := congrArg (fun l => l[i]?) (map_some_reorder h)
    simp only [List.getElem?_map, ht, Option.map_some] at hslot
    obtain ⟨x, hx, hslot⟩ := Option.map_eq_some_iff.1 hslot
    rw [hx, hslot]

/-- A swap and a cycle of three. -/
theorem reorder_exact_cycles : [1, 0, 4, 2, 3].Perm (List.range 5) ∧
    (Walk.run [1, 0, 4] ([5, 6, 7, 8, 9].map Cut.trivial).toArray).InBounds 3 2 ∧
    reorder [1, 0, 4, 2, 3] ([5, 6, 7, 8, 9].map Cut.trivial) = [6, 5, 9, 7, 8].map Cut.trivial ∧
    ([6, 5, 9, 7, 8].map Cut.trivial).Perm ([5, 6, 7, 8, 9].map Cut.trivial) := by
  have he : reorder [1, 0, 4, 2, 3] ([5, 6, 7, 8, 9].map Cut.trivial) =
      [6, 5, 9, 7, 8].map Cut.trivial := by decide
  have h : [1, 0, 4, 2, 3].Perm (List.range ([5, 6, 7, 8, 9].map Cut.trivial).length) := by decide
  obtain ⟨hbounds, -, hperm⟩ := reorder_exact h
  exact ⟨h, hbounds 3 2 rfl, he, he ▸ hperm⟩

end TechMap.Mapping

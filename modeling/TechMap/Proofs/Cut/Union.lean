import Mathlib
import TechMap.Cut.Basic

/-! Unions of cuts as sets of leaves. A union exists if the two cuts have at most six leaves in all:
the masks then have at most six bits, so the early test does not reject. -/

namespace TechMap.Cut

section Merge

variable {room : Nat} {a b : NodeId} {as bs ls : List NodeId}

/-- The third list is the merge of the other two, and has room. -/
inductive Merges : Nat → List NodeId → List NodeId → List NodeId → Prop
  | right {room : Nat} {bs : List NodeId} (hroom : bs.length ≤ room) : Merges room [] bs bs
  | left {room : Nat} {as : List NodeId} (hroom : as.length ≤ room) : Merges room as [] as
  | low {room : Nat} {a b : NodeId} {as bs ls : List NodeId} (hab : a < b)
      (h : Merges room as (b :: bs) ls) : Merges (room + 1) (a :: as) (b :: bs) (a :: ls)
  | high {room : Nat} {a b : NodeId} {as bs ls : List NodeId} (hba : b < a)
      (h : Merges room (a :: as) bs ls) : Merges (room + 1) (a :: as) (b :: bs) (b :: ls)
  | both {room : Nat} {a : NodeId} {as bs ls : List NodeId} (h : Merges room as bs ls) :
      Merges (room + 1) (a :: as) (a :: bs) (a :: ls)

theorem merges_of_merge (h : merge room as bs = some ls) : Merges room as bs ls := by
  induction room, as, bs using merge.induct generalizing ls with
  | case1 room bs hroom =>
    rw [merge, if_pos hroom] at h
    cases h
    exact .right hroom
  | case2 room bs hroom =>
    rw [merge, if_neg hroom] at h
    cases h
  | case3 room a as hroom =>
    rw [merge, if_pos hroom] at h
    cases h
    exact .left hroom
  | case4 room a as hroom =>
    rw [merge, if_neg hroom] at h
    cases h
  | case5 a as b bs => simp [merge] at h
  | case6 a as b bs room hab ih =>
    rw [merge, if_pos hab] at h
    obtain ⟨ls, hl, rfl⟩ := Option.map_eq_some_iff.1 h
    exact .low hab (ih hl)
  | case7 a as b bs room hab hba ih =>
    rw [merge, if_neg hab, if_pos hba] at h
    obtain ⟨ls, hl, rfl⟩ := Option.map_eq_some_iff.1 h
    exact .high hba (ih hl)
  | case8 a as b bs room hab hba ih =>
    obtain rfl : a = b := le_antisymm (not_lt.1 hba) (not_lt.1 hab)
    rw [merge, if_neg hab, if_neg hba] at h
    obtain ⟨ls, hl, rfl⟩ := Option.map_eq_some_iff.1 h
    exact .both (ih hl)

namespace Merges

theorem mem_iff (h : Merges room as bs ls) (x : NodeId) : x ∈ ls ↔ x ∈ as ∨ x ∈ bs := by
  induction h with
  | right _ => simp
  | left _ => simp
  | low _ _ ih => rw [List.mem_cons, ih, List.mem_cons, List.mem_cons, or_assoc]
  | high _ _ ih =>
    rw [List.mem_cons, ih, List.mem_cons, List.mem_cons]
    tauto
  | both _ ih =>
    rw [List.mem_cons, ih, List.mem_cons, List.mem_cons]
    tauto

/-- A merge is as long as both of its parts, and no longer than the two together. -/
theorem length (h : Merges room as bs ls) : as.length ≤ ls.length ∧ bs.length ≤ ls.length ∧
    ls.length ≤ as.length + bs.length ∧ ls.length ≤ room := by
  induction h with
  | right hroom => simpa using hroom
  | left hroom => simpa using hroom
  | low _ _ ih =>
    simp only [List.length_cons] at ih ⊢
    omega
  | high _ _ ih =>
    simp only [List.length_cons] at ih ⊢
    omega
  | both _ ih =>
    simp only [List.length_cons] at ih ⊢
    omega

/-- The merge of ascending lists is ascending. -/
theorem sorted (h : Merges room as bs ls) (ha : as.Pairwise (· < ·)) (hb : bs.Pairwise (· < ·)) :
    ls.Pairwise (· < ·) := by
  induction h with
  | right _ => exact hb
  | left _ => exact ha
  | low hab h ih =>
    obtain ⟨ha1, ha⟩ := List.pairwise_cons.1 ha
    refine List.pairwise_cons.2 ⟨fun x hx => ?_, ih ha hb⟩
    rcases (h.mem_iff x).1 hx with hx | hx
    · exact ha1 x hx
    · rcases List.mem_cons.1 hx with rfl | hx
      · exact hab
      · exact lt_trans hab ((List.pairwise_cons.1 hb).1 x hx)
  | high hba h ih =>
    obtain ⟨hb1, hb⟩ := List.pairwise_cons.1 hb
    refine List.pairwise_cons.2 ⟨fun x hx => ?_, ih ha hb⟩
    rcases (h.mem_iff x).1 hx with hx | hx
    · rcases List.mem_cons.1 hx with rfl | hx
      · exact hba
      · exact lt_trans hba ((List.pairwise_cons.1 ha).1 x hx)
    · exact hb1 x hx
  | both h ih =>
    obtain ⟨ha1, ha⟩ := List.pairwise_cons.1 ha
    obtain ⟨hb1, hb⟩ := List.pairwise_cons.1 hb
    refine List.pairwise_cons.2 ⟨fun x hx => ?_, ih ha hb⟩
    rcases (h.mem_iff x).1 hx with hx | hx
    · exact ha1 x hx
    · exact hb1 x hx

end Merges

theorem merge_isSome (h : as.length + bs.length ≤ room) :
    ∃ ls, merge room as bs = some ls := by
  induction room, as, bs using merge.induct with
  | case1 room bs hb => exact ⟨bs, by rw [merge, if_pos hb]⟩
  | case2 room bs hb => simp at h; omega
  | case3 room a as hb => exact ⟨a :: as, by rw [merge, if_pos hb]⟩
  | case4 room a as hb => simp at h hb; omega
  | case5 a as b bs => simp at h
  | case6 a as b bs room hab ih =>
    obtain ⟨ls, hl⟩ := ih (by simp only [List.length_cons] at h ⊢; omega)
    exact ⟨a :: ls, by rw [merge, if_pos hab, hl]; rfl⟩
  | case7 a as b bs room hab hba ih =>
    obtain ⟨ls, hl⟩ := ih (by simp only [List.length_cons] at h ⊢; omega)
    exact ⟨b :: ls, by rw [merge, if_neg hab, if_pos hba, hl]; rfl⟩
  | case8 a as b bs room hab hba ih =>
    obtain ⟨ls, hl⟩ := ih (by simp only [List.length_cons] at h ⊢; omega)
    exact ⟨a :: ls, by rw [merge, if_neg hab, if_neg hba, hl]; rfl⟩

end Merge

theorem or_and_one (x y : UInt32) : (x ||| y) &&& 1 = (x &&& 1) ||| (y &&& 1) := by
  rw [← UInt32.toBitVec_inj]
  ext i
  simp [Bool.and_or_distrib_right]

/-- A bit of a union is clear where both are. -/
theorem shiftRight_or_and_one (a b k : UInt32) : ((a ||| b) >>> k) &&& 1 = 0 ↔
    (a >>> k) &&& 1 = 0 ∧ (b >>> k) &&& 1 = 0 := by
  rw [UInt32.shiftRight_or, or_and_one, UInt32.or_eq_zero_iff]

theorem bitCount_go_or (a b : UInt32) (k : Nat) :
    bitCount.go (a ||| b) k ≤ bitCount.go a k + bitCount.go b k := by
  induction k with
  | zero => simp [bitCount.go]
  | succ k ih =>
    have hbit (w : UInt32) : bitCount.go w (k + 1) =
        bitCount.go w k + if (w >>> k.toUInt32) &&& 1 = 0 then 0 else 1 := by
      rw [bitCount.go]
      split <;> rfl
    rw [hbit, hbit, hbit]
    simp only [shiftRight_or_and_one]
    split_ifs <;> first | omega | tauto

theorem bitCount_or (a b : UInt32) : bitCount (a ||| b) ≤ bitCount a + bitCount b :=
  bitCount_go_or a b 32

theorem bitCount_maskBit : ∀ k < 32, bitCount ((1 : UInt32) <<< k.toUInt32) = 1 := by
  decide +kernel

theorem bitCount_foldl_maskBit (leaves : List NodeId) (mask : UInt32) :
    bitCount (leaves.foldl (fun mask id => mask ||| maskBit id) mask) ≤
      bitCount mask + leaves.length := by
  induction leaves generalizing mask with
  | nil => simp
  | cons id leaves ih =>
    have hbit : bitCount (maskBit id) = 1 := bitCount_maskBit (id % 32) (Nat.mod_lt _ (by omega))
    have := bitCount_or mask (maskBit id)
    have := ih (mask ||| maskBit id)
    simp only [List.foldl_cons, List.length_cons]
    omega

theorem bitCount_maskOf (leaves : List NodeId) : bitCount (maskOf leaves) ≤ leaves.length := by
  have h0 : bitCount 0 = 0 := by decide
  simpa [maskOf, h0] using bitCount_foldl_maskBit leaves 0

/-- The leaves are ascending and at most six. -/
structure Proper (c : Cut) : Prop where
  sorted : c.leaves.Pairwise (· < ·)
  size : c.leaves.length ≤ 6

theorem proper_empty : Proper empty := ⟨.nil, by simp [empty]⟩

theorem proper_trivial (id : NodeId) : Proper (trivial id) :=
  ⟨by simp [trivial, ofSorted], by simp [trivial, ofSorted]⟩

variable {a b c : Cut}

theorem combine_eq_some (h : a.combine b = some c) :
    ∃ ls, merge maxSize a.leaves b.leaves = some ls ∧ c = ofSorted ls := by
  unfold combine at h
  split at h
  · cases h
  · obtain ⟨ls, hl, rfl⟩ := Option.map_eq_some_iff.1 h
    exact ⟨ls, hl, rfl⟩

theorem mem_combine (h : a.combine b = some c) (x : NodeId) :
    x ∈ c.leaves ↔ x ∈ a.leaves ∨ x ∈ b.leaves := by
  obtain ⟨ls, hl, rfl⟩ := combine_eq_some h
  exact (merges_of_merge hl).mem_iff x

theorem size_combine_le (h : a.combine b = some c) : c.size ≤ a.size + b.size := by
  obtain ⟨ls, hl, rfl⟩ := combine_eq_some h
  obtain ⟨-, -, hle, -⟩ := (merges_of_merge hl).length
  exact hle

theorem proper_combine (h : a.combine b = some c) (ha : a.Proper) (hb : b.Proper) : c.Proper := by
  obtain ⟨ls, hl, rfl⟩ := combine_eq_some h
  have hmerges := merges_of_merge hl
  obtain ⟨-, -, -, hroom⟩ := hmerges.length
  exact ⟨hmerges.sorted ha.sorted hb.sorted, hroom⟩

theorem not_isMux_combine (h : a.combine b = some c) : c.isMux = false := by
  obtain ⟨ls, -, rfl⟩ := combine_eq_some h
  rfl

theorem mask_combine (h : a.combine b = some c) : c.mask = maskOf c.leaves := by
  obtain ⟨ls, -, rfl⟩ := combine_eq_some h
  rfl

theorem combine_isSome (ha : a.mask = maskOf a.leaves) (hb : b.mask = maskOf b.leaves)
    (h : a.size + b.size ≤ 6) : ∃ c, a.combine b = some c := by
  obtain ⟨ls, hl⟩ : ∃ ls, merge maxSize a.leaves b.leaves = some ls := merge_isSome h
  refine ⟨ofSorted ls, ?_⟩
  have h1 := bitCount_or a.mask b.mask
  have h2 := bitCount_maskOf a.leaves
  have h3 := bitCount_maskOf b.leaves
  rw [← ha] at h2
  rw [← hb] at h3
  have hle : bitCount (a.mask ||| b.mask) ≤ maxSize := by
    simp only [size, maxSize] at h ⊢
    omega
  rw [combine, if_neg (by omega), hl]
  rfl

/-- The leaves go into the cut one after the other. -/
theorem ofLeaves_induction {motive : List NodeId → Cut → Prop} (h0 : motive [] empty)
    (hstep : ∀ ids id c u, motive ids c → c.combine (trivial id) = some u → motive (ids ++ [id]) u)
    {leaves : List NodeId} (h : ofLeaves leaves = some c) : motive leaves c := by
  induction leaves using List.reverseRecOn generalizing c with
  | nil =>
    obtain rfl : empty = c := by simpa [ofLeaves] using h
    exact h0
  | append_singleton ids id ih =>
    rw [ofLeaves, List.foldlM_append] at h
    obtain ⟨c', hc', h⟩ := Option.bind_eq_some_iff.1 h
    refine hstep ids id c' c (ih hc') ?_
    simpa using h

theorem ofLeaves_spec {leaves : List NodeId} (h : ofLeaves leaves = some c) :
    c.Proper ∧ c.isMux = false ∧ ∀ x, x ∈ c.leaves ↔ x ∈ leaves := by
  refine ofLeaves_induction (motive := fun ids c => c.Proper ∧ c.isMux = false ∧
    ∀ x, x ∈ c.leaves ↔ x ∈ ids) ⟨proper_empty, rfl, by simp [empty]⟩
    (fun ids id c u ⟨hc, _, hmem⟩ hu => ?_) h
  refine ⟨proper_combine hu hc (proper_trivial id), not_isMux_combine hu, fun x => ?_⟩
  rw [mem_combine hu, hmem, List.mem_append]
  simp [trivial, ofSorted]

/-- A cut that subsumes another has only leaves of it. -/
theorem sublist_of_subsumes (h : a.subsumes b = true) : a.leaves.Sublist b.leaves := by
  unfold subsumes at h
  split at h
  · cases h
  split at h
  · cases h
  split at h
  · rw [eq_of_beq h]
  · exact List.isSublist_iff_sublist.1 h

theorem subset_of_subsumes (h : a.subsumes b = true) : ∀ x ∈ a.leaves, x ∈ b.leaves :=
  (sublist_of_subsumes h).subset

end TechMap.Cut

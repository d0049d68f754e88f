import Mathlib
import TechMap.Cut.Stored
import TechMap.Proofs.Cut.LeafSets

/-! Cuts in slots. What the operations build keeps its leaves ascending, its mask that of the leaves
and its unused slots at the constant. So a stored cut is its set of leaves and its depth, and every
operation is the one on sets. -/

namespace TechMap.StoredCut

open Cut (WellFormed Proper maskBit maskOf ofSorted merge maxSize)

variable {a b c out : StoredCut} {as bs ls : List NodeId} {id : NodeId}

/-- The slots that are not in use hold the constant. -/
structure Padded (c : StoredCut) : Prop where
  used : c.used ≤ 6
  unused : ∀ i (h : i < 6), c.used ≤ i → c.slots[i] = NodeId.constant

theorem padded_empty : empty.Padded :=
  ⟨Nat.zero_le _, fun _ h _ => Vector.getElem_replicate h⟩

section Push

theorem padded_push (h : c.Padded) (hlt : c.used < 6) : (c.push id).Padded := by
  refine ⟨hlt, fun i hi hle => ?_⟩
  have hle : c.used + 1 ≤ i := hle
  show (c.slots.setIfInBounds c.used id)[i] = _
  rw [Vector.getElem_setIfInBounds_ne hi (by omega)]
  exact h.unused i hi (by omega)

theorem length_leaves (h : c.Padded) : c.leaves.length = c.used := by
  rw [leaves, List.length_take, Vector.length_toList]
  exact Nat.min_eq_left h.used

theorem leaves_push (hlt : c.used < 6) : (c.push id).leaves = c.leaves ++ [id] := by
  have hlen : c.used < c.slots.toList.length := by rwa [Vector.length_toList]
  show ((c.slots.setIfInBounds c.used id).toList).take (c.used + 1) = _
  rw [Vector.toList_setIfInBounds, List.take_add_one, List.take_set_of_le (Nat.le_refl _),
    List.getElem?_set_self hlen]
  rfl

/-- Leaves that have room are taken over as they are. -/
theorem leaves_foldl_push (hroom : c.used + ls.length ≤ 6) :
    (ls.foldl push c).leaves = c.leaves ++ ls := by
  induction ls generalizing c with
  | nil => exact (List.append_nil _).symm
  | cons id ls ih =>
    rw [List.length_cons] at hroom
    have hnext : (c.push id).used + ls.length ≤ 6 := by
      show c.used + 1 + ls.length ≤ 6
      omega
    rw [List.foldl_cons, ih hnext, leaves_push (by omega), List.append_assoc]
    rfl

theorem padded_foldl_push (h : c.Padded) (hroom : c.used + ls.length ≤ 6) :
    (ls.foldl push c).Padded := by
  induction ls generalizing c with
  | nil => exact h
  | cons id ls ih =>
    rw [List.length_cons] at hroom
    refine ih (padded_push h (by omega)) ?_
    show c.used + 1 + ls.length ≤ 6
    omega

theorem mask_foldl_push (ls : List NodeId) (c : StoredCut) :
    (ls.foldl push c).mask = ls.foldl (fun mask id => mask ||| maskBit id) c.mask := by
  induction ls generalizing c with
  | nil => rfl
  | cons id ls ih => exact ih (c.push id)

theorem muxDepth_foldl_push (ls : List NodeId) (c : StoredCut) :
    (ls.foldl push c).muxDepth = c.muxDepth := by
  induction ls generalizing c with
  | nil => rfl
  | cons id ls ih => exact ih (c.push id)

/-- The cut of ascending leaves. -/
def pack (ls : List NodeId) : StoredCut := ls.foldl push empty

theorem padded_pack (h : ls.length ≤ 6) : (pack ls).Padded :=
  padded_foldl_push padded_empty (by simpa [empty] using h)

theorem toCut_pack (h : ls.length ≤ 6) : (pack ls).toCut = ofSorted ls := by
  have hleaves : (pack ls).leaves = ls := leaves_foldl_push (by simpa [empty] using h)
  have hmask : (pack ls).mask = maskOf ls := mask_foldl_push ls empty
  have hdepth : (pack ls).muxDepth = 0 := muxDepth_foldl_push ls empty
  rw [toCut, hleaves, hmask, hdepth]
  rfl

end Push

/-- A stored cut in its only form. -/
structure Canonical (c : StoredCut) : Prop extends Padded c where
  wellFormed : c.toCut.WellFormed

theorem Canonical.sorted (h : c.Canonical) : c.leaves.Pairwise (· < ·) := h.wellFormed.sorted

theorem Canonical.mask (h : c.Canonical) : c.mask = maskOf c.leaves := h.wellFormed.mask

theorem canonical_pack (h : (ofSorted ls).WellFormed) : (pack ls).Canonical := by
  have hlen : ls.length ≤ 6 := h.size
  refine ⟨padded_pack hlen, ?_⟩
  rwa [toCut_pack hlen]

/-- A leaf is in the slot of its position. -/
theorem getElem_slots (h : c.Padded) {i : Nat} (hi : i < 6) :
    c.slots[i] = c.leaves.getD i NodeId.constant := by
  rw [leaves, List.getD_eq_getElem?_getD]
  by_cases hu : i < c.used
  · rw [List.getElem?_take_of_lt hu]
    simp [hi]
  · rw [List.getElem?_eq_none (by simp; omega)]
    exact h.unused i hi (Nat.le_of_not_lt hu)

theorem Padded.eq_of_toCut (ha : a.Padded) (hb : b.Padded) (h : a.toCut = b.toCut) : a = b := by
  have hleaves : a.leaves = b.leaves := congrArg Cut.leaves h
  have hslots : a.slots = b.slots := by
    refine Vector.ext fun i hi => ?_
    rw [getElem_slots ha hi, getElem_slots hb hi, hleaves]
  have hused : a.used = b.used := by rw [← length_leaves ha, ← length_leaves hb, hleaves]
  have hmask : a.mask = b.mask := congrArg Cut.mask h
  have hdepth : a.muxDepth = b.muxDepth := congrArg Cut.muxDepth h
  cases a
  cases b
  simp_all

section Combine

/-- Moving leaves over slot by slot is merging them into the room that is left. -/
theorem zip_eq (h : out.used ≤ 6) :
    zip as bs out = (merge (6 - out.used) as bs).map (·.foldl push out) := by
  have hrest (ls : List NodeId) (out : StoredCut) (h : out.used ≤ 6) : pushRest ls out =
      (if ls.length ≤ 6 - out.used then some ls else none).map (·.foldl push out) := by
    unfold pushRest maxSize
    by_cases hroom : ls.length ≤ 6 - out.used
    · rw [if_pos hroom, if_neg (by omega)]
      rfl
    · rw [if_neg hroom, if_pos (by omega)]
      rfl
  have hpush (out : StoredCut) (id : NodeId) (hne : ¬ out.used = maxSize) (h : out.used ≤ 6) :
      (out.push id).used ≤ 6 ∧ 6 - out.used = 6 - (out.push id).used + 1 := by
    show out.used + 1 ≤ 6 ∧ 6 - out.used = 6 - (out.used + 1) + 1
    unfold maxSize at hne
    omega
  induction as, bs, out using zip.induct with
  | case1 bs out => rw [zip, merge, hrest bs out h]
  | case2 a as out => rw [zip, merge, hrest (a :: as) out h]
  | case3 a as b bs out hfull =>
    rw [zip, if_pos hfull, show 6 - out.used = 0 by unfold maxSize at hfull; omega, merge]
    rfl
  | case4 a as b bs out hroom hab ih =>
    obtain ⟨hle, hnext⟩ := hpush out a hroom h
    rw [zip, if_neg hroom, if_pos hab, ih hle, hnext, merge, if_pos hab, Option.map_map]
    rfl
  | case5 a as b bs out hroom hab hba ih =>
    obtain ⟨hle, hnext⟩ := hpush out b hroom h
    rw [zip, if_neg hroom, if_neg hab, if_pos hba, ih hle, hnext, merge, if_neg hab, if_pos hba,
      Option.map_map]
    rfl
  | case6 a as b bs out hroom hab hba ih =>
    obtain ⟨hle, hnext⟩ := hpush out a hroom h
    rw [zip, if_neg hroom, if_neg hab, if_neg hba, ih hle, hnext, merge, if_neg hab, if_neg hba,
      Option.map_map]
    rfl

/-- The union is that of the leaves, packed. -/
theorem combine_eq_map (a b : StoredCut) :
    a.combine b = (a.toCut.combine b.toCut).map fun c => pack c.leaves := by
  have hmask : a.toCut.mask ||| b.toCut.mask = a.mask ||| b.mask := rfl
  rw [combine, Cut.combine, hmask]
  by_cases hbits : maxSize < Cut.bitCount (a.mask ||| b.mask)
  · rw [if_pos hbits, if_pos hbits]
    rfl
  · rw [if_neg hbits, if_neg hbits, zip_eq (Nat.zero_le _), Option.map_map]
    rfl

theorem canonical_combine (ha : a.Canonical) (hb : b.Canonical) (h : a.combine b = some c) :
    c.Canonical ∧ a.toCut.combine b.toCut = some c.toCut := by
  rw [combine_eq_map] at h
  obtain ⟨u, hu, rfl⟩ := Option.map_eq_some_iff.1 h
  have hw : u.WellFormed := Cut.wellFormed_combine hu ha.wellFormed.toProper hb.wellFormed.toProper
  obtain ⟨ls, -, rfl⟩ := Cut.combine_eq_some hu
  refine ⟨canonical_pack hw, hu.trans ?_⟩
  exact congrArg some (toCut_pack hw.size).symm

theorem toCut_combine (ha : a.Canonical) (hb : b.Canonical) :
    (a.combine b).map toCut = a.toCut.combine b.toCut := by
  cases h : a.combine b with
  | some c => exact (canonical_combine ha hb h).2.symm
  | none =>
    rw [combine_eq_map, Option.map_eq_none_iff] at h
    exact h.symm

end Combine

theorem toCut_trivial (id : NodeId) : (trivial id).toCut = Cut.trivial id := by
  show (pack [id]).toCut = ofSorted [id]
  exact toCut_pack (by simp)

theorem canonical_empty : empty.Canonical := ⟨padded_empty, Cut.wellFormed_empty⟩

theorem canonical_trivial (id : NodeId) : (trivial id).Canonical :=
  canonical_pack (Cut.wellFormed_trivial id)

theorem toCut_foldlM_combine (ids : List NodeId) {c : StoredCut} (hc : c.Canonical) :
    (ids.foldlM (fun (c : StoredCut) id => c.combine (trivial id)) c).map toCut =
        ids.foldlM (fun (c : Cut) id => c.combine (Cut.trivial id)) c.toCut ∧
      ∀ d, ids.foldlM (fun (c : StoredCut) id => c.combine (trivial id)) c = some d → d.Canonical := by
  induction ids generalizing c with
  | nil =>
    refine ⟨rfl, fun d hd => ?_⟩
    obtain rfl : c = d := by simpa using hd
    exact hc
  | cons id ids ih =>
    have hstep := toCut_combine hc (canonical_trivial id)
    rw [toCut_trivial] at hstep
    rw [List.foldlM_cons, List.foldlM_cons, ← hstep]
    cases hu : c.combine (trivial id) with
    | none => exact ⟨rfl, by simp⟩
    | some u => exact ih (canonical_combine hc (canonical_trivial id) hu).1

theorem toCut_ofLeaves (ids : List NodeId) : (ofLeaves ids).map toCut = Cut.ofLeaves ids ∧
    ∀ c, ofLeaves ids = some c → c.Canonical := toCut_foldlM_combine ids canonical_empty

theorem subsumes_eq (ha : a.Padded) (hb : b.Padded) : a.subsumes b = a.toCut.subsumes b.toCut := by
  have hua : a.toCut.size = a.used := length_leaves ha
  have hub : b.toCut.size = b.used := length_leaves hb
  unfold subsumes Cut.subsumes
  rw [hua, hub]
  show _ = if a.mask &&& ~~~ b.mask != 0 then false else _
  split_ifs <;> rfl

section Contains

/-- Halving finds the leaves of an ascending list between two positions. -/
theorem search_iff {lo hi : Nat} (hls : ls.Pairwise (· < ·)) (hhi : hi ≤ ls.length) :
    search ls id lo hi = true ↔ ∃ i, lo ≤ i ∧ i < hi ∧ ls[i]? = some id := by
  have hget {i : Nat} (hi : i < ls.length) : ls[i]? = some (ls.getD i .constant) := by
    rw [List.getElem?_eq_getElem hi, List.getD_eq_getElem _ _ hi]
  have hmono {i j : Nat} (hij : i < j) (hj : j < ls.length) :
      ls.getD i .constant < ls.getD j .constant := by
    rw [List.getD_eq_getElem _ _ (hij.trans hj), List.getD_eq_getElem _ _ hj]
    exact List.pairwise_iff_getElem.1 hls i j (hij.trans hj) hj hij
  induction lo, hi using search.induct ls id with
  | case1 lo hi hlt mid leaf he =>
    have hmid : mid < ls.length := by omega
    rw [search, if_pos hlt]
    dsimp only
    rw [if_pos he]
    exact iff_of_true rfl ⟨mid, by omega, by omega, he ▸ hget hmid⟩
  | case2 lo hi hlt mid leaf hne hless ih =>
    have hmid : mid < ls.length := by omega
    rw [search, if_pos hlt]
    dsimp only
    rw [if_neg hne, if_pos hless]
    refine (ih hhi).trans (exists_congr fun i => ⟨fun ⟨hlo, hi⟩ => ⟨by omega, hi⟩,
      fun ⟨hlo, hi, he⟩ => ⟨?_, hi, he⟩⟩)
    -- up to the middle the leaves are smaller
    by_contra hle
    rw [hget (by omega), Option.some.injEq] at he
    rcases Nat.lt_or_eq_of_le (show i ≤ mid by omega) with h | rfl
    · exact lt_asymm (he ▸ hmono h hmid) hless
    · exact hne he
  | case3 lo hi hlt mid leaf hne hless ih =>
    have hmid : mid < ls.length := by omega
    rw [search, if_pos hlt]
    dsimp only
    rw [if_neg hne, if_neg hless]
    refine (ih (by omega)).trans (exists_congr fun i => ⟨fun ⟨hlo, hi, he⟩ => ⟨hlo, by omega, he⟩,
      fun ⟨hlo, hi, he⟩ => ⟨hlo, ?_, he⟩⟩)
    -- from the middle on they are larger
    by_contra hge
    rw [hget (by omega), Option.some.injEq] at he
    rcases Nat.lt_or_eq_of_le (show mid ≤ i by omega) with h | rfl
    · exact hless (he ▸ hmono h (by omega))
    · exact hne he
  | case4 lo hi hlt =>
    rw [search, if_neg hlt]
    refine iff_of_false Bool.false_ne_true ?_
    rintro ⟨i, hlo, hi, -⟩
    omega

theorem maskBit_ne_zero (id : NodeId) : maskBit id ≠ 0 := by
  have hall : ∀ k < 32, (1 : UInt32) <<< k.toUInt32 ≠ 0 := by decide +kernel
  exact hall (id % 32) (Nat.mod_lt _ (by omega))

/-- The mask does not reject a leaf, and what it lets through is looked up. -/
theorem contains_iff (hc : c.Canonical) : c.contains id = true ↔ id ∈ c.leaves := by
  have hused : c.used = c.leaves.length := (length_leaves hc.toPadded).symm
  have hsearch : search c.leaves id 0 c.used = true ↔ id ∈ c.leaves := by
    rw [search_iff hc.sorted hused.le, List.mem_iff_getElem?]
    refine exists_congr fun i => ⟨fun h => h.2.2, fun he => ⟨Nat.zero_le i, ?_, he⟩⟩
    rw [hused]
    exact (List.getElem?_eq_some_iff.1 he).1
  rw [contains, Bool.and_eq_true, hsearch, and_iff_right_iff_imp]
  intro hin
  have hmask : c.mask = maskBit id ||| c.mask := by rw [hc.mask, Cut.maskBit_or_maskOf hin]
  rw [bne_iff_ne, hmask, UInt32.and_comm]
  have habsorb : maskBit id &&& (maskBit id ||| c.mask) = maskBit id := by
    rw [← UInt32.toBitVec_inj]
    ext i
    simp +contextual
  rw [habsorb]
  exact maskBit_ne_zero id

end Contains

def leafSet (c : StoredCut) : Finset NodeId := c.leaves.toFinset

theorem Canonical.eq_iff (ha : a.Canonical) (hb : b.Canonical) :
    a = b ↔ a.leafSet = b.leafSet ∧ a.muxDepth = b.muxDepth := by
  constructor
  · rintro rfl
    exact ⟨rfl, rfl⟩
  · rintro ⟨hset, hdepth⟩
    have hleaves : a.leaves = b.leaves := by
      have hperm := List.perm_of_nodup_nodup_toFinset_eq ha.wellFormed.nodup hb.wellFormed.nodup hset
      exact hperm.eq_of_pairwise' (ha.sorted.imp le_of_lt) (hb.sorted.imp le_of_lt)
    have hmask : a.mask = b.mask := by rw [ha.mask, hb.mask, hleaves]
    refine ha.toPadded.eq_of_toCut hb.toPadded ?_
    rw [toCut, toCut, hleaves, hmask, hdepth]

/-- Cuts that the operations build. The depth may be set at any time. -/
inductive Built : StoredCut → Prop
  | empty : Built empty
  | trivial (id : NodeId) : Built (trivial id)
  | ofLeaves {ids : List NodeId} {c : StoredCut} (h : ofLeaves ids = some c) : Built c
  | combine {a b c : StoredCut} (ha : Built a) (hb : Built b) (h : a.combine b = some c) : Built c
  | setDepth {c : StoredCut} (h : Built c) (depth : Nat) : Built { c with muxDepth := depth }

theorem Built.canonical (h : c.Built) : c.Canonical := by
  induction h with
  | empty => exact canonical_empty
  | trivial id => exact canonical_trivial id
  | ofLeaves h => exact (toCut_ofLeaves _).2 _ h
  | combine _ _ h iha ihb => exact (canonical_combine iha ihb h).1
  | setDepth _ depth ih =>
    exact ⟨⟨ih.used, ih.unused⟩, ⟨ih.sorted, ih.wellFormed.size⟩, ih.mask⟩

section Exact

variable {r : Option StoredCut} {s : Finset NodeId}

/-- What stands for a set is there exactly if the set is small enough, and is a LUT cut. -/
theorem exact_of_map (h : r.map toCut = Cut.ofSet? s) : (r.isSome = true ↔ s.card ≤ 6) ∧
    ∀ c, r = some c → c.leafSet = s ∧ c.muxDepth = 0 := by
  cases r with
  | none =>
    have hlarge : ¬ s.card ≤ maxSize := fun hcard => by
      rw [Cut.ofSet?, if_pos hcard] at h
      cases h
    exact ⟨iff_of_false Bool.false_ne_true hlarge, by simp⟩
  | some c =>
    rw [Option.map_some, Cut.ofSet?, eq_comm, Option.ite_none_right_eq_some, Option.some.injEq] at h
    obtain ⟨hcard, hc⟩ := h
    refine ⟨iff_of_true rfl hcard, fun d hd => ?_⟩
    obtain rfl : c = d := Option.some.inj hd
    have hset : c.leafSet = (Cut.ofSet s).leafSet := by
      rw [hc]
      rfl
    have hdepth : c.muxDepth = (Cut.ofSet s).muxDepth := by
      rw [hc]
      rfl
    exact ⟨hset.trans (Cut.leafSet_ofSet s), hdepth⟩

theorem map_toCut_combine (ha : a.Canonical) (hb : b.Canonical) :
    (a.combine b).map toCut = Cut.ofSet? (a.leafSet ∪ b.leafSet) :=
  (toCut_combine ha hb).trans (Cut.combine_eq ha.wellFormed hb.wellFormed)

end Exact

/-- Cuts to be combined, in some order and grouping. -/
inductive Grouping where
  | one (c : StoredCut)
  | pair (l r : Grouping)

namespace Grouping

variable {g g' : Grouping}

def cuts : Grouping → List StoredCut
  | one c => [c]
  | pair l r => l.cuts ++ r.cuts

def union? : Grouping → Option StoredCut
  | one c => some c
  | pair l r => l.union?.bind fun a => r.union?.bind fun b => a.combine b

/-- All leaves together. -/
def leafSet : Grouping → Finset NodeId
  | one c => c.leafSet
  | pair l r => l.leafSet ∪ r.leafSet

theorem mem_leafSet {x : NodeId} : x ∈ g.leafSet ↔ ∃ c ∈ g.cuts, x ∈ c.leafSet := by
  induction g with
  | one c => simp [leafSet, cuts]
  | pair l r ihl ihr => simp [leafSet, cuts, ihl, ihr, or_and_right, exists_or]

/-- The union is there unless there are too many leaves, and has all of them. -/
structure Sound (g : Grouping) : Prop where
  found : ∀ c, g.union? = some c → c.Canonical ∧ c.leafSet = g.leafSet
  missing : g.union? = none → 6 < g.leafSet.card

/-- A part that has too many leaves makes the whole have too many. -/
theorem sound_pair {l r : Grouping} (hl : l.Sound) (hr : r.Sound) :
    ((pair l r).union?.map toCut = Cut.ofSet? (pair l r).leafSet) ∧
      ∀ c, (pair l r).union? = some c → c.Canonical := by
  have hsub : l.leafSet.card ≤ (pair l r).leafSet.card ∧
      r.leafSet.card ≤ (pair l r).leafSet.card :=
    ⟨Finset.card_le_card Finset.subset_union_left, Finset.card_le_card Finset.subset_union_right⟩
  have hlarge (h : 6 < (pair l r).leafSet.card) : Cut.ofSet? (pair l r).leafSet = none :=
    if_neg (Nat.not_le.2 h)
  rw [union?]
  cases ha : l.union? with
  | none => exact ⟨(hlarge ((hl.missing ha).trans_le hsub.1)).symm, by simp⟩
  | some a =>
    cases hb : r.union? with
    | none => exact ⟨(hlarge ((hr.missing hb).trans_le hsub.2)).symm, by simp⟩
    | some b =>
      obtain ⟨hca, hsa⟩ := hl.found a ha
      obtain ⟨hcb, hsb⟩ := hr.found b hb
      have hmap := map_toCut_combine hca hcb
      rw [hsa, hsb] at hmap
      exact ⟨hmap, fun c hc => (canonical_combine hca hcb hc).1⟩

theorem sound (h : ∀ c ∈ g.cuts, c.Canonical) : g.Sound := by
  induction g with
  | one c =>
    refine ⟨fun d hd => ?_, fun hnone => by cases hnone⟩
    obtain rfl : c = d := Option.some.inj hd
    exact ⟨h c (by simp [cuts]), rfl⟩
  | pair l r ihl ihr =>
    have hl := ihl fun c hc => h c (List.mem_append_left _ hc)
    have hr := ihr fun c hc => h c (List.mem_append_right _ hc)
    obtain ⟨hmap, hcanonical⟩ := sound_pair hl hr
    obtain ⟨hiff, hset⟩ := exact_of_map hmap
    refine ⟨fun c hc => ⟨hcanonical c hc, (hset c hc).1⟩, fun hnone => ?_⟩
    rw [hnone] at hiff
    exact Nat.lt_of_not_le fun hle => Bool.false_ne_true (hiff.2 hle)

theorem cuts_ne_nil (g : Grouping) : g.cuts ≠ [] := by
  induction g with
  | one c => exact List.cons_ne_nil _ _
  | pair l r ihl _ => exact List.append_ne_nil_of_left_ne_nil ihl _

theorem eq_one (h : g.cuts = [c]) : g = one c := by
  cases g with
  | one d => exact congrArg one (List.singleton_inj.1 h)
  | pair l r =>
    rcases List.append_eq_singleton_iff.1 h with ⟨hl, -⟩ | ⟨-, hr⟩
    · exact absurd hl l.cuts_ne_nil
    · exact absurd hr r.cuts_ne_nil

/-- Neither the order nor the grouping matters. -/
theorem union?_perm (h : ∀ c ∈ g.cuts, c.Canonical) (hperm : g.cuts.Perm g'.cuts) :
    g.union? = g'.union? := by
  have h' : ∀ c ∈ g'.cuts, c.Canonical := fun c hc => h c (hperm.mem_iff.2 hc)
  cases g with
  | one c => rw [eq_one (List.perm_singleton.1 hperm.symm)]
  | pair l r =>
    cases g' with
    | one c => rw [eq_one (List.perm_singleton.1 hperm)]
    | pair l' r' =>
      have hset : (pair l r).leafSet = (pair l' r').leafSet := by
        ext x
        simp only [mem_leafSet, hperm.mem_iff]
      have hl := sound fun c hc => h c (List.mem_append_left _ hc)
      have hr := sound fun c hc => h c (List.mem_append_right _ hc)
      have hl' := sound fun c hc => h' c (List.mem_append_left _ hc)
      have hr' := sound fun c hc => h' c (List.mem_append_right _ hc)
      obtain ⟨hmap, hcanonical⟩ := sound_pair hl hr
      obtain ⟨hmap', hcanonical'⟩ := sound_pair hl' hr'
      rw [hset, ← hmap'] at hmap
      -- canonical cuts that stand for the same cut are the same
      cases hu : (pair l r).union? with
      | none =>
        rw [hu, Option.map_none, eq_comm, Option.map_eq_none_iff] at hmap
        exact hmap.symm
      | some u =>
        rw [hu, Option.map_some, eq_comm, Option.map_eq_some_iff] at hmap
        obtain ⟨u', hu', he⟩ := hmap
        rw [hu', (hcanonical' u' hu').toPadded.eq_of_toCut (hcanonical u hu).toPadded he]

end Grouping

/-- Stored cuts are exactly the sets of at most six nodes, with a depth. The leaves are ascending and
the mask is theirs. Leaves make a cut, and two cuts have a union, exactly if they are few enough, and
the result is a LUT cut of just these leaves, so that neither the order nor the grouping of unions
matters. Comparing and looking up are inclusion and membership, and cuts are equal exactly if their
sets and depths are. -/
theorem stored_exact (a b : StoredCut) (ha : a.Built) (hb : b.Built) :
    (a.leaves.Pairwise (· < ·) ∧ a.mask = maskOf a.leaves) ∧
    (∀ ids, ((ofLeaves ids).isSome = true ↔ ids.toFinset.card ≤ 6) ∧
      ∀ c, ofLeaves ids = some c → c.leafSet = ids.toFinset ∧ c.muxDepth = 0) ∧
    (((a.combine b).isSome = true ↔ (a.leafSet ∪ b.leafSet).card ≤ 6) ∧
      ∀ c, a.combine b = some c → c.leafSet = a.leafSet ∪ b.leafSet ∧ c.muxDepth = 0) ∧
    (∀ g g' : Grouping, (∀ c ∈ g.cuts, c.Built) → g.cuts.Perm g'.cuts → g.union? = g'.union?) ∧
    (a.subsumes b = true ↔ a.leafSet ⊆ b.leafSet) ∧
    (∀ id, a.contains id = true ↔ id ∈ a.leafSet) ∧
    (a = b ↔ a.leafSet = b.leafSet ∧ a.muxDepth = b.muxDepth) := by
  have hca := ha.canonical
  have hcb := hb.canonical
  refine ⟨⟨hca.sorted, hca.mask⟩, fun ids => ?_, ?_, fun g g' hg hperm => ?_, ?_, fun id => ?_, ?_⟩
  · exact exact_of_map ((toCut_ofLeaves ids).1.trans (Cut.ofLeaves_eq ids))
  · exact exact_of_map (map_toCut_combine hca hcb)
  · exact Grouping.union?_perm (fun c hc => (hg c hc).canonical) hperm
  · rw [subsumes_eq hca.toPadded hcb.toPadded, Cut.subsumes_iff hca.wellFormed hcb.wellFormed]
    exact Cut.leafSet_subset.symm
  · rw [contains_iff hca, leafSet, List.mem_toFinset]
  · exact hca.eq_iff hcb

/-- Two cuts of three leaves whose masks have one and two bits. -/
theorem stored_exact_colliding : ∃ a b : StoredCut,
    ofLeaves [65, 1, 33, 1] = some a ∧ ofLeaves [97, 2, 33] = some b ∧
      a.mask = maskOf [1, 33, 65] ∧ (a.combine b).isSome = true ∧ a.subsumes b = false ∧
      a.contains 33 = true ∧ a.contains 97 = false ∧ a ≠ { a with muxDepth := 2 } ∧
      ∀ id, (Grouping.pair (.pair (.one a) (.one b)) (.one (trivial id))).union? =
        (Grouping.pair (.one b) (.pair (.one (trivial id)) (.one a))).union? := by
  let a : StoredCut := ⟨#v[1, 33, 65, 0, 0, 0], 3, 2, 0⟩
  let b : StoredCut := ⟨#v[2, 33, 97, 0, 0, 0], 3, 6, 0⟩
  have ha : ofLeaves [65, 1, 33, 1] = some a := by decide +kernel
  have hb : ofLeaves [97, 2, 33] = some b := by decide +kernel
  have hba : a.Built := .ofLeaves ha
  have hbb : b.Built := .ofLeaves hb
  obtain ⟨⟨-, hmask⟩, -, ⟨hcombine, -⟩, hgroup, hsub, hmem, -⟩ := stored_exact a b hba hbb
  obtain ⟨-, -, -, -, -, -, heq⟩ := stored_exact a { a with muxDepth := 2 } hba (hba.setDepth 2)
  refine ⟨a, b, ha, hb, hmask, hcombine.2 (by decide), ?_, (hmem 33).2 (by decide), ?_, ?_,
    fun id => hgroup _ _ ?_ ?_⟩
  · exact Bool.eq_false_iff.2 fun h => absurd (hsub.1 h) (by decide)
  · exact Bool.eq_false_iff.2 fun h => absurd ((hmem 97).1 h) (by decide)
  · exact fun h => absurd (heq.1 h).2 (by decide)
  · intro c hc
    simp only [Grouping.cuts, List.cons_append, List.nil_append, List.mem_cons, List.not_mem_nil,
      or_false] at hc
    rcases hc with rfl | rfl | rfl
    · exact hba
    · exact hbb
    · exact .trivial id
  · exact (List.Perm.swap _ _ _).trans (.cons _ (.swap _ _ _))

end TechMap.StoredCut

import Mathlib
import TechMap.Proofs.Cut.Candidates

/-! Cut lists as antichains. For well formed cuts the comparison is inclusion of the leaves. Placing
a cut keeps the LUT cuts of a list incomparable, and whatever it drops or keeps out has a subset in
the list. -/

namespace TechMap.Cut

variable {a b c cut : Cut} {cuts cuts' : List Cut} {as bs : List NodeId}

theorem foldl_maskBit (as : List NodeId) (m : UInt32) :
    as.foldl (fun mask id => mask ||| maskBit id) m = m ||| maskOf as := by
  induction as generalizing m with
  | nil => simp [maskOf]
  | cons x as ih =>
    have hx : maskOf (x :: as) = maskBit x ||| maskOf as := by
      rw [maskOf, List.foldl_cons, ih, UInt32.zero_or]
    rw [List.foldl_cons, ih, hx, UInt32.or_assoc]

theorem maskOf_cons (x : NodeId) (as : List NodeId) :
    maskOf (x :: as) = maskBit x ||| maskOf as := by
  rw [maskOf, List.foldl_cons, foldl_maskBit, UInt32.zero_or]

theorem maskBit_or_maskOf {x : NodeId} (h : x ∈ bs) : maskBit x ||| maskOf bs = maskOf bs := by
  induction bs with
  | nil => cases h
  | cons y bs ih =>
    rw [maskOf_cons]
    rcases List.mem_cons.1 h with rfl | h
    · rw [← UInt32.or_assoc, UInt32.or_self]
    · rw [← UInt32.or_assoc, UInt32.or_comm (maskBit x), UInt32.or_assoc, ih h]

/-- The mask of a subset adds nothing. -/
theorem maskOf_or_of_subset (h : as ⊆ bs) : maskOf as ||| maskOf bs = maskOf bs := by
  induction as with
  | nil => simp [maskOf]
  | cons x as ih =>
    rw [maskOf_cons, UInt32.or_assoc, ih (List.subset_of_cons_subset h),
      maskBit_or_maskOf (h (by simp))]

theorem and_not_or (x y : UInt32) : x &&& ~~~ (x ||| y) = 0 := by
  rw [← UInt32.toBitVec_inj]
  ext i
  simp +contextual

/-- The leaves are ascending and at most six, and the mask is theirs. -/
structure WellFormed (c : Cut) : Prop extends Proper c where
  mask : c.mask = maskOf c.leaves

instance (c : Cut) : Decidable c.WellFormed :=
  decidable_of_iff ((c.leaves.Pairwise (· < ·) ∧ c.size ≤ maxSize) ∧ c.mask = maskOf c.leaves)
    ⟨fun h => ⟨⟨h.1.1, h.1.2⟩, h.2⟩, fun h => ⟨⟨h.sorted, h.size⟩, h.mask⟩⟩

theorem wellFormed_empty : WellFormed empty := ⟨proper_empty, rfl⟩

theorem wellFormed_trivial (id : NodeId) : WellFormed (trivial id) := ⟨proper_trivial id, rfl⟩

theorem wellFormed_combine (h : a.combine b = some c) (ha : a.Proper) (hb : b.Proper) :
    c.WellFormed := ⟨proper_combine h ha hb, mask_combine h⟩

theorem wellFormed_ofLeaves {leaves : List NodeId} (h : ofLeaves leaves = some c) :
    c.WellFormed :=
  ofLeaves_induction (motive := fun _ c => c.WellFormed) wellFormed_empty
    (fun _ id _ _ hc hu => wellFormed_combine hu hc.toProper (proper_trivial id)) h

theorem WellFormed.nodup (h : c.WellFormed) : c.leaves.Nodup := h.sorted.imp fun h => ne_of_lt h

theorem subsumes_iff (ha : a.WellFormed) (hb : b.WellFormed) :
    a.subsumes b = true ↔ a.leaves ⊆ b.leaves := by
  refine ⟨subset_of_subsumes, fun h => ?_⟩
  have hmask : a.mask &&& ~~~ b.mask = 0 := by
    rw [ha.mask, hb.mask, ← maskOf_or_of_subset h, and_not_or]
  have hsub : a.leaves.Subperm b.leaves := List.subperm_of_subset ha.nodup h
  have hsorted {c : Cut} (h : c.WellFormed) : c.leaves.Pairwise (· ≤ ·) := h.sorted.imp le_of_lt
  have hlist : a.leaves.Sublist b.leaves :=
    List.sublist_of_subperm_of_pairwise hsub (hsorted ha) (hsorted hb)
  have hsize : a.size ≤ b.size := hsub.length_le
  rw [subsumes, hmask]
  split_ifs with h0 hlt heq
  · simp at h0
  · omega
  · exact beq_iff_eq.2 (hlist.eq_of_length heq)
  · exact List.isSublist_iff_sublist.2 hlist

/-- Neither LUT cut contains the other. Multiplexer cuts compare with nothing. -/
def Incomparable (a b : Cut) : Prop :=
  a.isMux = false → b.isMux = false → ¬ a.leaves ⊆ b.leaves ∧ ¬ b.leaves ⊆ a.leaves

theorem Incomparable.symm (h : Incomparable a b) : Incomparable b a := fun hb ha => (h ha hb).symm

def Antichain (cuts : List Cut) : Prop := cuts.Pairwise Incomparable

theorem Antichain.perm (h : Antichain cuts) (hp : cuts.Perm cuts') : Antichain cuts' :=
  (hp.pairwise_iff fun h => h.symm).1 h

theorem perm_sweep (cut : Cut) (cuts : List Cut) :
    (sweep cut cuts).Perm (cuts.filter fun c => c.isMux || !cut.subsumes c) := by
  induction cuts using sweep.induct cut with
  | case1 => simp [sweep]
  | case2 c hc =>
    have hdrop : (c.isMux || !cut.subsumes c) = false := by simpa using hc
    simp [sweep, hc, hdrop]
  | case3 c hc d rest ih =>
    have hdrop : (c.isMux || !cut.subsumes c) = false := by simpa using hc
    rw [List.filter_cons, if_neg (by simp [hdrop])]
    unfold sweep
    rw [if_pos hc]
    refine ih.trans (List.Perm.filter _ ?_)
    have := List.perm_append_singleton ((d :: rest).getLast (by simp)) (d :: rest).dropLast
    rw [List.dropLast_append_getLast] at this
    exact this.symm
  | case4 c rest hc ih =>
    have hkeep : (c.isMux || !cut.subsumes c) = true := by
      simpa [Classical.or_iff_not_imp_left] using hc
    unfold sweep
    rw [if_neg hc, List.filter_cons, if_pos hkeep]
    exact ih.cons c

/-- No LUT cut that is left contains the cut. -/
theorem not_subsumes_of_mem_sweep (h : c ∈ sweep cut cuts) (hm : c.isMux = false) :
    cut.subsumes c = false := by
  have := (List.mem_filter.1 ((perm_sweep cut cuts).mem_iff.1 h)).2
  simpa [hm] using this

theorem place_antichain (h : Antichain cuts) (hcut : cut.WellFormed)
    (hw : ∀ c ∈ cuts, c.WellFormed) : Antichain (place cut cuts) := by
  induction cuts with
  | nil => exact List.pairwise_singleton _ _
  | cons c rest ih =>
    obtain ⟨hc, hrest⟩ := List.pairwise_cons.1 h
    have hw' := fun d hd => hw d (List.mem_cons_of_mem _ hd)
    have hplaced := ih hrest hw'
    rw [place]
    split_ifs with hm h1 h2
    · refine List.pairwise_cons.2 ⟨fun d hd => ?_, hplaced⟩
      intro hc
      rw [hc] at hm
      cases hm
    · exact h
    · have hsub := (subsumes_iff hcut (hw c (by simp))).1 h2
      refine List.pairwise_cons.2 ⟨fun d hd _ hdm => ⟨fun hle => ?_, fun hle => ?_⟩, ?_⟩
      · have := not_subsumes_of_mem_sweep hd hdm
        rw [(subsumes_iff hcut (hw' d (mem_sweep hd))).2 hle] at this
        cases this
      · exact (hc d (mem_sweep hd) (by simpa using hm) hdm).2 (List.Subset.trans hle hsub)
      · exact Antichain.perm (hrest.sublist List.filter_sublist) (perm_sweep cut rest).symm
    · refine List.pairwise_cons.2 ⟨fun d hd => ?_, hplaced⟩
      rcases mem_place hd with rfl | hd
      · intro _ _
        exact ⟨fun hle => h1 ((subsumes_iff (hw c (by simp)) hcut).2 hle),
          fun hle => h2 ((subsumes_iff hcut (hw c (by simp))).2 hle)⟩
      · exact hc d hd

/-- Placing a LUT cut changes no multiplexer cut. -/
theorem countP_isMux_place (hcut : cut.isMux = false) (cuts : List Cut) :
    (place cut cuts).countP isMux = cuts.countP isMux := by
  induction cuts with
  | nil => simp [place, hcut]
  | cons c rest ih =>
    rw [place]
    split_ifs with hm h1 h2
    · rw [List.countP_cons, List.countP_cons, ih]
    · rfl
    · have hc : c.isMux = false := by simpa using hm
      rw [List.countP_cons, List.countP_cons, (perm_sweep cut rest).countP_eq, List.countP_filter,
        hcut, hc]
      congr 1
      exact List.countP_congr fun d _ => by cases d.isMux <;> simp
    · rw [List.countP_cons, List.countP_cons, ih]

/-- Some cut of the list has all its leaves among `leaves`. -/
def Dominates (cuts : List Cut) (leaves : List NodeId) : Prop := ∃ c ∈ cuts, c.leaves ⊆ leaves

theorem dominates_of_mem (h : c ∈ cuts) : Dominates cuts c.leaves := ⟨c, h, fun _ h => h⟩

theorem Dominates.of_cons {leaves : List NodeId} (h : Dominates cuts leaves) :
    Dominates (c :: cuts) leaves :=
  let ⟨d, hd, hle⟩ := h
  ⟨d, List.mem_cons_of_mem _ hd, hle⟩

theorem place_dominates (cut : Cut) (cuts : List Cut) : Dominates (place cut cuts) cut.leaves := by
  induction cuts with
  | nil => exact dominates_of_mem (by simp [place])
  | cons c rest ih =>
    rw [place]
    split_ifs with hm h1 h2
    · exact ih.of_cons
    · exact ⟨c, by simp, subset_of_subsumes h1⟩
    · exact dominates_of_mem (by simp)
    · exact ih.of_cons

/-- A cut that is dropped contains the cut that is placed. -/
theorem mem_place_or_subsumes (cut : Cut) (h : c ∈ cuts) : c ∈ place cut cuts ∨
    c.isMux = false ∧ cut.subsumes c = true ∧ cut ∈ place cut cuts := by
  induction cuts with
  | nil => cases h
  | cons d rest ih =>
    have hrest (hm : place cut (d :: rest) = d :: place cut rest) (h : c ∈ rest) :
        c ∈ place cut (d :: rest) ∨
          c.isMux = false ∧ cut.subsumes c = true ∧ cut ∈ place cut (d :: rest) := by
      rw [hm]
      exact (ih h).imp (List.mem_cons_of_mem _) fun ⟨hc, hs, hmem⟩ =>
        ⟨hc, hs, List.mem_cons_of_mem _ hmem⟩
    by_cases hm : d.isMux = true
    · have hp : place cut (d :: rest) = d :: place cut rest := by rw [place, if_pos hm]
      rcases List.mem_cons.1 h with rfl | h
      · exact .inl (by simp [hp])
      · exact hrest hp h
    by_cases h1 : d.subsumes cut = true
    · rw [place, if_neg hm, if_pos h1]
      exact .inl h
    by_cases h2 : cut.subsumes d = true
    · rw [place, if_neg hm, if_neg h1, if_pos h2]
      rcases List.mem_cons.1 h with rfl | h
      · exact .inr ⟨by simpa using hm, h2, by simp⟩
      · by_cases hs : (c.isMux || !cut.subsumes c) = true
        · have hkept := (perm_sweep cut rest).mem_iff.2 (List.mem_filter.2 ⟨h, hs⟩)
          exact .inl (List.mem_cons_of_mem _ hkept)
        · obtain ⟨hc, hs⟩ : c.isMux = false ∧ cut.subsumes c = true := by simpa using hs
          exact .inr ⟨hc, hs, by simp⟩
    · have hp : place cut (d :: rest) = d :: place cut rest := by
        rw [place, if_neg hm, if_neg h1, if_neg h2]
      rcases List.mem_cons.1 h with rfl | h
      · exact .inl (by simp [hp])
      · exact hrest hp h

theorem Dominates.place {leaves : List NodeId} (h : Dominates cuts leaves) :
    Dominates (place cut cuts) leaves := by
  obtain ⟨c, hc, hle⟩ := h
  rcases mem_place_or_subsumes cut hc with hc | ⟨-, hs, hmem⟩
  · exact ⟨c, hc, hle⟩
  · exact ⟨cut, hmem, List.Subset.trans (subset_of_subsumes hs) hle⟩

end TechMap.Cut

import Mathlib
import TechMap.Proofs.Cut.LeafSets

/-! Insertion in any order. Cuts that are placed one after the other leave the minimal ones of their
leaf sets, each once, beside the multiplexer cuts that were there before. So the order in which they
come changes the order of the list only. -/

namespace TechMap.Cut

variable {a b c m : Cut} {cuts us us' muxes luts out : List Cut} {s : Finset NodeId}

/-- Well formed LUT cuts. -/
def Luts (cuts : List Cut) : Prop := ∀ c ∈ cuts, c.WellFormed ∧ c.isMux = false

/-- The leaf sets of a list. -/
def Among (cuts : List Cut) (s : Finset NodeId) : Prop := ∃ c ∈ cuts, c.leafSet = s

theorem luts_placeAll (hus : Luts us) (hout : Luts out) : Luts (placeAll us out) := by
  intro c hc
  rcases mem_placeAll hc with hc | hc
  · exact hout c hc
  · exact hus c hc

theorem Luts.antichain (hus : Luts us) (hout : Luts out) (h : Antichain out) :
    Antichain (placeAll us out) :=
  placeAll_antichain h (fun c hc => (hout c hc).1) fun c hc => (hus c hc).1

/-- Different LUT cuts of an antichain have different sets. -/
theorem Luts.nodup (hl : Luts cuts) (h : Antichain cuts) : (cuts.map leafSet).Nodup := by
  refine List.pairwise_map.2 (h.imp_of_mem fun {a b} ha hb hab he => ?_)
  exact (hab (hl a ha).2 (hl b hb).2).1 (leafSet_subset.1 he.le)

/-- Every set that is placed contains that of a cut that is left. -/
theorem exists_leafSet_subset (us out : List Cut) (hs : Among (us ++ out) s) :
    ∃ d ∈ placeAll us out, d.leafSet ⊆ s := by
  obtain ⟨c, hc, rfl⟩ := hs
  have hdom : Dominates (placeAll us out) c.leaves := by
    rcases List.mem_append.1 hc with hc | hc
    · exact placeAll_dominates hc out
    · exact placeAll_keeps (I := fun cuts => Dominates cuts c.leaves) (fun u _ cuts hI => hI.place)
        (dominates_of_mem hc)
  obtain ⟨d, hd, hsub⟩ := hdom
  exact ⟨d, hd, leafSet_subset.2 hsub⟩

/-- What is left are the minimal sets. -/
theorem mem_placeAll_iff (hus : Luts us) (hout : Luts out) (h : Antichain out) :
    c ∈ placeAll us out ↔ ∃ s, Minimal (Among (us ++ out)) s ∧ c = ofSet s := by
  have hluts : Luts (placeAll us out) := luts_placeAll hus hout
  have hamong {d : Cut} (hd : d ∈ placeAll us out) : Among (us ++ out) d.leafSet :=
    ⟨d, List.mem_append.2 (mem_placeAll hd).symm, rfl⟩
  constructor
  · intro hc
    refine ⟨c.leafSet, ⟨hamong hc, fun t ht hle => ?_⟩, ?_⟩
    · obtain ⟨d, hd, hsub⟩ := exists_leafSet_subset us out ht
      by_cases he : d = c
      · exact he ▸ hsub
      · have : Std.Symm Incomparable := ⟨fun _ _ h => h.symm⟩
        have hinc := (hus.antichain hout h).forall hd hc he
        have hdc : d.leaves ⊆ c.leaves := leafSet_subset.1 (hsub.trans hle)
        exact absurd hdc (hinc (hluts d hd).2 (hluts c hc).2).1
    · exact ((hluts c hc).1.ofSet_leafSet (hluts c hc).2).symm
  · rintro ⟨s, hmin, rfl⟩
    obtain ⟨d, hd, hsub⟩ := exists_leafSet_subset us out hmin.prop
    obtain ⟨hw, hm⟩ := hluts d hd
    rwa [← hmin.eq_of_le (hamong hd) hsub, hw.ofSet_leafSet hm]

/-- A multiplexer cut at the front stays there. -/
theorem placeAll_cons_of_isMux (hm : m.isMux = true) (us out : List Cut) :
    placeAll us (m :: out) = m :: placeAll us out := by
  induction us generalizing out with
  | nil => rfl
  | cons u us ih =>
    have hplace : place u (m :: out) = m :: place u out := by rw [place, if_pos hm]
    rw [placeAll, List.foldl_cons, hplace]
    exact ih (place u out)

theorem placeAll_append_of_isMux (hm : ∀ m ∈ muxes, m.isMux = true) (us out : List Cut) :
    placeAll us (muxes ++ out) = muxes ++ placeAll us out := by
  induction muxes with
  | nil => rfl
  | cons m muxes ih =>
    obtain ⟨hm, hmuxes⟩ := List.forall_mem_cons.1 hm
    rw [List.cons_append, placeAll_cons_of_isMux hm, ih hmuxes, List.cons_append]

theorem filter_isMux_append (hm : ∀ m ∈ muxes, m.isMux = true) (hl : Luts luts) :
    (muxes ++ luts).filter isMux = muxes := by
  rw [List.filter_append, List.filter_eq_self.2 hm, List.filter_eq_nil_iff.2, List.append_nil]
  intro c hc
  rw [(hl c hc).2]
  exact Bool.false_ne_true

theorem filter_luts_append (hm : ∀ m ∈ muxes, m.isMux = true) (hl : Luts luts) :
    (muxes ++ luts).filter (fun c => !c.isMux) = luts := by
  rw [List.filter_append, List.filter_eq_nil_iff.2, List.nil_append, List.filter_eq_self.2]
  · intro c hc
    rw [(hl c hc).2]
    rfl
  · intro c hc
    rw [hm c hc]
    exact Bool.false_ne_true

/-- Inserts cuts one after the other, whatever is answered, and gives all answers. -/
def insertEach : List Cut → List Cut → List Bool × List Cut
  | [], cuts => ([], cuts)
  | u :: us, cuts =>
    let (answer, next) := insert cuts u
    let (answers, last) := insertEach us next
    (answer :: answers, last)

theorem insertEach_of_wide (h : ∀ u ∈ us, 2 ≤ u.size) (cuts : List Cut) :
    insertEach us cuts = (List.replicate us.length true, placeAll us cuts) := by
  induction us generalizing cuts with
  | nil => rfl
  | cons u us ih =>
    obtain ⟨hu, hus⟩ := List.forall_mem_cons.1 h
    have hinsert : insert cuts u = (true, place u cuts) := if_neg (by omega)
    rw [insertEach, hinsert]
    dsimp only
    rw [ih hus]
    rfl

/-- What is inserted into a list without LUT cuts. -/
theorem luts_insertEach (hmux : ∀ m ∈ muxes, m.isMux = true) (hl : Luts us)
    (hwide : ∀ u ∈ us, 2 ≤ u.size) :
    (insertEach us muxes).2.filter isMux = muxes ∧
      (insertEach us muxes).2.filter (fun c => !c.isMux) = placeAll us [] := by
  have hfound : (insertEach us muxes).2 = muxes ++ placeAll us [] := by
    rw [insertEach_of_wide hwide]
    simpa using placeAll_append_of_isMux hmux us []
  have hluts : Luts (placeAll us []) := luts_placeAll hl (by simp [Luts])
  rw [hfound]
  exact ⟨filter_isMux_append hmux hluts, filter_luts_append hmux hluts⟩

/-- LUT cuts of at least two leaves may be inserted in any order into a list that has none. Every
insertion answers that enumeration goes on, the multiplexer cuts stay, and the LUT cuts that are left
are the minimal leaf sets, each once. A cut of at most one leaf ends enumeration and is all that is
left of any list. -/
theorem insertEach_minimal (muxes us : List Cut) (hmux : ∀ m ∈ muxes, m.isMux = true)
    (hus : ∀ u ∈ us, u.WellFormed ∧ u.isMux = false ∧ 2 ≤ u.size) :
    let luts := fun us => (insertEach us muxes).2.filter fun c => !c.isMux
    (insertEach us muxes).1 = List.replicate us.length true ∧
    (insertEach us muxes).2.filter isMux = muxes ∧
    ((luts us).map leafSet).Nodup ∧
    (∀ c, c ∈ luts us ↔ ∃ s, Minimal (fun s => ∃ u ∈ us, u.leafSet = s) s ∧ c = ofSet s) ∧
    (∀ us', us'.Perm us → (luts us').Perm (luts us)) ∧
    ∀ cuts cut, cut.size ≤ 1 → insert cuts cut = (false, [cut]) := by
  intro luts
  have hnil : Luts [] := by simp [Luts]
  have hspec (us : List Cut) (hus : ∀ u ∈ us, u.WellFormed ∧ u.isMux = false ∧ 2 ≤ u.size) :
      ((luts us).map leafSet).Nodup ∧
        ∀ c, c ∈ luts us ↔ ∃ s, Minimal (fun s => ∃ u ∈ us, u.leafSet = s) s ∧ c = ofSet s := by
    have hl : Luts us := fun u hu => ⟨(hus u hu).1, (hus u hu).2.1⟩
    have hluts : luts us = placeAll us [] := (luts_insertEach hmux hl fun u hu => (hus u hu).2.2).2
    rw [hluts]
    refine ⟨(luts_placeAll hl hnil).nodup (hl.antichain hnil .nil), fun c => ?_⟩
    rw [mem_placeAll_iff hl hnil .nil, List.append_nil]
    rfl
  have hwide : ∀ u ∈ us, 2 ≤ u.size := fun u hu => (hus u hu).2.2
  have hl : Luts us := fun u hu => ⟨(hus u hu).1, (hus u hu).2.1⟩
  refine ⟨congrArg Prod.fst (insertEach_of_wide hwide muxes), (luts_insertEach hmux hl hwide).1,
    (hspec us hus).1, (hspec us hus).2, fun us' hperm => ?_, fun cuts cut hsize => if_pos hsize⟩
  -- both orders leave the same sets, and none of them twice
  have hus' : ∀ u ∈ us', u.WellFormed ∧ u.isMux = false ∧ 2 ≤ u.size :=
    fun u hu => hus u (hperm.mem_iff.1 hu)
  refine (List.perm_ext_iff_of_nodup (hspec us' hus').1.of_map (hspec us hus).1.of_map).2 fun c => ?_
  rw [(hspec us' hus').2 c, (hspec us hus).2 c]
  simp only [hperm.mem_iff]

/-- Three pairs that overlap, two of them inside larger cuts that came first, one cut that came twice,
and numbers that share a bit of the mask. -/
theorem insertEach_minimal_overlapping :
    let mux : Cut := { ofSorted [2, 3] with muxDepth := 1 }
    let us := [ofSorted [1, 2, 3], ofSorted [2, 3, 34], ofSorted [1, 2, 3], ofSorted [2, 3],
      ofSorted [3, 34], ofSorted [3, 4, 34, 35], ofSorted [33, 34]]
    let luts := fun us => (insertEach us [mux]).2.filter fun c => !c.isMux
    (insertEach us [mux]).1 = [true, true, true, true, true, true, true] ∧
      (insertEach us [mux]).2 = [mux, ofSorted [2, 3], ofSorted [3, 34], ofSorted [33, 34]] ∧
      (luts us.reverse).Perm (luts us) ∧
      ∀ c, c ∈ luts us ↔ ∃ s, Minimal (fun s => ∃ u ∈ us, u.leafSet = s) s ∧ c = ofSet s := by
  intro mux us luts
  obtain ⟨hanswers, -, -, hmem, hperm, -⟩ :=
    insertEach_minimal [mux] us (by decide) (by decide +kernel)
  exact ⟨hanswers, by decide +kernel, hperm _ us.reverse_perm, hmem⟩

end TechMap.Cut

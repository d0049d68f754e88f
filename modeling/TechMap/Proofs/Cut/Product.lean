import Mathlib
import TechMap.Proofs.Cut.Antichain

/-! Enumeration as a fold over the unions of one candidate of each operand, in the order in which
they are met. The first union of at most one leaf is the whole result. If there is none the result
is an antichain, and it has a subset of every union. -/

namespace TechMap.Cut

variable {a b c : Cut} {us us' out : List Cut} {ops : List (List Cut)} {acc : Cut}
  {leaves : List NodeId}

/-- At most one leaf. -/
def isNarrow (c : Cut) : Bool := c.size ≤ 1

/-- All unions of `acc` and one candidate of each operand, first operand outermost. -/
def unions : List (List Cut) → Cut → List Cut
  | [], acc => [acc]
  | candidates :: rest, acc => candidates.flatMap fun c => (acc.combine c).elim [] (unions rest)

/-- Inserts cuts until one ends enumeration. -/
def insertAll : List Cut → List Cut → Bool × List Cut
  | [], out => (true, out)
  | u :: us, out =>
    match insert out u with
    | (true, out) => insertAll us out
    | (false, out) => (false, out)

def placeAll (us out : List Cut) : List Cut := us.foldl (fun out c => place c out) out

theorem insertAll_append (us us' out : List Cut) : insertAll (us ++ us') out =
    match insertAll us out with
    | (true, out) => insertAll us' out
    | (false, out) => (false, out) := by
  induction us generalizing out with
  | nil => rfl
  | cons u us ih =>
    rw [List.cons_append, insertAll, insertAll]
    rcases insert out u with ⟨_ | _, out'⟩
    · rfl
    · exact ih out'

theorem extend_eq {step : Cut → List Cut → Bool × List Cut} {unions : Cut → List Cut}
    (h : ∀ u out, step u out = insertAll (unions u) out) (acc : Cut) (candidates out : List Cut) :
    extend step acc candidates out =
      insertAll (candidates.flatMap fun c => (acc.combine c).elim [] unions) out := by
  induction candidates generalizing out with
  | nil => rfl
  | cons c cs ih =>
    rw [extend, List.flatMap_cons]
    cases acc.combine c with
    | none => exact ih out
    | some u =>
      dsimp only [Option.elim_some]
      rw [h, insertAll_append]
      rcases insertAll (unions u) out with ⟨_ | _, out'⟩
      · rfl
      · exact ih out'

theorem product_eq (ops : List (List Cut)) (acc : Cut) (out : List Cut) :
    product ops acc out = insertAll (unions ops acc) out := by
  induction ops generalizing acc out with
  | nil =>
    rw [product, unions, insertAll]
    rcases insert out acc with ⟨_ | _, out'⟩ <;> rfl
  | cons candidates rest ih => exact extend_eq (fun u out => ih u out) acc candidates out

theorem insertAll_eq (us out : List Cut) : (insertAll us out).2 =
    match us.find? isNarrow with
    | some c => [c]
    | none => placeAll us out := by
  induction us generalizing out with
  | nil => rfl
  | cons u us ih =>
    rw [insertAll, insert, List.find?_cons, isNarrow]
    by_cases h : u.size ≤ 1
    · simp [h]
    · simp only [h, if_false, decide_false]
      exact ih _

/-- What enumeration gathers. -/
theorem product_snd (ops : List (List Cut)) (acc : Cut) (out : List Cut) :
    (product ops acc out).2 =
      match (unions ops acc).find? isNarrow with
      | some c => [c]
      | none => placeAll (unions ops acc) out := by
  rw [product_eq, insertAll_eq]

theorem mem_unions : c ∈ unions ops acc ↔ Chosen ops acc c := by
  refine ⟨fun h => ?_, fun h => ?_⟩
  · induction ops generalizing acc with
    | nil =>
      obtain rfl : c = acc := by simpa [unions] using h
      exact .nil c
    | cons candidates rest ih =>
      obtain ⟨d, hd, h⟩ := List.mem_flatMap.1 h
      cases hu : acc.combine d with
      | none => rw [hu] at h; cases h
      | some u =>
        rw [hu] at h
        exact .cons hd hu (ih h)
  · induction h with
    | nil acc => simp [unions]
    | cons hc hu _ ih =>
      refine List.mem_flatMap.2 ⟨_, hc, ?_⟩
      rw [hu]
      exact ih

theorem size_le_combine (h : a.combine b = some c) : a.size ≤ c.size ∧ b.size ≤ c.size := by
  obtain ⟨ls, hl, rfl⟩ := combine_eq_some h
  obtain ⟨hla, hlb, -⟩ := (merges_of_merge hl).length
  exact ⟨hla, hlb⟩

theorem Chosen.size_le (h : Chosen ops acc c) : acc.size ≤ c.size := by
  induction h with
  | nil acc => exact le_rfl
  | cons _ hu _ ih => exact (size_le_combine hu).1.trans ih

/-- Only narrow candidates have narrow unions. -/
theorem filter_isNarrow_unions (ops : List (List Cut)) (acc : Cut) :
    (unions ops acc).filter isNarrow =
      (unions (ops.map (·.filter isNarrow)) acc).filter isNarrow := by
  induction ops generalizing acc with
  | nil => rfl
  | cons candidates rest ih =>
    rw [List.map_cons, unions, unions, List.filter_flatMap, List.filter_flatMap]
    induction candidates with
    | nil => rfl
    | cons c cs ihc =>
      rw [List.flatMap_cons, ihc, List.filter_cons]
      cases hu : acc.combine c with
      | none => split <;> simp [hu]
      | some u =>
        by_cases hc : c.isNarrow = true
        · rw [if_pos hc, List.flatMap_cons, hu]
          dsimp only [Option.elim_some]
          rw [ih u]
        · rw [if_neg hc]
          have hnone : (unions rest u).filter isNarrow = [] := by
            refine List.filter_eq_nil_iff.2 fun r hr hn => hc ?_
            have h1 := (mem_unions.1 hr).size_le
            have h2 := (size_le_combine hu).2
            have h3 : r.size ≤ 1 := by simpa [isNarrow] using hn
            simpa [isNarrow] using h2.trans (h1.trans h3)
          rw [Option.elim_some, hnone, List.nil_append]

theorem find?_isNarrow_unions (ops : List (List Cut)) (acc : Cut) :
    (unions ops acc).find? isNarrow =
      (unions (ops.map (·.filter isNarrow)) acc).find? isNarrow := by
  rw [← List.head?_filter, ← List.head?_filter, filter_isNarrow_unions]

/-- What every placement keeps. -/
theorem placeAll_keeps {I : List Cut → Prop} (h : ∀ u ∈ us, ∀ out, I out → I (place u out))
    (h0 : I out) : I (placeAll us out) := by
  induction us generalizing out with
  | nil => exact h0
  | cons u us ih =>
    exact ih (fun v hv => h v (List.mem_cons_of_mem _ hv)) (h u (by simp) out h0)

theorem mem_placeAll (h : c ∈ placeAll us out) : c ∈ out ∨ c ∈ us := by
  refine placeAll_keeps (I := fun cuts => ∀ c ∈ cuts, c ∈ out ∨ c ∈ us) (fun u hu cuts hI d hd => ?_)
    (fun d hd => .inl hd) c h
  rcases mem_place hd with rfl | hd
  · exact .inr hu
  · exact hI d hd

theorem placeAll_antichain (h : Antichain out) (hout : ∀ c ∈ out, c.WellFormed)
    (hus : ∀ c ∈ us, c.WellFormed) : Antichain (placeAll us out) := by
  refine (placeAll_keeps (I := fun cuts => Antichain cuts ∧ ∀ c ∈ cuts, c.WellFormed)
    (fun u hu cuts hI => ⟨place_antichain hI.1 (hus u hu) hI.2, fun c hc => ?_⟩) ⟨h, hout⟩).1
  rcases mem_place hc with rfl | hc
  · exact hus c hu
  · exact hI.2 c hc

theorem countP_isMux_placeAll (hus : ∀ c ∈ us, c.isMux = false) (out : List Cut) :
    (placeAll us out).countP isMux = out.countP isMux :=
  placeAll_keeps (I := fun cuts => cuts.countP isMux = out.countP isMux)
    (fun u hu cuts hI => (countP_isMux_place (hus u hu) cuts).trans hI) rfl

/-- Every union has a subset in the result. -/
theorem placeAll_dominates (hc : c ∈ us) (out : List Cut) :
    Dominates (placeAll us out) c.leaves := by
  obtain ⟨before, after, rfl⟩ := List.append_of_mem hc
  rw [placeAll, List.foldl_append, List.foldl_cons]
  exact placeAll_keeps (I := fun cuts => Dominates cuts c.leaves) (fun u _ cuts hI => hI.place)
    (place_dominates c _)

/-- What a LUT cut of the list gives way to lies within it. -/
theorem exists_sublist_placeAll (hus : ∀ u ∈ us, u.isMux = false) (hc : c ∈ out)
    (hm : c.isMux = false) : ∃ d ∈ placeAll us out, d.isMux = false ∧ d.leaves.Sublist c.leaves := by
  refine placeAll_keeps (I := fun cuts => ∃ d ∈ cuts, d.isMux = false ∧ d.leaves.Sublist c.leaves)
    (fun u hu cuts ⟨d, hd, hdm, hle⟩ => ?_) ⟨c, hc, hm, .refl _⟩
  rcases mem_place_or_subsumes u hd with hd | ⟨-, hs, hmem⟩
  · exact ⟨d, hd, hdm, hle⟩
  · exact ⟨u, hmem, hus u hu, (sublist_of_subsumes hs).trans hle⟩

theorem bitCount_go_le_or (a b : UInt32) (k : Nat) :
    bitCount.go a k ≤ bitCount.go (a ||| b) k := by
  induction k with
  | zero => simp [bitCount.go]
  | succ k ih =>
    have hor : ((a ||| b) >>> k.toUInt32) &&& 1 = 0 → (a >>> k.toUInt32) &&& 1 = 0 :=
      fun h => ((shiftRight_or_and_one a b k.toUInt32).1 h).1
    rw [bitCount.go, bitCount.go]
    split_ifs <;> first | omega | tauto

theorem bitCount_le_or (a b : UInt32) : bitCount a ≤ bitCount (a ||| b) :=
  bitCount_go_le_or a b 32

/-- Two ascending lists that lie in a list of at most `room` have a merge. -/
theorem merge_isSome_of_subset {room : Nat} {as bs ls : List NodeId} (ha : as.Pairwise (· < ·))
    (hb : bs.Pairwise (· < ·)) (has : as ⊆ ls) (hbs : bs ⊆ ls) (hroom : ls.length ≤ room) :
    ∃ r, merge room as bs = some r := by
  have hlen {xs ls : List NodeId} (hx : xs.Pairwise (· < ·)) (hsub : xs ⊆ ls) :
      xs.length ≤ ls.length :=
    (List.subperm_of_subset (hx.imp fun h => ne_of_lt h) hsub).length_le
  -- what is above `x` is left when `x` is taken out
  have herase {xs ls : List NodeId} {x : NodeId} (hsub : xs ⊆ ls) (hx : ∀ y ∈ xs, x < y) :
      xs ⊆ ls.erase x :=
    fun y hy => (List.mem_erase_of_ne (ne_of_gt (hx y hy))).2 (hsub hy)
  have hless {ls : List NodeId} {x : NodeId} {room : Nat} (hx : x ∈ ls)
      (hroom : ls.length ≤ room + 1) : (ls.erase x).length ≤ room := by
    rw [List.length_erase_of_mem hx]
    omega
  have habove {x y : NodeId} {ys : List NodeId} (hxy : x < y) (hys : (y :: ys).Pairwise (· < ·)) :
      ∀ z ∈ y :: ys, x < z :=
    List.forall_mem_cons.2 ⟨hxy, fun z hz => hxy.trans ((List.pairwise_cons.1 hys).1 z hz)⟩
  induction room, as, bs using merge.induct generalizing ls with
  | case1 room bs hr => exact ⟨bs, by rw [merge, if_pos hr]⟩
  | case2 room bs hr => exact absurd ((hlen hb hbs).trans hroom) hr
  | case3 room a as hr => exact ⟨a :: as, by rw [merge, if_pos hr]⟩
  | case4 room a as hr => exact absurd ((hlen ha has).trans hroom) hr
  | case5 a as b bs =>
    have := hlen ha has
    simp only [List.length_cons] at this
    omega
  | case6 a as b bs room hab ih =>
    obtain ⟨ha1, ha⟩ := List.pairwise_cons.1 ha
    obtain ⟨r, hr⟩ := ih ha hb (herase (List.subset_of_cons_subset has) ha1)
      (herase hbs (habove hab hb)) (hless (has (by simp)) hroom)
    exact ⟨a :: r, by rw [merge, if_pos hab, hr]; rfl⟩
  | case7 a as b bs room hab hba ih =>
    obtain ⟨hb1, hb⟩ := List.pairwise_cons.1 hb
    obtain ⟨r, hr⟩ := ih ha hb (herase has (habove hba ha))
      (herase (List.subset_of_cons_subset hbs) hb1) (hless (hbs (by simp)) hroom)
    exact ⟨b :: r, by rw [merge, if_neg hab, if_pos hba, hr]; rfl⟩
  | case8 a as b bs room hab hba ih =>
    obtain rfl : a = b := le_antisymm (not_lt.1 hba) (not_lt.1 hab)
    obtain ⟨ha1, ha⟩ := List.pairwise_cons.1 ha
    obtain ⟨hb1, hb⟩ := List.pairwise_cons.1 hb
    obtain ⟨r, hr⟩ := ih ha hb (herase (List.subset_of_cons_subset has) ha1)
      (herase (List.subset_of_cons_subset hbs) hb1) (hless (has (by simp)) hroom)
    exact ⟨a :: r, by rw [merge, if_neg hab, if_neg hba, hr]; rfl⟩

/-- Cuts that lie in a set of six have a union. -/
theorem combine_isSome_of_subset (ha : a.WellFormed) (hb : b.WellFormed) (has : a.leaves ⊆ leaves)
    (hbs : b.leaves ⊆ leaves) (h6 : leaves.length ≤ 6) : ∃ c, a.combine b = some c := by
  obtain ⟨r, hr⟩ : ∃ r, merge maxSize a.leaves b.leaves = some r :=
    merge_isSome_of_subset ha.sorted hb.sorted has hbs h6
  refine ⟨ofSorted r, ?_⟩
  have hbits : bitCount (a.mask ||| b.mask) ≤ maxSize := by
    have hle := bitCount_le_or (a.mask ||| b.mask) (maskOf leaves)
    rw [UInt32.or_assoc, ha.mask, hb.mask, maskOf_or_of_subset hbs, maskOf_or_of_subset has] at hle
    rw [ha.mask, hb.mask]
    exact hle.trans ((bitCount_maskOf leaves).trans h6)
  rw [combine, if_neg (by omega), hr]
  rfl

/-- If every operand has a candidate in a set of six, some union lies in it. -/
theorem exists_mem_unions (hacc : acc.WellFormed) (hsub : acc.leaves ⊆ leaves)
    (h6 : leaves.length ≤ 6)
    (h : ∀ cs ∈ ops, ∃ c ∈ cs, c.WellFormed ∧ c.leaves ⊆ leaves) :
    ∃ c ∈ unions ops acc, c.leaves ⊆ leaves := by
  induction ops generalizing acc with
  | nil => exact ⟨acc, by simp [unions], hsub⟩
  | cons candidates rest ih =>
    obtain ⟨c, hc, hw, hcsub⟩ := h candidates (by simp)
    obtain ⟨u, hu⟩ := combine_isSome_of_subset hacc hw hsub hcsub h6
    have husub : u.leaves ⊆ leaves := fun x hx => by
      rcases (mem_combine hu x).1 hx with hx | hx
      · exact hsub hx
      · exact hcsub hx
    obtain ⟨r, hr, hrsub⟩ := ih (wellFormed_combine hu hacc.toProper hw.toProper) husub
      fun cs hcs => h cs (List.mem_cons_of_mem _ hcs)
    refine ⟨r, List.mem_flatMap.2 ⟨c, hc, ?_⟩, hrsub⟩
    rw [hu]
    exact hr

theorem Chosen.wellFormed (h : Chosen ops acc c) (ha : acc.WellFormed)
    (ho : ∀ cs ∈ ops, ∀ c ∈ cs, c.Proper) : c.WellFormed := by
  refine ⟨h.proper ha.toProper ho, ?_⟩
  induction h with
  | nil acc => exact ha.mask
  | cons hc hu _ ih =>
    exact ih (wellFormed_combine hu ha.toProper (ho _ (by simp) _ hc))
      fun cs hcs => ho cs (List.mem_cons_of_mem _ hcs)

end TechMap.Cut

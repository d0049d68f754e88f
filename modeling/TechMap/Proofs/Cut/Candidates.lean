import Mathlib
import TechMap.Cut.Product
import TechMap.Proofs.Cut.Union

/-! What enumeration gathers. Every cut of the result was in the list at the start or is a union of
one candidate of each operand, and what insertion keeps for all such unions the enumeration
keeps. -/

namespace TechMap.Cut

variable {cut c : Cut} {cuts out : List Cut}

theorem mem_sweep (h : c ∈ sweep cut cuts) : c ∈ cuts := by
  induction cuts using sweep.induct cut with
  | case1 => simp [sweep] at h
  | case2 c' hc => simp [sweep, hc] at h
  | case3 c' hc d rest ih =>
    unfold sweep at h
    rw [if_pos hc] at h
    rcases List.mem_cons.1 (ih h) with rfl | h
    · exact List.mem_cons_of_mem _ (List.getLast_mem _)
    · exact List.mem_cons_of_mem _ ((List.dropLast_sublist _).subset h)
  | case4 c' rest hc ih =>
    unfold sweep at h
    rw [if_neg hc] at h
    rcases List.mem_cons.1 h with rfl | h
    · exact List.mem_cons_self
    · exact List.mem_cons_of_mem _ (ih h)

theorem mem_place (h : c ∈ place cut cuts) : c = cut ∨ c ∈ cuts := by
  induction cuts with
  | nil => simpa [place] using h
  | cons d rest ih =>
    rw [place] at h
    split_ifs at h with hm hs hs'
    · rcases List.mem_cons.1 h with rfl | h
      · exact .inr List.mem_cons_self
      · exact (ih h).imp_right (List.mem_cons_of_mem _)
    · exact .inr h
    · rcases List.mem_cons.1 h with rfl | h
      · exact .inl rfl
      · exact .inr (List.mem_cons_of_mem _ (mem_sweep h))
    · rcases List.mem_cons.1 h with rfl | h
      · exact .inr List.mem_cons_self
      · exact (ih h).imp_right (List.mem_cons_of_mem _)

theorem mem_insert (h : c ∈ (insert cuts cut).2) : c = cut ∨ c ∈ cuts := by
  unfold insert at h
  split at h
  · exact .inl (by simpa using h)
  · exact mem_place h

theorem insert_ne_nil (cuts : List Cut) (cut : Cut) : (insert cuts cut).2 ≠ [] := by
  unfold insert
  split
  · simp
  · cases cuts with
    | nil => simp [place]
    | cons d rest =>
      show place cut (d :: rest) ≠ []
      rw [place]
      split_ifs <;> simp

/-- One candidate of each operand, added to `acc` in turn, makes the last cut. -/
inductive Chosen : List (List Cut) → Cut → Cut → Prop
  | nil (acc : Cut) : Chosen [] acc acc
  | cons {candidates : List Cut} {rest : List (List Cut)} {acc c u r : Cut} (hc : c ∈ candidates)
    (hu : acc.combine c = some u) (h : Chosen rest u r) : Chosen (candidates :: rest) acc r

namespace Chosen

variable {ops : List (List Cut)} {acc r : Cut}

theorem proper (h : Chosen ops acc r) (ha : acc.Proper) (ho : ∀ cs ∈ ops, ∀ c ∈ cs, c.Proper) :
    r.Proper := by
  induction h with
  | nil acc => exact ha
  | cons hc hu _ ih =>
    exact ih (proper_combine hu ha (ho _ (by simp) _ hc))
      fun cs hcs => ho cs (List.mem_cons_of_mem _ hcs)

theorem isMux (h : Chosen ops acc r) (ha : acc.isMux = false) : r.isMux = false := by
  induction h with
  | nil acc => exact ha
  | cons hc hu _ ih => exact ih (not_isMux_combine hu)

theorem subset (h : Chosen ops acc r) : ∀ x ∈ acc.leaves, x ∈ r.leaves := by
  induction h with
  | nil acc => exact fun x hx => hx
  | cons hc hu _ ih => exact fun x hx => ih x ((mem_combine hu x).2 (.inl hx))

/-- Some candidate of each operand is contained. -/
theorem exists_subset (h : Chosen ops acc r) {cs : List Cut} (hcs : cs ∈ ops) :
    ∃ c ∈ cs, ∀ x ∈ c.leaves, x ∈ r.leaves := by
  induction h with
  | nil acc => cases hcs
  | @cons candidates rest acc c u r hc hu h ih =>
    rcases List.mem_cons.1 hcs with rfl | hcs
    · exact ⟨c, hc, fun x hx => h.subset x ((mem_combine hu x).2 (.inr hx))⟩
    · exact ih hcs

/-- Every leaf is one of some candidate. -/
theorem mem_leaves (h : Chosen ops acc r) {x : NodeId} (hx : x ∈ r.leaves) :
    x ∈ acc.leaves ∨ ∃ cs ∈ ops, ∃ c ∈ cs, x ∈ c.leaves := by
  induction h with
  | nil acc => exact .inl hx
  | @cons candidates rest acc c u r hc hu h ih =>
    rcases ih hx with hx | ⟨cs, hcs, c', hc', hx⟩
    · rcases (mem_combine hu x).1 hx with hx | hx
      · exact .inl hx
      · exact .inr ⟨candidates, by simp, c, hc, hx⟩
    · exact .inr ⟨cs, List.mem_cons_of_mem _ hcs, c', hc', hx⟩

end Chosen

theorem extend_keeps {I : List Cut → Prop} {step : Cut → List Cut → Bool × List Cut} {acc : Cut}
    {candidates : List Cut}
    (h : ∀ c ∈ candidates, ∀ u, acc.combine c = some u → ∀ out, I out → I (step u out).2)
    (h0 : I out) : I (extend step acc candidates out).2 := by
  induction candidates generalizing out with
  | nil => exact h0
  | cons c cs ih =>
    have ih {out : List Cut} (h0 : I out) : I (extend step acc cs out).2 :=
      ih (fun c' hc' => h c' (List.mem_cons_of_mem _ hc')) h0
    rw [extend]
    cases hu : acc.combine c with
    | none => exact ih h0
    | some u =>
      have hstep := h c (by simp) u hu out h0
      dsimp only
      split
      · rename_i out' he
        rw [he] at hstep
        exact ih hstep
      · rename_i out' he
        rw [he] at hstep
        exact hstep

/-- What the insertion of each union keeps, enumeration keeps. -/
theorem product_keeps {I : List Cut → Prop} {ops : List (List Cut)} {acc : Cut}
    (h : ∀ c, Chosen ops acc c → ∀ out, I out → I (insert out c).2) (h0 : I out) :
    I (product ops acc out).2 := by
  induction ops generalizing acc out with
  | nil => exact h acc (.nil acc) out h0
  | cons candidates rest ih =>
    exact extend_keeps (fun c hc u hu out h0 => ih (fun r hr => h r (.cons hc hu hr)) h0) h0

theorem mem_product {ops : List (List Cut)} {acc : Cut} (h : c ∈ (product ops acc out).2) :
    c ∈ out ∨ Chosen ops acc c := by
  refine product_keeps (I := fun cuts => ∀ c ∈ cuts, c ∈ out ∨ Chosen ops acc c)
    (fun u hu cuts hcuts d hd => ?_) (fun d hd => .inl hd) c h
  rcases mem_insert hd with rfl | hd
  · exact .inr hu
  · exact hcuts d hd

/-- If each operand has a candidate of at most one leaf at the front, some union is found. -/
theorem product_ne_nil {ops : List (List Cut)} {acc : Cut} (hacc : acc.mask = maskOf acc.leaves)
    (hops : ∀ cs ∈ ops, ∃ c, cs.head? = some c ∧ c.mask = maskOf c.leaves ∧ c.size ≤ 1)
    (h6 : acc.size + ops.length ≤ 6) : (product ops acc out).2 ≠ [] := by
  induction ops generalizing acc out with
  | nil => exact insert_ne_nil out acc
  | cons candidates rest ih =>
    obtain ⟨c, hc, hmask, h1⟩ := hops candidates (by simp)
    match candidates with
    | [] => cases hc
    | d :: cs =>
      obtain rfl : d = c := by simpa using hc
      simp only [List.length_cons] at h6
      obtain ⟨u, hu⟩ := combine_isSome hacc hmask (by omega)
      have hsize : u.size ≤ acc.size + 1 := by
        have := size_combine_le hu
        omega
      have hne : (product rest u out).2 ≠ [] := ih (mask_combine hu)
        (fun cs hcs => hops cs (List.mem_cons_of_mem _ hcs)) (by omega)
      have hkeep {cuts : List Cut} (h : cuts ≠ []) :
          (extend (product rest) acc cs cuts).2 ≠ [] :=
        extend_keeps (I := (· ≠ [])) (fun c _ u _ out h0 =>
          product_keeps (I := (· ≠ [])) (fun c _ out _ => insert_ne_nil out c) h0) h
      rw [product, extend, hu]
      dsimp only
      split
      · rename_i out' he
        rw [he] at hne
        exact hkeep hne
      · rename_i out' he
        rwa [he] at hne

theorem perm_promote (cuts : List Cut) (i : Nat) : (promote cuts i).Perm cuts := by
  unfold promote Array.swapIfInBounds
  split
  · split
    · exact (Array.swap_perm _ _).toList
    · exact .refl _
  · exact .refl _

theorem promote_zero (cuts : List Cut) : promote cuts 0 = cuts := by
  unfold promote Array.swapIfInBounds
  split <;> simp

theorem head?_promote {i : Nat} (h : i < cuts.length) : (promote cuts i).head? = some cuts[i] := by
  have h0 : 0 < cuts.toArray.size := by simpa using Nat.lt_of_le_of_lt (Nat.zero_le i) h
  have hi : i < cuts.toArray.size := by simpa using h
  rw [promote, List.head?_eq_getElem?, Array.getElem?_toList, Array.swapIfInBounds_def,
    dif_pos h0, dif_pos hi, Array.getElem?_swap]
  split
  · rename_i he; simp [← he]
  · simp

end TechMap.Cut

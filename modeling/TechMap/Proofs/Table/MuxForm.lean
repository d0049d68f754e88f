import Mathlib
import TechMap.Proofs.Table.Support
import TechMap.Table.MuxForm

/-! The bisection finds the tables of multiplexers of three distinct variables below four, each with
its form, and no others. -/

namespace TechMap

open Table

theorem eraseRepsBy_eq_self {β : Type} {r : β → β → Bool} {l : List β}
    (h : l.Pairwise fun a b => r a b = false) : l.eraseRepsBy r = l := by
  have loop (a : β) (as acc : List β) (h : (a :: as).Pairwise fun a b => r a b = false) :
      List.eraseRepsBy.loop r a as acc = acc.reverse ++ a :: as := by
    induction as generalizing a acc with
    | nil => simp [List.eraseRepsBy.loop]
    | cons b as ih =>
      obtain ⟨ha, hrest⟩ := List.pairwise_cons.1 h
      rw [List.eraseRepsBy.loop, ha b (by simp)]
      simpa using ih b (a :: acc) hrest
  cases l with
  | nil => rfl
  | cons a as => exact loop a as [] h

namespace MuxForm

/-- No two forms have the same table. -/
theorem nodup_table : (all.map table).Nodup := by decide +kernel

theorem pairwise_sorted : ((all.map fun f => (f.table, f)).mergeSort fun a b => a.1 ≤ b.1).Pairwise
    fun a b => a.1 < b.1 := by
  have hle : ((all.map fun f => (f.table, f)).mergeSort fun a b => a.1 ≤ b.1).Pairwise
      fun a b => decide (a.1 ≤ b.1) = true :=
    List.pairwise_mergeSort
      (fun a b c hab hbc => by simpa using UInt16.le_trans (by simpa using hab) (by simpa using hbc))
      (fun a b => by simpa using UInt16.le_total a.1 b.1) _
  have hne : ((all.map fun f => (f.table, f)).mergeSort fun a b => a.1 ≤ b.1).Pairwise
      fun a b => a.1 ≠ b.1 := by
    have hperm := List.mergeSort_perm (all.map fun f => (f.table, f)) fun a b => a.1 ≤ b.1
    refine hperm.symm.pairwise ?_ fun h => h.symm
    have := nodup_table
    rw [List.Nodup, List.pairwise_map] at this
    exact List.pairwise_map.2 this
  refine (hle.and hne).imp fun ⟨hab, hab'⟩ => ?_
  exact UInt16.lt_of_le_of_ne (by simpa using hab) hab'

theorem toList_classes : classes.toList =
    (all.map fun f => (f.table, f)).mergeSort fun a b => a.1 ≤ b.1 :=
  eraseRepsBy_eq_self (pairwise_sorted.imp fun h => by simpa using UInt16.ne_of_lt h)

theorem mem_classes {e : UInt16 × MuxForm} : e ∈ classes ↔ e.2 ∈ all ∧ e.2.table = e.1 := by
  rw [← Array.mem_toList_iff, toList_classes, List.mem_mergeSort, List.mem_map]
  constructor
  · rintro ⟨f, hf, rfl⟩
    exact ⟨hf, rfl⟩
  · rintro ⟨hf, he⟩
    exact ⟨e.2, hf, by rw [he]⟩

theorem mem_of_bisect {entries : Array (UInt16 × MuxForm)} {table : UInt16} {f : MuxForm}
    {lo hi : Nat} (h : bisect entries table lo hi = some f) : (table, f) ∈ entries := by
  induction lo, hi using bisect.induct entries table with
  | case1 lo hi hlt mid hnone => simp [bisect, hlt, mid, hnone] at h
  | case2 lo hi hlt mid t g hsome ht ih =>
    rw [bisect, if_pos hlt] at h
    simp only [mid, hsome, ht] at h ih
    exact ih h
  | case3 lo hi hlt mid t g hsome hn ht ih =>
    rw [bisect, if_pos hlt] at h
    simp only [mid, hsome, hn, ht] at h ih
    exact ih h
  | case4 lo hi hlt mid t g hsome hn ht =>
    rw [bisect, if_pos hlt] at h
    simp only [mid, hsome, hn, ht] at h
    obtain rfl : t = table := UInt16.le_antisymm (UInt16.not_lt.1 ht) (UInt16.not_lt.1 hn)
    simp only [if_false, Option.some.injEq] at h
    exact h ▸ Array.mem_of_getElem? hsome
  | case5 lo hi hge => simp [bisect, hge] at h

theorem mem_all_of_ofTable? {table : UInt16} {f : MuxForm} (h : ofTable? table = some f) :
    f ∈ all ∧ f.table = table :=
  mem_classes.1 (mem_of_bisect h)

theorem key_lt_of_lt {entries : Array (UInt16 × MuxForm)}
    (hs : entries.toList.Pairwise fun a b => a.1 < b.1) {i j : Nat} {a b : UInt16 × MuxForm}
    (ha : entries[i]? = some a) (hb : entries[j]? = some b) (hij : i < j) : a.1 < b.1 := by
  rw [← Array.getElem?_toList] at ha hb
  obtain ⟨hi, rfl⟩ := List.getElem?_eq_some_iff.1 ha
  obtain ⟨hj, rfl⟩ := List.getElem?_eq_some_iff.1 hb
  exact List.pairwise_iff_getElem.1 hs i j hi hj hij

/-- In a table sorted by its keys no key is missed. -/
theorem bisect_of_mem {entries : Array (UInt16 × MuxForm)} {table : UInt16} {f : MuxForm}
    (hs : entries.toList.Pairwise fun a b => a.1 < b.1) {lo hi k : Nat} (hsize : hi ≤ entries.size)
    (hk : entries[k]? = some (table, f)) (hlo : lo ≤ k) (hhi : k < hi) :
    bisect entries table lo hi = some f := by
  induction lo, hi using bisect.induct entries table with
  | case1 lo hi hlt mid hnone =>
    have hle := Array.getElem?_eq_none_iff.1 hnone
    omega
  | case2 lo hi hlt mid t g hsome ht ih =>
    rw [bisect, if_pos hlt]
    simp only [mid, hsome, ht] at ih ⊢
    refine ih hsize ?_ hhi
    -- the keys up to the middle are too small
    by_contra hle
    rcases Nat.lt_or_eq_of_le (Nat.le_of_lt_succ (Nat.lt_of_not_le hle)) with h | rfl
    · exact UInt16.lt_asymm ht (key_lt_of_lt hs hk hsome h)
    · rw [hsome, Option.some.injEq, Prod.mk.injEq] at hk
      exact UInt16.lt_irrefl _ (hk.1 ▸ ht)
  | case3 lo hi hlt mid t g hsome hn ht ih =>
    rw [bisect, if_pos hlt]
    simp only [mid, hsome, hn, ht] at ih ⊢
    refine ih (by omega) hlo ?_
    by_contra hge
    rcases Nat.lt_or_eq_of_le (Nat.le_of_not_lt hge) with h | rfl
    · exact UInt16.lt_asymm ht (key_lt_of_lt hs hsome hk h)
    · rw [hsome, Option.some.injEq, Prod.mk.injEq] at hk
      exact UInt16.lt_irrefl _ (hk.1 ▸ ht)
  | case4 lo hi hlt mid t g hsome hn ht =>
    rw [bisect, if_pos hlt]
    simp only [mid, hsome, hn, ht]
    obtain rfl : t = table := UInt16.le_antisymm (UInt16.not_lt.1 ht) (UInt16.not_lt.1 hn)
    rcases Nat.lt_trichotomy k mid with h | rfl | h
    · exact absurd (key_lt_of_lt hs hk hsome h) (UInt16.lt_irrefl _)
    · rw [hsome, Option.some.injEq, Prod.mk.injEq] at hk
      simp [hk.2]
    · exact absurd (key_lt_of_lt hs hsome hk h) (UInt16.lt_irrefl _)
  | case5 lo hi hge => omega

/-- The search finds the form of each of the listed tables. -/
theorem ofTable?_table {f : MuxForm} (h : f ∈ all) : ofTable? f.table = some f := by
  obtain ⟨k, hk, he⟩ := Array.mem_iff_getElem.1 (mem_classes (e := (f.table, f)).2 ⟨h, rfl⟩)
  exact bisect_of_mem (toList_classes ▸ pairwise_sorted) (Nat.le_refl _)
    (Array.getElem?_eq_some_iff.2 ⟨hk, he⟩) (Nat.zero_le k) hk

theorem inputs_of_mem_all : ∀ f ∈ all, f.select < 4 ∧ f.thenIn < 4 ∧ f.elseIn < 4 ∧
    f.select ≠ f.thenIn ∧ f.select ≠ f.elseIn ∧ f.thenIn ≠ f.elseIn := by decide +kernel

/-- The inputs are three different variables. -/
def Distinct (f : MuxForm) : Prop :=
  f.select ≠ f.thenIn ∧ f.select ≠ f.elseIn ∧ f.thenIn ≠ f.elseIn

instance (f : MuxForm) : Decidable f.Distinct := by unfold Distinct; infer_instance

theorem mem_all_of_distinct {f : MuxForm} (hd : f.Distinct) (hs : f.select < 4)
    (ht : f.thenIn < 4) (he : f.elseIn < 4) : f ∈ all := by
  simp only [all, List.mem_flatMap, List.mem_filter, List.mem_range, decide_eq_true_eq]
  refine ⟨f.select, hs, f.thenIn, ⟨ht, hd.1.symm⟩, f.elseIn, ⟨he, hd.2.1.symm, hd.2.2.symm⟩, ?_⟩
  obtain ⟨s, t, e, thenNeg, elseNeg⟩ := f
  cases thenNeg <;> cases elseNeg <;> simp

/-- The function of a form. -/
def choose (f : MuxForm) (a : Nat → Bool) : Bool :=
  if a f.select then a f.thenIn ^^ f.thenNeg else a f.elseIn ^^ f.elseNeg

theorem bit_table : ∀ f ∈ all, ∀ r < 16, f.table.toBitVec.getLsbD r = f.choose r.testBit := by
  decide +kernel

theorem dependsOn_expand_table : ∀ f ∈ all, ∀ i < 4,
    dependsOn (expand f.table.toUInt64 4) i = true →
      i = f.select ∨ i = f.thenIn ∨ i = f.elseIn := by decide +kernel

theorem bit_choose (s t e : UInt64) {k : Nat} (hk : k < 64) :
    bit ((s &&& t) ||| (~~~ s &&& e)) k = if bit s k then bit t k else bit e k := by
  rw [bit_or, bit_and, bit_and, bit_not _ hk]
  cases bit s k <;> simp

/-- A table of four variables that is found is the function of its form. -/
theorem value_eq_choose {t : UInt64} {f : MuxForm} (h : ofTable? t.toUInt16 = some f)
    (ht : ∀ v, Depends t v → v < 4) (a : Nat → Bool) : value t a = f.choose a := by
  obtain ⟨hf, htab⟩ := mem_all_of_ofTable? h
  obtain ⟨hs, hth, hel, -⟩ := inputs_of_mem_all f hf
  have hlow : value t a = value t fun i => decide (i < 4) && a i :=
    value_congr_support t fun i hi => by simp [ht i hi]
  set b : Nat → Bool := fun i => decide (i < 4) && a i
  have hr : rowOf b < 16 := by
    apply Nat.lt_pow_two_of_testBit (n := 4)
    intro i hi
    rcases Nat.lt_or_ge i 6 with h6 | h6
    · rw [testBit_rowOf b h6]; simp [b]; omega
    · exact Nat.testBit_lt_two_pow
        (lt_of_lt_of_le (rowOf_lt b) (Nat.pow_le_pow_right (n := 2) (by omega) h6))
  have hbit : value t b = f.table.toBitVec.getLsbD (rowOf b) := by
    rw [htab, UInt64.toBitVec_toUInt16, BitVec.getLsbD_setWidth]
    simp [hr, value, bit]
  rw [hlow, hbit, bit_table f hf _ hr]
  have hb {i : Nat} (hi : i < 4) : (rowOf b).testBit i = a i := by
    rw [testBit_rowOf b (by omega)]; simp [b, hi]
  simp only [choose, hb hs, hb hth, hb hel]

/-- The table is the function of the form. -/
def Describes (f : MuxForm) (t : UInt64) : Prop := ∀ a, value t a = f.choose a

section Describes

variable {f : MuxForm} {t : UInt64}

/-- A multiplexer depends on each of its inputs. -/
theorem Describes.depends (h : f.Describes t) (hd : f.Distinct) :
    Depends t f.select ∧ Depends t f.thenIn ∧ Depends t f.elseIn := by
  obtain ⟨hst, hse, hte⟩ := hd
  -- the select matters where the data differ, each data input where it is selected
  refine ⟨⟨fun i => if i = f.thenIn then !f.thenNeg else if i = f.elseIn then f.elseNeg else false,
    ?_⟩, ⟨fun _ => true, ?_⟩, ⟨fun _ => false, ?_⟩⟩
  · rw [h, h]
    simp [choose, Function.update_of_ne, hst.symm, hse.symm, hte.symm]
  · rw [h, h]
    simp [choose, Function.update_of_ne, hst]
  · rw [h, h]
    simp [choose, Function.update_of_ne, hse]

/-- The search finds every multiplexer of the first four variables. -/
theorem Describes.ofTable? (h : f.Describes t) (hf : f ∈ all) : ofTable? t.toUInt16 = some f := by
  have htable : t.toUInt16 = f.table := by
    apply UInt16.toBitVec_inj.1
    apply BitVec.eq_of_getLsbD_eq
    intro r hr
    rw [bit_table f hf r hr, ← h, ← bit_eq_value t (by omega), UInt64.toBitVec_toUInt16,
      BitVec.getLsbD_setWidth]
    simp [hr, bit]
  rw [htable, ofTable?_table hf]

end Describes

end MuxForm

end TechMap

import Mathlib
import TechMap.Network.Simulation
import TechMap.Proofs.Table.Support

/-! Lookup as function composition, and tables of fewer variables. -/

namespace TechMap.Table

theorem lane_map_lookup {us ws : List UInt64} (hw : ws.length ≤ 6) {k : Nat} (hk : k < 64) (i : Nat) :
    lane k (us.map fun u => lookup u ws) i = value (us.getD i 0) (lane k ws) := by
  rcases Nat.lt_or_ge i us.length with hi | hi
  · simp [lane, hi, bit_lookup _ hw hk]
  · simp [lane, hi]

theorem lookup_lookup (t : UInt64) {us ws : List UInt64} (hu : us.length ≤ 6) (hw : ws.length ≤ 6) :
    lookup (lookup t us) ws = lookup t (us.map fun u => lookup u ws) := by
  refine eq_of_bit fun k hk => ?_
  rw [bit_lookup _ hw hk, value_lookup t hu, bit_lookup _ (by simpa using hu) hk]
  exact value_congr t fun i _ => (lane_map_lookup hw hk i).symm

theorem lookup_proj {i : Nat} {ws : List UInt64} (hw : ws.length ≤ 6) (hi : i < ws.length) :
    lookup (proj i) ws = ws[i] := by
  refine eq_of_bit fun k hk => ?_
  rw [bit_lookup _ hw hk, value_proj (by omega), lane]
  simp [hi]

theorem lookup_ones {ws : List UInt64} (hw : ws.length ≤ 6) : lookup ones ws = ones :=
  eq_of_bit fun k hk => by rw [bit_lookup _ hw hk, value_ones, bit_ones hk]

theorem lookup_and (s t : UInt64) {ws : List UInt64} (hw : ws.length ≤ 6) :
    lookup (s &&& t) ws = lookup s ws &&& lookup t ws :=
  eq_of_bit fun k hk => by
    rw [bit_lookup _ hw hk, value_and, bit_and, bit_lookup _ hw hk, bit_lookup _ hw hk]

theorem lookup_not (t : UInt64) {ws : List UInt64} (hw : ws.length ≤ 6) :
    lookup (~~~ t) ws = ~~~ lookup t ws :=
  eq_of_bit fun k hk => by rw [bit_lookup _ hw hk, value_not, bit_not _ hk, bit_lookup _ hw hk]

theorem lookup_apply (l : Lit) (t : UInt64) {ws : List UInt64} (hw : ws.length ≤ 6) :
    lookup (l.apply t) ws = l.apply (lookup t ws) := by
  unfold Lit.apply
  split
  · exact lookup_not t hw
  · rfl

/-- A lookup reads only the words of variables in the support. -/
theorem lookup_congr (t : UInt64) {us ws : List UInt64} (hu : us.length ≤ 6) (hw : ws.length ≤ 6)
    (h : ∀ i, Depends t i → us.getD i 0 = ws.getD i 0) : lookup t us = lookup t ws := by
  refine eq_of_bit fun k hk => ?_
  rw [bit_lookup _ hu hk, bit_lookup _ hw hk]
  exact value_congr_support t fun i hi => by rw [lane, lane, h i hi]

theorem Depends.of_and {s t : UInt64} {i : Nat} (h : Depends (s &&& t) i) :
    Depends s i ∨ Depends t i := by
  by_contra hn
  rw [not_or] at hn
  obtain ⟨a, ha⟩ := h
  simp [value_update_of_not hn.1, value_update_of_not hn.2] at ha

theorem Depends.of_not {t : UInt64} {i : Nat} (h : Depends (~~~ t) i) : Depends t i := by
  obtain ⟨a, ha⟩ := h
  exact ⟨a, by simpa using ha⟩

theorem Depends.of_apply {l : Lit} {t : UInt64} {i : Nat} (h : Depends (l.apply t) i) :
    Depends t i := by
  unfold Lit.apply at h
  split at h
  · exact h.of_not
  · exact h

theorem not_depends_ones (i : Nat) : ¬ Depends ones i := by
  rintro ⟨a, ha⟩
  simp at ha

theorem not_depends_zero (i : Nat) : ¬ Depends 0 i := by
  rintro ⟨a, ha⟩
  simp at ha

theorem depends_proj {i j : Nat} (h : Depends (proj i) j) (hi : i < 6) : j = i := by
  by_contra hne
  obtain ⟨a, ha⟩ := h
  rw [value_proj hi, value_proj hi, Function.update_of_ne (Ne.symm hne),
    Function.update_of_ne (Ne.symm hne)] at ha
  exact ha rfl

theorem Depends.of_lookup {t : UInt64} {us : List UInt64} {i : Nat} (hu : us.length ≤ 6)
    (h : Depends (lookup t us) i) : ∃ u ∈ us, Depends u i := by
  by_contra hn
  push Not at hn
  obtain ⟨a, ha⟩ := h
  rw [value_lookup t hu, value_lookup t hu] at ha
  refine ha (value_congr t fun j _ => ?_)
  rcases Nat.lt_or_ge j us.length with hj | hj
  · have hm : us.getD j 0 ∈ us := by simp [hj]
    rw [value_update_of_not (hn _ hm), value_update_of_not (hn _ hm)]
  · simp [hj]

/- Replication. -/

theorem bit_lowRows : ∀ n < 6, ∀ r < 64,
    bit (((1 : UInt64) <<< ((1 : UInt64) <<< n.toUInt64)) - 1) r = decide (r < 2 ^ n) := by
  decide +kernel

theorem bit_foldl_double (w : UInt64) {n : Nat} (f : Nat → Bool) (hf : ∀ r, f r = f (r % 2 ^ n))
    (k : Nat) (hk : n + k ≤ 6) (hw : ∀ r < 64, bit w r = (decide (r < 2 ^ n) && f r))
    (r : Nat) (hr : r < 64) :
    bit ((List.range k).foldl
      (fun acc k => acc ||| (acc <<< ((1 : UInt64) <<< (n + k).toUInt64))) w) r =
      (decide (r < 2 ^ (n + k)) && f r) := by
  induction k generalizing r with
  | zero => simpa using hw r hr
  | succ k ih =>
    have ih := fun r hr => ih (by omega) r hr
    have hs := toNat_one_shiftLeft (n + k) (by omega)
    have hlt : ((1 : UInt64) <<< (n + k).toUInt64).toNat < 64 := by
      rw [hs]; exact Nat.pow_lt_pow_right (m := n + k) (n := 6) (by omega) (by omega)
    have hdouble : 2 ^ (n + (k + 1)) = 2 ^ (n + k) + 2 ^ (n + k) := by
      rw [← Nat.add_assoc, Nat.pow_succ]; omega
    rw [List.range_succ, List.foldl_append]
    simp only [List.foldl_cons, List.foldl_nil]
    rw [bit_or, bit_shiftLeft _ _ _ hlt, hs, ih r hr, hdouble]
    rcases Nat.lt_or_ge r (2 ^ (n + k)) with h1 | h1
    · simp [h1, show r < 2 ^ (n + k) + 2 ^ (n + k) by omega]
    · -- the upper half repeats the lower one
      have hrep : f (r - 2 ^ (n + k)) = f r := by
        rw [hf, hf r]
        congr 1
        rw [Nat.pow_add]
        exact Nat.sub_mul_mod (by rwa [← Nat.pow_add])
      rw [ih (r - 2 ^ (n + k)) (by omega), hrep]
      have h2 : (r - 2 ^ (n + k) < 2 ^ (n + k)) ↔ r < 2 ^ (n + k) + 2 ^ (n + k) := by omega
      simp [show ¬ r < 2 ^ (n + k) by omega, hr, h2]

theorem bit_expand (t : UInt64) {n : Nat} (hn : n ≤ 6) {r : Nat} (hr : r < 64) :
    bit (expand t n) r = bit t (r % 2 ^ n) := by
  unfold expand
  rcases Nat.lt_or_ge n 6 with h | h
  · have hlow : ∀ r < 64, bit (t &&& (((1 : UInt64) <<< ((1 : UInt64) <<< n.toUInt64)) - 1)) r =
        (decide (r < 2 ^ n) && bit t (r % 2 ^ n)) := by
      intro r hr
      rw [bit_and, bit_lowRows n h r hr]
      by_cases hlt : r < 2 ^ n
      · simp [hlt, Nat.mod_eq_of_lt hlt]
      · simp [hlt]
    simp only [if_pos h]
    rw [bit_foldl_double _ (fun r => bit t (r % 2 ^ n)) (fun r => by simp) (6 - n) (by omega) hlow r hr]
    simp [show n + (6 - n) = 6 by omega, hr]
  · obtain rfl : n = 6 := by omega
    simp [Nat.mod_eq_of_lt hr]

/-- On `n` words a table and its replication read the same rows. -/
theorem lookup_expand (t : UInt64) {n : Nat} (hn : n ≤ 6) {ws : List UInt64} (hw : ws.length = n) :
    lookup (expand t n) ws = lookup t ws := by
  refine eq_of_bit fun k hk => ?_
  rw [bit_lookup _ (by omega) hk, bit_lookup _ (by omega) hk, value, value, bit_expand t hn (rowOf_lt _)]
  congr 1
  apply Nat.mod_eq_of_lt
  apply Nat.lt_pow_two_of_testBit
  intro i hi
  rcases Nat.lt_or_ge i 6 with h6 | h6
  · rw [testBit_rowOf _ h6, lane, List.getD_eq_default _ _ (by omega), bit_zero]
  · exact Nat.testBit_lt_two_pow
      (lt_of_lt_of_le (rowOf_lt _) (Nat.pow_le_pow_right (n := 2) (by omega) h6))

/-- The row with its upper variables cleared. -/
theorem rowOf_low (r : Nat) {n : Nat} (hn : n ≤ 6) :
    rowOf (fun i => decide (i < n) && r.testBit i) = r % 2 ^ n := by
  have hlt : r % 2 ^ n < 64 :=
    lt_of_lt_of_le (Nat.mod_lt _ (by positivity)) (Nat.pow_le_pow_right (n := 2) (by omega) hn)
  rw [← rowOf_testBit hlt]
  exact rowOf_congr fun i _ => (Nat.testBit_mod_two_pow r n i).symm

/-- At the variables themselves a lookup replicates the low rows. -/
theorem lookup_projections (t : UInt64) {n : Nat} (hn : n ≤ 6) :
    lookup t ((List.range n).map proj) = expand t n := by
  refine eq_of_bit fun r hr => ?_
  have hlane (i : Nat) : lane r ((List.range n).map proj) i = (decide (i < n) && r.testBit i) := by
    rcases Nat.lt_or_ge i n with hi | hi
    · simp [lane, hi, bit_proj i (by omega) r hr]
    · simp [lane, Nat.not_lt.2 hi]
  rw [bit_lookup t (by simpa using hn) hr, bit_expand t hn hr, value, funext hlane, rowOf_low r hn]

theorem depends_expand {t : UInt64} {n v : Nat} (hn : n ≤ 6) (h : Depends (expand t n) v) :
    v < n := by
  rw [← lookup_projections t hn] at h
  obtain ⟨u, hu, hd⟩ := h.of_lookup (by simpa using hn)
  obtain ⟨i, hi, rfl⟩ := List.mem_map.1 hu
  have hi := List.mem_range.1 hi
  rw [depends_proj hd (by omega)]
  exact hi

/-- A table of `n` variables repeats its low rows. -/
theorem bit_mod_of_depends {s : UInt64} {n : Nat} (hn : n ≤ 6) (hs : ∀ v, Depends s v → v < n)
    {r : Nat} (hr : r < 64) : bit s r = bit s (r % 2 ^ n) := by
  rw [bit_eq_value s hr, ← rowOf_low r hn]
  exact value_congr_support s fun v hv => by simp [hs v hv]

/-- Replication is the one way to make a table of `n` variables out of the low rows. -/
theorem eq_expand_iff (s t : UInt64) {n : Nat} (hn : n ≤ 6) : s = expand t n ↔
    (∀ r < 2 ^ n, bit s r = bit t r) ∧ ∀ v, Depends s v → v < n := by
  have hle : 2 ^ n ≤ 64 := Nat.pow_le_pow_right (n := 2) (by omega) hn
  constructor
  · rintro rfl
    refine ⟨fun r hr => ?_, fun v hv => depends_expand hn hv⟩
    rw [bit_expand t hn (by omega), Nat.mod_eq_of_lt hr]
  · rintro ⟨hlow, hs⟩
    refine eq_of_bit fun r hr => ?_
    rw [bit_expand t hn hr, bit_mod_of_depends hn hs hr]
    exact hlow _ (Nat.mod_lt _ (by positivity))

/-- Lookup composes tables as functions, with the variables as its neutral elements; looked up at
fewer variables, a table becomes the one of that many variables with the same low rows. -/
theorem lookup_composition (t : UInt64) {us ws : List UInt64} (hu : us.length ≤ 6)
    (hw : ws.length ≤ 6) {n : Nat} (hn : n ≤ 6) :
    lookup (lookup t us) ws = lookup t (us.map fun u => lookup u ws) ∧
    (∀ i (hi : i < ws.length), lookup (proj i) ws = ws[i]) ∧
    lookup t ((List.range n).map proj) = expand t n ∧
    ∀ s, s = expand t n ↔ (∀ r < 2 ^ n, bit s r = bit t r) ∧ ∀ v, Depends s v → v < n :=
  ⟨lookup_lookup t hu hw, fun _ hi => lookup_proj hw hi, lookup_projections t hn,
    fun s => eq_expand_iff s t hn⟩

/-- Exclusive or, written down for its four rows alone. -/
theorem lookup_composition_parity :
    ([proj 2, proj 0].length ≤ 6 ∧ [(0xff00 : UInt64), 0xf0f0, 0xcccc].length ≤ 6 ∧ 2 ≤ 6) ∧
    lookup (lookup 6 [proj 2, proj 0]) [0xff00, 0xf0f0, 0xcccc] = lookup 6 [0xcccc, 0xff00] ∧
    lookup 6 [0xcccc, 0xff00] = 0x33cc ∧
    lookup 6 [proj 0, proj 1] = 0x6666666666666666 ∧
    ∀ s, s = 0x6666666666666666 ↔ (∀ r < 2 ^ 2, bit s r = bit 6 r) ∧ ∀ v, Depends s v → v < 2 := by
  have hu : [proj 2, proj 0].length ≤ 6 := by decide
  have hw : [(0xff00 : UInt64), 0xf0f0, 0xcccc].length ≤ 6 := by decide
  have hn : 2 ≤ 6 := by decide
  obtain ⟨hcomp, hproj, hlow, hunique⟩ := lookup_composition 6 hu hw hn
  have h0 := hproj 0 (by decide)
  have h2 := hproj 2 (by decide)
  have hexpand : expand 6 2 = 0x6666666666666666 := by decide
  rw [hexpand] at hlow hunique
  refine ⟨⟨hu, hw, hn⟩, ?_, by decide +kernel, hlow, hunique⟩
  rw [hcomp, List.map_cons, List.map_cons, List.map_nil, h0, h2]
  rfl

end TechMap.Table

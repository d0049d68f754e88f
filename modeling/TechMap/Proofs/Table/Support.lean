import Mathlib
import TechMap.Proofs.Table.Value

/-! The support of a table. `dependsOn` tests it, `exchange` is the exchange of two variables, and
`compactSupport` keeps the function while it moves the variables of the support to the front. -/

namespace TechMap.Table

open Function

/-- Some assignment changes the value when variable `i` alone changes. -/
def Depends (t : UInt64) (i : Nat) : Prop :=
  ∃ a : Nat → Bool, value t (update a i true) ≠ value t (update a i false)

theorem toNat_one_shiftLeft : ∀ i < 6, ((1 : UInt64) <<< i.toUInt64).toNat = 2 ^ i := by
  decide +kernel

theorem rowOf_update_false : ∀ i < 6, ∀ r < 64, r.testBit i = false →
    rowOf (update r.testBit i false) = r := by decide +kernel

theorem rowOf_update_true : ∀ i < 6, ∀ r < 64, r.testBit i = false →
    rowOf (update r.testBit i true) = 2 ^ i + r := by decide +kernel

theorem ne_zero_iff_bit (w : UInt64) : w ≠ 0 ↔ ∃ k < 64, bit w k = true := by
  constructor
  · intro h
    by_contra hn
    push Not at hn
    exact h (eq_of_bit fun k hk => by rw [bit_zero]; simpa using hn k hk)
  · rintro ⟨k, _, hb⟩ rfl
    simp at hb

theorem dependsOn_iff {i : Nat} (hi : i < 6) (t : UInt64) :
    dependsOn t i = true ↔ Depends t i := by
  have hs := toNat_one_shiftLeft i hi
  have hlt : ((1 : UInt64) <<< i.toUInt64).toNat < 64 := by
    rw [hs]; exact Nat.pow_lt_pow_right (by omega) hi
  unfold dependsOn
  rw [bne_iff_ne, ne_zero_iff_bit]
  constructor
  · rintro ⟨r, hr, hb⟩
    rw [bit_and, bit_xor, bit_shiftRight _ _ _ hlt, hs, zeroRows, bit_not _ hr,
      bit_proj i hi r hr] at hb
    simp only [Bool.and_eq_true, bne_iff_ne, Bool.not_eq_true'] at hb
    obtain ⟨hd, hz⟩ := hb
    refine ⟨r.testBit, ?_⟩
    rw [value, value, rowOf_update_true i hi r hr hz, rowOf_update_false i hi r hr hz]
    exact fun h => hd h.symm
  · rintro ⟨a, ha⟩
    set r := rowOf (update a i false)
    have hr : r < 64 := rowOf_lt _
    have hz : r.testBit i = false := by rw [testBit_rowOf _ hi, update_self]
    have ht : value t (update a i true) = bit t (2 ^ i + r) := by
      rw [← rowOf_update_true i hi r hr hz]
      refine value_congr t fun j hj => ?_
      by_cases hji : j = i
      · rw [hji, update_self, update_self]
      · rw [update_of_ne hji, update_of_ne hji, testBit_rowOf _ hj, update_of_ne hji]
    refine ⟨r, hr, ?_⟩
    rw [bit_and, bit_xor, bit_shiftRight _ _ _ hlt, hs, zeroRows, bit_not _ hr, bit_proj i hi r hr, hz]
    rw [ht] at ha
    simpa using fun h => ha h.symm

theorem Depends.lt {t : UInt64} {i : Nat} (h : Depends t i) : i < 6 := by
  by_contra hi
  obtain ⟨a, ha⟩ := h
  refine ha (value_congr t fun j hj => ?_)
  rw [update_of_ne (by omega), update_of_ne (by omega)]

/-- A variable outside the support does not matter. -/
theorem value_update_of_not {t : UInt64} {i : Nat} (h : ¬ Depends t i) (a : Nat → Bool) (b : Bool) :
    value t (update a i b) = value t a := by
  have hb (c d : Bool) : value t (update a i c) = value t (update a i d) := by
    by_contra hn
    refine h ⟨a, ?_⟩
    cases c <;> cases d <;> simp_all [eq_comm]
  rw [hb b (a i), update_eq_self]

/-- Two assignments that agree on the support give the same value. -/
theorem value_congr_support (t : UInt64) {a b : Nat → Bool}
    (h : ∀ i, Depends t i → a i = b i) : value t a = value t b := by
  -- change one variable after the other
  have step (n : Nat) : value t (fun i => if i < n then b i else a i) = value t a := by
    induction n with
    | zero => simp
    | succ n ih =>
      have hu : (fun i => if i < n + 1 then b i else a i) =
          update (fun i => if i < n then b i else a i) n (b n) := by
        funext i
        by_cases hi : i = n
        · subst hi; simp
        · rw [update_of_ne hi]
          exact if_congr (by omega) rfl rfl
      rw [hu, ← ih]
      by_cases hd : Depends t n
      · rw [show update (fun i => if i < n then b i else a i) n (b n) =
          (fun i => if i < n then b i else a i) from by
            rw [update_eq_self_iff]; simp [h n hd]]
      · exact value_update_of_not hd _ _
  rw [← step 6]
  exact value_congr t fun i hi => by simp [hi]

/- Exchange. -/

theorem toNat_distance : ∀ i < 6, 0 < i →
    (((1 : UInt64) <<< i.toUInt64) - 1).toNat = 2 ^ i - 1 := by decide +kernel

/-- The row that `r` becomes when variables 0 and `i` are exchanged. -/
def exchangedRow (i r : Nat) : Nat := rowOf (r.testBit ∘ Equiv.swap 0 i)

theorem bit_fixedRows : ∀ i < 6, 0 < i → ∀ r < 64,
    bit (fixedRows.getD (i - 1) 0) r = decide (exchangedRow i r = r) := by decide +kernel

theorem bit_upRows : ∀ i < 6, 0 < i → ∀ r < 64,
    (!decide (r < 2 ^ i - 1) && bit (upRows.getD (i - 1) 0) (r - (2 ^ i - 1))) =
      decide (exchangedRow i r + (2 ^ i - 1) = r) := by decide +kernel

theorem bit_downRows : ∀ i < 6, 0 < i → ∀ r < 64,
    bit (downRows.getD (i - 1) 0) (2 ^ i - 1 + r) =
      decide (exchangedRow i r = 2 ^ i - 1 + r) := by decide +kernel

theorem exchangedRow_cases : ∀ i < 6, 0 < i → ∀ r < 64, exchangedRow i r = r ∨
    exchangedRow i r + (2 ^ i - 1) = r ∨ exchangedRow i r = 2 ^ i - 1 + r := by decide +kernel

theorem bit_exchangeFirst (t : UInt64) {i : Nat} (hi : i < 6) (h0 : 0 < i) {r : Nat} (hr : r < 64) :
    bit (exchangeFirst t i) r = bit t (exchangedRow i r) := by
  have hd := toNat_distance i hi h0
  have hlt : (((1 : UInt64) <<< i.toUInt64) - 1).toNat < 64 := by
    have : 2 ^ i < 64 := Nat.pow_lt_pow_right (m := i) (n := 6) (by omega) hi
    omega
  have hpos : 1 < 2 ^ i := Nat.one_lt_two_pow (by omega)
  have hf := bit_fixedRows i hi h0 r hr
  have hu := bit_upRows i hi h0 r hr
  have hw := bit_downRows i hi h0 r hr
  unfold exchangeFirst
  simp only [bit_or, bit_shiftLeft _ _ _ hlt, bit_shiftRight _ _ _ hlt, bit_and, hd, hf, hw]
  rw [Bool.and_comm (bit t (r - (2 ^ i - 1))), ← Bool.and_assoc, Bool.and_assoc (decide (r < 64)),
    hu]
  rcases exchangedRow_cases i hi h0 r hr with he | he | he
  · rw [he]
    simp only [decide_true, Bool.and_true]
    have h1 : 2 ^ i - 1 ≠ 0 := by omega
    simp [h1]
  · have h1 : ¬ exchangedRow i r = r := by omega
    have h2 : ¬ exchangedRow i r = 2 ^ i - 1 + r := by omega
    have h3 : r - (2 ^ i - 1) = exchangedRow i r := by omega
    simp [he, h1, h2, h3, hr]
  · have h1 : ¬ exchangedRow i r = r := by omega
    have h2 : ¬ exchangedRow i r + (2 ^ i - 1) = r := by omega
    rw [← he]
    simp [h1, h2]

theorem value_exchangeFirst (t : UInt64) {i : Nat} (hi : i < 6) (h0 : 0 < i) (a : Nat → Bool) :
    value (exchangeFirst t i) a = value t (a ∘ Equiv.swap 0 i) := by
  rw [value, bit_exchangeFirst t hi h0 (rowOf_lt a)]
  refine value_congr t fun j hj => ?_
  simp only [comp_apply]
  refine testBit_rowOf a ?_
  rw [Equiv.swap_apply_def]
  split_ifs <;> omega

/-- Variables `i` and `j` change places. -/
theorem value_exchange (t : UInt64) {i j : Nat} (hi : i < 6) (hj : j < 6) (a : Nat → Bool) :
    value (exchange t i j) a = value t (a ∘ Equiv.swap i j) := by
  unfold exchange
  split_ifs with hij
  · simp [hij]
  · match i, j, hij with
    | 0, j, _ => exact value_exchangeFirst t hj (by omega) a
    | i + 1, 0, _ => rw [Equiv.swap_comm]; exact value_exchangeFirst t hi (by omega) a
    | i + 1, j + 1, hij =>
      simp only
      rw [value_exchangeFirst _ hi (by omega), value_exchangeFirst _ hj (by omega),
        value_exchangeFirst _ hi (by omega)]
      congr 1
      funext v
      have hs : Equiv.swap 0 (i + 1) (Equiv.swap 0 (j + 1) (Equiv.swap 0 (i + 1) v)) =
          Equiv.swap (i + 1) (j + 1) v := by
        simp only [Equiv.swap_apply_def]
        grind
      simp only [comp_apply, hs]

/- Compaction. -/

/-- Where the loop of `compactSupport` stands before variable `i`: the first variables of the new
table are those kept, and from `i` on nothing has moved. -/
structure Compacted (t : UInt64) (i : Nat) (s : UInt64 × List Nat) : Prop where
  kept : s.2 = (List.range i).filter (dependsOn t)
  value : ∀ a b : Nat → Bool, (∀ p v, s.2[p]? = some v → b v = a p) → (∀ v, i ≤ v → b v = a v) →
    value s.1 a = Table.value t b

namespace Compacted

variable {t : UInt64} {i : Nat} {s : UInt64 × List Nat}

theorem kept_lt (h : Compacted t i s) {p v : Nat} (hv : s.2[p]? = some v) : v < i := by
  have := List.mem_of_getElem? hv
  rw [h.kept] at this
  exact List.mem_range.1 (List.mem_of_mem_filter this)

theorem length_le (h : Compacted t i s) : s.2.length ≤ i := by
  rw [h.kept]
  simpa using List.length_filter_le (dependsOn t) (List.range i)

theorem pos_lt (h : Compacted t i s) {p v : Nat} (hv : s.2[p]? = some v) : p < i :=
  lt_of_lt_of_le (List.getElem?_eq_some_iff.1 hv).1 h.length_le

theorem nodup (h : Compacted t i s) : s.2.Nodup := by
  rw [h.kept]
  exact List.nodup_range.filter _

/-- An assignment of the new table, seen from the old one. -/
theorem exists_spread (h : Compacted t i s) (a : Nat → Bool) : ∃ b : Nat → Bool,
    (∀ p v, s.2[p]? = some v → b v = a p) ∧ ∀ v, i ≤ v → b v = a v := by
  refine ⟨fun v => if v ∈ s.2 then a (s.2.idxOf v) else a v, fun p v hv => ?_, fun v hv => ?_⟩
  · obtain ⟨hp, rfl⟩ := List.getElem?_eq_some_iff.1 hv
    simp [h.nodup.idxOf_getElem p hp]
  · have : v ∉ s.2 := fun hm => by
      obtain ⟨p, hp⟩ := List.mem_iff_getElem?.1 hm
      have := h.kept_lt hp
      omega
    simp [this]

/-- An assignment of the old table, seen from the new one. -/
theorem exists_gather (h : Compacted t i s) (b : Nat → Bool) : ∃ a : Nat → Bool,
    (∀ p v, s.2[p]? = some v → b v = a p) ∧ ∀ v, i ≤ v → b v = a v := by
  refine ⟨fun p => b (s.2.getD p p), fun p v hv => ?_, fun v hv => ?_⟩
  · simp [List.getD_eq_getElem?_getD, hv]
  · change b v = b (s.2.getD v v)
    rw [List.getD_eq_default _ _ (h.length_le.trans hv)]

theorem value_update (h : Compacted t i s) {a b : Nat → Bool}
    (hp : ∀ p v, s.2[p]? = some v → b v = a p) (hv : ∀ v, i ≤ v → b v = a v) (x : Bool) :
    Table.value s.1 (update a i x) = Table.value t (update b i x) := by
  refine h.value _ _ (fun p v hpv => ?_) (fun v hiv => ?_)
  · rw [update_of_ne (h.kept_lt hpv).ne, update_of_ne (h.pos_lt hpv).ne, hp p v hpv]
  · by_cases hi : v = i
    · rw [hi, update_self, update_self]
    · rw [update_of_ne hi, update_of_ne hi, hv v hiv]

theorem depends_iff (h : Compacted t i s) : Depends s.1 i ↔ Depends t i := by
  constructor
  · rintro ⟨a, ha⟩
    obtain ⟨b, hp, hv⟩ := h.exists_spread a
    exact ⟨b, by rwa [← h.value_update hp hv, ← h.value_update hp hv]⟩
  · rintro ⟨b, hb⟩
    obtain ⟨a, hp, hv⟩ := h.exists_gather b
    exact ⟨a, by rwa [h.value_update hp hv, h.value_update hp hv]⟩

theorem dependsOn_eq (h : Compacted t i s) (hi : i < 6) : dependsOn s.1 i = dependsOn t i := by
  rw [Bool.eq_iff_iff, dependsOn_iff hi, dependsOn_iff hi, h.depends_iff]

theorem keep (h : Compacted t i s) (hi : i < 6) (hd : dependsOn s.1 i = true) :
    Compacted t (i + 1) (exchange s.1 s.2.length i, s.2 ++ [i]) := by
  constructor
  · rw [List.range_succ, List.filter_append, ← h.kept, List.filter_singleton,
      ← h.dependsOn_eq hi, hd]
    rfl
  · intro a b hp hv
    have hk := h.length_le
    have hlast : b i = a s.2.length := hp _ _ (by simp)
    rw [value_exchange _ (by omega) hi]
    refine h.value _ _ (fun p v hpv => ?_) (fun v hiv => ?_)
    · have hlt := (List.getElem?_eq_some_iff.1 hpv).1
      rw [comp_apply, Equiv.swap_apply_of_ne_of_ne hlt.ne (h.pos_lt hpv).ne]
      exact hp p v (by rw [List.getElem?_append_left hlt, hpv])
    · rw [comp_apply]
      by_cases he : v = i
      · rw [he, Equiv.swap_apply_right, hlast]
      · rw [Equiv.swap_apply_of_ne_of_ne (by omega) he]
        exact hv v (by omega)

theorem skip (h : Compacted t i s) (hi : i < 6) (hd : dependsOn s.1 i = false) :
    Compacted t (i + 1) s := by
  have hn : ¬ Depends t i := by
    rw [← dependsOn_iff hi, ← h.dependsOn_eq hi, hd]; simp
  constructor
  · rw [List.range_succ, List.filter_append, ← h.kept, List.filter_singleton,
      ← h.dependsOn_eq hi, hd]
    simp
  · intro a b hp hv
    rw [← value_update_of_not hn b (a i)]
    refine h.value _ _ (fun p v hpv => ?_) (fun v hiv => ?_)
    · rw [update_of_ne (h.kept_lt hpv).ne, hp p v hpv]
    · by_cases he : v = i
      · rw [he, update_self]
      · rw [update_of_ne he]
        exact hv v (by omega)

end Compacted

theorem compacted_compactSupport (t : UInt64) {n : Nat} (hn : n ≤ 6) :
    Compacted t n (compactSupport t n) := by
  induction n with
  | zero => exact ⟨rfl, fun a b _ hv => value_congr t fun v _ => (hv v (Nat.zero_le v)).symm⟩
  | succ n ih =>
    have h := ih (by omega)
    unfold compactSupport at h ⊢
    rw [List.range_succ, List.foldl_append]
    set s := (List.range n).foldl _ (t, [])
    simp only [List.foldl_cons, List.foldl_nil]
    by_cases hd : dependsOn s.1 n = true
    · rw [if_pos hd]
      exact h.keep (by omega) hd
    · rw [if_neg hd]
      exact h.skip (by omega) (by simpa using hd)

theorem kept_compactSupport (t : UInt64) {n : Nat} (hn : n ≤ 6) :
    (compactSupport t n).2 = (List.range n).filter (dependsOn t) :=
  (compacted_compactSupport t hn).kept

/-- The new table reads at position `p` what the old one read at the `p`th kept variable. -/
theorem value_compactSupport {t : UInt64} {n : Nat} (hn : n ≤ 6) (ht : ∀ v, Depends t v → v < n)
    {a b : Nat → Bool} (h : ∀ p v, (compactSupport t n).2[p]? = some v → b v = a p) :
    value (compactSupport t n).1 a = value t b := by
  have hc := compacted_compactSupport t hn
  rw [hc.value a (fun v => if v < n then b v else a v) (fun p v hpv => ?_) (fun v hv => ?_)]
  · exact value_congr_support t fun v hv => if_pos (ht v hv)
  · rw [if_pos (hc.kept_lt hpv), h p v hpv]
  · exact if_neg (by omega)

/-- The new table depends on every variable that it has room for, and on no other. -/
theorem depends_compactSupport {t : UInt64} {n : Nat} (hn : n ≤ 6)
    (ht : ∀ v, Depends t v → v < n) (p : Nat) :
    Depends (compactSupport t n).1 p ↔ p < (compactSupport t n).2.length := by
  have hc := compacted_compactSupport t hn
  constructor
  · rintro ⟨a, ha⟩
    by_contra hp
    obtain ⟨b, hb, _⟩ := hc.exists_spread a
    have hx (x : Bool) : value (compactSupport t n).1 (update a p x) = value t b := by
      refine value_compactSupport hn ht fun q v hqv => ?_
      rw [update_of_ne (by have := (List.getElem?_eq_some_iff.1 hqv).1; omega), hb q v hqv]
    exact ha (by rw [hx, hx])
  · intro hp
    set v := (compactSupport t n).2[p] with hv
    have hpv : (compactSupport t n).2[p]? = some v := List.getElem?_eq_getElem hp
    have hd : Depends t v := by
      have hm := List.mem_of_getElem? hpv
      rw [hc.kept] at hm
      exact (dependsOn_iff (by have := hc.kept_lt hpv; omega) t).1 (List.mem_filter.1 hm).2
    obtain ⟨b, hb⟩ := hd
    obtain ⟨a, ha, _⟩ := hc.exists_gather b
    have hx (x : Bool) :
        value (compactSupport t n).1 (update a p x) = value t (update b v x) := by
      refine value_compactSupport hn ht fun q w hqw => ?_
      by_cases hq : q = p
      · subst hq
        obtain rfl : v = w := by simpa [hpv] using hqw
        rw [update_self, update_self]
      · have hw : w ≠ v := by
          rintro rfl
          obtain ⟨h1, h2⟩ := List.getElem?_eq_some_iff.1 hqw
          exact hq ((hc.nodup.getElem_inj_iff).1 h2)
        rw [update_of_ne hw, update_of_ne hq, ha q w hqw]
    exact ⟨a, by rwa [hx, hx]⟩

theorem mem_compactSupport {t : UInt64} {n : Nat} (hn : n ≤ 6) (ht : ∀ v, Depends t v → v < n)
    (v : Nat) : v ∈ (compactSupport t n).2 ↔ Depends t v := by
  rw [kept_compactSupport t hn, List.mem_filter, List.mem_range]
  constructor
  · rintro ⟨hv, hd⟩
    exact (dependsOn_iff (by omega) t).1 hd
  · intro hd
    have hv := ht v hd
    exact ⟨hv, (dependsOn_iff (by omega) t).2 hd⟩

/-- The variables that matter move to the front in their order and the function stays, by exchanges
of two variables. -/
theorem compactSupport_exact (t : UInt64) {n : Nat} (hn : n ≤ 6) (ht : ∀ v, Depends t v → v < n) :
    ((compactSupport t n).2.Pairwise (· < ·) ∧
      ∀ v, v ∈ (compactSupport t n).2 ↔ Depends t v) ∧
    (∀ p, Depends (compactSupport t n).1 p ↔ p < (compactSupport t n).2.length) ∧
    (∀ a b : Nat → Bool, (∀ p v, (compactSupport t n).2[p]? = some v → a p = b v) →
      value (compactSupport t n).1 a = value t b) ∧
    ∀ s : UInt64, ∀ i < 6, ∀ j < 6, ∀ a,
      value (exchange s i j) a = value s (a ∘ Equiv.swap i j) := by
  refine ⟨⟨?_, mem_compactSupport hn ht⟩, depends_compactSupport hn ht, fun a b hab => ?_,
    fun s i hi j hj a => value_exchange s hi hj a⟩
  · rw [kept_compactSupport t hn]
    exact List.pairwise_lt_range.filter _
  · exact value_compactSupport hn ht fun p v hpv => (hab p v hpv).symm

/-- Of four variables the second and the last matter. -/
theorem compactSupport_exact_sparse : (∀ v, Depends (proj 1 &&& ~~~ proj 3) v → v < 4) ∧
    compactSupport (proj 1 &&& ~~~ proj 3) 4 = (proj 0 &&& ~~~ proj 1, [1, 3]) ∧
    (∀ p, Depends (proj 0 &&& ~~~ proj 1) p ↔ p < 2) ∧
    ∀ a b : Nat → Bool, a 0 = b 1 → a 1 = b 3 →
      value (proj 0 &&& ~~~ proj 1) a = value (proj 1 &&& ~~~ proj 3) b := by
  have ht : ∀ v, Depends (proj 1 &&& ~~~ proj 3) v → v < 4 := by
    intro v hv
    have hlt := hv.lt
    have hd := (dependsOn_iff hlt _).2 hv
    interval_cases v <;> revert hd <;> decide
  have he : compactSupport (proj 1 &&& ~~~ proj 3) 4 = (proj 0 &&& ~~~ proj 1, [1, 3]) := by decide
  obtain ⟨-, hdep, hval, -⟩ := compactSupport_exact (proj 1 &&& ~~~ proj 3) (by decide) ht
  rw [he] at hdep hval
  refine ⟨ht, he, hdep, fun a b h0 h1 => hval a b fun p v hpv => ?_⟩
  match p with
  | 0 =>
    obtain rfl : 1 = v := by simpa using hpv
    exact h0
  | 1 =>
    obtain rfl : 3 = v := by simpa using hpv
    exact h1
  | p + 2 => simp at hpv

end TechMap.Table

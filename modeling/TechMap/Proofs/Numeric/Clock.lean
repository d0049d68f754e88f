import Mathlib
import TechMap.Proofs.Numeric.Rounding
import TechMap.Proofs.Numeric.Timed

/-! Times, and the delays that nodes add to them. Times are ordered, none is infinite, and adding a
delay gives a time again and keeps the order. Sums may be rounded, so nothing else is asked of
them. -/

namespace TechMap

/-- What a node adds to a time: nothing, a level, or some eighths of a level. -/
inductive IsDelay {α : Type} [Quantity α] : α → Prop
  | none : IsDelay 0
  | level : IsDelay 1
  | eighths {n : Nat} (h : n < 2 ^ 32) : IsDelay (Quantity.ofNat n / Quantity.ofNat 8)

class Clock (α : Type) [Quantity α] where
  IsTime : α → Prop
  key : α → ℚ
  key_inj : ∀ {x y : α}, IsTime x → IsTime y → key x = key y → x = y
  zero : IsTime (0 : α)
  key_zero_le : ∀ {x : α}, IsTime x → key 0 ≤ key x
  lt_eq : ∀ {x y : α}, IsTime x → IsTime y → Quantity.lt x y = decide (key x < key y)
  le_eq : ∀ {x y : α}, IsTime x → IsTime y → Quantity.le x y = decide (key x ≤ key y)
  order_eq : ∀ {x y : α}, IsTime x → IsTime y → Quantity.order x y = compare (key x) (key y)
  max_eq : ∀ {x y : α}, IsTime x → IsTime y → max x y = if key x ≤ key y then y else x
  add : ∀ {x d : α}, IsTime x → IsDelay d → IsTime (x + d)
  add_mono : ∀ {x y d : α}, IsTime x → IsTime y → IsDelay d → key x ≤ key y →
    key (x + d) ≤ key (y + d)
  finite : ∀ {x : α}, IsTime x → Quantity.isInfinite x = false

namespace Clock

variable {α β : Type} [Quantity α] [Clock α] {x y d : α}

theorem max_time (hx : IsTime x) (hy : IsTime y) : IsTime (max x y) ∧
    key (max x y) = max (key x) (key y) ∧ (max x y = x ∨ max x y = y) := by
  rw [max_eq hx hy]
  split_ifs with h
  · exact ⟨hy, (max_eq_right h).symm, .inr rfl⟩
  · exact ⟨hx, (max_eq_left (le_of_not_ge h)).symm, .inl rfl⟩

/-- The latest of a list of times. -/
theorem foldl_max {f : β → α} {xs : List β} (hf : ∀ b ∈ xs, IsTime (f b)) (hx : IsTime x) :
    IsTime (xs.foldl (fun acc b => max acc (f b)) x) ∧
    key x ≤ key (xs.foldl (fun acc b => max acc (f b)) x) ∧
    (∀ b ∈ xs, key (f b) ≤ key (xs.foldl (fun acc b => max acc (f b)) x)) ∧
    (xs.foldl (fun acc b => max acc (f b)) x = x ∨
      ∃ b ∈ xs, xs.foldl (fun acc b => max acc (f b)) x = f b) := by
  induction xs generalizing x with
  | nil => exact ⟨hx, le_rfl, by simp, .inl rfl⟩
  | cons b xs ih =>
    obtain ⟨ht, hk, hsel⟩ := max_time hx (hf b (by simp))
    obtain ⟨h1, h2, h3, h4⟩ := ih (fun c hc => hf c (List.mem_cons_of_mem _ hc)) ht
    rw [List.foldl_cons]
    rw [hk] at h2
    refine ⟨h1, (le_max_left _ _).trans h2, fun c hc => ?_, ?_⟩
    · rcases List.mem_cons.1 hc with rfl | hc
      · exact (le_max_right _ _).trans h2
      · exact h3 c hc
    · rcases h4 with h4 | ⟨c, hc, h4⟩
      · rcases hsel with hsel | hsel
        · exact .inl (h4.trans hsel)
        · exact .inr ⟨b, by simp, h4.trans hsel⟩
      · exact .inr ⟨c, List.mem_cons_of_mem _ hc, h4⟩

end Clock

namespace Single

open Rounding Float.Model Float.Model.UnpackedFloat

variable {x y : Single} {b : Nat}

theorem magnitude_eq (h : x.bits.toNat < top) : x.magnitude = x.bits := by
  refine UInt32.toNat_inj.1 ?_
  rw [toNat_magnitude]
  simp only [top] at h
  omega

theorem isNegative_eq (h : x.bits.toNat < top) : x.isNegative = false := by
  refine Bool.eq_false_iff.2 fun hneg => ?_
  rw [isNegative_iff] at hneg
  simp only [top] at h
  omega

theorem isNaN_eq (h : x.bits.toNat < top) : x.isNaN = false := by
  have hle : ¬ (0x7f800000 : UInt32) < x.bits := fun hlt => lt_asymm h (UInt32.lt_iff_toNat_lt.1 hlt)
  simpa [isNaN, magnitude_eq h] using hle

theorem bits_ofValue {v : Float32} (hb : b ≤ top)
    (h : v.toBits.toBitVec = BitVec.ofNat 32 b) : (ofValue v).bits.toNat = b := by
  have hnan : v.isNaN = false := by
    show (UnpackedFloat.unpack Format.binary32 v.toBits.toBitVec).isNaN = false
    rw [h]
    rcases Nat.lt_or_eq_of_le hb with hlt | rfl
    · rcases Nat.eq_zero_or_pos b with rfl | hpos
      · decide
      · obtain ⟨m, e, hm, hu, -⟩ := unpack_finite hpos hlt
        rw [hu]
        rfl
    · decide
  have hlt : b < 2 ^ 31 := by
    simp only [top] at hb
    omega
  rw [ofValue, hnan]
  show v.toBits.toBitVec.toNat = b
  rw [h]
  exact toNat_ofNat_pattern hlt

theorem unpack_value (h : x.bits.toNat < top) : x.value.toModel.unpack =
    UnpackedFloat.unpack Format.binary32 (BitVec.ofNat 32 x.bits.toNat) := by
  have hbits : BitVec.ofNat 32 x.bits.toNat = x.bits.toBitVec := by simp
  have hvalid := valid_of_lt h
  rw [hbits] at hvalid ⊢
  show UnpackedFloat.unpack Format.binary32 (UnpackedFloat.pack Format.binary32
    (UnpackedFloat.unpack Format.binary32 x.bits.toBitVec)) = _
  rw [pack_unpack_of_valid hvalid (by decide)]

/-- The sum of two finite numbers without a sign, rounded. -/
theorem bits_add (hx : x.bits.toNat < top) (hy : y.bits.toNat < top) :
    (x + y).bits.toNat = rounded (worth x.bits.toNat + worth y.bits.toNat) := by
  have hsum : x + y = ofValue (x.value + y.value) := by
    show lift (· + ·) x y = _
    simp [lift, isNaN_eq hx, isNaN_eq hy]
  rw [hsum]
  refine bits_ofValue (rounded_le _) ?_
  show UnpackedFloat.pack Format.binary32
    (UnpackedFloat.add Format.binary32 x.value.toModel.unpack y.value.toModel.unpack) = _
  rw [unpack_value hx, unpack_value hy]
  have hself {b : Nat} (hb : b < top) : UnpackedFloat.pack Format.binary32
      (UnpackedFloat.unpack Format.binary32 (BitVec.ofNat 32 b)) =
        BitVec.ofNat 32 (rounded (worth b)) := by
    rw [pack_unpack_of_valid (valid_of_lt hb) (by decide), rounded_worth hb.le]
  rcases Nat.eq_zero_or_pos x.bits.toNat with hx0 | hxpos
  · rw [hx0, unpack_zero, show worth 0 = 0 from rfl, Nat.zero_add, ← hself hy]
    rcases Nat.eq_zero_or_pos y.bits.toNat with hy0 | hypos
    · rw [hy0, unpack_zero]
      rfl
    · obtain ⟨m, e, hm, hu, -⟩ := unpack_finite hypos hy
      rw [hu]
      rfl
  · obtain ⟨m, e, hm, hu, hworth, -⟩ := unpack_finite hxpos hx
    rcases Nat.eq_zero_or_pos y.bits.toNat with hy0 | hypos
    · rw [hy0, unpack_zero, show worth 0 = 0 from rfl, Nat.add_zero, ← hself hx, hu]
      rfl
    · obtain ⟨m', e', hm', hu', hworth', -⟩ := unpack_finite hypos hy
      rw [hu, hu', pack_add, hworth, hworth']

theorem bits_ofNat {n : Nat} (h : n < 2 ^ 64) :
    (Single.ofNat n).bits.toNat = rounded (n * 2 ^ 149) := by
  have hn : n.toUInt64.toNat = n := Nat.mod_eq_of_lt h
  rw [Single.ofNat, if_pos (show n < UInt64.size from h)]
  refine bits_ofValue (rounded_le _) ?_
  show UnpackedFloat.pack Format.binary32
    (UnpackedFloat.ofNat Format.binary32 n.toUInt64.toNat) = _
  rw [hn, pack_ofNat]

theorem bits_eight : (Single.ofNat 8).bits.toNat = 0x41000000 := by
  rw [bits_ofNat (by decide)]
  decide +kernel

/-- An eighth of a number from one up, or of zero, is not larger than the number. -/
theorem bits_div_eight_le (hx : x.bits.toNat < top)
    (h : x.bits.toNat = 0 ∨ 0x3f800000 ≤ x.bits.toNat) :
    (x / Single.ofNat 8).bits.toNat ≤ x.bits.toNat := by
  have h8 : (Single.ofNat 8).bits.toNat < top := by
    rw [bits_eight]
    decide
  have hquot : x / Single.ofNat 8 = ofValue (x.value / (Single.ofNat 8).value) := by
    show lift (· / ·) x (Single.ofNat 8) = _
    simp [lift, isNaN_eq hx, isNaN_eq h8]
  obtain ⟨m₈, e₈, hm₈, hu₈, hworth₈, hnormal₈⟩ :=
    unpack_finite (b := 0x41000000) (by decide) (by decide)
  obtain ⟨hlog₈, rfl⟩ := hnormal₈ (by decide)
  obtain rfl : m₈ = 2 ^ 23 := by
    have : worth 0x41000000 = 2 ^ 23 * 2 ^ (0x41000000 / 2 ^ 23 - 1) := by decide +kernel
    exact Nat.eq_of_mul_eq_mul_right (Nat.two_pow_pos _) (hworth₈.trans this)
  have hbits (b : Nat) (hb : b ≤ top) (hpack : UnpackedFloat.pack Format.binary32
      (UnpackedFloat.div Format.binary32 x.value.toModel.unpack
        (Single.ofNat 8).value.toModel.unpack) = BitVec.ofNat 32 b) :
      (x / Single.ofNat 8).bits.toNat = b := by
    rw [hquot]
    exact bits_ofValue hb hpack
  rw [unpack_value hx, unpack_value h8, bits_eight, hu₈] at hbits
  rcases h with h0 | hge
  · rw [hbits 0 (by decide) (by rw [h0, unpack_zero]; rfl), h0]
  · obtain ⟨m, e, hm, hu, hworth, hnormal⟩ := unpack_finite (by omega) hx
    obtain ⟨hlog, he⟩ := hnormal (by omega)
    have hle : m * 2 ^ (e - 3) ≤ worth x.bits.toNat := by
      rw [← hworth]
      exact Nat.mul_le_mul_left _ (Nat.pow_le_pow_right (by omega) (by omega))
    rw [hbits (rounded (m * 2 ^ (e - 3))) (rounded_le _)
      (by rw [hu]; exact pack_div_eight hm hlog (by omega) _)]
    exact (rounded_mono hle).trans (rounded_worth hx.le).le

/-- No delay of a node is longer than this number, 2 ^ 32. -/
theorem bits_le_of_isDelay {d : Single} (h : IsDelay d) : d.bits.toNat ≤ 0x4f800000 := by
  cases h with
  | none =>
    show (Single.ofNat 0).bits.toNat ≤ _
    rw [bits_ofNat (by decide)]
    decide
  | level =>
    show (Single.ofNat 1).bits.toNat ≤ _
    rw [bits_ofNat (by decide)]
    decide +kernel
  | @eighths n hn =>
    have hbits := bits_ofNat (n := n) (by omega)
    have hle : (Single.ofNat n).bits.toNat ≤ 0x4f800000 := by
      have : rounded (2 ^ 32 * 2 ^ 149) = 0x4f800000 := by decide +kernel
      rw [hbits, ← this]
      exact rounded_mono (Nat.mul_le_mul_right _ hn.le)
    refine (bits_div_eight_le (lt_of_le_of_lt hle (by decide)) ?_).trans hle
    rcases Nat.eq_zero_or_pos n with rfl | hpos
    · exact .inl (hbits.trans (by decide))
    · have : rounded (1 * 2 ^ 149) = 0x3f800000 := by decide +kernel
      rw [hbits, ← this]
      exact .inr (rounded_mono (Nat.mul_le_mul_right _ hpos))

theorem key_eq (h : x.bits.toNat < top) : x.key = x.bits.toNat := by
  rw [key, isNegative_eq h, magnitude_eq h]
  simp

theorem rank_eq (h : x.bits.toNat < top) : x.rank = x.bits.toNat := by
  rw [rank, isNegative_eq h, magnitude_eq h]
  simp

theorem lt_eq (hx : x.bits.toNat < top) (hy : y.bits.toNat < top) :
    x.lt y = decide (x.bits.toNat < y.bits.toNat) := by
  simp [lt, isNaN_eq hx, isNaN_eq hy, key_eq hx, key_eq hy]

theorem le_eq (hx : x.bits.toNat < top) (hy : y.bits.toNat < top) :
    x.le y = decide (x.bits.toNat ≤ y.bits.toNat) := by
  simp [le, isNaN_eq hx, isNaN_eq hy, key_eq hx, key_eq hy]

/-- The finite numbers without a sign are times. -/
instance : Clock Single where
  IsTime x := x.bits.toNat < top
  key x := x.bits.toNat
  key_inj {x y} _ _ h := by
    have : x.bits = y.bits := UInt32.toNat_inj.1 (by exact_mod_cast h)
    cases x
    cases y
    simp_all
  zero := by
    show (Single.ofNat 0).bits.toNat < top
    rw [bits_ofNat (by decide)]
    decide
  key_zero_le {x} _ := by
    have : (Single.ofNat 0).bits.toNat = 0 := (bits_ofNat (by decide)).trans (by decide)
    show ((Single.ofNat 0).bits.toNat : ℚ) ≤ x.bits.toNat
    rw [this]
    positivity
  lt_eq hx hy := by
    refine (lt_eq hx hy).trans ?_
    simp
  le_eq hx hy := by
    refine (le_eq hx hy).trans ?_
    simp
  order_eq {x y} hx hy := by
    show compare x.rank y.rank = _
    rw [rank_eq hx, rank_eq hy]
    rcases lt_trichotomy x.bits.toNat y.bits.toNat with h | h | h
    · rw [compare_lt_iff_lt.2 (by exact_mod_cast h), compare_lt_iff_lt.2 (by exact_mod_cast h)]
    · rw [h, compare_eq_iff_eq.2 rfl, compare_eq_iff_eq.2 rfl]
    · rw [compare_gt_iff_gt.2 (by exact_mod_cast h), compare_gt_iff_gt.2 (by exact_mod_cast h)]
  max_eq {x y} hx hy := by
    show Single.max x y = _
    rw [Single.max, isNaN_eq hy, lt_eq hy hx]
    simp only [Bool.false_or, decide_eq_true_eq, Nat.cast_le]
    split_ifs <;> first | rfl | omega
  add {x d} hx hd := by
    have hd := bits_le_of_isDelay hd
    have hx' : x.bits.toNat ≤ top - 1 := Nat.le_sub_one_of_lt hx
    show (x + d).bits.toNat < top
    rw [bits_add hx (lt_of_le_of_lt hd (by decide))]
    have htop : rounded (worth (top - 1) + worth 0x4f800000) < top := by decide +kernel
    exact lt_of_le_of_lt (rounded_mono (Nat.add_le_add (worth_mono hx') (worth_mono hd))) htop
  add_mono {x y d} hx hy hd hle := by
    have hd : d.bits.toNat < top := lt_of_le_of_lt (bits_le_of_isDelay hd) (by decide)
    have hle : x.bits.toNat ≤ y.bits.toNat := by exact_mod_cast hle
    rw [bits_add hx hd, bits_add hy hd]
    exact_mod_cast rounded_mono (Nat.add_le_add_right (worth_mono hle) _)
  finite {x} hx := by
    refine beq_eq_false_iff_ne.2 fun he => ?_
    rw [he] at hx
    exact absurd hx (by decide)

end Single

namespace Timed

variable {α : Type} [Quantity α] [Timed α]

theorem exact_of_isDelay {d : α} (h : IsDelay d) : Exact d ∧ 0 ≤ val d := by
  cases h with
  | none => exact ⟨exact_zero, val_zero.ge⟩
  | level => rw [one_eq]; simp
  | @eighths n _ =>
    rw [num_eighths]
    simp only [exact_num, val_num, true_and]
    positivity

/-- The exact values from zero up are times. -/
instance (priority := low) : Clock α where
  IsTime x := Exact x ∧ 0 ≤ val x
  key := val
  key_inj {x y} hx hy h := by rw [← hx.1, ← hy.1, h]
  zero := ⟨exact_zero, val_zero.ge⟩
  key_zero_le hx := val_zero.trans_le hx.2
  lt_eq hx hy := lt_exact hx.1 hy.1
  le_eq hx hy := le_exact hx.1 hy.1
  order_eq {x y} hx hy := by rw [← order_num (α := α), hx.1, hy.1]
  max_eq {x y} hx hy := by
    have hmax := num_max (α := α) (val x) (val y)
    rw [hx.1, hy.1] at hmax
    rw [hmax]
    split_ifs with hle
    · rw [max_eq_right hle, hy.1]
    · rw [max_eq_left (le_of_not_ge hle), hx.1]
  add {x d} hx hd := by
    obtain ⟨hd, hd0⟩ := exact_of_isDelay hd
    obtain ⟨hsum, hval⟩ := add_exact hx.1 hd
    exact ⟨hsum, hval ▸ add_nonneg hx.2 hd0⟩
  add_mono {x y d} hx hy hd hle := by
    obtain ⟨hd, -⟩ := exact_of_isDelay hd
    rw [(add_exact hx.1 hd).2, (add_exact hy.1 hd).2]
    exact add_le_add_left hle _
  finite {x} hx := by rw [← hx.1, Timed.finite]

end Timed

end TechMap

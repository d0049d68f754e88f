import Mathlib
import TechMap.Proofs.Numeric.Clock
import TechMap.Proofs.Numeric.Comparison

/-! Sums that grow. Adding a number from zero up does not make a sum smaller. That is all that is asked
of addition: sums may be rounded and may overflow, so binary32 has these laws with its infinity and
its two zeros. -/

namespace TechMap

class Growing (α : Type) [Quantity α] : Prop extends Topped α where
  zero_le_zero : Quantity.le (0 : α) 0 = true
  le_self : ∀ {x y : α}, Quantity.le x y = true → Quantity.le y y = true
  trans : ∀ {x y z : α}, Quantity.le x y = true → Quantity.le y z = true → Quantity.le x z = true
  lt_iff : ∀ {x y : α}, Quantity.le x x = true → Quantity.le y y = true →
    (Quantity.lt y x = true ↔ ¬ Quantity.le x y = true)
  le_add : ∀ {x y : α}, Quantity.le 0 x = true → Quantity.le 0 y = true →
    Quantity.le x (x + y) = true
  zero_le_mul : ∀ {x : α} {n : Nat}, Quantity.le 0 x = true → 0 < n → n < 256 →
    Quantity.le 0 (x * Quantity.ofNat n) = true

namespace Single

open Rounding Float.Model Float.Model.UnpackedFloat

variable {x y : Single}

def negZero : Single := ⟨0x80000000⟩

theorem bits_zero : (0 : Single).bits.toNat = 0 := (bits_ofNat (by decide)).trans (by decide)

theorem eq_of_bits (h : x.bits.toNat = y.bits.toNat) : x = y := by
  cases x
  cases y
  exact congrArg Single.mk (UInt32.toNat_inj.1 h)

/-- The numbers from zero up: the finite ones without a sign, infinity, and the other zero. -/
theorem zero_le_iff : (0 : Single).le x = true ↔
    x.bits.toNat < top ∨ x = .infinity ∨ x = negZero := by
  have hzero : (0 : Single).bits.toNat < top := by
    rw [bits_zero]
    decide
  have hkey : (0 : Single).key = 0 := by
    rw [key_eq hzero, bits_zero]
    rfl
  rw [le_iff_key, hkey, and_iff_right (isNaN_eq hzero)]
  constructor
  · rintro ⟨hnan, hle⟩
    have hmag : ¬ 0x7f800000 < x.magnitude.toNat := by
      rw [← isNaN_iff, hnan]
      exact Bool.false_ne_true
    rw [toNat_magnitude] at hmag
    have hlt : x.bits.toNat < 2 ^ 32 := x.bits.toNat_lt
    unfold key at hle
    rw [toNat_magnitude] at hle
    split at hle
    · rename_i hneg
      rw [isNegative_iff] at hneg
      refine .inr (.inr (eq_of_bits ?_))
      show x.bits.toNat = 0x80000000
      omega
    · rename_i hneg
      rw [isNegative_iff] at hneg
      rcases Nat.lt_or_ge x.bits.toNat top with h | h
      · exact .inl h
      · refine .inr (.inl (eq_of_bits ?_))
        show x.bits.toNat = 0x7f800000
        simp only [top] at h
        omega
  · rintro (h | rfl | rfl)
    · exact ⟨isNaN_eq h, by simp [key_eq h]⟩
    · decide
    · decide

section Bits

variable {v : Float32}

theorem unpack_infinity : infinity.value.toModel.unpack = .infinity .positive := rfl

theorem unpack_negZero : negZero.value.toModel.unpack = .zero .negative := rfl

/-- A result that is one of the two patterns without a value. -/
theorem ofValue_infinity (h : v.toBits.toBitVec = 0x7f800000#32) : ofValue v = infinity :=
  eq_of_bits ((bits_ofValue Nat.le.refl h).trans rfl)

theorem ofValue_negZero (h : v.toBits.toBitVec = 0x80000000#32) : ofValue v = negZero := by
  have hnan : v.isNaN = false := by
    show (UnpackedFloat.unpack Format.binary32 v.toBits.toBitVec).isNaN = false
    rw [h]
    decide
  rw [ofValue, hnan]
  exact congrArg Single.mk (UInt32.toBitVec_inj.1 h)

end Bits

theorem add_eq (hx : x.isNaN = false) (hy : y.isNaN = false) :
    x + y = ofValue (x.value + y.value) := by
  show lift (· + ·) x y = _
  simp [lift, hx, hy]

theorem mul_eq (hx : x.isNaN = false) (hy : y.isNaN = false) :
    x * y = ofValue (x.value * y.value) := by
  show lift (· * ·) x y = _
  simp [lift, hx, hy]

theorem unpack_cases (h : x.bits.toNat < top) : x.value.toModel.unpack = .zero .positive ∨
    ∃ m e hm, x.value.toModel.unpack = .finite .positive m e hm := by
  rw [unpack_value h]
  rcases Nat.eq_zero_or_pos x.bits.toNat with h0 | hpos
  · rw [h0]
    exact .inl unpack_zero
  · obtain ⟨m, e, hm, hu, -⟩ := unpack_finite hpos h
    exact .inr ⟨m, _, hm, hu⟩

theorem unpack_of_zero_le (hx : (0 : Single).le x = true) :
    (∃ s, x.value.toModel.unpack = .zero s) ∨
      (∃ m e hm, x.value.toModel.unpack = .finite .positive m e hm) ∨
        x.value.toModel.unpack = .infinity .positive := by
  rcases zero_le_iff.1 hx with h | rfl | rfl
  · rcases unpack_cases h with hu | hu
    · exact .inl ⟨_, hu⟩
    · exact .inr (.inl hu)
  · exact .inr (.inr unpack_infinity)
  · exact .inl ⟨_, unpack_negZero⟩

/-- What unpacks to the same value is packed to the same pattern. -/
theorem ofValue_of_unpack {v : Float32} (hx : x.bits.toNat < top)
    (h : v.toBits.toBitVec = UnpackedFloat.pack Format.binary32 x.value.toModel.unpack) :
    ofValue v = x := by
  refine eq_of_bits (bits_ofValue hx.le ?_)
  rw [h, unpack_value hx, pack_unpack_of_valid (valid_of_lt hx) (by decide)]

section Sum

theorem toBits_add (x y : Single) : (x.value + y.value).toBits.toBitVec =
    UnpackedFloat.pack Format.binary32
      (UnpackedFloat.add Format.binary32 x.value.toModel.unpack y.value.toModel.unpack) := rfl

theorem add_infinity (hx : (0 : Single).le x = true) : x + infinity = infinity := by
  rw [add_eq (le_iff_key.1 hx).2.1 (by decide)]
  refine ofValue_infinity ?_
  rw [toBits_add, unpack_infinity]
  rcases unpack_of_zero_le hx with ⟨s, hu⟩ | ⟨m, e, hm, hu⟩ | hu <;>
    · rw [hu]
      rfl

theorem infinity_add (hx : (0 : Single).le x = true) : infinity + x = infinity := by
  rw [add_eq (by decide) (le_iff_key.1 hx).2.1]
  refine ofValue_infinity ?_
  rw [toBits_add, unpack_infinity]
  rcases unpack_of_zero_le hx with ⟨s, hu⟩ | ⟨m, e, hm, hu⟩ | hu <;>
    · rw [hu]
      rfl

theorem add_negZero (hx : x.bits.toNat < top) : x + negZero = x := by
  rw [add_eq (isNaN_eq hx) (by decide)]
  refine ofValue_of_unpack hx ?_
  rw [toBits_add, unpack_negZero]
  rcases unpack_cases hx with hu | ⟨m, e, hm, hu⟩ <;>
    · rw [hu]
      rfl

theorem negZero_add (hx : x.bits.toNat < top) : negZero + x = x := by
  rw [add_eq (by decide) (isNaN_eq hx)]
  refine ofValue_of_unpack hx ?_
  rw [toBits_add, unpack_negZero]
  rcases unpack_cases hx with hu | ⟨m, e, hm, hu⟩ <;>
    · rw [hu]
      rfl

theorem negZero_add_negZero : negZero + negZero = negZero := by
  rw [add_eq (by decide) (by decide)]
  exact ofValue_negZero rfl

/-- Rounding keeps the order, so a sum is not below its first number. -/
theorem le_add (hx : (0 : Single).le x = true) (hy : (0 : Single).le y = true) :
    x.le (x + y) = true := by
  rcases zero_le_iff.1 hy with hy' | rfl | rfl
  · rcases zero_le_iff.1 hx with hx' | rfl | rfl
    · have hbits := bits_add hx' hy'
      have hle : x.bits.toNat ≤ (x + y).bits.toNat := by
        rw [hbits]
        calc x.bits.toNat = rounded (worth x.bits.toNat) := (rounded_worth hx'.le).symm
          _ ≤ rounded (worth x.bits.toNat + worth y.bits.toNat) := rounded_mono (Nat.le_add_right ..)
      have htop : (x + y).bits.toNat ≤ top := hbits ▸ rounded_le _
      rcases Nat.lt_or_eq_of_le htop with hlt | heq
      · rw [le_eq hx' hlt]
        exact decide_eq_true hle
      · rw [eq_of_bits (y := infinity) heq]
        exact le_infinity (isNaN_eq hx')
    · rw [infinity_add hy]
      exact le_rfl_of_not_isNaN (by decide)
    · rw [negZero_add hy']
      exact le_iff_key.2 ⟨by decide, isNaN_eq hy', by simp [key_eq hy', show negZero.key = 0 by decide]⟩
  · rw [add_infinity hx]
    exact le_infinity (le_iff_key.1 hx).2.1
  · rcases zero_le_iff.1 hx with hx' | rfl | rfl
    · rw [add_negZero hx']
      exact le_rfl_of_not_isNaN (isNaN_eq hx')
    · rw [infinity_add hy]
      exact le_rfl_of_not_isNaN (by decide)
    · rw [negZero_add_negZero]
      exact le_rfl_of_not_isNaN (by decide)

end Sum

section Product

/-- A positive number is packed without a sign, and no pattern above infinity is used for it. -/
theorem pack_positive {q : Nat} {e : Int} (hq : 0 < q) : ∃ b ≤ top,
    UnpackedFloat.pack Format.binary32 (.finite .positive q e hq) = BitVec.ofNat 32 b := by
  have hmod : BitVec.ofNat 23 q = BitVec.ofNat 23 (q % 2 ^ 23) := by
    refine BitVec.eq_of_toNat_eq ?_
    simp
  have hlt : q % 2 ^ 23 < 2 ^ 23 := Nat.mod_lt _ (Nat.two_pow_pos _)
  unfold UnpackedFloat.pack
  dsimp only
  split_ifs with htop hnormal
  · exact ⟨top, Nat.le_refl _, by decide⟩
  · set biased := (e + (Format.binary32.exponentBias : Int) +
      (Format.binary32.mantissaBitsWithoutImplicit : Int)).toNat
    have hbiased : biased + 1 < 2 ^ 8 := Nat.not_le.1 htop
    refine ⟨biased * 2 ^ 23 + q % 2 ^ 23, ?_, ?_⟩
    · simp only [top]
      omega
    · rw [← packComponents_eq _ _ (by omega) hlt, ← hmod]
  · refine ⟨0 * 2 ^ 23 + q % 2 ^ 23, ?_, ?_⟩
    · simp only [top]
      omega
    · rw [← packComponents_eq _ _ (by omega) hlt, ← hmod]

theorem pack_roundWithAccuracy_positive (m : Nat) (e : Int) (acc : Accuracy) : ∃ b ≤ top,
    UnpackedFloat.pack Format.binary32
      (roundWithAccuracy Format.binary32 .positive m e acc) = BitVec.ofNat 32 b := by
  unfold roundWithAccuracy
  dsimp only
  split
  · exact ⟨0, by decide, by decide⟩
  · exact pack_positive _

theorem zero_le_of_bits_le (h : x.bits.toNat ≤ top) : (0 : Single).le x = true := by
  rcases Nat.lt_or_eq_of_le h with hlt | heq
  · exact zero_le_iff.2 (.inl hlt)
  · exact zero_le_iff.2 (.inr (.inl (eq_of_bits heq)))

/-- A small count is a positive number. -/
theorem unpack_ofNat {n : Nat} (h0 : 0 < n) (h : n < 256) : (ofNat n).isNaN = false ∧
    ∃ m e hm, (ofNat n).value.toModel.unpack = .finite .positive m e hm := by
  have hbits : (ofNat n).bits.toNat = rounded (n * 2 ^ 149) := bits_ofNat (by omega)
  have hlow : rounded (1 * 2 ^ 149) ≤ (ofNat n).bits.toNat := by
    rw [hbits]
    exact rounded_mono (Nat.mul_le_mul_right _ h0)
  have hhigh : (ofNat n).bits.toNat ≤ rounded (256 * 2 ^ 149) := by
    rw [hbits]
    exact rounded_mono (Nat.mul_le_mul_right _ h.le)
  have hlt : (ofNat n).bits.toNat < top := lt_of_le_of_lt hhigh (by decide +kernel)
  have hpos : 0 < (ofNat n).bits.toNat := lt_of_lt_of_le (by decide +kernel) hlow
  obtain ⟨m, e, hm, hu, -⟩ := unpack_finite hpos hlt
  exact ⟨isNaN_eq hlt, m, _, hm, (unpack_value hlt).trans hu⟩

theorem zero_le_mul {n : Nat} (hx : (0 : Single).le x = true) (h0 : 0 < n) (h : n < 256) :
    (0 : Single).le (x * ofNat n) = true := by
  obtain ⟨hnan, m, e, hm, hn⟩ := unpack_ofNat h0 h
  rw [mul_eq (le_iff_key.1 hx).2.1 hnan]
  have hpack : (x.value * (ofNat n).value).toBits.toBitVec = UnpackedFloat.pack Format.binary32
      (UnpackedFloat.mul Format.binary32 x.value.toModel.unpack (ofNat n).value.toModel.unpack) := rfl
  rw [hn] at hpack
  rcases zero_le_iff.1 hx with hx' | rfl | rfl
  · rcases unpack_cases hx' with hu | ⟨m', e', hm', hu⟩
    · rw [hu] at hpack
      exact zero_le_of_bits_le ((bits_ofValue (b := 0) (by decide) hpack).le.trans (by decide))
    · rw [hu] at hpack
      obtain ⟨b, hb, hround⟩ := pack_roundWithAccuracy_positive (m' * m) (e' + e) .exact
      exact zero_le_of_bits_le ((bits_ofValue hb (hpack.trans hround)).le.trans hb)
  · rw [ofValue_infinity hpack]
    exact zero_le_iff.2 (.inr (.inl rfl))
  · rw [ofValue_negZero hpack]
    exact zero_le_iff.2 (.inr (.inr rfl))

end Product

instance : Growing Single where
  zero_le_zero := zero_le_of_bits_le (bits_zero.le.trans (by decide))
  le_self h := le_rfl_of_not_isNaN (le_iff_key.1 h).2.1
  trans := le_trans
  lt_iff hx hy := by
    have hx := (le_iff_key.1 hx).1
    have hy := (le_iff_key.1 hy).1
    refine lt_iff_key.trans (Iff.trans ?_ (not_congr le_iff_key).symm)
    simp [hx, hy]
  le_add := le_add
  zero_le_mul := zero_le_mul

end Single

end TechMap

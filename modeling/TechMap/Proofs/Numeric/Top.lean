import Mathlib
import TechMap.Numeric.Quantity

/-! No value is above infinity. It is the one law that runs rely on for every choice of numbers, and
binary32 with its NaNs has it. -/

namespace TechMap

class Topped (α : Type) [Quantity α] : Prop where
  not_lt : ∀ x : α, Quantity.lt Quantity.infinity x = false

namespace Single

variable {x : Single}

theorem toNat_magnitude (x : Single) : x.magnitude.toNat = x.bits.toNat % 2 ^ 31 := by
  have hmask : (0x7fffffff : UInt32).toNat = 2 ^ 31 - 1 := by decide
  rw [magnitude, UInt32.toNat_and, hmask, Nat.and_two_pow_sub_one_eq_mod]

theorem isNegative_iff : x.isNegative = true ↔ 2 ^ 31 ≤ x.bits.toNat := by
  have hmask : (0x80000000 : UInt32).toNat = 2 ^ 31 := by decide
  have hlt : x.bits.toNat < 2 ^ 32 := x.bits.toNat_lt
  have hbit : x.bits.toNat.testBit 31 = decide (2 ^ 31 ≤ x.bits.toNat) := by
    rw [Nat.testBit_eq_decide_div_mod_eq]
    congr 1
    simp only [eq_iff_iff]
    omega
  rw [isNegative, bne_iff_ne, ne_eq, ← UInt32.toNat_inj, UInt32.toNat_and, hmask, Nat.and_two_pow,
    hbit]
  by_cases h : 2 ^ 31 ≤ x.bits.toNat <;> simp

theorem isNaN_iff : x.isNaN = true ↔ 0x7f800000 < x.magnitude.toNat := decide_eq_true_iff

theorem key_infinity : infinity.key = 0x7f800000 := by decide

theorem key_le_of_not_isNaN (h : x.isNaN = false) : x.key ≤ infinity.key := by
  have hm : ¬ 0x7f800000 < x.magnitude.toNat := by rw [← isNaN_iff, h]; exact Bool.false_ne_true
  rw [key_infinity]
  unfold key
  split <;> omega

/-- Infinity is the only number with its key. -/
theorem eq_infinity (h : x.isNaN = false) (hle : infinity.key ≤ x.key) : x = infinity := by
  have hm : ¬ 0x7f800000 < x.magnitude.toNat := by rw [← isNaN_iff, h]; exact Bool.false_ne_true
  rw [key_infinity] at hle
  unfold key at hle
  split at hle
  · omega
  · rename_i hsign
    rw [isNegative_iff] at hsign
    rw [toNat_magnitude] at hle hm
    have hbits : x.bits = (0x7f800000 : UInt32) := UInt32.toNat_inj.1 (by
      show x.bits.toNat = 0x7f800000
      omega)
    cases x
    exact congrArg Single.mk hbits

end Single

instance : Topped Single where
  not_lt x := by
    show Single.lt Single.infinity x = false
    cases h : x.isNaN with
    | true => simp [Single.lt, h]
    | false => simp [Single.lt, Single.key_le_of_not_isNaN h]

end TechMap

import Mathlib
import TechMap.Proofs.Numeric.Top

/-! Comparisons with a bound. The total order of all values orders the numbers, and a bound that
admits a number admits the smaller ones. The bound may be any value, so binary32 has these laws for
its infinities and NaNs too. -/

namespace TechMap

class Comparison (α : Type) [Quantity α] where
  IsNumber : α → Prop
  trans : Std.TransCmp (Quantity.order : α → α → Ordering)
  le_of_isLE : ∀ {x y : α}, IsNumber x → IsNumber y → (Quantity.order x y).isLE = true →
    Quantity.le x y = true
  le_mono : ∀ {x y bound : α}, IsNumber x → IsNumber y → (Quantity.order x y).isLE = true →
    Quantity.le y bound = true → Quantity.le x bound = true
  lt_mono : ∀ {x y bound : α}, IsNumber x → IsNumber y → (Quantity.order x y).isLE = true →
    Quantity.lt bound x = true → Quantity.lt bound y = true

namespace Comparison

variable {α : Type} [Quantity α] [Comparison α]

instance : Std.TransCmp (Quantity.order : α → α → Ordering) := trans

end Comparison

namespace Single

variable {x y z : Single}

/-- The two zeros apart, the total order is that of the numbers. -/
theorem key_le_of_rank_le (h : x.rank ≤ y.rank) : x.key ≤ y.key := by
  unfold rank at h
  unfold key
  split_ifs at h ⊢ <;> omega

theorem isLE_order : (order x y).isLE = true ↔ x.rank ≤ y.rank := by
  rw [order, Std.isLE_compare]

theorem le_iff_key : x.le y = true ↔ x.isNaN = false ∧ y.isNaN = false ∧ x.key ≤ y.key := by
  simp [le, and_assoc]

theorem lt_iff_key : x.lt y = true ↔ x.isNaN = false ∧ y.isNaN = false ∧ x.key < y.key := by
  simp [lt, and_assoc]

instance : Comparison Single where
  IsNumber x := x.isNaN = false
  trans := inferInstanceAs (Std.TransCmp (compareOn rank))
  le_of_isLE hx hy h := le_iff_key.2 ⟨hx, hy, key_le_of_rank_le (isLE_order.1 h)⟩
  le_mono hx _ h hle := by
    obtain ⟨-, hb, hle⟩ := le_iff_key.1 hle
    exact le_iff_key.2 ⟨hx, hb, (key_le_of_rank_le (isLE_order.1 h)).trans hle⟩
  lt_mono _ hy h hlt := by
    obtain ⟨hb, -, hlt⟩ := lt_iff_key.1 hlt
    exact lt_iff_key.2 ⟨hb, hy, hlt.trans_le (key_le_of_rank_le (isLE_order.1 h))⟩

theorem le_rfl_of_not_isNaN (hx : x.isNaN = false) : x.le x = true :=
  le_iff_key.2 ⟨hx, hx, Int.le_refl _⟩

theorem le_trans (h₁ : x.le y = true) (h₂ : y.le z = true) : x.le z = true := by
  obtain ⟨hx, -, h₁⟩ := le_iff_key.1 h₁
  obtain ⟨-, hz, h₂⟩ := le_iff_key.1 h₂
  exact le_iff_key.2 ⟨hx, hz, h₁.trans h₂⟩

theorem le_infinity (hx : x.isNaN = false) : x.le .infinity = true :=
  le_iff_key.2 ⟨hx, by decide, key_le_of_not_isNaN hx⟩

theorem eq_infinity_of_le (h : infinity.le x = true) : x = infinity := by
  obtain ⟨-, hx, hle⟩ := le_iff_key.1 h
  exact eq_infinity hx hle

theorem min_eq_or (x y : Single) : Min.min x y = x ∨ Min.min x y = y := by
  show (if y.isNaN || x.lt y then x else y) = x ∨ (if y.isNaN || x.lt y then x else y) = y
  exact ite_eq_or_eq ..

theorem min_min_self (x y : Single) : Min.min (Min.min x y) y = Min.min x y := by
  show (if y.isNaN || (if y.isNaN || x.lt y then x else y).lt y then
    (if y.isNaN || x.lt y then x else y) else y) = if y.isNaN || x.lt y then x else y
  split_ifs <;> rfl

theorem min_le_left (hx : x.isNaN = false) (hy : y.isNaN = false) : (Min.min x y).le x = true := by
  show (if y.isNaN || x.lt y then x else y).le x = true
  split
  · exact le_rfl_of_not_isNaN hx
  · rename_i h
    rw [hy, Bool.false_or, lt_iff_key] at h
    exact le_iff_key.2 ⟨hy, hx, not_lt.1 fun hlt => h ⟨hx, hy, hlt⟩⟩

theorem min_le_right (hx : x.isNaN = false) (hy : y.isNaN = false) :
    (Min.min x y).le y = true := by
  show (if y.isNaN || x.lt y then x else y).le y = true
  split
  · rename_i h
    rw [hy, Bool.false_or, lt_iff_key] at h
    exact le_iff_key.2 ⟨hx, hy, h.2.2.le⟩
  · exact le_rfl_of_not_isNaN hy

end Single

end TechMap

import Mathlib
import TechMap.Proofs.Numeric.Comparison
import TechMap.Proofs.Numeric.Timed

/-! Exact numbers that compare with every value. The rational numbers with two infinities and an
undefined value are such numbers; they follow the rules of binary32 without its rounding. -/

namespace TechMap

/-- Exact numbers are numbers to every bound. -/
class Measured (α : Type) [Quantity α] extends Timed α, Comparison α where
  isNumber_num : ∀ q, IsNumber (num q)

theorem isLE_compare_rat (p q : ℚ) : (compare p q).isLE = true ↔ p ≤ q :=
  Ordering.ne_gt_iff_isLE.symm.trans compare_le_iff_le

namespace Measured

open Timed Comparison

variable {α : Type} [Quantity α] [Measured α] {x y : α}

theorem isNumber (h : Exact x) : IsNumber x := h ▸ isNumber_num (val x)

theorem isLE_order (hx : Exact x) (hy : Exact y) :
    (Quantity.order x y).isLE = true ↔ val x ≤ val y := by
  rw [← isLE_compare_rat, ← order_num (α := α), hx, hy]

end Measured

inductive Extended where
  | below
  | number (q : ℚ)
  | above
  | undefined
deriving DecidableEq

namespace Extended

def kind : Extended → Nat
  | below => 0
  | number _ => 1
  | above => 2
  | undefined => 3

def value : Extended → ℚ
  | number q => q
  | _ => 0

/-- From below to above, and the undefined value last. -/
def order : Extended → Extended → Ordering := compareLex (compareOn kind) (compareOn value)

def le (x y : Extended) : Bool := x != undefined && y != undefined && (order x y).isLE

def lt (x y : Extended) : Bool := x != undefined && y != undefined && order x y == .lt

def neg : Extended → Extended
  | below => above
  | number q => number (-q)
  | above => below
  | undefined => undefined

def sign : Extended → SignType
  | below => -1
  | number q => SignType.sign q
  | above => 1
  | undefined => 0

/-- The infinity of a sign. -/
def infinite : SignType → Extended
  | .neg => below
  | .zero => undefined
  | .pos => above

def add : Extended → Extended → Extended
  | number p, number q => number (p + q)
  | undefined, _ => undefined
  | _, undefined => undefined
  | above, below => undefined
  | below, above => undefined
  | above, _ => above
  | _, above => above
  | _, _ => below

def mul : Extended → Extended → Extended
  | number p, number q => number (p * q)
  | x, y => infinite (x.sign * y.sign)

def div : Extended → Extended → Extended
  | number p, number q => if q = 0 then infinite (SignType.sign p) else number (p / q)
  | number _, above => number 0
  | number _, below => number 0
  | x, number q => if q < 0 then x.neg else x
  | _, _ => undefined

instance : Add Extended := ⟨add⟩
instance : Sub Extended := ⟨fun x y => x.add y.neg⟩
instance : Mul Extended := ⟨mul⟩
instance : Div Extended := ⟨div⟩
instance : Max Extended := ⟨fun x y => if y = undefined ∨ y.lt x then x else y⟩
instance : Min Extended := ⟨fun x y => if y = undefined ∨ x.lt y then x else y⟩

instance : Quantity Extended where
  ofNat n := number n
  infinity := above
  isInfinite x := x == above
  lt := lt
  le := le
  order := order

instance : Std.TransCmp order :=
  inferInstanceAs (Std.TransCmp (compareLex (compareOn kind) (compareOn value)))

variable {x y : Extended}

theorem le_iff : x.le y = true ↔ x ≠ undefined ∧ y ≠ undefined ∧ (order x y).isLE = true := by
  simp [le, and_assoc]

theorem lt_iff : x.lt y = true ↔ x ≠ undefined ∧ y ≠ undefined ∧ order x y = .lt := by
  simp [lt, and_assoc]

theorem order_number (p q : ℚ) : order (number p) (number q) = compare p q := rfl

theorem le_number (p q : ℚ) : le (number p) (number q) = decide (p ≤ q) := by
  rw [Bool.eq_iff_iff, le_iff, decide_eq_true_eq, order_number, isLE_compare_rat]
  simp

theorem lt_number (p q : ℚ) : lt (number p) (number q) = decide (p < q) := by
  rw [Bool.eq_iff_iff, lt_iff, decide_eq_true_eq, order_number, compare_lt_iff_lt]
  simp

theorem max_number (p q : ℚ) : max (number p) (number q) = number (max p q) := by
  show (if _ then _ else _) = _
  simp only [lt_number, decide_eq_true_eq, reduceCtorEq, false_or]
  split_ifs with h
  · rw [max_eq_left h.le]
  · rw [max_eq_right (not_lt.1 h)]

theorem div_number (p : ℚ) {q : ℚ} (h : q ≠ 0) : number p / number q = number (p / q) := if_neg h

instance : Measured Extended where
  num := number
  val := value
  val_num _ := rfl
  ofNat_eq _ := rfl
  num_add _ _ := rfl
  num_sub p q := congrArg number (sub_eq_add_neg p q).symm
  num_mul _ _ := rfl
  num_eighths n := by
    rw [← Nat.cast_ofNat (R := ℚ) (n := 8)]
    exact div_number n (by norm_num)
  num_max := max_number
  lt_num := lt_number
  le_num := le_number
  order_num := order_number
  finite _ := rfl
  IsNumber x := x ≠ undefined
  trans := inferInstanceAs (Std.TransCmp order)
  le_of_isLE hx hy h := le_iff.2 ⟨hx, hy, h⟩
  le_mono hx _ h hle := by
    obtain ⟨-, hb, hle⟩ := le_iff.1 hle
    exact le_iff.2 ⟨hx, hb, Std.TransCmp.isLE_trans h hle⟩
  lt_mono _ hy h hlt := by
    obtain ⟨hb, -, hlt⟩ := lt_iff.1 hlt
    exact lt_iff.2 ⟨hb, hy, Std.TransCmp.lt_of_lt_of_isLE hlt h⟩
  isNumber_num q := by simp

end Extended

end TechMap

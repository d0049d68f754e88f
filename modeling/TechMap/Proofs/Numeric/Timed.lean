import Mathlib
import TechMap.Proofs.Numeric.Top

/-! Numbers in which delays are exact. The values `num q` add, multiply and compare as rational
numbers do, and so do eighths. Nothing is asked of any other value or quotient, so areas and average
fanouts may be rounded as they like. -/

namespace TechMap

class Timed (α : Type) [Quantity α] where
  num : ℚ → α
  /-- The rational number, of an exact value. -/
  val : α → ℚ
  val_num : ∀ q, val (num q) = q
  ofNat_eq : ∀ n : Nat, Quantity.ofNat n = num n
  num_add : ∀ p q, num p + num q = num (p + q)
  num_sub : ∀ p q, num p - num q = num (p - q)
  num_mul : ∀ p q, num p * num q = num (p * q)
  num_eighths : ∀ n : Nat, (Quantity.ofNat n / Quantity.ofNat 8 : α) = num (n / 8)
  num_max : ∀ p q, max (num p) (num q) = num (max p q)
  lt_num : ∀ p q, Quantity.lt (num p) (num q) = decide (p < q)
  le_num : ∀ p q, Quantity.le (num p) (num q) = decide (p ≤ q)
  order_num : ∀ p q, Quantity.order (num p) (num q) = compare p q
  finite : ∀ q, Quantity.isInfinite (num q) = false

namespace Timed

variable {α : Type} [Quantity α] [Timed α]

attribute [simp] val_num

/-- The value is a rational number. -/
def Exact (x : α) : Prop := num (val x) = x

@[simp] theorem exact_num (q : ℚ) : Exact (num q : α) := by
  rw [Exact, val_num]

theorem zero_eq : (0 : α) = num 0 := by
  show Quantity.ofNat 0 = _
  rw [ofNat_eq, Nat.cast_zero]

theorem one_eq : (1 : α) = num 1 := by
  show Quantity.ofNat 1 = _
  rw [ofNat_eq, Nat.cast_one]

@[simp] theorem val_zero : val (0 : α) = 0 := by
  rw [zero_eq, val_num]

theorem exact_zero : Exact (0 : α) := by
  rw [zero_eq]
  exact exact_num 0

@[simp] theorem val_one : val (1 : α) = 1 := by
  rw [one_eq, val_num]

theorem exact_one : Exact (1 : α) := by
  rw [one_eq]
  exact exact_num 1

variable {x y : α}

theorem add_exact (hx : Exact x) (hy : Exact y) : Exact (x + y) ∧ val (x + y) = val x + val y := by
  rw [← hx, ← hy, num_add]
  exact ⟨exact_num _, by simp⟩

theorem sub_exact (hx : Exact x) (hy : Exact y) : Exact (x - y) ∧ val (x - y) = val x - val y := by
  rw [← hx, ← hy, num_sub]
  exact ⟨exact_num _, by simp⟩

theorem mul_exact (hx : Exact x) (hy : Exact y) : Exact (x * y) ∧ val (x * y) = val x * val y := by
  rw [← hx, ← hy, num_mul]
  exact ⟨exact_num _, by simp⟩

theorem max_exact (hx : Exact x) (hy : Exact y) :
    Exact (max x y) ∧ val (max x y) = max (val x) (val y) := by
  rw [← hx, ← hy, num_max]
  exact ⟨exact_num _, by simp⟩

theorem le_exact (hx : Exact x) (hy : Exact y) : Quantity.le x y = decide (val x ≤ val y) := by
  rw [← le_num (α := α), hx, hy]

theorem lt_exact (hx : Exact x) (hy : Exact y) : Quantity.lt x y = decide (val x < val y) := by
  rw [← lt_num (α := α), hx, hy]

/-- A sum of exact terms is exact. -/
theorem foldl_add_exact {β : Type} {f : β → α} (h : ∀ b, Exact (f b)) {acc : α} (hacc : Exact acc)
    (ls : List β) : Exact (ls.foldl (fun acc b => acc + f b) acc) ∧
      val (ls.foldl (fun acc b => acc + f b) acc) = val acc + (ls.map fun b => val (f b)).sum := by
  induction ls generalizing acc with
  | nil => exact ⟨hacc, by simp⟩
  | cons b ls ih =>
    obtain ⟨hadd, hval⟩ := add_exact hacc (h b)
    obtain ⟨hexact, hsum⟩ := ih hadd
    refine ⟨hexact, hsum.trans ?_⟩
    rw [hval, List.map_cons, List.sum_cons, add_assoc]

end Timed

/-- Rational numbers for times, and binary32 for all that does not stay exact. -/
inductive Mixed where
  | exact (q : ℚ)
  | rounded (x : Single)

namespace Mixed

def toSingle : Mixed → Single
  | exact q =>
    let size := Single.ofNat q.num.natAbs / Single.ofNat q.den
    if q < 0 then Single.ofNat 0 - size else size
  | rounded x => x

/-- Exact on exact operands. -/
def lift {β : Type} (onExact : ℚ → ℚ → β) (onRounded : Single → Single → β) : Mixed → Mixed → β
  | exact p, exact q => onExact p q
  | x, y => onRounded x.toSingle y.toSingle

/-- Of the quotients only eighths are exact. -/
def quotient (p q : ℚ) : Mixed :=
  if q = 8 then exact (p / 8) else rounded ((exact p).toSingle / (exact q).toSingle)

instance : Add Mixed := ⟨lift (fun p q => exact (p + q)) fun x y => rounded (x + y)⟩
instance : Sub Mixed := ⟨lift (fun p q => exact (p - q)) fun x y => rounded (x - y)⟩
instance : Mul Mixed := ⟨lift (fun p q => exact (p * q)) fun x y => rounded (x * y)⟩
instance : Div Mixed := ⟨lift quotient fun x y => rounded (x / y)⟩
instance : Max Mixed := ⟨lift (fun p q => exact (max p q)) fun x y => rounded (max x y)⟩
instance : Min Mixed := ⟨lift (fun p q => exact (min p q)) fun x y => rounded (min x y)⟩

instance : Quantity Mixed where
  ofNat n := exact n
  infinity := rounded .infinity
  isInfinite
    | exact _ => false
    | rounded x => x == .infinity
  lt := lift (fun p q => decide (p < q)) Single.lt
  le := lift (fun p q => decide (p ≤ q)) Single.le
  order := lift compare Single.order

instance : Topped Mixed where
  not_lt x := by
    show Single.lt .infinity x.toSingle = false
    exact Topped.not_lt x.toSingle

instance : Timed Mixed where
  num := exact
  val
    | exact q => q
    | rounded _ => 0
  val_num _ := rfl
  ofNat_eq _ := rfl
  num_add _ _ := rfl
  num_sub _ _ := rfl
  num_mul _ _ := rfl
  num_eighths n := by
    show quotient n (8 : ℕ) = _
    exact if_pos Nat.cast_ofNat
  num_max _ _ := rfl
  lt_num _ _ := rfl
  le_num _ _ := rfl
  order_num _ _ := rfl
  finite _ := rfl

end Mixed

end TechMap

import Mathlib
import TechMap.Table.Lookup

/-! A table as a Boolean function of six variables. `bit` reads one row, `value` reads the row that
an assignment spells. A lookup is then one `value` for each bit position of the words, and nested
lookups compose. -/

namespace TechMap.Table

def bit (w : UInt64) (k : Nat) : Bool := w.toBitVec.getLsbD k

theorem eq_of_bit {a b : UInt64} (h : ∀ k < 64, bit a k = bit b k) : a = b := by
  apply UInt64.toBitVec_inj.1
  apply BitVec.eq_of_getLsbD_eq
  exact h

theorem bit_of_ge (w : UInt64) {k : Nat} (h : 64 ≤ k) : bit w k = false :=
  BitVec.getLsbD_of_ge _ _ h

@[simp] theorem bit_zero (k : Nat) : bit 0 k = false := by simp [bit]

@[simp] theorem bit_and (a b : UInt64) (k : Nat) : bit (a &&& b) k = (bit a k && bit b k) := by
  simp [bit]

@[simp] theorem bit_or (a b : UInt64) (k : Nat) : bit (a ||| b) k = (bit a k || bit b k) := by
  simp [bit]

@[simp] theorem bit_xor (a b : UInt64) (k : Nat) : bit (a ^^^ b) k = (bit a k ^^ bit b k) := by
  simp [bit]

theorem bit_not (a : UInt64) {k : Nat} (h : k < 64) : bit (~~~ a) k = !bit a k := by
  simp [bit, h]

theorem bit_one (k : Nat) : bit 1 k = decide (k = 0) := by
  rcases Nat.lt_or_ge k 64 with h | h
  · revert k; decide
  · rw [bit_of_ge _ h]; simp; omega

theorem bit_ones {k : Nat} (h : k < 64) : bit ones k = true := by
  revert k; decide

theorem bit_shiftRight (w s : UInt64) (k : Nat) (h : s.toNat < 64) :
    bit (w >>> s) k = bit w (s.toNat + k) := by
  have hm : (s.toBitVec % 64).toNat = s.toNat := by
    simp [BitVec.toNat_umod, Nat.mod_eq_of_lt h]
  rw [bit, UInt64.toBitVec_shiftRight, BitVec.ushiftRight_eq', hm, BitVec.getLsbD_ushiftRight, bit]

theorem bit_shiftLeft (w s : UInt64) (k : Nat) (h : s.toNat < 64) :
    bit (w <<< s) k = (decide (k < 64) && !decide (k < s.toNat) && bit w (k - s.toNat)) := by
  have hm : (s.toBitVec % 64).toNat = s.toNat := by
    simp [BitVec.toNat_umod, Nat.mod_eq_of_lt h]
  rw [bit, UInt64.toBitVec_shiftLeft, BitVec.shiftLeft_eq', hm, BitVec.getLsbD_shiftLeft, bit]

theorem toNat_toUInt64 {k : Nat} (h : k < 64) : k.toUInt64.toNat = k := by
  rw [Nat.toUInt64_eq, UInt64.toNat_ofNat']
  exact Nat.mod_eq_of_lt (by omega)

theorem bit_foldl_or (f : Nat → UInt64) (ks : List Nat) (acc : UInt64) (j : Nat) :
    bit (ks.foldl (fun acc k => acc ||| f k) acc) j = (bit acc j || ks.any fun k => bit (f k) j) := by
  induction ks generalizing acc with
  | nil => simp
  | cons k ks ih => simp [ih, Bool.or_assoc]

/-- The row that six Booleans spell, the first one lowest. -/
def rowOf (a : Nat → Bool) : Nat := Nat.ofBits fun i : Fin 6 => a i

theorem rowOf_lt (a : Nat → Bool) : rowOf a < 64 := Nat.ofBits_lt_two_pow _

theorem testBit_rowOf (a : Nat → Bool) {i : Nat} (h : i < 6) : (rowOf a).testBit i = a i :=
  Nat.testBit_ofBits_lt _ i h

theorem rowOf_congr {a b : Nat → Bool} (h : ∀ i < 6, a i = b i) : rowOf a = rowOf b := by
  unfold rowOf
  congr 1
  funext i
  exact h i i.isLt

theorem rowOf_testBit {r : Nat} (h : r < 64) : rowOf r.testBit = r := by
  unfold rowOf
  rw [Nat.ofBits_testBit]
  exact Nat.mod_eq_of_lt h

/-- The value of a function of six variables. -/
def value (t : UInt64) (a : Nat → Bool) : Bool := bit t (rowOf a)

theorem value_congr (t : UInt64) {a b : Nat → Bool} (h : ∀ i < 6, a i = b i) :
    value t a = value t b := by
  unfold value
  rw [rowOf_congr h]

theorem bit_eq_value (t : UInt64) {r : Nat} (h : r < 64) : bit t r = value t r.testBit := by
  rw [value, rowOf_testBit h]

@[simp] theorem value_zero (a : Nat → Bool) : value 0 a = false := bit_zero _

@[simp] theorem value_and (s t : UInt64) (a : Nat → Bool) :
    value (s &&& t) a = (value s a && value t a) := bit_and ..

@[simp] theorem value_or (s t : UInt64) (a : Nat → Bool) :
    value (s ||| t) a = (value s a || value t a) := bit_or ..

@[simp] theorem value_not (t : UInt64) (a : Nat → Bool) : value (~~~ t) a = !value t a :=
  bit_not t (rowOf_lt a)

@[simp] theorem value_ones (a : Nat → Bool) : value ones a = true := bit_ones (rowOf_lt a)

theorem bit_proj : ∀ i < 6, ∀ r < 64, bit (proj i) r = r.testBit i := by decide +kernel

theorem value_proj {i : Nat} (h : i < 6) (a : Nat → Bool) : value (proj i) a = a i := by
  rw [value, bit_proj i h _ (rowOf_lt a), testBit_rowOf a h]

/-- What bit position `k` of the words assigns to the variables. -/
def lane (k : Nat) (ws : List UInt64) (i : Nat) : Bool := bit (ws.getD i 0) k

theorem bit_row {k : Nat} (hk : k < 64) (ws : List UInt64) (h : ws.length ≤ 6) (i : Nat) :
    bit (row k ws) i = lane k ws i := by
  induction ws generalizing i with
  | nil => simp [row, lane]
  | cons w ws ih =>
    have hs := toNat_toUInt64 hk
    have h1 : (1 : UInt64).toNat = 1 := rfl
    rw [row, bit_or, bit_and, bit_one, bit_shiftRight _ _ _ (by rwa [hs]), hs,
      bit_shiftLeft _ _ _ (by decide), h1]
    cases i with
    | zero => simp [lane]
    | succ i =>
      have hi := ih (by simp at h; omega) i
      rw [Nat.add_sub_cancel, hi]
      rcases Nat.lt_or_ge (i + 1) 64 with hlt | hge
      · simp [hlt, lane]
      · -- past the word both sides read nothing
        rw [lane, lane, List.getD_eq_default _ _ (by simp at h; omega),
          List.getD_eq_default _ _ (by simp at h ⊢; omega)]
        simp

theorem row_lt {k : Nat} (hk : k < 64) {ws : List UInt64} (h : ws.length ≤ 6) :
    (row k ws).toNat < 64 := by
  apply Nat.lt_pow_two_of_testBit (n := 6)
  intro i hi
  have := bit_row hk ws h i
  rw [lane, List.getD_eq_default _ _ (by omega), bit_zero] at this
  exact this

theorem row_eq_rowOf {k : Nat} (hk : k < 64) {ws : List UInt64} (h : ws.length ≤ 6) :
    (row k ws).toNat = rowOf (lane k ws) := by
  rw [← rowOf_testBit (row_lt hk h)]
  exact rowOf_congr fun i _ => bit_row hk ws h i

/-- A lookup reads one row at each bit position. -/
theorem bit_lookup (t : UInt64) {ws : List UInt64} (h : ws.length ≤ 6) {k : Nat} (hk : k < 64) :
    bit (lookup t ws) k = value t (lane k ws) := by
  have hrow (j : Nat) (hj : j < 64) : bit (t >>> row j ws) 0 = value t (lane j ws) := by
    have he := row_eq_rowOf hj h
    rw [bit_shiftRight _ _ _ (by rw [he]; exact rowOf_lt _), he, Nat.add_zero, value]
  unfold lookup
  rw [bit_foldl_or, bit_zero, Bool.false_or, Bool.eq_iff_iff, List.any_eq_true]
  constructor
  · rintro ⟨j, hj, hb⟩
    have hj : j < 64 := List.mem_range.1 hj
    rw [bit_shiftLeft _ _ _ (by rwa [toNat_toUInt64 hj]), toNat_toUInt64 hj, bit_and, bit_one] at hb
    simp only [Bool.and_eq_true, Bool.not_eq_true', decide_eq_false_iff_not, decide_eq_true_eq] at hb
    obtain ⟨⟨_, hle⟩, hb, hz⟩ := hb
    obtain rfl : j = k := by omega
    rw [← hrow j hj, ← hz]
    exact hb
  · intro hv
    refine ⟨k, List.mem_range.2 hk, ?_⟩
    rw [bit_shiftLeft _ _ _ (by rwa [toNat_toUInt64 hk]), toNat_toUInt64 hk, bit_and, bit_one]
    simp [hk, hrow k hk, hv]

theorem value_lookup (t : UInt64) {us : List UInt64} (h : us.length ≤ 6) (a : Nat → Bool) :
    value (lookup t us) a = value t fun i => value (us.getD i 0) a := bit_lookup t h (rowOf_lt a)

end TechMap.Table

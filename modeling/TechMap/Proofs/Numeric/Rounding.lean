import Mathlib
import TechMap.Numeric.Single

/-! Sums of binary32 numbers without a sign. In units of the smallest number a pattern `b` is worth
`worth b`, and what is worth `n` rounds to the pattern `encode n`. Both are monotone, so addition is
monotone too, and a finite number stays finite when a delay of a node is added. -/

namespace TechMap.Rounding

open Float.Model Float.Model.UnpackedFloat

/-- `n / 2 ^ s` rounded to nearest, ties to even. -/
def nearest (n s : Nat) : Nat :=
  if 2 * (n % 2 ^ s) < 2 ^ s then n / 2 ^ s
  else if 2 * (n % 2 ^ s) = 2 ^ s then n / 2 ^ s + n / 2 ^ s % 2
  else n / 2 ^ s + 1

/-- The pattern, not bounded above, that `n` units round to. -/
def encode (n : Nat) : Nat := (n.log2 - 23) * 2 ^ 23 + nearest n (n.log2 - 23)

/-- The units of a pattern without a sign. -/
def worth (b : Nat) : Nat :=
  if b < 2 ^ 23 then b else (2 ^ 23 + b % 2 ^ 23) * 2 ^ (b / 2 ^ 23 - 1)

/-- The pattern of infinity. -/
def top : Nat := 0x7f800000

/-- The pattern that `n` units round to. -/
def rounded (n : Nat) : Nat := min (encode n) top

variable {n n' s b : Nat}

theorem nearest_bounds (n s : Nat) : n / 2 ^ s ≤ nearest n s ∧ nearest n s ≤ n / 2 ^ s + 1 := by
  unfold nearest
  split_ifs <;> omega

@[simp] theorem nearest_zero (n : Nat) : nearest n 0 = n := by
  simp [nearest, Nat.mod_one]

theorem nearest_mono (h : n ≤ n') (s : Nat) : nearest n s ≤ nearest n' s := by
  have hq : n / 2 ^ s ≤ n' / 2 ^ s := Nat.div_le_div_right h
  rcases Nat.lt_or_eq_of_le hq with hlt | heq
  · exact (nearest_bounds n s).2.trans (Nat.le_trans hlt (nearest_bounds n' s).1)
  · have hr : n % 2 ^ s ≤ n' % 2 ^ s := by
      have h1 := Nat.div_add_mod n (2 ^ s)
      have h2 := Nat.div_add_mod n' (2 ^ s)
      rw [heq] at h1
      omega
    unfold nearest
    rw [heq]
    split_ifs <;> omega

/-- Bits that are zero are shifted out. -/
theorem nearest_mul (n s k : Nat) : nearest (n * 2 ^ k) (s + k) = nearest n s := by
  have hk : 0 < 2 ^ k := Nat.two_pow_pos k
  have hdiv : n * 2 ^ k / 2 ^ (s + k) = n / 2 ^ s := by
    rw [Nat.pow_add, Nat.mul_div_mul_right _ _ hk]
  have hmod : n * 2 ^ k % 2 ^ (s + k) = n % 2 ^ s * 2 ^ k := by
    rw [Nat.pow_add, Nat.mul_mod_mul_right]
  have hlt : 2 * (n % 2 ^ s * 2 ^ k) < 2 ^ s * 2 ^ k ↔ 2 * (n % 2 ^ s) < 2 ^ s := by
    rw [← Nat.mul_assoc, Nat.mul_lt_mul_right hk]
  have heq : 2 * (n % 2 ^ s * 2 ^ k) = 2 ^ s * 2 ^ k ↔ 2 * (n % 2 ^ s) = 2 ^ s := by
    rw [← Nat.mul_assoc, Nat.mul_left_inj hk.ne']
  unfold nearest
  rw [hdiv, hmod, Nat.pow_add]
  simp only [hlt, heq]

theorem nearest_exact (n s : Nat) : nearest (n * 2 ^ s) s = n := by
  have := nearest_mul n 0 s
  rwa [Nat.zero_add, nearest_zero] at this

/-- A number keeps 24 bits. -/
theorem nearest_log2_le (n : Nat) : nearest n (n.log2 - 23) ≤ 2 ^ 24 := by
  rcases Nat.lt_or_ge n.log2 23 with h | h
  · rw [Nat.sub_eq_zero_of_le h.le, nearest_zero]
    exact (Nat.lt_log2_self.trans_le (Nat.pow_le_pow_right (by omega) (by omega))).le
  · have hlt : n / 2 ^ (n.log2 - 23) < 2 ^ 24 := by
      rw [Nat.div_lt_iff_lt_mul (Nat.two_pow_pos _), ← Nat.pow_add]
      exact Nat.lt_log2_self.trans_le (Nat.pow_le_pow_right (by omega) (by omega))
    exact (nearest_bounds _ _).2.trans hlt

theorem le_nearest_log2 (h : 23 ≤ n.log2) : 2 ^ 23 ≤ nearest n (n.log2 - 23) := by
  have hn : n ≠ 0 := by
    rintro rfl
    simp at h
  refine le_trans ?_ (nearest_bounds _ _).1
  rw [Nat.le_div_iff_mul_le (Nat.two_pow_pos _), ← Nat.pow_add, Nat.add_sub_cancel' h]
  exact Nat.log2_self_le hn

theorem log2_mono (h : n ≤ n') : n.log2 ≤ n'.log2 := by
  rcases Nat.eq_zero_or_pos n with rfl | hn
  · simp
  · exact (Nat.le_log2 (by omega)).2 ((Nat.log2_self_le hn.ne').trans h)

theorem encode_mono (h : n ≤ n') : encode n ≤ encode n' := by
  have hlog : n.log2 ≤ n'.log2 := log2_mono h
  unfold encode
  rcases Nat.eq_or_lt_of_le (Nat.sub_le_sub_right hlog 23) with heq | hlt
  · rw [heq]
    exact Nat.add_le_add_left (nearest_mono h _) _
  · have h1 := nearest_log2_le n
    have h2 : 2 ^ 23 ≤ nearest n' (n'.log2 - 23) := le_nearest_log2 (by omega)
    omega

theorem log2_mul_pow (hn : n ≠ 0) (k : Nat) : (n * 2 ^ k).log2 = n.log2 + k := by
  have hne : n * 2 ^ k ≠ 0 := Nat.mul_ne_zero hn (Nat.two_pow_pos k).ne'
  refine (Nat.log2_eq_iff hne).2 ⟨?_, ?_⟩
  · rw [Nat.pow_add]
    exact Nat.mul_le_mul_right _ (Nat.log2_self_le hn)
  · rw [Nat.add_right_comm, Nat.pow_add]
    exact Nat.mul_lt_mul_of_pos_right Nat.lt_log2_self (Nat.two_pow_pos k)

theorem rounded_mono (h : n ≤ n') : rounded n ≤ rounded n' :=
  min_le_min_right _ (encode_mono h)

theorem rounded_le (n : Nat) : rounded n ≤ top := Nat.min_le_right _ _

/-- Patterns are fixed points of rounding. -/
theorem encode_worth (b : Nat) : encode (worth b) = b := by
  unfold worth
  split_ifs with hb
  · have hlog : b.log2 - 23 = 0 := by
      rcases Nat.eq_zero_or_pos b with rfl | hpos
      · rfl
      · have := (Nat.log2_lt hpos.ne').2 hb
        omega
    rw [encode, hlog, nearest_zero]
    omega
  · have hdiv := Nat.div_add_mod b (2 ^ 23)
    have hmod := Nat.mod_lt b (show 2 ^ 23 > 0 by omega)
    have hlog : (2 ^ 23 + b % 2 ^ 23).log2 = 23 :=
      (Nat.log2_eq_iff (by omega)).2 ⟨by omega, by omega⟩
    have hk : ((2 ^ 23 + b % 2 ^ 23) * 2 ^ (b / 2 ^ 23 - 1)).log2 - 23 = b / 2 ^ 23 - 1 := by
      rw [log2_mul_pow (by omega), hlog]
      omega
    rw [encode, hk, nearest_exact]
    omega

theorem rounded_worth (h : b ≤ top) : rounded (worth b) = b := by
  rw [rounded, encode_worth, Nat.min_eq_left h]

theorem worth_mono {b' : Nat} (h : b ≤ b') : worth b ≤ worth b' := by
  by_contra hlt
  have hle := encode_mono (Nat.le_of_not_le hlt)
  rw [encode_worth, encode_worth] at hle
  obtain rfl := Nat.le_antisymm h hle
  exact hlt (Nat.le_refl _)

/-- What is left of a mantissa after shifting, the last bit that went and whether any other was
set. -/
theorem shiftRight_eq (n s : Nat) : (⟨n, false, false⟩ : ExtendedMantissa) >>> (s + 1) =
    ⟨n / 2 ^ (s + 1), n / 2 ^ s % 2 != 0, n % 2 ^ s != 0⟩ := by
  induction s with
  | zero => simp [HShiftRight.hShiftRight, Nat.repeat, ExtendedMantissa.shiftRightOne, Nat.mod_one]
  | succ s ih =>
    have hstep : (⟨n, false, false⟩ : ExtendedMantissa) >>> (s + 1 + 1) =
        ((⟨n, false, false⟩ : ExtendedMantissa) >>> (s + 1)).shiftRightOne := rfl
    have hmod : n % 2 ^ (s + 1) = n % 2 ^ s + 2 ^ s * (n / 2 ^ s % 2) := by
      rw [Nat.pow_succ, Nat.mod_mul]
    have hpos : 0 < 2 ^ s := Nat.two_pow_pos s
    rw [hstep, ih, ExtendedMantissa.shiftRightOne]
    congr 1
    · rw [Nat.div_div_eq_div_mul, ← Nat.pow_succ]
    · rw [hmod]
      rcases Nat.mod_two_eq_zero_or_one (n / 2 ^ s) with h | h <;> simp [h]

theorem roundedMantissa_shiftRight (n s : Nat) :
    ((⟨n, false, false⟩ : ExtendedMantissa) >>> s).roundedMantissa = nearest n s := by
  cases s with
  | zero => simp [HShiftRight.hShiftRight, Nat.repeat, ExtendedMantissa.roundedMantissa,
      ExtendedMantissa.accuracy, Accuracy.roundToNearestEven]
  | succ s =>
    have hmod : n % 2 ^ (s + 1) = n % 2 ^ s + 2 ^ s * (n / 2 ^ s % 2) := by
      rw [Nat.pow_succ, Nat.mod_mul]
    have hlt : n % 2 ^ s < 2 ^ s := Nat.mod_lt _ (Nat.two_pow_pos s)
    have hpow : 2 ^ (s + 1) = 2 * 2 ^ s := by rw [Nat.pow_succ, Nat.mul_comm]
    rw [shiftRight_eq, ExtendedMantissa.roundedMantissa, nearest]
    rcases Nat.mod_two_eq_zero_or_one (n / 2 ^ s) with h | h <;>
      rcases Nat.eq_zero_or_pos (n % 2 ^ s) with h0 | h0
    · simp [ExtendedMantissa.accuracy, Accuracy.roundToNearestEven, h, h0, hmod]
    · have hne : (n % 2 ^ s != 0) = true := by simpa using h0.ne'
      rw [hmod, h, if_pos (by omega)]
      simp [ExtendedMantissa.accuracy, Accuracy.roundToNearestEven, hne]
    · rw [hmod, h, h0, if_neg (by omega), if_pos (by omega)]
      simp [ExtendedMantissa.accuracy, Accuracy.roundToNearestEven]
    · have hne : (n % 2 ^ s != 0) = true := by simpa using h0.ne'
      rw [hmod, h, if_neg (by omega), if_neg (by omega)]
      simp [ExtendedMantissa.accuracy, Accuracy.roundToNearestEven, hne]

/-- Patterns of this size have no sign, and only infinity is not finite. -/
theorem packComponents_eq (e m : Nat) (he : e < 2 ^ 8) (hm : m < 2 ^ 23) :
    packComponents Format.binary32 .positive (BitVec.ofNat 8 e) (BitVec.ofNat 23 m) =
      BitVec.ofNat 32 (e * 2 ^ 23 + m) := by
  refine BitVec.eq_of_toNat_eq ?_
  have happ : (packComponents Format.binary32 .positive (BitVec.ofNat 8 e)
      (BitVec.ofNat 23 m)).toNat = e <<< 23 ||| m := by
    unfold packComponents
    rw [BitVec.toNat_append, BitVec.toNat_append, BitVec.toNat_ofNat, BitVec.toNat_ofNat,
      Nat.mod_eq_of_lt he, Nat.mod_eq_of_lt hm]
    simp [Sign.toBitVec]
  have hnat : (BitVec.ofNat 32 (e * 2 ^ 23 + m)).toNat = e * 2 ^ 23 + m := by
    rw [BitVec.toNat_ofNat]
    exact Nat.mod_eq_of_lt (by omega)
  rw [happ, ← Nat.shiftLeft_add_eq_or_of_lt hm, Nat.shiftLeft_eq]
  exact hnat.symm

theorem pack_finite {q k : Nat} (hq : 0 < q) (hlt : q < 2 ^ 24) (hk : k = 0 ∨ 2 ^ 23 ≤ q) :
    UnpackedFloat.pack Format.binary32 (.finite .positive q ((k : ℤ) - 149) hq) =
      BitVec.ofNat 32 (min (k * 2 ^ 23 + q) top) := by
  have hbias : ((k : ℤ) - 149 + (Format.binary32.exponentBias : ℤ) +
      (Format.binary32.mantissaBitsWithoutImplicit : ℤ)).toNat = k + 1 := by
    have h1 : Format.binary32.exponentBias = 127 := by decide
    have h2 : Format.binary32.mantissaBitsWithoutImplicit = 23 := rfl
    rw [h1, h2]
    omega
  have hlog : q.log2 + 1 = Format.binary32.mantissaBits ↔ 2 ^ 23 ≤ q := by
    have h1 := Nat.le_log2 hq.ne' (k := 23)
    have h2 := Nat.log2_lt hq.ne' (k := 24)
    have : Format.binary32.mantissaBits = 24 := by decide
    omega
  unfold UnpackedFloat.pack
  dsimp only
  rw [hbias]
  simp only [hlog]
  split_ifs with htop hnormal
  · have hle : top ≤ k * 2 ^ 23 + q := by
      simp only [top]
      omega
    rw [Nat.min_eq_right hle]
    decide
  · have hle : k * 2 ^ 23 + q ≤ top := by
      simp only [top]
      omega
    have hmod : BitVec.ofNat 23 q = BitVec.ofNat 23 (q - 2 ^ 23) := by
      refine BitVec.eq_of_toNat_eq ?_
      simp only [BitVec.toNat_ofNat]
      omega
    rw [Nat.min_eq_left hle, hmod, packComponents_eq _ _ (by omega) (by omega)]
    exact congrArg (BitVec.ofNat 32) (by omega)
  · have hk : k = 0 := by omega
    have hle : k * 2 ^ 23 + q ≤ top := by
      simp only [top]
      omega
    rw [Nat.min_eq_left hle]
    have := packComponents_eq 0 q (by omega) (by omega)
    rw [hk]
    exact this

theorem targetExponent_eq (t k : ℤ) (h : max (t - 24) (-149) = k) :
    Format.binary32.targetExponent t = k := by
  have h1 : Format.binary32.mantissaBits = 24 := by decide
  have h2 : Format.binary32.minExponent = -149 := by decide
  rw [Format.targetExponent, h1, h2]
  exact h

/-- What is longer than 24 bits is shifted to that length. -/
theorem shiftToTargetExponent_eq (m e : Nat) :
    shiftToTargetExponent Format.binary32 m ((e : ℤ) - 149) .exact =
      ((⟨m, false, false⟩ : ExtendedMantissa) >>> (m.log2 + e - 23 - e),
        ((max e (m.log2 + e - 23) : ℕ) : ℤ) - 149) := by
  unfold shiftToTargetExponent shiftToExponent
  dsimp only
  rw [targetExponent_eq _ (((m.log2 + e - 23 : ℕ) : ℤ) - 149) (by unfold totalExponent; omega)]
  have hs : (((m.log2 + e - 23 : ℕ) : ℤ) - 149 - ((e : ℤ) - 149)).toNat = m.log2 + e - 23 - e := by
    omega
  rw [hs]
  refine Prod.ext rfl ?_
  dsimp only
  omega

/-- Rounding to 24 bits, for a mantissa that is not too short. -/
theorem pack_roundWithAccuracy {m e : Nat} (hm : 0 < m) (he : e ≤ m.log2 + e - 23) :
    UnpackedFloat.pack Format.binary32
      (roundWithAccuracy Format.binary32 .positive m ((e : ℤ) - 149) .exact) =
        BitVec.ofNat 32 (rounded (m * 2 ^ e)) := by
  obtain ⟨k, hk⟩ : ∃ k, m.log2 + e - 23 = k := ⟨_, rfl⟩
  rw [hk] at he
  have hlog : (m * 2 ^ e).log2 - 23 = k := by rw [log2_mul_pow hm.ne', hk]
  obtain ⟨q, hq⟩ : ∃ q, nearest (m * 2 ^ e) k = q := ⟨_, rfl⟩
  have hfirst : shiftToTargetExponent Format.binary32 m ((e : ℤ) - 149) .exact =
      ((⟨m, false, false⟩ : ExtendedMantissa) >>> (k - e), (k : ℤ) - 149) := by
    rw [shiftToTargetExponent_eq, hk, max_eq_right he]
  have hround : ((⟨m, false, false⟩ : ExtendedMantissa) >>> (k - e)).roundedMantissa = q := by
    rw [roundedMantissa_shiftRight, ← hq]
    have := nearest_mul m (k - e) e
    rwa [Nat.sub_add_cancel he, eq_comm] at this
  have hencode : encode (m * 2 ^ e) = k * 2 ^ 23 + q := by rw [encode, hlog, hq]
  have hq24 : q ≤ 2 ^ 24 := by
    have := nearest_log2_le (m * 2 ^ e)
    rwa [hlog, hq] at this
  have hq23 : k = 0 ∨ 2 ^ 23 ≤ q := by
    rcases Nat.eq_zero_or_pos k with h0 | hpos
    · exact .inl h0
    · have := le_nearest_log2 (n := m * 2 ^ e) (by omega)
      rw [hlog, hq] at this
      exact .inr this
  have hqpos : 0 < q := by
    rcases hq23 with h0 | h
    · rw [← hq, h0, nearest_zero]
      exact Nat.mul_pos hm (Nat.two_pow_pos _)
    · omega
  unfold roundWithAccuracy
  rw [hfirst]
  dsimp only
  rw [hround]
  rcases Nat.lt_or_eq_of_le hq24 with hlt | heq
  · have hsecond : shiftToTargetExponent Format.binary32 q ((k : ℤ) - 149) .exact =
        (⟨q, false, false⟩, (k : ℤ) - 149) := by
      have hl := (Nat.log2_lt hqpos.ne').2 hlt
      rw [shiftToTargetExponent_eq, show q.log2 + k - 23 - k = 0 by omega, max_eq_left (by omega)]
      rfl
    rw [hsecond]
    dsimp only
    rw [dif_neg hqpos.ne', pack_finite hqpos hlt hq23, rounded, hencode]
  · have hsecond : shiftToTargetExponent Format.binary32 q ((k : ℤ) - 149) .exact =
        (⟨2 ^ 23, false, false⟩, ((k + 1 : ℕ) : ℤ) - 149) := by
      have hl : (2 ^ 24 : ℕ).log2 = 24 := Nat.log2_two_pow
      rw [heq, shiftToTargetExponent_eq, hl, show 24 + k - 23 - k = 1 by omega,
        show max k (24 + k - 23) = k + 1 by omega]
      rfl
    rw [hsecond]
    dsimp only
    rw [dif_neg (by decide), pack_finite (by decide) (by decide) (.inr (by decide)), rounded, hencode,
      heq]
    exact congrArg (fun b => BitVec.ofNat 32 (min b top)) (by omega)

/-- What a positive multiple of the smallest number rounds to. -/
theorem pack_round {m e : Nat} (hm : 0 < m) :
    UnpackedFloat.pack Format.binary32
        (UnpackedFloat.round Format.binary32 .positive m ((e : ℤ) - 149)) =
      BitVec.ofNat 32 (rounded (m * 2 ^ e)) := by
  obtain ⟨k, hk⟩ : ∃ k, m.log2 + e - 23 = k := ⟨_, rfl⟩
  have hdec : decreaseExponent m ((e : ℤ) - 149) ((k : ℤ) - 149) =
      (m * 2 ^ (e - k), ((min e k : ℕ) : ℤ) - 149) := by
    unfold decreaseExponent
    have hs : ((e : ℤ) - 149 - ((k : ℤ) - 149)).toNat = e - k := by omega
    rw [hs]
    refine Prod.ext (Nat.shiftLeft_eq m _) ?_
    dsimp only
    omega
  have hlog : (m * 2 ^ (e - k)).log2 = m.log2 + (e - k) := log2_mul_pow hm.ne' _
  unfold UnpackedFloat.round
  dsimp only
  rw [targetExponent_eq _ ((k : ℤ) - 149) (by unfold totalExponent; omega), hdec]
  dsimp only
  rw [pack_roundWithAccuracy (Nat.mul_pos hm (Nat.two_pow_pos _)) (by omega), Nat.mul_assoc,
    ← Nat.pow_add, show e - k + min e k = e by omega]

/-- The sum of two positive numbers. -/
theorem pack_add {m m' e e' : Nat} (hm : 0 < m) (hm' : 0 < m') :
    UnpackedFloat.pack Format.binary32 (UnpackedFloat.add Format.binary32
      (.finite .positive m ((e : ℤ) - 149) hm) (.finite .positive m' ((e' : ℤ) - 149) hm')) =
        BitVec.ofNat 32 (rounded (m * 2 ^ e + m' * 2 ^ e')) := by
  obtain ⟨l, hl⟩ : ∃ l, min e e' = l := ⟨_, rfl⟩
  have hmin : min ((e : ℤ) - 149) ((e' : ℤ) - 149) = (l : ℤ) - 149 := by omega
  have hdec (m e : ℕ) (he : l ≤ e) : decreaseExponent m ((e : ℤ) - 149) ((l : ℤ) - 149) =
      (m * 2 ^ (e - l), (l : ℤ) - 149) := by
    unfold decreaseExponent
    have hs : ((e : ℤ) - 149 - ((l : ℤ) - 149)).toNat = e - l := by omega
    rw [hs]
    refine Prod.ext (Nat.shiftLeft_eq m _) ?_
    dsimp only
    omega
  have hpos : 0 < m * 2 ^ (e - l) + m' * 2 ^ (e' - l) :=
    Nat.add_pos_left (Nat.mul_pos hm (Nat.two_pow_pos _)) _
  have hvalue : (m * 2 ^ (e - l) + m' * 2 ^ (e' - l)) * 2 ^ l = m * 2 ^ e + m' * 2 ^ e' := by
    rw [Nat.add_mul, Nat.mul_assoc, Nat.mul_assoc, ← Nat.pow_add, ← Nat.pow_add,
      Nat.sub_add_cancel (by omega), Nat.sub_add_cancel (by omega)]
  have hcmp : compare (((m * 2 ^ (e - l) + m' * 2 ^ (e' - l) : ℕ)) : ℤ) 0 = .gt :=
    compare_gt_iff_gt.2 (by exact_mod_cast hpos)
  unfold UnpackedFloat.add
  dsimp only
  rw [hmin, hdec m e (by omega), hdec m' e' (by omega)]
  dsimp only [Sign.apply]
  unfold UnpackedFloat.normalize
  rw [← Nat.cast_add, hcmp]
  dsimp only
  rw [Int.toNat_natCast, pack_round hpos, hvalue]

/-- A whole number. -/
theorem pack_ofNat (n : Nat) : UnpackedFloat.pack Format.binary32
    (UnpackedFloat.ofNat Format.binary32 n) = BitVec.ofNat 32 (rounded (n * 2 ^ 149)) := by
  unfold UnpackedFloat.ofNat UnpackedFloat.ofInt UnpackedFloat.normalize
  rcases Nat.eq_zero_or_pos n with rfl | hpos
  · decide
  · have hcmp : compare (n : ℤ) 0 = .gt := compare_gt_iff_gt.2 (by exact_mod_cast hpos)
    rw [hcmp]
    dsimp only
    rw [Int.toNat_natCast]
    exact pack_round (e := 149) hpos

/-- An eighth of a number that has all its bits and is not too small. -/
theorem pack_div_eight {m e : Nat} (hm : 0 < m) (hlog : m.log2 = 23) (he : 4 ≤ e)
    (h8 : 0 < 2 ^ 23) :
    UnpackedFloat.pack Format.binary32 (UnpackedFloat.div Format.binary32
      (.finite .positive m ((e : ℤ) - 149) hm) (.finite .positive (2 ^ 23) (-20) h8)) =
        BitVec.ofNat 32 (rounded (m * 2 ^ (e - 3))) := by
  have hcore : divCore Format.binary32 m ((e : ℤ) - 149) (2 ^ 23) (-20) =
      (m * 2 ^ 1, ((e - 4 : ℕ) : ℤ) - 149, .exact) := by
    have ht : totalExponent m ((e : ℤ) - 149) - totalExponent (2 ^ 23) (-20) = (e : ℤ) - 129 := by
      unfold totalExponent
      rw [hlog, Nat.log2_two_pow]
      omega
    have hshift : m <<< 24 = m * 2 * 2 ^ 23 := by
      rw [Nat.shiftLeft_eq, Nat.mul_assoc, ← Nat.pow_succ']
    unfold divCore
    dsimp only
    rw [ht, targetExponent_eq _ ((e : ℤ) - 153) (by omega)]
    have hmin : min ((e : ℤ) - 149 - -20) ((e : ℤ) - 153) = (e : ℤ) - 153 := by omega
    have hs : ((e : ℤ) - 149 - -20 - ((e : ℤ) - 153)).toNat = 24 := by omega
    rw [hmin, hs, hshift, Nat.mul_div_cancel _ h8, Nat.mul_mod_left]
    refine Prod.ext (by rw [Nat.pow_one]) (Prod.ext ?_ rfl)
    dsimp only
    omega
  have hlog' : (m * 2 ^ 1).log2 = 24 := by rw [log2_mul_pow hm.ne', hlog]
  unfold UnpackedFloat.div
  dsimp only
  rw [hcore]
  dsimp only
  refine (pack_roundWithAccuracy (Nat.mul_pos hm (Nat.two_pow_pos 1)) (by omega)).trans ?_
  rw [Nat.mul_assoc, ← Nat.pow_add, show 1 + (e - 4) = e - 3 by omega]

section Fields

variable {b : Nat}

theorem toNat_ofNat_pattern (hb : b < 2 ^ 31) : (BitVec.ofNat 32 b).toNat = b := by
  rw [BitVec.toNat_ofNat]
  exact Nat.mod_eq_of_lt (by omega)

theorem toNat_unpackExponent (hb : b < 2 ^ 31) :
    (@unpackExponent Format.binary32 (BitVec.ofNat 32 b)).toNat = b / 2 ^ 23 := by
  rw [unpackExponent_def, BitVec.extractLsb'_toNat, Nat.shiftRight_eq_div_pow]
  show (BitVec.ofNat 32 b).toNat / 2 ^ 23 % 2 ^ 8 = b / 2 ^ 23
  rw [toNat_ofNat_pattern hb]
  omega

theorem toNat_unpackMantissa (hb : b < 2 ^ 31) :
    (@unpackMantissa Format.binary32 (BitVec.ofNat 32 b)).toNat = b % 2 ^ 23 := by
  rw [unpackMantissa_def, BitVec.extractLsb'_toNat]
  show (BitVec.ofNat 32 b).toNat % 2 ^ 23 = b % 2 ^ 23
  rw [toNat_ofNat_pattern hb]

theorem unpackSign_eq (hb : b < 2 ^ 31) :
    Sign.ofBitVec (@unpackSign Format.binary32 (BitVec.ofNat 32 b)) = .positive := by
  have hzero : @unpackSign Format.binary32 (BitVec.ofNat 32 b) = 0#1 := by
    refine BitVec.eq_of_toNat_eq ?_
    rw [unpackSign_def, BitVec.extractLsb'_toNat, Nat.shiftRight_eq_div_pow]
    show (BitVec.ofNat 32 b).toNat / 2 ^ 31 % 2 ^ 1 = 0
    rw [toNat_ofNat_pattern hb]
    omega
  rw [hzero]
  rfl

theorem unpackExponent_ne (hb : b < top) :
    @unpackExponent Format.binary32 (BitVec.ofNat 32 b) ≠ -1#8 := by
  intro he
  have := toNat_unpackExponent (b := b) (by simp only [top] at hb; omega)
  rw [he] at this
  have h255 : (-1#8).toNat = 255 := by decide
  simp only [top] at hb
  omega

theorem valid_of_lt (hb : b < top) : Format.binary32.Valid (BitVec.ofNat 32 b) :=
  ⟨fun he => absurd he (unpackExponent_ne hb)⟩

theorem unpack_zero :
    UnpackedFloat.unpack Format.binary32 (BitVec.ofNat 32 0) = .zero .positive := by
  rw [show BitVec.ofNat 32 0 = packedZero Format.binary32 .positive by decide]
  exact unpack_packedZero

/-- A positive finite number as a multiple of the smallest one. A normal one has all 24 bits. -/
theorem unpack_finite (h0 : 0 < b) (hb : b < top) : ∃ (m e : ℕ) (h : 0 < m),
    UnpackedFloat.unpack Format.binary32 (BitVec.ofNat 32 b) =
      .finite .positive m ((e : ℤ) - 149) h ∧ m * 2 ^ e = worth b ∧
        (2 ^ 23 ≤ b → m.log2 = 23 ∧ e = b / 2 ^ 23 - 1) := by
  have h31 : b < 2 ^ 31 := by
    simp only [top] at hb
    omega
  have hexp := toNat_unpackExponent h31
  have hman := toNat_unpackMantissa h31
  have hbias : Format.binary32.exponentBias = 127 := by decide
  unfold UnpackedFloat.unpack
  dsimp only
  rw [if_neg (unpackExponent_ne hb), unpackSign_eq h31, hexp, hbias]
  by_cases hsub : b < 2 ^ 23
  · have hzero : @unpackExponent Format.binary32 (BitVec.ofNat 32 b) = 0#8 := by
      refine BitVec.eq_of_toNat_eq ?_
      rw [hexp]
      show b / 2 ^ 23 = 0
      omega
    have hne : @unpackMantissa Format.binary32 (BitVec.ofNat 32 b) ≠ 0#23 := by
      intro he
      rw [he] at hman
      have : (0#23).toNat = 0 := rfl
      omega
    rw [if_pos hzero, dif_neg hne]
    refine ⟨b, 0, h0, ?_, by rw [worth, if_pos hsub, Nat.pow_zero, Nat.mul_one],
      fun h => absurd h (by omega)⟩
    congr 1
    · rw [hman]
      omega
    · have : b / 2 ^ 23 = 0 := by omega
      rw [this]
      rfl
  · have hne : @unpackExponent Format.binary32 (BitVec.ofNat 32 b) ≠ 0#8 := by
      intro he
      rw [he] at hexp
      have : (0#8).toNat = 0 := rfl
      omega
    have happ : (1#1 ++ @unpackMantissa Format.binary32 (BitVec.ofNat 32 b)).toNat =
        2 ^ 23 + b % 2 ^ 23 := by
      rw [BitVec.toNat_append, hman, ← Nat.shiftLeft_add_eq_or_of_lt (by omega), Nat.shiftLeft_eq]
      rfl
    rw [if_neg hne]
    refine ⟨2 ^ 23 + b % 2 ^ 23, b / 2 ^ 23 - 1, by omega, ?_, by rw [worth, if_neg hsub],
      fun _ => ⟨(Nat.log2_eq_iff (by omega)).2 ⟨by omega, by omega⟩, rfl⟩⟩
    congr 1
    show ((b / 2 ^ 23 : ℕ) : ℤ) - (127 + 23) = _
    omega

end Fields

end TechMap.Rounding

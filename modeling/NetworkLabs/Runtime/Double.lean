import Mathlib.Algebra.Order.Floor.Ring
import Mathlib.Data.Int.Log
import Mathlib.Data.Rat.Floor
import Mathlib.Tactic.FieldSimp
import NetworkLabs.Runtime.Memory

/-!
# Floating-point numbers and their conversions

A floating-point number is given by its value, a rational. The conversion to an integer type drops
the fraction; when the whole part does not fit, it is undefined.

## Main definitions

* `truncate x`: the whole part
* `doubleToInt`, `doubleToSize`: the conversions to `int` and `size_t`
* `IsRounding`: what is known of the rounding of a `double`
* `double`: the rounding to the nearest `double`

## Main results

* `isRounding_double`, `abs_double_sub_le`: its laws, and its error
* `truncate_mono`: the conversions keep the order
* `truncate_nonneg_iff`, `truncate_eq_zero_iff`, `le_truncate_iff`: whole parts by their fractions
-/

namespace CRuntime

/-- The whole part of a number. -/
def truncate (x : ℚ) : ℤ := if 0 ≤ x then ⌊x⌋ else ⌈x⌉

/-- The value of a floating-point number converted to `int`. -/
def doubleToInt (x : ℚ) : Option ℤ :=
  if -2 ^ 31 ≤ truncate x ∧ truncate x < 2 ^ 31 then some (truncate x) else none

/-- The value of a floating-point number converted to `size_t`. -/
def doubleToSize (x : ℚ) : Option ℕ :=
  if 0 ≤ truncate x ∧ truncate x < 2 ^ 64 then some (truncate x).toNat else none

variable {x y : ℚ}

theorem truncate_of_nonneg (h : 0 ≤ x) : truncate x = ⌊x⌋ := if_pos h

theorem truncate_of_neg (h : x < 0) : truncate x = ⌈x⌉ := if_neg h.not_ge

@[simp] theorem truncate_intCast (z : ℤ) : truncate z = z := by
  unfold truncate
  split
  · exact Int.floor_intCast z
  · exact Int.ceil_intCast z

@[simp] theorem truncate_natCast (n : ℕ) : truncate n = n := truncate_intCast n

@[simp] theorem truncate_zero : truncate 0 = 0 := truncate_intCast 0

/-- A number that is not negative has the whole part it lies above. -/
theorem truncate_eq {n : ℕ} (h₁ : n ≤ x) (h₂ : x < n + 1) : truncate x = n := by
  rw [truncate_of_nonneg ((Nat.cast_nonneg n).trans h₁), Int.floor_eq_iff]
  exact ⟨by exact_mod_cast h₁, by exact_mod_cast h₂⟩

theorem truncate_mono (h : x ≤ y) : truncate x ≤ truncate y := by
  rcases lt_or_ge x 0 with hx | hx
  · rw [truncate_of_neg hx]
    rcases lt_or_ge y 0 with hy | hy
    · rw [truncate_of_neg hy]
      exact Int.ceil_mono h
    -- the whole parts lie on different sides of zero
    · rw [truncate_of_nonneg hy]
      have hceil : ⌈x⌉ ≤ 0 := Int.ceil_le.mpr (by simpa using hx.le)
      exact hceil.trans (Int.floor_nonneg.mpr hy)
  · rw [truncate_of_nonneg hx, truncate_of_nonneg (hx.trans h)]
    exact Int.floor_mono h

/-- A fraction alone does not make a number negative. -/
theorem truncate_nonneg_iff : 0 ≤ truncate x ↔ -1 < x := by
  rcases lt_or_ge x 0 with hx | hx
  · rw [truncate_of_neg hx]
    constructor
    · intro h
      have hlt : ((-1 : ℤ) : ℚ) < x := Int.lt_ceil.mp (by omega)
      simpa using hlt
    · intro h
      have hlt : -1 < ⌈x⌉ := Int.lt_ceil.mpr (by simpa using h)
      omega
  · rw [truncate_of_nonneg hx]
    exact iff_of_true (Int.floor_nonneg.mpr hx) (by linarith)

/-- From `1` on the whole part is reached when the number is. -/
theorem le_truncate_iff {n : ℤ} (hn : 1 ≤ n) : n ≤ truncate x ↔ (n : ℚ) ≤ x := by
  have hn' : (1 : ℚ) ≤ n := by exact_mod_cast hn
  rcases lt_or_ge x 0 with hx | hx
  · have hle : truncate x ≤ 0 := by simpa using truncate_mono hx.le
    exact iff_of_false (by omega) (by linarith)
  · rw [truncate_of_nonneg hx, Int.le_floor]

theorem truncate_lt_iff {n : ℤ} (hn : 1 ≤ n) : truncate x < n ↔ x < n := by
  rw [← not_le, le_truncate_iff hn, not_le]

theorem truncate_eq_zero_iff : truncate x = 0 ↔ -1 < x ∧ x < 1 := by
  have hlt : truncate x < 1 ↔ x < 1 := by exact_mod_cast truncate_lt_iff (x := x) le_rfl
  rw [← truncate_nonneg_iff, ← hlt]
  omega

theorem truncate_neg_iff : truncate x < 0 ↔ x ≤ -1 := by
  rw [← not_le, truncate_nonneg_iff, not_lt]

/-- Between the bounds of `int` the whole part is one. -/
theorem truncate_int_bounds (h₁ : -2 ^ 31 ≤ x) (h₂ : x < 2 ^ 31) :
    -2 ^ 31 ≤ truncate x ∧ truncate x < 2 ^ 31 := by
  constructor
  · have hmono := truncate_mono (x := ((-2 ^ 31 : ℤ) : ℚ)) (y := x) (by push_cast; exact h₁)
    rwa [truncate_intCast] at hmono
  · exact (truncate_lt_iff (by norm_num)).mpr (by push_cast; exact h₂)

theorem doubleToInt_eq_some (h₁ : -2 ^ 31 ≤ x) (h₂ : x < 2 ^ 31) :
    doubleToInt x = some (truncate x) :=
  if_pos (truncate_int_bounds h₁ h₂)

theorem doubleToSize_eq_some (h₁ : 0 ≤ x) (h₂ : x < 2 ^ 64) :
    doubleToSize x = some (truncate x).toNat := by
  refine if_pos ⟨?_, ?_⟩
  · exact truncate_nonneg_iff.mpr (by linarith)
  · exact (truncate_lt_iff (by norm_num)).mpr (by push_cast; exact h₂)

example : truncate (-3 / 2) = -1 := by decide +kernel

/-! ## Rounding -/

/-- The rounding of a `double`: numbers that have at most 53 binary digits are kept, and in the
normal range the error is relative to the number. -/
structure IsRounding (fl : ℚ → ℚ) : Prop where
  exact : ∀ (m : ℤ) (e : ℕ), |m| ≤ 2 ^ 53 → e ≤ 1074 → fl (m / 2 ^ e) = m / 2 ^ e
  close : ∀ x : ℚ, 1 / 2 ^ 1022 ≤ |x| → |x| ≤ 2 ^ 1023 → |fl x - x| ≤ |x| / 2 ^ 53

/-- Exact arithmetic rounds nothing. -/
theorem isRounding_id : IsRounding id where
  exact _ _ _ _ := rfl
  close x _ _ := by
    rw [id, sub_self, abs_zero]
    exact div_nonneg (abs_nonneg x) (by positivity)

namespace IsRounding

variable {fl : ℚ → ℚ}

theorem intCast (hfl : IsRounding fl) {z : ℤ} (hz : |z| ≤ 2 ^ 53) : fl z = z := by
  simpa using hfl.exact z 0 hz (Nat.zero_le _)

theorem natCast (hfl : IsRounding fl) {n : ℕ} (hn : n ≤ 2 ^ 53) : fl n = n := by
  have hz : |(n : ℤ)| ≤ 2 ^ 53 := by
    rw [Nat.abs_cast]
    exact_mod_cast hn
  exact_mod_cast hfl.intCast hz

/-- Quarters have two binary digits more than whole numbers. -/
theorem quarter (hfl : IsRounding fl) {n : ℕ} (hn : n ≤ 2 ^ 53) : fl (n / 4) = n / 4 := by
  have hz : |(n : ℤ)| ≤ 2 ^ 53 := by
    rw [Nat.abs_cast]
    exact_mod_cast hn
  have hquarter := hfl.exact n 2 hz (by decide)
  have hfour : (2 : ℚ) ^ 2 = 4 := by norm_num
  rwa [hfour, Int.cast_natCast] at hquarter

/-- A number of moderate size is rounded by less than a billionth of it. -/
theorem bounds (hfl : IsRounding fl) {x : ℚ} (h₁ : 1 / 2 ^ 100 ≤ |x|) (h₂ : |x| ≤ 2 ^ 100) :
    x - |x| / 10 ^ 9 < fl x ∧ fl x < x + |x| / 10 ^ 9 := by
  have hlow : (1 / 2 ^ 1022 : ℚ) ≤ 1 / 2 ^ 100 :=
    one_div_pow_le_one_div_pow_of_le (by norm_num) (by norm_num)
  have hhigh : (2 ^ 100 : ℚ) ≤ 2 ^ 1023 := pow_le_pow_right₀ (by norm_num) (by norm_num)
  have hpos : 0 < |x| := lt_of_lt_of_le (by positivity) h₁
  have hlt : |x| / 2 ^ 53 < |x| / 10 ^ 9 := div_lt_div_of_pos_left hpos (by norm_num) (by norm_num)
  have hclose := (hfl.close x (hlow.trans h₁) (h₂.trans hhigh)).trans_lt hlt
  rw [abs_sub_lt_iff] at hclose
  constructor <;> linarith

end IsRounding

/-! ## The nearest double -/

/-- The nearest whole number, and of two that are equally near the even one. -/
def roundEven (y : ℚ) : ℤ :=
  if y - ⌊y⌋ < 1 / 2 ∨ y - ⌊y⌋ = 1 / 2 ∧ ⌊y⌋ % 2 = 0 then ⌊y⌋ else ⌊y⌋ + 1

/-- The exponent of the last of the 53 binary digits of a number, or of the last one there is. -/
def lastBit (x : ℚ) : ℤ := max (Int.log 2 |x| - 52) (-1074)

/-- The nearest `double`, for a number that is not too large for one. -/
def double (x : ℚ) : ℚ := roundEven (x / 2 ^ lastBit x) * 2 ^ lastBit x

@[simp] theorem roundEven_intCast (z : ℤ) : roundEven z = z := by
  unfold roundEven
  rw [Int.floor_intCast, sub_self, if_pos (Or.inl (by norm_num))]

theorem abs_roundEven_sub_le (y : ℚ) : |(roundEven y : ℚ) - y| ≤ 1 / 2 := by
  have hle := Int.floor_le y
  have hlt := Int.lt_floor_add_one y
  unfold roundEven
  rw [abs_le]
  split
  -- below the middle, or in it
  · next h =>
    have hhalf : y - ⌊y⌋ ≤ 1 / 2 := h.elim le_of_lt fun h => h.1.le
    constructor <;> linarith
  · next h =>
    have hhalf : 1 / 2 ≤ y - ⌊y⌋ := not_lt.mp fun hlow => h (Or.inl hlow)
    push_cast
    constructor <;> linarith

/-- A number of whole last digits is kept. -/
theorem double_of_eq_mul {x : ℚ} {z : ℤ} (h : x = z * 2 ^ lastBit x) : double x = x := by
  have hpos : (0 : ℚ) < 2 ^ lastBit x := zpow_pos two_pos _
  have hdiv : x / 2 ^ lastBit x = z := by
    rw [div_eq_iff hpos.ne']
    exact h
  rw [double, hdiv, roundEven_intCast, ← h]

/-- The error is half of the last digit at most. -/
theorem abs_double_sub_le_half (x : ℚ) : |double x - x| ≤ 2 ^ lastBit x / 2 := by
  have hpos : (0 : ℚ) < 2 ^ lastBit x := zpow_pos two_pos _
  have hround := abs_roundEven_sub_le (x / 2 ^ lastBit x)
  have hsplit : double x - x =
      (roundEven (x / 2 ^ lastBit x) - x / 2 ^ lastBit x) * 2 ^ lastBit x := by
    rw [sub_mul, div_mul_cancel₀ _ hpos.ne', double]
  rw [hsplit, abs_mul, abs_of_pos hpos]
  have hmul := mul_le_mul_of_nonneg_right hround hpos.le
  linarith

/-- The last digit is in proportion to the number, or the smallest there is. -/
theorem two_zpow_lastBit_le {x : ℚ} (hx : x ≠ 0) : (2 : ℚ) ^ lastBit x ≤ |x| / 2 ^ 52 ∨
    Int.log 2 |x| - 52 < -1074 ∧ lastBit x = -1074 := by
  unfold lastBit
  rcases lt_or_ge (Int.log 2 |x| - 52) (-1074) with h | h
  · exact Or.inr ⟨h, max_eq_right h.le⟩
  · left
    have hlog : ((2 : ℕ) : ℚ) ^ Int.log 2 |x| ≤ |x| :=
      Int.zpow_log_le_self one_lt_two (abs_pos.mpr hx)
    rw [Nat.cast_ofNat] at hlog
    rw [max_eq_left h, zpow_sub₀ two_ne_zero]
    exact div_le_div_of_nonneg_right hlog (by positivity)

/-- **The error of a `double`**: relative to the number, or half of the smallest one. -/
theorem abs_double_sub_le (x : ℚ) : |double x - x| ≤ |x| / 2 ^ 53 + 1 / 2 ^ 1075 := by
  rcases eq_or_ne x 0 with rfl | hx
  · rw [double_of_eq_mul (z := 0) (by simp)]
    simp
  refine (abs_double_sub_le_half x).trans ?_
  rcases two_zpow_lastBit_le hx with hle | ⟨-, hlast⟩
  · have hhalf : |x| / 2 ^ 52 / 2 = |x| / 2 ^ 53 := by rw [div_div, ← pow_succ]
    rw [← hhalf]
    exact (div_le_div_of_nonneg_right hle zero_le_two).trans
      (le_add_of_nonneg_right (by positivity))
  · have hhalf : (2 : ℚ) ^ (-1074 : ℤ) / 2 = 1 / 2 ^ 1075 := by
      rw [zpow_neg, ← one_div, div_div, show (1074 : ℤ) = (1074 : ℕ) from rfl, zpow_natCast,
        ← pow_succ]
    rw [hlast, hhalf]
    exact le_add_of_nonneg_left (by positivity)

/-- In the normal range the error is relative. -/
theorem abs_double_sub_le_of_normal {x : ℚ} (hx : 1 / 2 ^ 1022 ≤ |x|) :
    |double x - x| ≤ |x| / 2 ^ 53 := by
  have hne : x ≠ 0 := by
    rintro rfl
    rw [abs_zero] at hx
    exact absurd hx (not_le.mpr (by positivity))
  have herror := abs_double_sub_le_half x
  rcases two_zpow_lastBit_le hne with hle | ⟨hlow, -⟩
  · have hhalf : |x| / 2 ^ 52 / 2 = |x| / 2 ^ 53 := by rw [div_div, ← pow_succ]
    linarith
  -- a number of the normal range has no digits below the smallest
  · have hlt : |x| < ((2 : ℕ) : ℚ) ^ (-1022 : ℤ) :=
      (Int.lt_zpow_iff_log_lt one_lt_two (abs_pos.mpr hne)).mpr (by omega)
    rw [Nat.cast_ofNat, zpow_neg, ← one_div, show (1022 : ℤ) = (1022 : ℕ) from rfl,
      zpow_natCast] at hlt
    exact absurd hx (not_le.mpr hlt)

/-- Numbers of at most 53 binary digits are whole multiples of their last digit. -/
theorem exists_eq_mul_lastBit {m : ℤ} {e : ℕ} (hm : |m| ≤ 2 ^ 53) (he : e ≤ 1074) :
    ∃ z : ℤ, (m / 2 ^ e : ℚ) = z * 2 ^ lastBit (m / 2 ^ e) := by
  rcases eq_or_ne m 0 with rfl | hm0
  · exact ⟨0, by simp⟩
  generalize hx : (m / 2 ^ e : ℚ) = x
  have hpow : (0 : ℚ) < 2 ^ e := by positivity
  have hmx : (m : ℚ) = x * 2 ^ e := by rw [← hx, div_mul_cancel₀ _ hpow.ne']
  rcases le_or_gt (lastBit x) (-e) with hlow | hhigh
  -- the last digit is no larger than that of the fraction
  · obtain ⟨k, hk⟩ := Int.le.dest hlow
    refine ⟨m * 2 ^ k, ?_⟩
    push_cast
    rw [hmx, mul_assoc, mul_assoc, ← zpow_natCast 2 k, ← zpow_add₀ two_ne_zero,
      ← zpow_natCast 2 e, ← zpow_add₀ two_ne_zero]
    have hzero : (e : ℤ) + (k + lastBit x) = 0 := by omega
    rw [hzero, zpow_zero, mul_one]
  -- otherwise the number has more than 53 digits in front of it, and is a power of two
  · have habs : |x| = |(m : ℚ)| / 2 ^ e := by rw [← hx, abs_div, abs_of_pos hpow]
    have hpos : 0 < |x| := by
      rw [habs]
      exact div_pos (abs_pos.mpr (Int.cast_ne_zero.mpr hm0)) hpow
    have hmax : |(m : ℚ)| ≤ 2 ^ 53 := by exact_mod_cast hm
    have hscale (k : ℕ) : (2 : ℚ) ^ ((k : ℤ) - e) = 2 ^ k / 2 ^ e := by
      rw [zpow_sub₀ two_ne_zero, zpow_natCast, zpow_natCast]
    have hbelow : Int.log 2 |x| < 54 - e := by
      rw [← Int.lt_zpow_iff_log_lt one_lt_two hpos, Nat.cast_ofNat, habs]
      refine (div_lt_div_of_pos_right (hmax.trans_lt ?_) hpow).trans_eq (hscale 54).symm
      norm_num
    have habove : 53 - (e : ℤ) ≤ Int.log 2 |x| := by
      unfold lastBit at hhigh
      omega
    have hlast : lastBit x = 1 - e := by
      unfold lastBit
      omega
    have hall : (2 : ℚ) ^ 53 ≤ |(m : ℚ)| := by
      have hle := (Int.zpow_le_iff_le_log one_lt_two hpos).mpr habove
      rw [Nat.cast_ofNat, habs] at hle
      exact (div_le_div_iff_of_pos_right hpow).mp ((hscale 53).symm.le.trans hle)
    have hfull : |m| = 2 ^ 53 := by
      have hge : (2 : ℤ) ^ 53 ≤ |m| := by exact_mod_cast hall
      omega
    have heven : m = m / 2 * 2 := by
      rcases abs_eq (by norm_num) |>.mp hfull with rfl | rfl <;> rfl
    refine ⟨m / 2, ?_⟩
    rw [hlast, ← hx, zpow_sub₀ two_ne_zero, zpow_one, zpow_natCast, ← mul_div_assoc]
    congr 1
    exact_mod_cast heven

/-- The rounding to the nearest `double` has the laws of a rounding. -/
theorem isRounding_double : IsRounding double where
  exact m e hm he := by
    obtain ⟨z, hz⟩ := exists_eq_mul_lastBit hm he
    exact double_of_eq_mul hz
  close _ hx _ := abs_double_sub_le_of_normal hx

example : double 0.1 = 3602879701896397 / 2 ^ 55 := by decide +kernel

end CRuntime

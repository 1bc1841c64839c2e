import NetworkLabs.Audio.RateControl

/-!
# The rate control in doubles

Modes 2 and 3 compute the next packet spacing with operations on `double`, each of which rounds. All
their roundings together are off by much less than the law's smallest fraction, so that only a law
that is a whole number can lose its whole part: the sum may come out just below it.

## Main definitions

* `clamped`: what the clamps are for

## Main results

* `nextSpacing_double`: how far the rounded law is from the law
* `truncate_eq_or_of_close`: what is left of the whole part
* `handleSigpoll_double`: the spacing that is stored
-/

namespace NetworkLabs.Audio

open CRuntime

/-! ## The clamps -/

/-- What the clamps are for: `5` instead of a spacing that is not positive, `999` from `1000` on. -/
def clamped (r : ℤ) : ℤ := if r ≤ 0 then 5 else if 1000 ≤ r then 999 else r

/-- A negative number has become a large one before the clamps compare it. -/
theorem clampSpacing_toSize_eq_iff (h₁ : -2 ^ 31 ≤ r) (h₂ : r < 2 ^ 31) :
    (clampSpacing (toSize r) : ℤ) = clamped r ↔ 0 ≤ r := by
  unfold clamped
  rcases lt_trichotomy r 0 with hr | rfl | hr
  -- 999, where the clamp should give 5
  · rw [clampSpacing_toSize_of_neg h₁ hr, if_pos hr.le]
    exact iff_of_false (by decide) (by omega)
  · exact iff_of_true (by decide) le_rfl
  · rw [clampSpacing_toSize_of_pos hr h₂]
    refine iff_of_true ?_ hr.le
    split_ifs <;> omega

/-! ## The roundings -/

section Roundings

variable {pktSpcing : ℕ} {q_star qt tau mode : ℤ}

/-- The error of a `double` below a bound. -/
theorem abs_double_sub_le_of_le {x M : ℚ} (hx : |x| ≤ M) (hM : 1 ≤ M) :
    |double x - x| ≤ M / 10 ^ 15 := by
  have hsmall : (1 : ℚ) / 2 ^ 1075 ≤ M / 2 ^ 60 := by
    have hpow : (2 : ℚ) ^ 60 ≤ 2 ^ 1075 := pow_le_pow_right₀ one_le_two (by norm_num)
    exact div_le_div₀ (zero_le_one.trans hM) hM (by positivity) hpow
  have herror := (abs_double_sub_le x).trans
    (add_le_add (div_le_div_of_nonneg_right hx (by positivity)) hsmall)
  refine herror.trans ?_
  linarith

/-- A whole number of `int` is a `double`. -/
theorem double_intCast {z : ℤ} (h₁ : -2 ^ 31 ≤ z) (h₂ : z < 2 ^ 31) : double z = z :=
  isRounding_double.intCast (abs_le.mpr ⟨by omega, by omega⟩)

/-- The rounded product of a weight and an `int`, and how far it is from the product. -/
theorem weighted_close (weight : ℚ) {z : ℤ} (hw : |weight| ≤ 1 / 100) (h₁ : -2 ^ 31 ≤ z)
    (h₂ : z < 2 ^ 31) :
    |double (double weight * double z) - weight * z| ≤ 1 / 400000 ∧
      |double (double weight * double z)| ≤ 3 * 10 ^ 7 := by
  rw [double_intCast h₁ h₂]
  have hz : |(z : ℚ)| ≤ 2 ^ 31 := by
    rw [abs_le]
    exact ⟨by exact_mod_cast h₁, by exact_mod_cast h₂.le⟩
  have hweight := abs_double_sub_le_of_le (M := 1) (hw.trans (by norm_num)) le_rfl
  -- the rounded weight, times a number
  have hproduct : |double weight * z - weight * z| ≤ 1 / 10 ^ 15 * 2 ^ 31 := by
    rw [← sub_mul, abs_mul]
    exact mul_le_mul hweight hz (abs_nonneg _) (by norm_num)
  have hexact : |weight * z| ≤ 1 / 100 * 2 ^ 31 := by
    rw [abs_mul]
    exact mul_le_mul hw hz (abs_nonneg _) (by norm_num)
  have hsize : |double weight * z| ≤ 1 / 100 * 2 ^ 31 + 1 / 10 ^ 15 * 2 ^ 31 := by
    rw [abs_le] at hproduct hexact ⊢
    constructor <;> linarith
  have hround := abs_double_sub_le_of_le (M := 25 * 10 ^ 6) (hsize.trans (by norm_num))
    (by norm_num)
  rw [abs_le] at hproduct hexact hsize hround
  constructor
  · rw [abs_le]
    constructor <;> linarith
  · rw [abs_le]
    constructor <;> linarith

/-- **The rounded law is close to the law**, in modes 2 and 3. -/
theorem nextSpacing_double (h : InRange pktSpcing q_star qt tau) (hmode : mode = 2 ∨ mode = 3) :
    ∃ y, |y - spacingLaw pktSpcing q_star qt tau mode| < 1 / 20000 ∧
      nextSpacing double pktSpcing q_star qt tau mode = some (toSize (truncate y)) := by
  obtain ⟨hs₁, hs₂, hq₁, hq₂, ht₁, ht₂, htau₁, htau₂⟩ := h
  have hsub : subInt q_star qt = some (q_star - qt) := if_pos ⟨by omega, by omega⟩
  have hspacing : double (pktSpcing : ℚ) = pktSpcing := isRounding_double.natCast (by omega)
  have hs₁' : (1 : ℚ) ≤ pktSpcing := by exact_mod_cast hs₁
  have hs₂' : (pktSpcing : ℚ) ≤ 999 := by exact_mod_cast hs₂
  obtain ⟨hterm, htermSize⟩ := weighted_close epsilon (z := q_star - qt)
    (by norm_num [epsilon, abs_of_pos]) (by omega) (by omega)
  obtain ⟨htau, htauSize⟩ := weighted_close beta (z := tau)
    (by norm_num [beta, abs_of_pos]) (by omega) htau₂
  generalize hP : double (double epsilon * double ((q_star - qt : ℤ) : ℚ)) = P at hterm htermSize
  generalize hQ : double (double beta * double (tau : ℚ)) = Q at htau htauSize
  have hdeficit : deficitTerm double q_star qt = some P := by
    rw [deficitTerm, hsub]
    exact congrArg some hP
  -- the difference is rounded, and in mode 3 the sum too
  have hdiff := abs_double_sub_le_of_le (x := pktSpcing - P) (M := 4 * 10 ^ 7)
    (by rw [abs_le] at htermSize ⊢; constructor <;> linarith) (by norm_num)
  generalize hR : double ((pktSpcing : ℚ) - P) = R at hdiff
  have hsum := abs_double_sub_le_of_le (x := R + Q) (M := 10 ^ 8)
    (by rw [abs_le] at htermSize htauSize hdiff ⊢; constructor <;> linarith) (by norm_num)
  rw [abs_le] at hterm htermSize htau htauSize hdiff hsum
  push_cast at hterm
  rcases hmode with rfl | rfl
  · refine ⟨R, ?_, ?_⟩
    · rw [spacingLaw_two, abs_lt]
      constructor <;> linarith
    · have hint : doubleToInt R = some (truncate R) :=
        doubleToInt_eq_some (by linarith) (by linarith)
      simp [nextSpacing, hdeficit, hspacing, hR, hint]
  · refine ⟨double (R + Q), ?_, ?_⟩
    · rw [spacingLaw_three, abs_lt]
      constructor <;> linarith
    · have hint : doubleToInt (double (R + Q)) = some (truncate (double (R + Q))) :=
        doubleToInt_eq_some (by linarith) (by linarith)
      simp [nextSpacing, hdeficit, hspacing, hR, hQ, hint]

/-- The fractions of the law are multiples of its smallest one. -/
theorem exists_spacingLaw_eq (pktSpcing : ℕ) (q_star qt tau : ℤ) (hmode : mode = 2 ∨ mode = 3) :
    ∃ k : ℤ, spacingLaw pktSpcing q_star qt tau mode = k / 20000 := by
  rcases hmode with rfl | rfl
  · refine ⟨20000 * pktSpcing - 3 * (q_star - qt), ?_⟩
    rw [spacingLaw_two, epsilon]
    push_cast
    ring
  · refine ⟨20000 * pktSpcing - 3 * (q_star - qt) + 100 * tau, ?_⟩
    rw [spacingLaw_three, epsilon, beta]
    push_cast
    ring

/-- **What is left of the whole part** of a multiple of a fraction, in a number that is closer to it
than this fraction: all of it, or one less of a number that is whole and positive. -/
theorem truncate_eq_or_of_close {x y : ℚ} {k : ℤ} (hx : x = k / 20000)
    (hclose : |y - x| < 1 / 20000) (hpos : -1 < x) :
    truncate y = truncate x ∨ ∃ n : ℤ, 1 ≤ n ∧ x = n ∧ truncate y = n - 1 := by
  rw [abs_lt] at hclose
  have hfloor := Int.floor_le x
  have hceil := Int.lt_floor_add_one x
  have hn : -1 ≤ ⌊x⌋ := Int.le_floor.mpr (by push_cast; exact hpos.le)
  generalize ⌊x⌋ = n at hfloor hceil hn
  -- a fraction keeps its distance from the whole numbers around it
  have hbetween : n ≠ x → n < y ∧ y < n + 1 := by
    intro hne
    have hlt : (n : ℚ) < k / 20000 := hx ▸ lt_of_le_of_ne hfloor hne
    rw [hx] at hceil hclose
    rw [lt_div_iff₀ (by norm_num)] at hlt
    rw [div_lt_iff₀ (by norm_num)] at hceil
    have hlow : n * 20000 + 1 ≤ k := Int.add_one_le_of_lt (by exact_mod_cast hlt)
    have hhigh : k + 1 ≤ (n + 1) * 20000 := Int.add_one_le_of_lt (by exact_mod_cast hceil)
    have hlow' : (n : ℚ) * 20000 + 1 ≤ k := by exact_mod_cast hlow
    have hhigh' : (k : ℚ) + 1 ≤ (n + 1) * 20000 := by exact_mod_cast hhigh
    constructor <;> linarith
  rcases hn.eq_or_lt with rfl | hnonneg
  -- between minus one and zero
  · left
    push_cast at hceil hbetween
    obtain ⟨h₁, h₂⟩ := hbetween hpos.ne
    rw [truncate_eq_zero_iff.mpr ⟨h₁, by linarith⟩, truncate_eq_zero_iff.mpr ⟨hpos, by linarith⟩]
  lift n to ℕ using by omega
  rw [Int.cast_natCast] at hfloor hceil hbetween
  have hwhole : truncate x = n := truncate_eq hfloor hceil
  by_cases hy : n ≤ y
  · left
    have hlt : y < n + 1 := by
      by_cases hne : n = x
      · linarith
      · exact (hbetween hne).2
    rw [hwhole, truncate_eq hy hlt]
  · have hx : n = x := by
      by_contra hne
      exact hy (hbetween hne).1.le
    rcases Nat.eq_zero_or_pos n with rfl | hone
    · left
      rw [Nat.cast_zero] at hx hy
      rw [hwhole, truncate_eq_zero_iff.mpr ⟨by linarith, by linarith⟩, Nat.cast_zero]
    · right
      obtain ⟨m, rfl⟩ := Nat.exists_eq_add_of_le' hone
      refine ⟨(m + 1 : ℕ), by omega, hx.symm, ?_⟩
      push_cast at hx hy ⊢
      rw [truncate_eq (n := m) (by linarith) (by linarith), add_sub_cancel_right]

/-- A spacing that is stored from a whole part that is not negative is the clamped whole part. -/
theorem clampSpacing_toSize_of_nonneg {r : ℤ} (h₁ : 0 ≤ r) (h₂ : r < 2 ^ 31) :
    (clampSpacing (toSize r) : ℤ) = clamped r :=
  (clampSpacing_toSize_eq_iff (by omega) h₂).mpr h₁

end Roundings

/-- A buffer 20000 bytes above its target, which the law slows down from 1 to 4 milliseconds. -/
def farAbove : List UInt8 := statistic 0 20000 0 []

end NetworkLabs.Audio

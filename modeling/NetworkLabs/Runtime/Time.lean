import Mathlib.Algebra.Order.Ring.Int
import Mathlib.Order.Defs.PartialOrder

/-!
# Times

`gettimeofday` gives seconds and microseconds, `nanosleep` takes seconds and nanoseconds. A time of
day is normalised; a request for sleep may be invalid, and the call then fails at once.

## Main definitions

* `long`: the result of an operation that may overflow
* `Timeval`: a time of day, with its order and the microseconds it stands for
* `Timespec`, `Timespec.Valid`: a request for sleep
* `Nanosleep`: the behaviour of `nanosleep`

## Main results

* `Timeval.le_iff`: the order is that of the microseconds
* `tdiv_cases`: the bounds of a quotient that is rounded toward zero
-/

namespace CRuntime

/-! ## Division -/

/-- C's division rounds toward zero: down for a number that is not negative, and up otherwise. -/
theorem tdiv_cases (a : ℤ) {b : ℤ} (hb : 0 < b) :
    (0 ≤ a ∧ b * a.tdiv b ≤ a ∧ a < b * a.tdiv b + b) ∨
      (a ≤ 0 ∧ a ≤ b * a.tdiv b ∧ b * a.tdiv b < a + b) := by
  have hsum := Int.mul_tdiv_add_tmod a b
  rcases le_total 0 a with ha | ha
  · have hnonneg := Int.tmod_nonneg b ha
    have hlt := Int.tmod_lt_of_pos a hb
    exact .inl ⟨ha, by omega, by omega⟩
  -- the remainder has the sign of the dividend
  · have hnonneg := Int.tmod_nonneg b (Int.neg_nonneg_of_nonpos ha)
    have hlt := Int.tmod_lt_of_pos (-a) hb
    rw [Int.neg_tmod] at hnonneg hlt
    exact .inr ⟨ha, by omega, by omega⟩

/-- The value of an operation of type `long`, undefined when it overflows. -/
def long (z : ℤ) : Option ℤ := if -2 ^ 63 ≤ z ∧ z < 2 ^ 63 then some z else none

theorem long_eq_some {z : ℤ} (h₁ : -2 ^ 63 ≤ z) (h₂ : z < 2 ^ 63) : long z = some z :=
  if_pos ⟨h₁, h₂⟩

theorem long_eq_none {z : ℤ} (h : 2 ^ 63 ≤ z) : long z = none := if_neg fun hz => by omega

/-! ## The time of day -/

/-- `struct timeval`, normalised. -/
structure Timeval where
  tv_sec : ℤ
  tv_usec : ℤ
  tv_usec_nonneg : 0 ≤ tv_usec
  tv_usec_le : tv_usec ≤ 999999

namespace Timeval

/-- The microseconds of a time. -/
def micros (t : Timeval) : ℤ := t.tv_sec * 1000000 + t.tv_usec

/-- The earlier second is earlier, and in one second the earlier microsecond. -/
instance : LE Timeval where
  le t u := t.tv_sec < u.tv_sec ∨ t.tv_sec = u.tv_sec ∧ t.tv_usec ≤ u.tv_usec

variable {t u : Timeval}

instance (t u : Timeval) : Decidable (t ≤ u) := inferInstanceAs (Decidable (_ ∨ _ ∧ _))

theorem le_def : t ≤ u ↔ t.tv_sec < u.tv_sec ∨ t.tv_sec = u.tv_sec ∧ t.tv_usec ≤ u.tv_usec :=
  Iff.rfl

/-- The order is that of the microseconds. -/
theorem le_iff : t ≤ u ↔ t.micros ≤ u.micros := by
  have := t.tv_usec_nonneg
  have := t.tv_usec_le
  have := u.tv_usec_nonneg
  have := u.tv_usec_le
  -- a second is more than all its microseconds
  rw [le_def]
  unfold micros
  constructor <;> omega

theorem le_trans {v : Timeval} (h : t ≤ u) (h' : u ≤ v) : t ≤ v := by
  rw [le_iff] at h h' ⊢
  exact h.trans h'

end Timeval

/-! ## Sleep -/

/-- `struct timespec`. -/
structure Timespec where
  tv_sec : ℤ
  tv_nsec : ℤ
  deriving DecidableEq

namespace Timespec

/-- The requests that `nanosleep` accepts. -/
def Valid (req : Timespec) : Prop := 0 ≤ req.tv_sec ∧ 0 ≤ req.tv_nsec ∧ req.tv_nsec ≤ 999999999

instance (req : Timespec) : Decidable req.Valid := inferInstanceAs (Decidable (_ ∧ _ ∧ _))

/-- The nanoseconds of a request. -/
def nanos (req : Timespec) : ℤ := req.tv_sec * 1000000000 + req.tv_nsec

theorem valid_mk {s n : ℤ} : (⟨s, n⟩ : Timespec).Valid ↔ 0 ≤ s ∧ 0 ≤ n ∧ n ≤ 999999999 := Iff.rfl

theorem nanos_mk (s n : ℤ) : (⟨s, n⟩ : Timespec).nanos = s * 1000000000 + n := rfl

end Timespec

/-- The behaviour of `nanosleep(&req, &rem)`: the result of its `n`-th call, and what `rem` holds
afterwards when it is `req` itself. An invalid request fails and is left alone; a call that was
interrupted leaves the time that remains. -/
structure Nanosleep where
  call : ℕ → Timespec → ℤ × Timespec
  call_of_not_valid : ∀ n req, ¬ req.Valid → call n req = (-1, req)
  valid_of_valid : ∀ n req, req.Valid → (call n req).2.Valid

/-- A `nanosleep` that nothing interrupts. -/
def Nanosleep.quiet : Nanosleep where
  call _ req := if req.Valid then (0, req) else (-1, req)
  call_of_not_valid _ _ h := if_neg h
  valid_of_valid _ _ h := by rwa [if_pos h]

end CRuntime

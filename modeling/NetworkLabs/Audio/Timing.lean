import Mathlib.Algebra.Order.Field.Rat
import Mathlib.Tactic.Linarith
import NetworkLabs.Audio.Client
import NetworkLabs.Runtime.Time

/-!
# Milliseconds

Two programs subtract times of day, and the client of the audio stream sleeps, all of them in
milliseconds. A difference divides its microseconds apart from its seconds, and C rounds a negative
quotient up; the seconds are multiplied in `long`, which overflows when they are far apart. A sleep
is tried again as long as `nanosleep` fails, whatever the reason.

## Main definitions

* `getTimeDifference`, `RTT`: the differences
* `MillisecondsBetween`: what the differences to two ends are to satisfy
* `WithinLong`: the times whose difference fits into a `long`
* `nsleepReq`, `nsleep`: the sleep that `nsleep` asks for, and the requests of its loop
* `Sleeps`: the calls of `nsleep` that the client makes

## Main results

* `repeatsInvalid_iff`: the loop hangs on exactly the requests that are invalid
* `millisecondsBetween_iff`: the times whose differences satisfy their specification
* `asksValid_iff`: every sleep is valid exactly when the playback delay is at least one
-/

namespace NetworkLabs.Audio

open CRuntime Transition

/-! ## Differences -/

/-- `getTimeDifference`, in `long`. -/
def getTimeDifference (t1 t2 : Timeval) : Option ℤ := do
  let usec ← long (t2.tv_usec - t1.tv_usec)
  let milliseconds := usec.tdiv 1000
  let sec ← long (t2.tv_sec - t1.tv_sec)
  let product ← long (sec * 1000)
  long (milliseconds + product)

/-- `RTT` of the file client, in `long long int`, which has as many bits. -/
def RTT (t1 t2 : Timeval) : Option ℤ := do
  let usec ← long (t2.tv_usec - t1.tv_usec)
  let milliseconds := usec.tdiv 1000
  let sec ← long (t2.tv_sec - t1.tv_sec)
  let product ← long (sec * 1000)
  long (milliseconds + product)

/-- The milliseconds are not negative, and off by less than one. -/
def AccurateTo (t1 t2 : Timeval) (ms : ℤ) : Prop :=
  0 ≤ ms ∧ |(ms : ℚ) - ((t2.micros - t1.micros : ℤ) : ℚ) / 1000| < 1

/-- The differences to two ends are accurate, and that to the later one is not smaller. -/
def MillisecondsBetween (diff : Timeval → Timeval → Option ℤ) (t1 t2 t3 : Timeval) : Prop :=
  ∃ ms ms', diff t1 t2 = some ms ∧ diff t1 t3 = some ms' ∧ AccurateTo t1 t2 ms ∧
    AccurateTo t1 t3 ms' ∧ ms ≤ ms'

/-- The milliseconds between two times are a `long`, as the difference rounds them. -/
def WithinLong (t1 t2 : Timeval) : Prop :=
  t2.tv_sec - t1.tv_sec < 9223372036854775 ∨
    t2.tv_sec - t1.tv_sec = 9223372036854775 ∧ t2.tv_usec - t1.tv_usec < 808000

instance (t1 t2 : Timeval) : Decidable (WithinLong t1 t2) :=
  inferInstanceAs (Decidable (_ ∨ _ ∧ _))

/-- The difference over the integers. -/
def wholeDifference (t1 t2 : Timeval) : ℤ :=
  (t2.tv_usec - t1.tv_usec).tdiv 1000 + (t2.tv_sec - t1.tv_sec) * 1000

section Difference

variable {t1 t2 t3 : Timeval}

theorem RTT_eq : RTT = getTimeDifference := rfl

/-- **A difference is that over the integers** as long as it fits into a `long`, and undefined
otherwise. -/
theorem getTimeDifference_eq (h : t1 ≤ t2) :
    getTimeDifference t1 t2 = if WithinLong t1 t2 then some (wholeDifference t1 t2) else none := by
  have := t1.tv_usec_nonneg
  have := t1.tv_usec_le
  have := t2.tv_usec_nonneg
  have := t2.tv_usec_le
  rw [Timeval.le_def] at h
  have hq := tdiv_cases (t2.tv_usec - t1.tv_usec) (b := 1000) (by decide)
  simp only [getTimeDifference, Option.bind_eq_bind]
  rw [long_eq_some (by omega) (by omega), Option.bind_some]
  by_cases hfits : WithinLong t1 t2
  · rw [if_pos hfits]
    unfold WithinLong at hfits
    rw [long_eq_some (by omega) (by omega), Option.bind_some,
      long_eq_some (by omega) (by omega), Option.bind_some]
    exact long_eq_some (by omega) (by omega)
  · rw [if_neg hfits]
    unfold WithinLong at hfits
    -- the difference of the seconds overflows, or their thousandfold, or the sum
    by_cases hdiff : t2.tv_sec - t1.tv_sec < 2 ^ 63
    · rw [long_eq_some (by omega) hdiff, Option.bind_some]
      by_cases hproduct : (t2.tv_sec - t1.tv_sec) * 1000 < 2 ^ 63
      · rw [long_eq_some (by omega) hproduct, Option.bind_some]
        exact long_eq_none (by omega)
      · rw [long_eq_none (not_lt.mp hproduct), Option.bind_none]
    · rw [long_eq_none (not_lt.mp hdiff), Option.bind_none]

theorem wholeDifference_nonneg (h : t1 ≤ t2) : 0 ≤ wholeDifference t1 t2 := by
  have := t1.tv_usec_le
  have := t2.tv_usec_nonneg
  rw [Timeval.le_def] at h
  unfold wholeDifference
  -- a negative quotient is made up for by a second
  rcases tdiv_cases (t2.tv_usec - t1.tv_usec) (b := 1000) (by decide) with hq | hq <;> omega

/-- A thousandfold, the difference is off by less than a thousand. -/
theorem wholeDifference_close (t1 t2 : Timeval) :
    |1000 * wholeDifference t1 t2 - (t2.micros - t1.micros)| < 1000 := by
  rw [abs_lt]
  unfold Timeval.micros wholeDifference
  rcases tdiv_cases (t2.tv_usec - t1.tv_usec) (b := 1000) (by decide) with hq | hq <;> omega

/-- **A later end gives no smaller difference**, also where the microseconds start again. -/
theorem wholeDifference_mono (h : t2 ≤ t3) : wholeDifference t1 t2 ≤ wholeDifference t1 t3 := by
  have := t2.tv_usec_le
  have := t3.tv_usec_nonneg
  rw [Timeval.le_def] at h
  unfold wholeDifference
  -- the quotients are rounded down or up, each by its own sign
  rcases tdiv_cases (t2.tv_usec - t1.tv_usec) (b := 1000) (by decide) with hq | hq <;>
    rcases tdiv_cases (t3.tv_usec - t1.tv_usec) (b := 1000) (by decide) with hq' | hq' <;>
    rcases h with hsec | ⟨hsec, husec⟩ <;> omega

theorem accurateTo_wholeDifference (h : t1 ≤ t2) : AccurateTo t1 t2 (wholeDifference t1 t2) := by
  refine ⟨wholeDifference_nonneg h, ?_⟩
  -- the bounds on the integers, divided by a thousand
  obtain ⟨hlow, hhigh⟩ := abs_lt.mp (wholeDifference_close t1 t2)
  have hlow' : (-1000 : ℚ) < 1000 * wholeDifference t1 t2 - (t2.micros - t1.micros : ℤ) := by
    exact_mod_cast hlow
  have hhigh' : 1000 * wholeDifference t1 t2 - (t2.micros - t1.micros : ℤ) < (1000 : ℚ) := by
    exact_mod_cast hhigh
  rw [abs_lt]
  constructor <;> linarith

/-- What fits for the later end fits for the earlier one. -/
theorem WithinLong.of_le (h : WithinLong t1 t3) (hle : t2 ≤ t3) : WithinLong t1 t2 := by
  rw [Timeval.le_def] at hle
  unfold WithinLong at h ⊢
  omega

end Difference

/-- **Differences are accurate to a millisecond and monotone exactly when** the milliseconds to the
later end fit into a `long`, in both programs. -/
theorem millisecondsBetween_iff (t1 t2 t3 : Timeval) (h : t1 ≤ t2) (h' : t2 ≤ t3) :
    MillisecondsBetween getTimeDifference t1 t2 t3 ∧ MillisecondsBetween RTT t1 t2 t3 ↔
      WithinLong t1 t3 := by
  have hle := Timeval.le_trans h h'
  rw [RTT_eq, and_self]
  constructor
  · rintro ⟨ms, ms', -, hdiff, -⟩
    by_contra hfar
    rw [getTimeDifference_eq hle, if_neg hfar] at hdiff
    cases hdiff
  · intro hfits
    refine ⟨wholeDifference t1 t2, wholeDifference t1 t3, ?_, ?_, accurateTo_wholeDifference h,
      accurateTo_wholeDifference hle, wholeDifference_mono h'⟩
    · rw [getTimeDifference_eq h, if_pos (hfits.of_le h')]
    · rw [getTimeDifference_eq hle, if_pos hfits]

/-- The end of a second, the beginning of the next one, and its end. -/
theorem millisecondsBetween_second :
    MillisecondsBetween getTimeDifference ⟨5, 999999, by decide, by decide⟩
        ⟨6, 0, by decide, by decide⟩ ⟨6, 999998, by decide, by decide⟩ ∧
      MillisecondsBetween RTT ⟨5, 999999, by decide, by decide⟩ ⟨6, 0, by decide, by decide⟩
        ⟨6, 999998, by decide, by decide⟩ :=
  (millisecondsBetween_iff _ _ _ (by decide) (by decide)).mpr (by decide)

/-- Seconds so far apart that their thousandfold is no `long`. -/
theorem epoch_not_millisecondsBetween :
    (⟨0, 0, by decide, by decide⟩ : Timeval) ≤ ⟨9223372036854776, 0, by decide, by decide⟩ ∧
      ¬ MillisecondsBetween getTimeDifference ⟨0, 0, by decide, by decide⟩
        ⟨9223372036854776, 0, by decide, by decide⟩
        ⟨9223372036854776, 0, by decide, by decide⟩ := by
  refine ⟨by decide, ?_⟩
  rintro ⟨ms, ms', hdiff, -⟩
  exact absurd hdiff (by rw [getTimeDifference_eq (by decide), if_neg (by decide)]; simp)

/-! ## Sleeping -/

/-- The `req` that `nsleep` fills in. -/
def nsleepReq (miliseconds : ℤ) : Timespec :=
  if 999 < miliseconds then
    let tv_sec := toInt (miliseconds.tdiv 1000)
    ⟨tv_sec, (miliseconds - tv_sec * 1000) * 1000000⟩
  else ⟨0, miliseconds * 1000000⟩

/-- The request of the `n`-th call of `nanosleep` in the loop of `nsleep`; `none` when the loop was
left before. -/
def nsleep (K : Nanosleep) (miliseconds : ℤ) : ℕ → Option Timespec
  | 0 => some (nsleepReq miliseconds)
  | n + 1 => (nsleep K miliseconds n).bind fun req =>
    if (K.call n req).1 = -1 then some (K.call n req).2 else none

/-- From some call on the loop repeats invalid requests for ever. -/
def RepeatsInvalid (K : Nanosleep) (miliseconds : ℤ) : Prop :=
  ∃ n, ∀ m ≥ n, ∃ req, nsleep K miliseconds m = some req ∧ ¬ req.Valid

section Sleep

variable {ms : ℤ} {K : Nanosleep}

theorem nsleepReq_of_le (h : ms ≤ 999) : nsleepReq ms = ⟨0, ms * 1000000⟩ := if_neg (not_lt.mpr h)

theorem nsleepReq_of_lt (h : 999 < ms) (hmax : ms < 2 ^ 31) :
    nsleepReq ms = ⟨ms / 1000, ms % 1000 * 1000000⟩ := by
  have hdiv : ms.tdiv 1000 = ms / 1000 := Int.tdiv_eq_ediv_of_nonneg (by omega)
  have hmod : ms - ms / 1000 * 1000 = ms % 1000 := by omega
  rw [nsleepReq, if_pos h, hdiv, toInt_eq_self (by omega) (by omega), ← hmod]

/-- A request is valid unless it is negative. -/
theorem valid_nsleepReq_iff (hmax : ms < 2 ^ 31) : (nsleepReq ms).Valid ↔ 0 ≤ ms := by
  -- the branch without seconds takes the negative numbers too
  rcases le_or_gt ms 999 with h | h
  · rw [nsleepReq_of_le h, Timespec.valid_mk]
    omega
  · rw [nsleepReq_of_lt h hmax, Timespec.valid_mk]
    omega

/-- A request stands for the milliseconds that were asked for, be it valid or not. -/
theorem nanos_nsleepReq (hmax : ms < 2 ^ 31) : (nsleepReq ms).nanos = ms * 1000000 := by
  rcases le_or_gt ms 999 with h | h
  · rw [nsleepReq_of_le h, Timespec.nanos_mk, zero_mul, zero_add]
  · rw [nsleepReq_of_lt h hmax, Timespec.nanos_mk]
    omega

/-- What remains of a valid request is valid. -/
theorem valid_of_nsleep (h : (nsleepReq ms).Valid) {n : ℕ} {req : Timespec}
    (hreq : nsleep K ms n = some req) : req.Valid := by
  induction n generalizing req with
  | zero =>
    obtain rfl := Option.some.inj hreq
    exact h
  | succ n ih =>
    -- the call before it was interrupted
    obtain ⟨before, hbefore, hnext⟩ := Option.bind_eq_some_iff.mp hreq
    obtain ⟨-, hnext⟩ := Option.ite_none_right_eq_some.mp hnext
    obtain rfl := Option.some.inj hnext
    exact K.valid_of_valid n before (ih hbefore)

/-- An invalid request is tried again as it is. -/
theorem nsleep_of_not_valid (h : ¬ (nsleepReq ms).Valid) (n : ℕ) :
    nsleep K ms n = some (nsleepReq ms) := by
  induction n with
  | zero => rfl
  | succ n ih => rw [nsleep, ih, Option.bind_some, K.call_of_not_valid n _ h, if_pos rfl]

/-- **The loop hangs on exactly the requests that are invalid.** -/
theorem repeatsInvalid_iff : RepeatsInvalid K ms ↔ ¬ (nsleepReq ms).Valid := by
  constructor
  · rintro ⟨n, hall⟩ hvalid
    obtain ⟨req, hreq, hinvalid⟩ := hall n le_rfl
    exact hinvalid (valid_of_nsleep hvalid hreq)
  · intro h
    exact ⟨0, fun m _ => ⟨_, nsleep_of_not_valid h m, h⟩⟩

end Sleep

/-! ## The calls of the client -/

/-- What `do_sleep_alarm` is called with, where `main` sleeps. -/
def Loop.time (L : Listener) : Loop → Option ℤ
  | .starting => some 1
  | .playing | .draining => some L.gamm_r
  | .left => none

/-- The calls of `nsleep` that the client makes with the playback delay `pl_del`. -/
inductive Sleeps (L : Listener) (pl_del : ℤ) : ℤ → Prop
  /-- `main` waits for the buffer to fill. -/
  | buffering : Sleeps L pl_del (pl_del - 1)
  /-- `do_sleep_alarm`, wherever a run has led. -/
  | alarm {buffer : Mem UInt8} {is : List Input} {s : Client} {evs : List Event} {ms : ℤ} :
    (audiolisten L).run (.start buffer) is = some (s, evs) → s.loop.time L = some ms →
      Sleeps L pl_del ms

/-- Every call asks for a valid sleep of exactly its milliseconds, and does not hang. -/
def AsksValid (K : Nanosleep) (L : Listener) (pl_del : ℤ) : Prop :=
  ∀ ms, Sleeps L pl_del ms →
    (nsleepReq ms).Valid ∧ (nsleepReq ms).nanos = ms * 1000000 ∧ ¬ RepeatsInvalid K ms

section Calls

variable {L : Listener} {pl_del ms : ℤ}

theorem Sleeps.cases (h : Sleeps L pl_del ms) : ms = pl_del - 1 ∨ ms = 1 ∨ ms = L.gamm_r := by
  cases h with
  | buffering => exact .inl rfl
  | @alarm _ _ s _ _ _ htime =>
    cases hloop : s.loop <;> rw [hloop] at htime
    -- the first sleep, then those of the two loops
    · exact .inr (.inl (Option.some.inj htime).symm)
    · exact .inr (.inr (Option.some.inj htime).symm)
    · exact .inr (.inr (Option.some.inj htime).symm)
    · cases htime

/-- With a delay of zero the first sleep is one of minus one millisecond. -/
theorem not_asksValid_zero (K : Nanosleep) (L : Listener) : ¬ AsksValid K L 0 := fun h =>
  absurd (h _ .buffering).1 (by decide)

end Calls

/-- **Every sleep is valid exactly when the playback delay is at least one**, for a delay and a
`gamma` that are not negative; both are of type `int`. -/
theorem asksValid_iff (K : Nanosleep) (L : Listener) (pl_del : ℤ) (hdel : 0 ≤ pl_del)
    (hdelmax : pl_del < 2 ^ 31) (hgamma : 0 ≤ L.gamm_r) (hgammamax : L.gamm_r < 2 ^ 31) :
    AsksValid K L pl_del ↔ 1 ≤ pl_del := by
  constructor
  · intro h
    by_contra hlt
    obtain rfl : pl_del = 0 := by omega
    exact not_asksValid_zero K L h
  · intro h ms hms
    have hrange : 0 ≤ ms ∧ ms < 2 ^ 31 := by
      rcases hms.cases with rfl | rfl | rfl <;> omega
    have hvalid := (valid_nsleepReq_iff hrange.2).mpr hrange.1
    exact ⟨hvalid, nanos_nsleepReq hrange.2, fun hrep => repeatsInvalid_iff.mp hrep hvalid⟩

/-- The client as the source's example starts it. -/
def exampleListener : Listener where
  pyld_sz := 250
  gamm_r := 30
  max_buf_sz := 40000
  target_buf_sz := 20000
  audio_fd := 3

theorem asksValid_example : AsksValid .quiet exampleListener 2500 :=
  (asksValid_iff .quiet exampleListener 2500 (by decide) (by decide) (by decide) (by decide)).mpr
    (by decide)

/-- A playback delay of zero: the client hangs in its first sleep. -/
theorem repeatsInvalid_of_zero : ¬ AsksValid .quiet exampleListener 0 ∧
    Sleeps exampleListener 0 (-1) ∧ RepeatsInvalid .quiet (-1) :=
  ⟨not_asksValid_zero _ _, .buffering, repeatsInvalid_iff.mpr (by decide)⟩

end NetworkLabs.Audio

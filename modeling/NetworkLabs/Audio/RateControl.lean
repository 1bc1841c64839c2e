import NetworkLabs.Audio.Feedback
import NetworkLabs.Runtime.Double

/-!
# The rate control of the audio server

`handle_sigpoll` computes the next packet spacing from the client's feedback, in one of four modes,
and stores it in a `size_t` before it clamps it. Floating-point operations round their results with
a function `fl`; with the identity they are exact.

## Main definitions

* `rateControl`: what the handler does with the numbers
* `handleSigpoll`: the handler on a datagram
* `spacingLaw`: the control laws without rounding, truncation and clamps

## Main results

* `handleSigpoll_eq`: the handler stores the clamped whole part of the law, where nothing is rounded
* `handleSigpoll_le_iff`: when a fuller client is not sent to faster
* `handleSigpoll_mem_range`: the spacing stays between 1 and 999, whatever the rounding
-/

namespace NetworkLabs.Audio

open CRuntime

/-! ## The handler -/

/-- `z - w` in `int`, undefined when it overflows. -/
def subInt (z w : ℤ) : Option ℤ :=
  if -2 ^ 31 ≤ z - w ∧ z - w < 2 ^ 31 then some (z - w) else none

/-- The clamps at the end of `handle_sigpoll`, on a `size_t`. -/
def clampSpacing (pktSpcing : ℕ) : ℕ :=
  let pktSpcing := if pktSpcing ≤ 0 then 5 else pktSpcing
  if 1000 ≤ pktSpcing then 999 else pktSpcing

/-- `delta`, the factor of mode 1. -/
def delta : ℚ := 0.75

/-- `epsilon`, the weight of the deficit. -/
def epsilon : ℚ := 0.00015

/-- `beta`, the weight of `tau`. -/
def beta : ℚ := 0.005

section Modes

variable (fl : ℚ → ℚ) (pktSpcing : ℕ) (q_star qt tau : ℤ)

/-- `epsilon*(q_star - qt)`. -/
def deficitTerm : Option ℚ :=
  (subInt q_star qt).map fun d => fl (fl epsilon * fl d)

/-- The new `pktSpcing` of a mode, before the clamps. -/
def nextSpacing (mode : ℤ) : Option ℕ :=
  if mode = 0 then
    some (if qt = q_star then toSize (pktSpcing * 1)
      else if qt < q_star then toSize (pktSpcing - 1) else toSize (pktSpcing + 1))
  else if mode = 1 then
    if qt = q_star then some (toSize (pktSpcing * 1))
    else if qt < q_star then doubleToSize (fl (fl pktSpcing * fl delta))
    else some (toSize (pktSpcing + 1))
  else if mode = 2 then do
    let term ← deficitTerm fl q_star qt
    let r ← doubleToInt (fl (fl pktSpcing - term))
    return toSize r
  else if mode = 3 then do
    let term ← deficitTerm fl q_star qt
    let r ← doubleToInt (fl (fl (fl pktSpcing - term) + fl (fl beta * fl tau)))
    return toSize r
  else some pktSpcing

/-- What `handle_sigpoll` does with the numbers of a command. -/
def rateControl (mode : ℤ) : Option ℕ :=
  (nextSpacing fl pktSpcing q_star qt tau mode).map clampSpacing

end Modes

/-- `handle_sigpoll` on a datagram: the new `pktSpcing`. -/
def handleSigpoll (fl : ℚ → ℚ) (mode : ℤ) (pySz : ℕ) (stack : Mem UInt8) (pktSpcing : ℕ)
    (d : List UInt8) : Option ℕ := do
  let f ← Feedback.receive pySz stack d
  let client_command_r ← f.client_command_r
  if client_command_r.head? = some 81 then
    let (q_star, qt, tau) ← f.numbers
    rateControl fl pktSpcing q_star qt tau mode
  else return pktSpcing

theorem handleSigpoll_of_reads {pySz : ℕ} {stack : Mem UInt8} {d : List UInt8}
    {q_star qt tau : ℤ} (h : Reads pySz stack d q_star qt tau) (fl : ℚ → ℚ) (mode : ℤ)
    (pktSpcing : ℕ) :
    handleSigpoll fl mode pySz stack pktSpcing d = rateControl fl pktSpcing q_star qt tau mode := by
  obtain ⟨f, command, hf, hcommand, hQ, hnumbers⟩ := h
  simp only [handleSigpoll, hf, hcommand, hQ, hnumbers, Option.bind_eq_bind, Option.bind_some,
    if_true]

/-! ## The control laws -/

/-- The law of a mode over the rationals, without truncation and clamps. -/
def spacingLaw (pktSpcing : ℕ) (q_star qt tau mode : ℤ) : ℚ :=
  if mode = 0 then
    if qt = q_star then pktSpcing else if qt < q_star then pktSpcing - 1 else pktSpcing + 1
  else if mode = 1 then
    if qt = q_star then pktSpcing
    else if qt < q_star then pktSpcing * delta else pktSpcing + 1
  else if mode = 2 then pktSpcing - epsilon * (q_star - qt)
  else if mode = 3 then pktSpcing - epsilon * (q_star - qt) + beta * tau
  else pktSpcing

section Law

variable {pktSpcing : ℕ} {q_star qt tau mode : ℤ}

theorem spacingLaw_two :
    spacingLaw pktSpcing q_star qt tau 2 = pktSpcing - epsilon * (q_star - qt) := by
  simp [spacingLaw]

theorem spacingLaw_three : spacingLaw pktSpcing q_star qt tau 3 =
    pktSpcing - epsilon * (q_star - qt) + beta * tau := by
  simp [spacingLaw]

/-- The numbers of a command, as the client's report holds them. -/
structure InRange (pktSpcing : ℕ) (q_star qt tau : ℤ) : Prop where
  spacing_pos : 1 ≤ pktSpcing
  spacing_le : pktSpcing ≤ 999
  q_star_nonneg : 0 ≤ q_star
  q_star_lt : q_star < 2 ^ 31
  qt_nonneg : 0 ≤ qt
  qt_lt : qt < 2 ^ 31
  tau_nonneg : 0 ≤ tau
  tau_lt : tau < 2 ^ 31

theorem deficitTerm_id (h : InRange pktSpcing q_star qt tau) :
    deficitTerm id q_star qt = some (epsilon * (q_star - qt)) := by
  obtain ⟨-, -, hq₁, hq₂, ht₁, ht₂, -, -⟩ := h
  have hsub : subInt q_star qt = some (q_star - qt) := if_pos ⟨by omega, by omega⟩
  simp [deficitTerm, hsub]

/-- The laws stay far inside `int`. -/
theorem spacingLaw_bounds (h : InRange pktSpcing q_star qt tau) (mode : ℤ) :
    (-2 ^ 31 : ℚ) ≤ spacingLaw pktSpcing q_star qt tau mode ∧
      spacingLaw pktSpcing q_star qt tau mode < 2 ^ 31 := by
  obtain ⟨hs₁, hs₂, hq₁, hq₂, ht₁, ht₂, htau₁, htau₂⟩ := h
  have hs₁' : (1 : ℚ) ≤ pktSpcing := by exact_mod_cast hs₁
  have hs₂' : (pktSpcing : ℚ) ≤ 999 := by exact_mod_cast hs₂
  have hq₁' : (0 : ℚ) ≤ q_star := by exact_mod_cast hq₁
  have hq₂' : (q_star : ℚ) < 2 ^ 31 := by exact_mod_cast hq₂
  have ht₁' : (0 : ℚ) ≤ qt := by exact_mod_cast ht₁
  have ht₂' : (qt : ℚ) < 2 ^ 31 := by exact_mod_cast ht₂
  have htau₁' : (0 : ℚ) ≤ tau := by exact_mod_cast htau₁
  have htau₂' : (tau : ℚ) < 2 ^ 31 := by exact_mod_cast htau₂
  unfold spacingLaw delta epsilon beta
  split_ifs <;> constructor <;> linarith

/-- Without rounding the new spacing is the whole part of the law, as a `size_t`. -/
theorem nextSpacing_id (h : InRange pktSpcing q_star qt tau) (mode : ℤ) :
    nextSpacing id pktSpcing q_star qt tau mode =
      some (toSize (truncate (spacingLaw pktSpcing q_star qt tau mode))) := by
  have hs₁ := h.spacing_pos
  have hs₂ := h.spacing_le
  have hbounds := spacingLaw_bounds h mode
  have hpred : truncate ((pktSpcing : ℚ) - 1) = pktSpcing - 1 := by
    exact_mod_cast truncate_intCast (pktSpcing - 1)
  have hsucc : truncate ((pktSpcing : ℚ) + 1) = pktSpcing + 1 := by
    exact_mod_cast truncate_intCast (pktSpcing + 1)
  unfold spacingLaw at hbounds
  unfold nextSpacing spacingLaw
  -- both are defined by the same tests: three levels in modes 0 and 1, then modes 2, 3 and others
  split_ifs at hbounds ⊢
  · rw [mul_one, truncate_natCast]
  · rw [hpred]
  · rw [hsucc]
  · rw [mul_one, truncate_natCast]
  -- three quarters of the spacing are not negative
  · have hnonneg : 0 ≤ (pktSpcing : ℚ) * delta := by unfold delta; positivity
    have hsize := doubleToSize_eq_some hnonneg (hbounds.2.trans (by norm_num))
    have hwhole := truncate_nonneg_iff.mpr (lt_of_lt_of_le neg_one_lt_zero hnonneg)
    have hlt := (truncate_lt_iff (n := 2 ^ 31) (by norm_num)).mpr (by exact_mod_cast hbounds.2)
    rw [id, id, id, hsize, toSize_of_nonneg hwhole (by omega)]
  · rw [hsucc]
  · simp [deficitTerm_id h, doubleToInt_eq_some hbounds.1 hbounds.2]
  · simp [deficitTerm_id h, doubleToInt_eq_some hbounds.1 hbounds.2]
  · rw [truncate_natCast, toSize_of_nonneg (by omega) (by omega), Int.toNat_natCast]

/-- A handler that reads these numbers stores the clamped whole part of the law. -/
theorem handleSigpoll_eq {pySz : ℕ} {stack : Mem UInt8} {d : List UInt8}
    (hreads : Reads pySz stack d q_star qt tau) (h : InRange pktSpcing q_star qt tau) (mode : ℤ) :
    handleSigpoll id mode pySz stack pktSpcing d =
      some (clampSpacing (toSize (truncate (spacingLaw pktSpcing q_star qt tau mode)))) := by
  rw [handleSigpoll_of_reads hreads, rateControl, nextSpacing_id h, Option.map_some]

theorem truncate_spacingLaw_bounds (h : InRange pktSpcing q_star qt tau) (mode : ℤ) :
    -2 ^ 31 ≤ truncate (spacingLaw pktSpcing q_star qt tau mode) ∧
      truncate (spacingLaw pktSpcing q_star qt tau mode) < 2 ^ 31 :=
  truncate_int_bounds (spacingLaw_bounds h mode).1 (spacingLaw_bounds h mode).2

theorem inRange_of_reads {pySz : ℕ} {stack : Mem UInt8} {d : List UInt8}
    (hreads : Reads pySz stack d q_star qt tau) (hs₁ : 1 ≤ pktSpcing) (hs₂ : pktSpcing ≤ 999)
    (hq_star : 0 ≤ q_star) (hqt : 0 ≤ qt) (htau : 0 ≤ tau) : InRange pktSpcing q_star qt tau :=
  ⟨hs₁, hs₂, hq_star, hreads.lt.1, hqt, hreads.lt.2.1, htau, hreads.lt.2.2⟩

end Law

/-! ## The clamps -/

section Clamps

variable {r w : ℤ}

theorem clampSpacing_toSize_of_neg (h₁ : -2 ^ 31 ≤ r) (h₂ : r < 0) :
    clampSpacing (toSize r) = 999 := by
  have hlarge := toSize_of_neg (by omega) h₂
  unfold clampSpacing
  dsimp only
  split_ifs <;> omega

theorem clampSpacing_toSize_zero : clampSpacing (toSize 0) = 5 := by decide

theorem clampSpacing_toSize_of_pos (h₁ : 1 ≤ r) (h₂ : r < 2 ^ 31) :
    clampSpacing (toSize r) = min r.toNat 999 := by
  rw [toSize_of_nonneg (by omega) (by omega)]
  unfold clampSpacing
  dsimp only
  split_ifs <;> omega

/-- The clamps keep the order of two whole parts unless the smaller one is negative, or becomes a
`5` that is more than the larger one. -/
theorem clampSpacing_toSize_le_iff (h₁ : -2 ^ 31 ≤ r) (h₂ : w < 2 ^ 31) (hle : r ≤ w) :
    clampSpacing (toSize r) ≤ clampSpacing (toSize w) ↔
      ¬ (r < 0 ∧ 0 ≤ w ∧ w < 999) ∧ ¬ (r = 0 ∧ 1 ≤ w ∧ w < 5) := by
  rcases lt_trichotomy r 0 with hr | rfl | hr
  -- the smaller one is stored as 999, which only another 999 is not below
  · rw [clampSpacing_toSize_of_neg h₁ hr]
    rcases lt_trichotomy w 0 with hw | rfl | hw
    · rw [clampSpacing_toSize_of_neg (by omega) hw]
      omega
    · rw [clampSpacing_toSize_zero]
      omega
    · rw [clampSpacing_toSize_of_pos hw h₂]
      omega
  -- the smaller one is stored as 5, which a spacing of 1 to 4 is below
  · rw [clampSpacing_toSize_zero]
    rcases hle.eq_or_lt with rfl | hw
    · rw [clampSpacing_toSize_zero]
      omega
    · rw [clampSpacing_toSize_of_pos hw h₂]
      omega
  · rw [clampSpacing_toSize_of_pos hr (by omega), clampSpacing_toSize_of_pos (by omega) h₂]
    omega

end Clamps

/-- A client that is two bytes below its target. -/
def nearTarget : List UInt8 := statistic 5 3 2 []

/-! ## Two buffer levels -/

section Order

variable {pktSpcing : ℕ} {q_star qt qt₁ qt₂ tau mode : ℤ}

/-- A fuller buffer never lowers the law. -/
theorem spacingLaw_mono (pktSpcing : ℕ) (q_star tau : ℤ) (hle : qt₁ ≤ qt₂) (mode : ℤ) :
    spacingLaw pktSpcing q_star qt₁ tau mode ≤ spacingLaw pktSpcing q_star qt₂ tau mode := by
  have hle' : (qt₁ : ℚ) ≤ qt₂ := by exact_mod_cast hle
  have hs : (0 : ℚ) ≤ pktSpcing := Nat.cast_nonneg _
  unfold spacingLaw delta epsilon beta
  split_ifs <;> first | omega | linarith

/-- The lower end of the range keeps the order of the levels `qt₁ ≤ qt₂`. In modes 0 and 1 only
the spacing 1 is in the way, which the floor of 5 replaces for the emptier buffer; in modes 2 and 3
it is a negative spacing, and the same floor. -/
def KeepsOrder (pktSpcing : ℕ) (q_star qt₁ qt₂ tau mode : ℤ) : Prop :=
  if mode = 0 ∨ mode = 1 then ¬ (pktSpcing = 1 ∧ qt₁ < q_star ∧ q_star ≤ qt₂)
  else
    let x₁ := spacingLaw pktSpcing q_star qt₁ tau mode
    let x₂ := spacingLaw pktSpcing q_star qt₂ tau mode
    ¬ (x₁ ≤ -1 ∧ -1 < x₂ ∧ x₂ < 999) ∧ ¬ (-1 < x₁ ∧ x₁ < 1 ∧ 1 ≤ x₂ ∧ x₂ < 5)

/-- A step of modes 0 and 1 for a level below the target. -/
theorem spacingLaw_of_lt (hmode : mode = 0 ∨ mode = 1) (hqt : qt < q_star) :
    spacingLaw pktSpcing q_star qt tau mode =
      if mode = 0 then (pktSpcing : ℚ) - 1 else pktSpcing * delta := by
  rcases hmode with rfl | rfl
  · simp [spacingLaw, hqt, hqt.ne]
  · simp [spacingLaw, hqt, hqt.ne]

theorem spacingLaw_of_le (hmode : mode = 0 ∨ mode = 1) (hqt : q_star ≤ qt) :
    spacingLaw pktSpcing q_star qt tau mode =
      if qt = q_star then (pktSpcing : ℚ) else pktSpcing + 1 := by
  rcases hmode with rfl | rfl
  · simp [spacingLaw, hqt.not_gt]
  · simp [spacingLaw, hqt.not_gt]

/-- In modes 0 and 1 the law of a level below the target is below 1 for the spacing 1 alone, and
never negative. -/
theorem spacingLaw_lt_one_iff (hmode : mode = 0 ∨ mode = 1) (hs : 1 ≤ pktSpcing)
    (hqt : qt < q_star) (tau : ℤ) :
    0 ≤ spacingLaw pktSpcing q_star qt tau mode ∧
      (spacingLaw pktSpcing q_star qt tau mode < 1 ↔ pktSpcing = 1) := by
  have hs' : (1 : ℚ) ≤ pktSpcing := by exact_mod_cast hs
  rw [spacingLaw_of_lt hmode hqt]
  by_cases hone : pktSpcing = 1
  · subst hone
    unfold delta
    split_ifs <;> norm_num
  · have htwo : (2 : ℚ) ≤ pktSpcing := by
      have hle : 2 ≤ pktSpcing := by omega
      exact_mod_cast hle
    unfold delta
    split_ifs
    · exact ⟨by linarith, iff_of_false (by linarith) hone⟩
    · exact ⟨by linarith, iff_of_false (by linarith) hone⟩

theorem keepsOrder_iff (hs : 1 ≤ pktSpcing) :
    KeepsOrder pktSpcing q_star qt₁ qt₂ tau mode ↔
      ¬ (spacingLaw pktSpcing q_star qt₁ tau mode ≤ -1 ∧
          -1 < spacingLaw pktSpcing q_star qt₂ tau mode ∧
          spacingLaw pktSpcing q_star qt₂ tau mode < 999) ∧
        ¬ (-1 < spacingLaw pktSpcing q_star qt₁ tau mode ∧
          spacingLaw pktSpcing q_star qt₁ tau mode < 1 ∧
          1 ≤ spacingLaw pktSpcing q_star qt₂ tau mode ∧
          spacingLaw pktSpcing q_star qt₂ tau mode < 5) := by
  unfold KeepsOrder
  split
  · next hmode =>
    have hs' : (1 : ℚ) ≤ pktSpcing := by exact_mod_cast hs
    rcases lt_or_ge qt₁ q_star with h₁ | h₁
    · obtain ⟨hnonneg, hone⟩ := spacingLaw_lt_one_iff hmode hs h₁ tau
      rcases lt_or_ge qt₂ q_star with h₂ | h₂
      -- both levels are below the target, and get the same spacing
      · have hsame : spacingLaw pktSpcing q_star qt₂ tau mode =
            spacingLaw pktSpcing q_star qt₁ tau mode := by
          rw [spacingLaw_of_lt hmode h₁, spacingLaw_of_lt hmode h₂]
        rw [hsame]
        refine iff_of_true (fun h => absurd h.2.2 h₂.not_ge) ⟨fun h => ?_, fun h => ?_⟩
        · linarith [h.1]
        · linarith [h.2.1, h.2.2.1]
      -- the larger level keeps the spacing or adds one to it
      · have hx₂ : (pktSpcing : ℚ) ≤ spacingLaw pktSpcing q_star qt₂ tau mode ∧
            spacingLaw pktSpcing q_star qt₂ tau mode ≤ pktSpcing + 1 := by
          rw [spacingLaw_of_le hmode h₂]
          split_ifs <;> constructor <;> linarith
        constructor
        · intro h
          refine ⟨fun hneg => by linarith [hneg.1], fun hfloor => h ⟨hone.mp hfloor.2.1, h₁, h₂⟩⟩
        · rintro ⟨-, h⟩ ⟨rfl, -, -⟩
          rw [Nat.cast_one] at hx₂
          exact h ⟨by linarith, hone.mpr rfl, hx₂.1, by linarith⟩
    -- from the target on the law is 1 at least
    · have hx₁ : (pktSpcing : ℚ) ≤ spacingLaw pktSpcing q_star qt₁ tau mode := by
        rw [spacingLaw_of_le hmode h₁]
        split_ifs <;> linarith
      refine iff_of_true (fun h => absurd h.2.1 h₁.not_gt) ⟨fun h => ?_, fun h => ?_⟩
      · linarith [h.1]
      · linarith [h.2.1]
  · exact Iff.rfl

end Order

/-- **A fuller buffer is not sent to faster, exactly when** the lower end of the range is out of the
way. -/
theorem handleSigpoll_le_iff {pktSpcing : ℕ} (hs₁ : 1 ≤ pktSpcing) (hs₂ : pktSpcing ≤ 999)
    {q_star qt₁ qt₂ tau : ℤ} (hq_star : 0 ≤ q_star) (hqt : 0 ≤ qt₁) (hle : qt₁ ≤ qt₂)
    (htau : 0 ≤ tau) (mode : ℤ) {pySz : ℕ} {stack₁ stack₂ : Mem UInt8} {d₁ d₂ : List UInt8}
    (h₁ : Reads pySz stack₁ d₁ q_star qt₁ tau) (h₂ : Reads pySz stack₂ d₂ q_star qt₂ tau) :
    (∃ stored₁ stored₂, handleSigpoll id mode pySz stack₁ pktSpcing d₁ = some stored₁ ∧
        handleSigpoll id mode pySz stack₂ pktSpcing d₂ = some stored₂ ∧ stored₁ ≤ stored₂) ↔
      KeepsOrder pktSpcing q_star qt₁ qt₂ tau mode := by
  have hrange₁ := inRange_of_reads h₁ hs₁ hs₂ hq_star hqt htau
  have hrange₂ := inRange_of_reads h₂ hs₁ hs₂ hq_star (hqt.trans hle) htau
  have hwhole := truncate_mono (spacingLaw_mono pktSpcing q_star tau hle mode)
  rw [handleSigpoll_eq h₁ hrange₁, handleSigpoll_eq h₂ hrange₂, keepsOrder_iff hs₁]
  -- the clamps on whole parts, and then the whole parts by the law itself
  have horder := clampSpacing_toSize_le_iff (truncate_spacingLaw_bounds hrange₁ mode).1
    (truncate_spacingLaw_bounds hrange₂ mode).2 hwhole
  simp only [truncate_neg_iff, truncate_nonneg_iff, truncate_eq_zero_iff] at horder
  rw [truncate_lt_iff (by norm_num), truncate_lt_iff (by norm_num), le_truncate_iff le_rfl]
    at horder
  push_cast at horder
  simpa [and_assoc] using horder

theorem handleSigpoll_le_iff_nearTarget :
    (∃ stored₁ stored₂, handleSigpoll id 2 50 (fun _ => 0) 2 (statistic 5 1 2 []) = some stored₁ ∧
        handleSigpoll id 2 50 (fun _ => 0) 2 nearTarget = some stored₂ ∧ stored₁ ≤ stored₂) ↔
      KeepsOrder 2 5 1 3 2 2 :=
  handleSigpoll_le_iff (by decide) (by decide) (by decide) (by decide) (by decide) (by decide) 2
    (reads_statistic (by decide) (by decide) (by decide) (by decide) _)
    (reads_statistic (by decide) (by decide) (by decide) (by decide) _)

/-- With the spacing 1 an emptier buffer gets the floor of 5, and one on its target keeps 1. -/
theorem spacing_one_not_le :
    ¬ ∃ stored₁ stored₂, handleSigpoll id 0 50 (fun _ => 0) 1 (statistic 5 4 0 []) = some stored₁ ∧
      handleSigpoll id 0 50 (fun _ => 0) 1 (statistic 5 5 0 []) = some stored₂ ∧
        stored₁ ≤ stored₂ := by
  rintro ⟨stored₁, stored₂, h₁, h₂, hle⟩
  have hreads (qt : ℕ) (hqt : qt < 2 ^ 31) :
      Reads 50 (fun _ => 0) (statistic 5 qt 0 []) 5 qt 0 :=
    reads_statistic (by decide) hqt (by decide) (by decide) _
  rw [handleSigpoll_of_reads (hreads 4 (by decide))] at h₁
  rw [handleSigpoll_of_reads (hreads 5 (by decide))] at h₂
  obtain rfl : 5 = stored₁ := Option.some.inj h₁
  obtain rfl : 1 = stored₂ := Option.some.inj h₂
  exact absurd hle (by decide)

/-! ## The range of the spacing -/

theorem clampSpacing_mem_range (n : ℕ) : 1 ≤ clampSpacing n ∧ clampSpacing n ≤ 999 := by
  unfold clampSpacing
  dsimp only
  split_ifs <;> omega

/-- **The handler keeps the spacing between 1 and 999**, on every datagram, in every mode and
whatever the rounding of the operations. -/
theorem handleSigpoll_mem_range (fl : ℚ → ℚ) (mode : ℤ) (pySz : ℕ) (stack : Mem UInt8)
    (pktSpcing : ℕ) (d : List UInt8) (stored : ℕ)
    (h : handleSigpoll fl mode pySz stack pktSpcing d = some stored) :
    stored = pktSpcing ∨ 1 ≤ stored ∧ stored ≤ 999 := by
  simp only [handleSigpoll, Option.bind_eq_bind, Option.bind_eq_some_iff] at h
  obtain ⟨f, -, command, -, h⟩ := h
  split_ifs at h
  · obtain ⟨numbers, -, hcontrol⟩ := Option.bind_eq_some_iff.mp h
    obtain ⟨n, -, rfl⟩ := Option.map_eq_some_iff.mp hcontrol
    exact .inr (clampSpacing_mem_range n)
  · exact .inl (Option.some.inj h).symm

end NetworkLabs.Audio

import NetworkLabs.Audio.RateControl
import NetworkLabs.Audio.Server
import NetworkLabs.Audio.Timing
import NetworkLabs.Runtime.Bases

/-!
# The pace of the audio server

A child of the server sleeps for the packet spacing and transfers a packet, over and over; its
handler changes the spacing on every report of the client, also while it sleeps. Reports change
only how long it sleeps, never what it sends, as long as the handler survives them: a report that it
does not survive has no step here, and the child sends nothing more.

Each report below the target lowers the spacing, at last from 1 to 0, which the clamps turn into 5:
a server whose client stays below its target goes round between 1 and 5. Mode 2 drops the fraction
of the new spacing, so that a small deficit counts as a whole millisecond, and a small surplus as
nothing.

## Main definitions

* `Server`, `paced`: the loop of the child with its handler
* `command`: the numbers that the handler takes from a report
* `faster`, `sawtooth`: the spacing after reports below the target

## Main results

* `paced_sound`: what is sent, how long the server sleeps, and when it never hangs
* `spacing_levels`: the spacing after any run in modes 0 and 1
* `spacing_drift`: the spacing after any run of small deviations in mode 2
-/

namespace NetworkLabs.Audio

open CRuntime Transition

/-! ## The loop of the child -/

/-- The variables of the child. -/
structure Server extends Streamer where
  pktSpcing : ℕ
  /-- The loop is in `nsleep`. -/
  asleep : Bool

/-- The loop calls `do_sleep_alarm`; `nsleep` returns, with the memory of `packet_transfer`; or a
report arrives, with the stack of the handler. -/
inductive Wake
  | call
  | expire (frame : List UInt8)
  | report (stack : Mem UInt8) (d : List UInt8)

/-- A call of `nsleep`, or a datagram. -/
inductive Act
  | sleep (miliseconds : ℤ)
  | sent (e : Sent)

/-- The loop of `handle_child_request` with `handle_sigpoll`. -/
def paced (fl : ℚ → ℚ) (mode : ℤ) (pySz : ℕ) : Machine Server Wake Act where
  step s
    | .call =>
      if s.state = .BUSY ∧ s.asleep = false then
        some ({ s with asleep := true }, [.sleep (toLong s.pktSpcing)])
      else none
    | .expire frame =>
      if s.asleep = true then
        (packetTransfer pySz s.toStreamer frame).map fun p =>
          ({ s with toStreamer := p.1, asleep := false }, p.2.map .sent)
      else none
    | .report stack d =>
      (handleSigpoll fl mode pySz stack s.pktSpcing d).map fun n => ({ s with pktSpcing := n }, [])

/-- The child before its loop; `packetSpacing` is the value of the argument. -/
def Server.start (content : List UInt8) (packetSpacing : ℤ) : Server where
  toStreamer := .start content
  pktSpcing := toSize packetSpacing
  asleep := false

/-- The memory that a call of `packet_transfer` finds. -/
def Wake.memory : Wake → Option (List UInt8)
  | .expire frame => some frame
  | _ => none

/-- The datagram among what the child does. -/
def Act.datagram : Act → Option Sent
  | .sent e => some e
  | .sleep _ => none

section Steps

variable {fl : ℚ → ℚ} {mode : ℤ} {pySz : ℕ} {s t : Server} {i : Wake} {is : List Wake}
  {o : List Act}

/-- **What a step can do.** -/
theorem paced_step_cases (h : (paced fl mode pySz).step s i = some (t, o)) :
    (i = .call ∧ t = { s with asleep := true } ∧ o = [.sleep (toLong s.pktSpcing)]) ∨
      (∃ frame u sent, i = .expire frame ∧
        packetTransfer pySz s.toStreamer frame = some (u, sent) ∧
        t = { s with toStreamer := u, asleep := false } ∧ o = sent.map .sent) ∨
      ∃ stack d n, i = .report stack d ∧
        handleSigpoll fl mode pySz stack s.pktSpcing d = some n ∧
        t = { s with pktSpcing := n } ∧ o = [] := by
  cases i with
  | call =>
    obtain ⟨-, h⟩ := Option.ite_none_right_eq_some.mp h
    obtain ⟨rfl, rfl⟩ := Prod.mk.inj (Option.some.inj h)
    exact .inl ⟨rfl, rfl, rfl⟩
  | expire frame =>
    obtain ⟨-, h⟩ := Option.ite_none_right_eq_some.mp h
    obtain ⟨⟨u, sent⟩, htransfer, h⟩ := Option.map_eq_some_iff.mp h
    obtain ⟨rfl, rfl⟩ := Prod.mk.inj h
    exact .inr (.inl ⟨frame, u, sent, rfl, htransfer, rfl, rfl⟩)
  | report stack d =>
    obtain ⟨n, hn, h⟩ := Option.map_eq_some_iff.mp h
    obtain ⟨rfl, rfl⟩ := Prod.mk.inj h
    exact .inr (.inr ⟨stack, d, n, rfl, hn, rfl, rfl⟩)

@[simp] theorem filterMap_sent (sent : List Sent) :
    (sent.map Act.sent).filterMap Act.datagram = sent := by
  rw [List.filterMap_map]
  exact List.filterMap_some

/-! ## What is sent, and the sleeps -/

/-- **Reports do not change what is sent**: the datagrams are those of the calls of
`packet_transfer` alone. -/
theorem audiostreamd_of_paced (h : (paced fl mode pySz).run s is = some (t, o)) :
    (audiostreamd pySz).run s.toStreamer (is.filterMap Wake.memory) =
      some (t.toStreamer, o.filterMap Act.datagram) := by
  induction is generalizing s o with
  | nil =>
    obtain ⟨rfl, rfl⟩ := by simpa using h
    rfl
  | cons i is ih =>
    obtain ⟨u, o₁, o₂, hstep, hrun, rfl⟩ := Machine.run_cons_eq_some_iff.mp h
    have hrest := ih hrun
    rw [List.filterMap_append]
    rcases paced_step_cases hstep with ⟨rfl, rfl, rfl⟩ |
      ⟨frame, v, sent, rfl, htransfer, rfl, rfl⟩ | ⟨stack, d, n, rfl, -, rfl, rfl⟩
    · exact hrest
    · rw [filterMap_sent]
      exact Machine.run_cons htransfer hrest
    · exact hrest

/-- The spacing is the argument, or one that the handler has stored. -/
def Paced (packetSpacing : ℤ) (n : ℕ) : Prop :=
  n = toSize packetSpacing ∨ 1 ≤ n ∧ n ≤ 999

/-- So is every sleep so far. -/
def PacedSleeps (packetSpacing : ℤ) (s : Server) (tr : List Act) : Prop :=
  Paced packetSpacing s.pktSpcing ∧
    ∀ ms, .sleep ms ∈ tr → ms = packetSpacing ∨ 1 ≤ ms ∧ ms ≤ 999

theorem toLong_of_paced {packetSpacing : ℤ} (hz : FitsInt packetSpacing) {n : ℕ}
    (h : Paced packetSpacing n) :
    toLong n = packetSpacing ∨ 1 ≤ toLong n ∧ toLong n ≤ 999 := by
  obtain ⟨hlow, hhigh⟩ := hz
  rcases h with rfl | ⟨hpos, hle⟩
  · exact .inl (toLong_toSize (by omega) (by omega))
  · rw [toLong_of_lt (by omega)]
    exact .inr ⟨by omega, by omega⟩

theorem PacedSleeps.step {packetSpacing : ℤ} (hz : FitsInt packetSpacing) {tr : List Act}
    (hs : PacedSleeps packetSpacing s tr) (h : (paced fl mode pySz).step s i = some (t, o)) :
    PacedSleeps packetSpacing t (tr ++ o) := by
  obtain ⟨hspacing, hsleeps⟩ := hs
  rcases paced_step_cases h with ⟨rfl, rfl, rfl⟩ | ⟨frame, u, sent, rfl, -, rfl, rfl⟩ |
    ⟨stack, d, n, rfl, hn, rfl, rfl⟩
  · refine ⟨hspacing, fun ms hms => ?_⟩
    rcases List.mem_append.mp hms with hold | hnew
    · exact hsleeps ms hold
    · obtain rfl := Act.sleep.inj (List.mem_singleton.mp hnew)
      exact toLong_of_paced hz hspacing
  · refine ⟨hspacing, fun ms hms => ?_⟩
    rcases List.mem_append.mp hms with hold | hnew
    · exact hsleeps ms hold
    · obtain ⟨e, -, he⟩ := List.mem_map.mp hnew
      cases he
  · rw [List.append_nil]
    refine ⟨?_, hsleeps⟩
    rcases handleSigpoll_mem_range fl mode pySz stack s.pktSpcing d n hn with rfl | hrange
    · exact hspacing
    · exact .inr hrange

/-- Every sleep is as long as the argument says, or from 1 to 999 milliseconds. -/
theorem sleep_of_paced {content : List UInt8} {packetSpacing : ℤ} (hz : FitsInt packetSpacing)
    (h : (paced fl mode pySz).run (.start content packetSpacing) is = some (t, o)) {ms : ℤ}
    (hms : .sleep ms ∈ o) : ms = packetSpacing ∨ 1 ≤ ms ∧ ms ≤ 999 := by
  have hstart : PacedSleeps packetSpacing (.start content packetSpacing) [] :=
    ⟨.inl rfl, fun _ h => absurd h List.not_mem_nil⟩
  have hinv := Machine.invariant_of_run (P := fun _ => True)
    (fun _ _ _ _ _ hs _ hstep => hs.step hz hstep) hstart (fun _ _ => trivial) h
  exact hinv.2 ms hms

end Steps

/-- **Reports change only the sleeps.** In a run in which the handler survives every report, what
the server sends is what it sends without reports, and it sleeps as long as its argument says, or
from 1 to 999 milliseconds; and there is no such run in which it hangs exactly when the argument is
not negative. -/
theorem paced_sound (K : Nanosleep) (fl : ℚ → ℚ) (mode : ℤ) (pySz : ℕ) (content : List UInt8)
    (packetSpacing : ℤ) (hz : FitsInt packetSpacing) :
    (∀ is t o, (paced fl mode pySz).run (.start content packetSpacing) is = some (t, o) →
      (audiostreamd pySz).run (.start content) (is.filterMap Wake.memory) =
          some (t.toStreamer, o.filterMap Act.datagram) ∧
        ∀ ms, .sleep ms ∈ o → ms = packetSpacing ∨ 1 ≤ ms ∧ ms ≤ 999) ∧
    ((∀ is t o, (paced fl mode pySz).run (.start content packetSpacing) is = some (t, o) →
        ∀ ms, .sleep ms ∈ o → ¬ RepeatsInvalid K ms) ↔ 0 ≤ packetSpacing) := by
  refine ⟨fun is t o h => ⟨audiostreamd_of_paced h, fun ms hms => sleep_of_paced hz h hms⟩, ?_⟩
  constructor
  -- the first sleep
  · intro hall
    have hcall : (paced fl mode pySz).run (.start content packetSpacing) [.call] =
        some (⟨.start content, toSize packetSpacing, true⟩,
          [.sleep (toLong (toSize packetSpacing))]) := rfl
    have hfirst := hall _ _ _ hcall _ (List.mem_singleton_self _)
    rw [toLong_toSize (by have := hz.1; omega) (by have := hz.2; omega), repeatsInvalid_iff,
      not_not] at hfirst
    exact (valid_nsleepReq_iff hz.2).mp hfirst
  · intro hnonneg is t o h ms hms
    have hrange : 0 ≤ ms ∧ ms < 2 ^ 31 := by
      have hlt := hz.2
      rcases sleep_of_paced hz h hms with rfl | ⟨hpos, hle⟩ <;> omega
    rw [repeatsInvalid_iff, not_not]
    exact (valid_nsleepReq_iff hrange.2).mpr hrange.1

/-! ## The levels of the reports -/

/-- The numbers of a report that the handler takes for a command. -/
def command (pySz : ℕ) (stack : Mem UInt8) (d : List UInt8) : Option (ℤ × ℤ × ℤ) := do
  let f ← Feedback.receive pySz stack d
  let client_command_r ← f.client_command_r
  if client_command_r.head? = some 81 then f.numbers else none

/-- The command that a wake is, with its target and its level. -/
def Wake.levels (pySz : ℕ) : Wake → Option (ℤ × ℤ)
  | .report stack d => (command pySz stack d).map fun c => (c.1, c.2.1)
  | _ => none

/-- A report of a level below the target. -/
def Wake.below (pySz : ℕ) (i : Wake) : Bool := (i.levels pySz).any fun l => l.2 < l.1

/-- A report of a level above the target. -/
def Wake.above (pySz : ℕ) (i : Wake) : Bool := (i.levels pySz).any fun l => l.1 < l.2

section Levels

variable {fl : ℚ → ℚ} {mode : ℤ} {pySz n m : ℕ} {stack : Mem UInt8} {d : List UInt8}
  {s t : Server} {i : Wake} {o : List Act}

/-- The handler stores what the control makes of a command, and nothing for anything else. -/
theorem handleSigpoll_cases (h : handleSigpoll fl mode pySz stack n d = some m) :
    (command pySz stack d = none ∧ m = n) ∨ ∃ q_star qt tau,
      command pySz stack d = some (q_star, qt, tau) ∧
        rateControl fl n q_star qt tau mode = some m := by
  simp only [handleSigpoll, Option.bind_eq_bind, Option.bind_eq_some_iff] at h
  obtain ⟨f, hf, client_command_r, hr, h⟩ := h
  split_ifs at h with hQ
  · obtain ⟨⟨q_star, qt, tau⟩, hnumbers, hcontrol⟩ := Option.bind_eq_some_iff.mp h
    refine .inr ⟨q_star, qt, tau, ?_, hcontrol⟩
    simp [command, hf, hr, hQ, hnumbers]
  · refine .inl ⟨?_, (Option.some.inj h).symm⟩
    simp [command, hf, hr, hQ]

/-- A step keeps the spacing, or it is a command with these levels. -/
theorem pktSpcing_of_step (h : (paced fl mode pySz).step s i = some (t, o)) :
    (i.levels pySz = none ∧ t.pktSpcing = s.pktSpcing) ∨ ∃ q_star qt tau,
      i.levels pySz = some (q_star, qt) ∧
        rateControl fl s.pktSpcing q_star qt tau mode = some t.pktSpcing := by
  rcases paced_step_cases h with ⟨rfl, rfl, -⟩ | ⟨frame, u, sent, rfl, -, rfl, -⟩ |
    ⟨stack, d, n, rfl, hn, rfl, -⟩
  · exact .inl ⟨rfl, rfl⟩
  · exact .inl ⟨rfl, rfl⟩
  · rcases handleSigpoll_cases hn with ⟨hnone, rfl⟩ | ⟨q_star, qt, tau, hcommand, hcontrol⟩
    · exact .inl ⟨by rw [Wake.levels, hnone, Option.map_none], rfl⟩
    · exact .inr ⟨q_star, qt, tau, by rw [Wake.levels, hcommand, Option.map_some], hcontrol⟩

end Levels

/-! ## Round and round -/

/-- The spacing after a report below the target, where one is subtracted from it. -/
def faster (n : ℕ) : ℕ := if n ≤ 1 then 5 else n - 1

/-- The spacing after `k` such reports: down to 1, and then round from 5 to 1. -/
def sawtooth (n k : ℕ) : ℕ := if k < n then n - k else 5 - (k - n) % 5

/-- The spacing after a report below the target, where three quarters of it are left. -/
def threeQuarters (n : ℕ) : ℕ := if n ≤ 1 then 5 else 3 * n / 4

/-- The spacings that three quarters come to, in their order. -/
def rotation (k : ℕ) : ℕ :=
  match k % 4 with
  | 0 => 1
  | 1 => 5
  | 2 => 3
  | _ => 2

section Sawtooth

variable {n k : ℕ}

theorem iterate_faster (hn : 1 ≤ n) (k : ℕ) : faster^[k] n = sawtooth n k := by
  induction k with
  | zero => simp [sawtooth, Nat.lt_of_lt_of_le Nat.zero_lt_one hn]
  | succ k ih =>
    rw [Function.iterate_succ_apply', ih]
    unfold faster sawtooth
    split_ifs <;> omega

/-- Three quarters of a spacing come down to 1. -/
theorem exists_iterate_threeQuarters (hn : 1 ≤ n) : ∃ N < n, threeQuarters^[N] n = 1 := by
  induction n using Nat.strong_induction_on with
  | _ n ih =>
    rcases hn.eq_or_lt with rfl | hlt
    · exact ⟨0, Nat.zero_lt_one, rfl⟩
    · have hq : threeQuarters n = 3 * n / 4 := if_neg (Nat.not_le.mpr hlt)
      have hless : 3 * n / 4 < n := by omega
      obtain ⟨N, hN, hone⟩ := ih (3 * n / 4) hless (by omega)
      refine ⟨N + 1, by omega, ?_⟩
      rw [Function.iterate_succ_apply, hq, hone]

theorem threeQuarters_rotation (k : ℕ) : threeQuarters (rotation k) = rotation (k + 1) := by
  have hcases : k % 4 = 0 ∨ k % 4 = 1 ∨ k % 4 = 2 ∨ k % 4 = 3 := by omega
  unfold rotation
  rw [Nat.add_mod]
  rcases hcases with h | h | h | h <;> rw [h] <;> rfl

theorem iterate_threeQuarters_one (k : ℕ) : threeQuarters^[k] 1 = rotation k := by
  induction k with
  | zero => rfl
  | succ k ih => rw [Function.iterate_succ_apply', ih, threeQuarters_rotation]

end Sawtooth

/-! ## The spacing after a run -/

section Control

variable {fl : ℚ → ℚ} {mode : ℤ} {pySz n : ℕ} {q_star qt tau : ℤ} {s t : Server} {i : Wake}
  {is : List Wake} {o : List Act}

/-- The range of the clamps. -/
def Clamped (n : ℕ) : Prop := 1 ≤ n ∧ n ≤ 999

theorem clampSpacing_toSize_natCast (hn : Clamped n) : clampSpacing (toSize n) = n := by
  obtain ⟨hpos, hle⟩ := hn
  rw [clampSpacing_toSize_of_pos (by omega) (by omega)]
  omega

theorem clampSpacing_toSize_pred (hn : Clamped n) : clampSpacing (toSize (n - 1)) = faster n := by
  obtain ⟨hpos, hle⟩ := hn
  unfold faster
  rcases hpos.eq_or_lt with rfl | hlt
  · rfl
  · rw [clampSpacing_toSize_of_pos (by omega) (by omega), if_neg (by omega)]
    omega

theorem clampSpacing_toSize_succ (hn : Clamped n) :
    clampSpacing (toSize (n + 1)) = min (n + 1) 999 := by
  obtain ⟨hpos, hle⟩ := hn
  rw [clampSpacing_toSize_of_pos (by omega) (by omega)]
  omega

/-- Three quarters of a spacing are exact, and only the conversion drops a fraction. -/
theorem doubleToSize_threeQuarters (hfl : IsRounding fl) (hn : Clamped n) :
    doubleToSize (fl (fl n * fl delta)) = some (3 * n / 4) := by
  obtain ⟨-, hle⟩ := hn
  have hdelta : fl delta = delta := by
    have hthree := hfl.quarter (n := 3) (by norm_num)
    have heq : delta = (3 : ℕ) / 4 := by norm_num [delta]
    rw [heq]
    exact hthree
  have hprod : (n : ℚ) * delta = (3 * n : ℕ) / 4 := by
    unfold delta
    push_cast
    ring
  have hn' : (n : ℚ) ≤ 999 := by exact_mod_cast hle
  have hfloor : ⌊((3 * n : ℕ) : ℚ) / 4⌋ = ((3 * n / 4 : ℕ) : ℤ) := by
    have hdiv := Rat.floor_natCast_div_natCast (3 * n) 4
    exact_mod_cast hdiv
  have hnonneg : (0 : ℚ) ≤ ((3 * n : ℕ) : ℚ) / 4 := by positivity
  have hlt : ((3 * n : ℕ) : ℚ) / 4 < 2 ^ 64 := by
    push_cast
    linarith
  rw [hfl.natCast (by omega), hdelta, hprod, hfl.quarter (by omega),
    doubleToSize_eq_some hnonneg hlt, truncate_of_nonneg hnonneg, hfloor, Int.toNat_natCast]

theorem clampSpacing_threeQuarters (hn : Clamped n) :
    clampSpacing (3 * n / 4) = threeQuarters n := by
  obtain ⟨hpos, hle⟩ := hn
  unfold clampSpacing threeQuarters
  dsimp only
  split_ifs <;> omega

/-- A report in modes 0 and 1. -/
theorem rateControl_levels (hfl : IsRounding fl) (hmode : mode = 0 ∨ mode = 1) (hn : Clamped n) :
    rateControl fl n q_star qt tau mode =
      some (if qt < q_star then if mode = 0 then faster n else threeQuarters n
        else if q_star < qt then min (n + 1) 999 else n) := by
  rcases lt_trichotomy qt q_star with hlt | rfl | hgt
  · rcases hmode with rfl | rfl
    · simp [rateControl, nextSpacing, hlt, hlt.ne, clampSpacing_toSize_pred hn]
    · simp [rateControl, nextSpacing, hlt, hlt.ne, doubleToSize_threeQuarters hfl hn,
        clampSpacing_threeQuarters hn]
  · rcases hmode with rfl | rfl
    · simp [rateControl, nextSpacing, clampSpacing_toSize_natCast hn]
    · simp [rateControl, nextSpacing, clampSpacing_toSize_natCast hn]
  · rcases hmode with rfl | rfl
    · simp [rateControl, nextSpacing, hgt, hgt.not_gt, hgt.ne', clampSpacing_toSize_succ hn]
    · simp [rateControl, nextSpacing, hgt, hgt.not_gt, hgt.ne', clampSpacing_toSize_succ hn]

theorem clamped_faster (hn : Clamped n) : Clamped (faster n) := by
  obtain ⟨hpos, hle⟩ := hn
  unfold faster Clamped
  split_ifs <;> omega

theorem clamped_threeQuarters (hn : Clamped n) : Clamped (threeQuarters n) := by
  obtain ⟨hpos, hle⟩ := hn
  unfold threeQuarters Clamped
  split_ifs <;> omega

theorem iterate_min (hn : Clamped n) (k : ℕ) :
    (fun n => min (n + 1) 999)^[k] n = min (n + k) 999 := by
  obtain ⟨-, hle⟩ := hn
  induction k with
  | zero => exact (Nat.min_eq_left hle).symm
  | succ k ih =>
    rw [Function.iterate_succ_apply', ih]
    omega

/-- Where no report is above the target, a run counts those below it. -/
theorem spacing_of_not_above (hfl : IsRounding fl) (hmode : mode = 0 ∨ mode = 1)
    (hs : Clamped s.pktSpcing) (h : (paced fl mode pySz).run s is = some (t, o))
    (hnone : ∀ i ∈ is, i.above pySz = false) :
    t.pktSpcing = (fun n => if mode = 0 then faster n else threeQuarters n)^[
      is.countP (Wake.below pySz)] s.pktSpcing := by
  refine Machine.run_iterate (M := paced fl mode pySz) (I := Clamped) (g := Server.pktSpcing)
    (fun s i t o hs hi hstep => ?_) (fun n hn => ?_) hs hnone h
  · rcases pktSpcing_of_step hstep with ⟨hlevels, hkeep⟩ | ⟨q_star, qt, tau, hlevels, hcontrol⟩
    · simp [Wake.below, hlevels, hkeep]
    · have hle : qt ≤ q_star := by simpa [Wake.above, hlevels] using hi
      rw [rateControl_levels hfl hmode hs, if_neg hle.not_gt] at hcontrol
      rw [← Option.some.inj hcontrol]
      simp [Wake.below, hlevels]
  · split_ifs
    · exact clamped_faster hn
    · exact clamped_threeQuarters hn

/-- Where no report is below the target, a run counts those above it. -/
theorem spacing_of_not_below (hfl : IsRounding fl) (hmode : mode = 0 ∨ mode = 1)
    (hs : Clamped s.pktSpcing) (h : (paced fl mode pySz).run s is = some (t, o))
    (hnone : ∀ i ∈ is, i.below pySz = false) :
    t.pktSpcing = min (s.pktSpcing + is.countP (Wake.above pySz)) 999 := by
  rw [← iterate_min hs]
  refine Machine.run_iterate (M := paced fl mode pySz) (I := Clamped) (g := Server.pktSpcing)
    (fun s i t o hs hi hstep => ?_) (fun n hn => ?_) hs hnone h
  · rcases pktSpcing_of_step hstep with ⟨hlevels, hkeep⟩ | ⟨q_star, qt, tau, hlevels, hcontrol⟩
    · simp [Wake.above, hlevels, hkeep]
    · have hle : q_star ≤ qt := by simpa [Wake.below, hlevels] using hi
      rw [rateControl_levels hfl hmode hs, if_neg hle.not_gt] at hcontrol
      rw [← Option.some.inj hcontrol]
      simp [Wake.above, hlevels]
  · unfold Clamped at hn ⊢
    omega

end Control

/-- **A server whose client stays below its target never settles.** In mode 0 the spacing goes down
to 1 and then round from 5 to 1, in mode 1 it comes to 1 and then goes through 5, 3, 2 and 1; above
the target it goes up to 999 and stays there. -/
theorem spacing_levels (fl : ℚ → ℚ) (hfl : IsRounding fl) (pySz : ℕ) (s : Server)
    (hs : Clamped s.pktSpcing) :
    (∀ is t o, (paced fl 0 pySz).run s is = some (t, o) → (∀ i ∈ is, i.above pySz = false) →
      t.pktSpcing = sawtooth s.pktSpcing (is.countP (Wake.below pySz))) ∧
    (∃ N < s.pktSpcing, ∀ is t o, (paced fl 1 pySz).run s is = some (t, o) →
      (∀ i ∈ is, i.above pySz = false) → N ≤ is.countP (Wake.below pySz) →
        t.pktSpcing = rotation (is.countP (Wake.below pySz) - N)) ∧
    ∀ mode, mode = 0 ∨ mode = 1 → ∀ is t o, (paced fl mode pySz).run s is = some (t, o) →
      (∀ i ∈ is, i.below pySz = false) →
        t.pktSpcing = min (s.pktSpcing + is.countP (Wake.above pySz)) 999 := by
  refine ⟨fun is t o h hnone => ?_, ?_, fun mode hmode is t o h hnone =>
    spacing_of_not_below hfl hmode hs h hnone⟩
  · rw [spacing_of_not_above hfl (.inl rfl) hs h hnone, ← iterate_faster hs.1]
    rfl
  · obtain ⟨N, hN, hone⟩ := exists_iterate_threeQuarters hs.1
    refine ⟨N, hN, fun is t o h hnone hle => ?_⟩
    have hrun := spacing_of_not_above hfl (.inr rfl) hs h hnone
    obtain ⟨k, hk⟩ := Nat.exists_eq_add_of_le' hle
    rw [hk, Nat.add_sub_cancel, ← iterate_threeQuarters_one, ← hone,
      ← Function.iterate_add_apply, ← hk]
    exact hrun

/-! ## Small deviations in mode 2 -/

section Drift

variable {fl : ℚ → ℚ} {pySz n : ℕ} {q_star qt tau : ℤ} {s : Server}

/-- The weighed deficit, rounded twice, is off by less than a third of the weight of a byte. -/
theorem weighed_close (hfl : IsRounding fl) {d : ℤ} (hd : |d| ≤ 6666) :
    |fl (fl epsilon * fl d) - 3 / 20000 * d| < 1 / 20000 := by
  have heq : epsilon = 3 / 20000 := by norm_num [epsilon]
  rw [hfl.intCast (hd.trans (by norm_num)), heq]
  rcases eq_or_ne d 0 with rfl | hne
  · have hzero : fl 0 = 0 := by exact_mod_cast hfl.intCast (z := 0) (by norm_num)
    simp [hzero]
  have hd₁ : (1 : ℚ) ≤ |(d : ℚ)| := by exact_mod_cast Int.one_le_abs hne
  have hd₂ : |(d : ℚ)| ≤ 6666 := by exact_mod_cast hd
  have hthree : |(3 / 20000 : ℚ)| = 3 / 20000 := abs_of_pos (by norm_num)
  have hweight := hfl.bounds (x := 3 / 20000) (by rw [hthree]; norm_num) (by rw [hthree]; norm_num)
  rw [hthree] at hweight
  -- the product of the weight with the deficit, and then its rounding
  have hpos : 0 ≤ fl (3 / 20000) := by linarith [hweight.1]
  have habs : |fl (3 / 20000) * (d : ℚ)| = fl (3 / 20000) * |(d : ℚ)| := by
    rw [abs_mul, abs_of_nonneg hpos]
  have hlow : 1 / 10000 ≤ fl (3 / 20000) * |(d : ℚ)| := by nlinarith [hweight.1]
  have hhigh : fl (3 / 20000) * |(d : ℚ)| ≤ 1 := by nlinarith [hweight.1, hweight.2]
  have hround := hfl.bounds (x := fl (3 / 20000) * d)
    (by rw [habs]; exact le_trans (by norm_num) hlow)
    (by rw [habs]; exact hhigh.trans (by norm_num))
  rw [habs] at hround
  have hproduct : |fl (3 / 20000) * d - 3 / 20000 * (d : ℚ)| ≤ 1 / 1000000 := by
    rw [← sub_mul, abs_mul]
    have hdiff : |fl (3 / 20000) - 3 / 20000| ≤ 1 / 10 ^ 12 := by
      rw [abs_le]
      constructor <;> linarith [hweight.1, hweight.2]
    calc |fl (3 / 20000) - 3 / 20000| * |(d : ℚ)| ≤ 1 / 10 ^ 12 * 6666 := by gcongr
      _ ≤ 1 / 1000000 := by norm_num
  rw [abs_le] at hproduct
  rw [abs_lt]
  constructor <;> linarith [hround.1, hround.2, hproduct.1, hproduct.2]

/-- A spacing is rounded by less than a millionth. -/
theorem fl_close (hfl : IsRounding fl) {x : ℚ} (h₁ : 1 / 20000 ≤ x) (h₂ : x ≤ 1000) :
    x - 1 / 1000000 < fl x ∧ fl x < x + 1 / 1000000 := by
  have habs : |x| = x := abs_of_nonneg (by linarith)
  have hbounds := hfl.bounds (x := x)
    (by rw [habs]; exact le_trans (by norm_num) h₁)
    (by rw [habs]; exact h₂.trans (by norm_num))
  rw [habs] at hbounds
  constructor <;> linarith [hbounds.1, hbounds.2]

/-- **A small deviation in mode 2**: a deficit takes a whole millisecond off the spacing, and a
surplus adds none. -/
theorem rateControl_two (hfl : IsRounding fl) (hn : Clamped n) (hdev : |q_star - qt| ≤ 6666) :
    rateControl fl n q_star qt tau 2 = some (if qt < q_star then faster n else n) := by
  obtain ⟨hdev₁, hdev₂⟩ := abs_le.mp hdev
  have hn₁ : (1 : ℚ) ≤ n := by exact_mod_cast hn.1
  have hn₂ : (n : ℚ) ≤ 999 := by exact_mod_cast hn.2
  have hsub : subInt q_star qt = some (q_star - qt) := if_pos ⟨by omega, by omega⟩
  have hclose := weighed_close hfl hdev
  rw [abs_lt] at hclose
  have hspacing : fl n = n := hfl.natCast (hn.2.trans (by norm_num))
  generalize hd : q_star - qt = d at hsub hclose hdev₁ hdev₂
  generalize hw : fl (fl epsilon * fl d) = w at hclose
  have hd₁ : (-6666 : ℚ) ≤ d := by exact_mod_cast hdev₁
  have hd₂ : (d : ℚ) ≤ 6666 := by exact_mod_cast hdev₂
  have hnext : nextSpacing fl n q_star qt tau 2 =
      (doubleToInt (fl (n - w))).map toSize := by
    simp [nextSpacing, deficitTerm, hsub, hspacing, hw, Option.map_eq_bind]
  -- the difference is far from the whole numbers around it, and so is its rounding
  obtain ⟨hlow, hhigh⟩ := fl_close hfl (x := n - w) (by linarith) (by linarith)
  have hwhole : ∀ m : ℕ, m ≤ n → (m : ℚ) ≤ fl (n - w) → fl (n - w) < m + 1 →
      rateControl fl n q_star qt tau 2 = some (clampSpacing (toSize m)) := by
    intro m hm h₁ h₂
    have hm' : (m : ℚ) ≤ 999 := by exact_mod_cast hm.trans hn.2
    have hm₀ : (0 : ℚ) ≤ m := Nat.cast_nonneg m
    rw [rateControl, hnext, doubleToInt_eq_some (by linarith) (by linarith), truncate_eq h₁ h₂]
    rfl
  rcases lt_trichotomy d 0 with hneg | rfl | hpos
  · have hd₃ : (d : ℚ) ≤ -1 := by exact_mod_cast Int.le_sub_one_of_lt hneg
    rw [hwhole n le_rfl (by linarith) (by linarith), clampSpacing_toSize_natCast hn,
      if_neg (by omega)]
  · have hzero : w = 0 := by
      have hfl₀ : fl 0 = 0 := by exact_mod_cast hfl.intCast (z := 0) (by norm_num)
      rw [← hw, Int.cast_zero, hfl₀, mul_zero, hfl₀]
    have hsame : fl (n - w) = n := by rw [hzero, sub_zero, hspacing]
    rw [hwhole n le_rfl hsame.ge (by linarith), clampSpacing_toSize_natCast hn, if_neg (by omega)]
  · have hd₃ : (1 : ℚ) ≤ d := by exact_mod_cast hpos
    have hpred : ((n - 1 : ℕ) : ℚ) = n - 1 := by
      rw [Nat.cast_sub hn.1, Nat.cast_one]
    have hcast : ((n - 1 : ℕ) : ℤ) = n - 1 := by
      rw [Nat.cast_sub hn.1, Nat.cast_one]
    rw [hwhole (n - 1) (Nat.sub_le n 1) (by rw [hpred]; linarith) (by rw [hpred]; linarith),
      hcast, clampSpacing_toSize_pred hn, if_pos (by omega)]

end Drift

/-- **Mode 2 drifts to the fast side.** While all levels are within 6666 bytes of their targets,
each report below the target takes a millisecond off the spacing, down to 1 and then round from 5
to 1, and those above it change nothing. -/
theorem spacing_drift (fl : ℚ → ℚ) (hfl : IsRounding fl) (pySz : ℕ) (s : Server)
    (hs : Clamped s.pktSpcing) (is : List Wake)
    (hnear : ∀ i ∈ is, ∀ q_star qt, i.levels pySz = some (q_star, qt) → |q_star - qt| ≤ 6666)
    (t : Server) (o : List Act) (h : (paced fl 2 pySz).run s is = some (t, o)) :
    t.pktSpcing = sawtooth s.pktSpcing (is.countP (Wake.below pySz)) := by
  rw [← iterate_faster hs.1]
  refine Machine.run_iterate (M := paced fl 2 pySz) (I := Clamped) (g := Server.pktSpcing)
    (fun s i t o hs hi hstep => ?_) (fun n hn => clamped_faster hn) hs hnear h
  rcases pktSpcing_of_step hstep with ⟨hlevels, hkeep⟩ | ⟨q_star, qt, tau, hlevels, hcontrol⟩
  · simp [Wake.below, hlevels, hkeep]
  · rw [rateControl_two hfl hs (hi q_star qt hlevels)] at hcontrol
    rw [← Option.some.inj hcontrol]
    simp [Wake.below, hlevels]

/-! ## Two reports -/

/-- Two reports of a client that is two bytes below its target, while the server sleeps. -/
def twoReports : List Wake :=
  [.call, .report (fun _ => 0) nearTarget, .report (fun _ => 0) nearTarget]

theorem paced_sound_ninety : ∃ t o,
    (paced id 0 50).run (.start [] 90) twoReports = some (t, o) ∧
      (audiostreamd 50).run (.start []) [] = some (t.toStreamer, o.filterMap Act.datagram) := by
  obtain ⟨hall, -⟩ := paced_sound .quiet id 0 50 [] 90 (by decide)
  exact ⟨_, _, rfl, (hall twoReports _ _ rfl).1⟩

theorem spacing_levels_ninety : ∃ t o,
    (paced id 0 50).run (.start [] 90) twoReports = some (t, o) ∧ t.pktSpcing = sawtooth 90 2 := by
  have hs : Clamped (Server.start [] 90).pktSpcing := ⟨by decide, by decide⟩
  obtain ⟨hzero, -⟩ := spacing_levels id isRounding_id 50 _ hs
  exact ⟨_, _, rfl, hzero twoReports _ _ rfl (by decide)⟩

theorem spacing_drift_ninety : ∃ t o,
    (paced id 2 50).run (.start [] 90) twoReports = some (t, o) ∧ t.pktSpcing = sawtooth 90 2 := by
  have hs : Clamped (Server.start [] 90).pktSpcing := ⟨by decide, by decide⟩
  have hnear : ∀ i ∈ twoReports, ∀ q_star qt, i.levels 50 = some (q_star, qt) →
      |q_star - qt| ≤ 6666 := by
    intro i hi q_star qt hlevels
    have hreport : (Wake.report (fun _ => 0) nearTarget).levels 50 = some (5, 3) := by decide
    rcases List.mem_cons.mp hi with rfl | hi
    · cases hlevels
    · obtain rfl : i = .report (fun _ => 0) nearTarget := by simpa using hi
      obtain ⟨rfl, rfl⟩ := Prod.mk.inj (Option.some.inj (hreport.symm.trans hlevels))
      decide
  have hfirst : handleSigpoll id 2 50 (fun _ => 0) 90 nearTarget = some 89 := by decide +kernel
  have hsecond : handleSigpoll id 2 50 (fun _ => 0) 89 nearTarget = some 88 := by decide +kernel
  have hreport (n m : ℕ) (h : handleSigpoll id 2 50 (fun _ => 0) n nearTarget = some m) :
      (paced id 2 50).step ⟨.start [], n, true⟩ (.report (fun _ => 0) nearTarget) =
        some (⟨.start [], m, true⟩, []) := by
    simp [paced, h]
  have hcall : (paced id 2 50).step (.start [] 90) .call =
      some (⟨.start [], 90, true⟩, [.sleep 90]) := rfl
  have hrun := Machine.run_cons hcall (Machine.run_cons (hreport 90 89 hfirst)
    (Machine.run_cons (hreport 89 88 hsecond) (Machine.run_nil _)))
  exact ⟨_, _, hrun, spacing_drift id isRounding_id 50 _ hs twoReports hnear _ _ hrun⟩

end NetworkLabs.Audio

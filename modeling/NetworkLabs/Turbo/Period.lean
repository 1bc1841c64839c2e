import NetworkLabs.Turbo.Loss

/-!
# The pattern of simulated loss

When all calls of `dropsendto` have the same `totalnum` and `lossnum`, the two counters together
are a position in a period of `totalnum - 1 + lossnum` calls: the first `totalnum - 1` of them are
sent, and the other `lossnum` are dropped.

## Main definitions

* `stateAt T pos`: the counters at a position of the period
* `fateAt T pos`: what becomes of the call there

## Main results

* `lossy_step_stateAt`: a call moves the position by one, and from the end to the start
* `map_fateAt_range`: a whole period sends `T - 1` times and then drops `L` times
* `run_lossy_replicate`: the pattern of all calls
-/

namespace NetworkLabs.Turbo

open Transition

/-- The counters at a position of the period. -/
def stateAt (T pos : ℕ) : LossState :=
  if pos < T - 1 then ⟨pos + 1, 1⟩ else ⟨T, (pos - (T - 1) : ℕ) + 1⟩

/-- What becomes of the call at a position of the period. -/
def fateAt (T pos : ℕ) : Fate := if T - 1 ≤ pos then .dropped else .sent

section Period

variable {T L : ℕ}

theorem stateAt_of_lt {pos : ℕ} (h : pos < T - 1) : stateAt T pos = ⟨pos + 1, 1⟩ := if_pos h

theorem stateAt_of_le {pos : ℕ} (h : T - 1 ≤ pos) :
    stateAt T pos = ⟨T, (pos - (T - 1) : ℕ) + 1⟩ :=
  if_neg (not_lt.mpr h)

theorem fateAt_of_lt {pos : ℕ} (h : pos < T - 1) : fateAt T pos = .sent := if_neg (not_le.mpr h)

theorem fateAt_of_le {pos : ℕ} (h : T - 1 ≤ pos) : fateAt T pos = .dropped := if_pos h

theorem stateAt_zero (hT : 1 ≤ T) : stateAt T 0 = .init := by
  rcases hT.eq_or_lt with rfl | hT
  -- without packets to send the period begins with the losses
  · rfl
  · rw [stateAt_of_lt (by omega)]
    rfl

/-- The first loss is due when all packets are counted. -/
theorem stateAt_pred (T : ℕ) : stateAt T (T - 1) = ⟨T, 1⟩ := by
  rw [stateAt_of_le le_rfl, Nat.sub_self]
  rfl

/-- A call that is sent. -/
theorem dropsendto_stateAt_of_lt {pos : ℕ} (h : pos < T - 1) :
    dropsendto (stateAt T pos) T L = some (stateAt T (pos + 1), .sent) := by
  have hlt : (pos : ℤ) + 1 < T := by omega
  rw [stateAt_of_lt h, dropsendto, if_pos hlt]
  congr 2
  rcases (Nat.succ_le_of_lt h).lt_or_eq with hnext | hnext
  · rw [stateAt_of_lt hnext]
    rfl
  -- it was the last one before the losses
  · have hlast : (pos : ℤ) + 1 + 1 = T := by omega
    rw [← Nat.succ_eq_add_one, hnext, stateAt_pred]
    exact congrArg (LossState.mk · 1) hlast

/-- A call that is dropped, and not the last of the period. -/
theorem dropsendto_stateAt_of_le (hmax : L < 2 ^ 31) {pos : ℕ} (h : T - 1 ≤ pos)
    (hlast : pos + 1 < T - 1 + L) :
    dropsendto (stateAt T pos) T L = some (stateAt T (pos + 1), .dropped) := by
  have hne : ((pos - (T - 1) : ℕ) : ℤ) + 1 ≠ L := by omega
  have hfits : ((pos - (T - 1) : ℕ) : ℤ) + 1 + 1 < 2 ^ 31 := by omega
  rw [stateAt_of_le h, stateAt_of_le (by omega), dropsendto, if_neg (lt_irrefl _), if_pos rfl,
    if_neg hne, if_pos hfits, Nat.succ_sub h]
  rfl

/-- The last call of the period. -/
theorem dropsendto_stateAt_last (hT : 1 ≤ T) {pos : ℕ} (h : T - 1 ≤ pos)
    (hlast : pos + 1 = T - 1 + L) :
    dropsendto (stateAt T pos) T L = some (stateAt T 0, .dropped) := by
  have hL : ((pos - (T - 1) : ℕ) : ℤ) + 1 = L := by omega
  rw [stateAt_of_le h, stateAt_zero hT, dropsendto, if_neg (lt_irrefl _), if_pos rfl, if_pos hL]
  rfl

/-- **A call moves the position by one**, and from the end of the period to its start. -/
theorem lossy_step_stateAt (hT : 1 ≤ T) (hL : 1 ≤ L) (hmax : L < 2 ^ 31) (i : ℕ) :
    lossy.step (stateAt T (i % (T - 1 + L))) (T, L) =
      some (stateAt T ((i + 1) % (T - 1 + L)), [fateAt T (i % (T - 1 + L))]) := by
  have hP : 0 < T - 1 + L := by omega
  have hlt := Nat.mod_lt i hP
  rw [lossy_step_eq_some_iff, ← Nat.mod_add_mod]
  -- only the position counts from here on
  generalize i % (T - 1 + L) = pos at hlt ⊢
  refine ⟨_, ?_, rfl⟩
  rcases lt_or_ge pos (T - 1) with hsent | hdropped
  · rw [Nat.mod_eq_of_lt (by omega), fateAt_of_lt hsent]
    exact dropsendto_stateAt_of_lt hsent
  · rw [fateAt_of_le hdropped]
    rcases (Nat.succ_le_of_lt hlt).lt_or_eq with hnext | hlast
    · rw [Nat.mod_eq_of_lt hnext]
      exact dropsendto_stateAt_of_le hmax hdropped hnext
    · rw [← Nat.succ_eq_add_one, hlast, Nat.mod_self]
      exact dropsendto_stateAt_last hT hdropped hlast

/-- A whole period, wherever in the sequence of calls it begins. -/
theorem map_fateAt_period (T L m : ℕ) :
    (List.range (T - 1 + L)).map (fun j => fateAt T ((m * (T - 1 + L) + j) % (T - 1 + L))) =
      List.replicate (T - 1) .sent ++ List.replicate L .dropped := by
  have hmod : ∀ j ∈ List.range (T - 1 + L),
      fateAt T ((m * (T - 1 + L) + j) % (T - 1 + L)) = fateAt T j := by
    intro j hj
    rw [Nat.mul_comm, Nat.mul_add_mod, Nat.mod_eq_of_lt (List.mem_range.mp hj)]
  -- the positions in front of `T - 1`, and those behind
  rw [List.map_congr_left hmod, List.range_add, List.map_append, List.map_map]
  congr 1
  · apply List.eq_replicate_iff.mpr
    refine ⟨by simp, fun f hf => ?_⟩
    obtain ⟨j, hj, rfl⟩ := List.mem_map.mp hf
    exact fateAt_of_lt (List.mem_range.mp hj)
  · apply List.eq_replicate_iff.mpr
    refine ⟨by simp, fun f hf => ?_⟩
    obtain ⟨j, -, rfl⟩ := List.mem_map.mp hf
    exact fateAt_of_le (Nat.le_add_right ..)

end Period

/-- **The pattern of loss is periodic and exact**: call `i` is dropped exactly when its position in
the period is behind the packets, and each whole period sends `T - 1` times and drops `L` times. -/
theorem run_lossy_replicate (T L : ℕ) (hT : 1 ≤ T) (hL : 1 ≤ L) (hmax : L < 2 ^ 31) (n : ℕ) :
    ∃ s fates, lossy.run .init (List.replicate n ((T : ℤ), (L : ℤ))) = some (s, fates) ∧
      fates.length = n ∧
      (∀ i < n, fates[i]? = some (if T - 1 ≤ i % (T - 1 + L) then .dropped else .sent)) ∧
      ∀ m, (m + 1) * (T - 1 + L) ≤ n →
        (fates.drop (m * (T - 1 + L))).take (T - 1 + L) =
          List.replicate (T - 1) .sent ++ List.replicate L .dropped := by
  have hrun := Machine.run_replicate (M := lossy) (f := fun i => stateAt T (i % (T - 1 + L)))
    (n := n) fun i _ => lossy_step_stateAt hT hL hmax i
  rw [Nat.zero_mod, stateAt_zero hT] at hrun
  refine ⟨_, _, hrun, by simp, fun i hi => ?_, fun m hm => ?_⟩
  · rw [List.getElem?_map, List.getElem?_range hi]
    rfl
  -- the period lies behind `m` others, and perhaps in front of more
  · obtain ⟨k, rfl⟩ := Nat.exists_eq_add_of_le hm
    rw [← map_fateAt_period T L m, Nat.succ_mul, List.range_add, List.map_append,
      List.range_add, List.map_append, List.append_assoc, List.drop_left' (by simp),
      List.take_left' (by simp), List.map_map]
    rfl

/-- Eight calls with two packets for two losses: the second half is like the first. -/
theorem run_lossy_three_two : ∃ s fates,
    lossy.run .init (List.replicate 8 (3, 2)) = some (s, fates) ∧ fates[6]? = some .dropped ∧
      (fates.drop 4).take 4 = [.sent, .sent, .dropped, .dropped] := by
  obtain ⟨s, fates, hrun, -, hfate, hperiod⟩ :=
    run_lossy_replicate 3 2 (by decide) (by decide) (by decide) 8
  exact ⟨s, fates, hrun, hfate 6 (by decide), hperiod 1 (by decide)⟩

end NetworkLabs.Turbo

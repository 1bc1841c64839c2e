import Mathlib.Data.Nat.Basic
import NetworkLabs.Foundation.Machine

/-!
# Rounds and how many there can be

A round is a step of a relation on states, often one that many smaller steps make up. A quantity
that every round lowers bounds the number of rounds, and where a round is possible as long as the
goal is not reached, rounds lead there.

## Main definitions

* `Rounds R n s t`: `n` rounds lead from `s` to `t`
* `Lowers R Φ`: every round lowers `Φ`

## Main results

* `Lowers.add_le`: the number of rounds is bounded
* `Lowers.exists_rounds`: rounds lead to the goal
* `lowers_lex`: two quantities, one of which may grow when the other one falls
-/

namespace Transition

variable {σ : Type*} {R : σ → σ → Prop}

/-- `n` rounds lead from one state to another. -/
inductive Rounds (R : σ → σ → Prop) : ℕ → σ → σ → Prop
  | nil (s : σ) : Rounds R 0 s s
  | cons {n : ℕ} {s t u : σ} : R s t → Rounds R n t u → Rounds R (n + 1) s u

/-- What every round preserves holds after all of them. -/
theorem Rounds.invariant {I : σ → Prop} (hround : ∀ s t, I s → R s t → I t) {n : ℕ} {s t : σ}
    (h : Rounds R n s t) (hs : I s) : I t := by
  induction h with
  | nil => exact hs
  | cons hmove _ ih => exact ih (hround _ _ hs hmove)

/-- Every round from a state with the invariant keeps it and lowers the quantity. -/
def Lowers (R : σ → σ → Prop) (I : σ → Prop) (Φ : σ → ℕ) : Prop :=
  ∀ s t, I s → R s t → I t ∧ Φ t < Φ s

/-- **The number of rounds is bounded** by what they lower. -/
theorem Lowers.add_le {I : σ → Prop} {Φ : σ → ℕ} (hR : Lowers R I Φ) {n : ℕ} {s t : σ} (hs : I s)
    (h : Rounds R n s t) : n + Φ t ≤ Φ s := by
  induction h with
  | nil => exact Nat.le_of_eq (Nat.zero_add _)
  | cons hmove _ ih =>
    obtain ⟨ht, hlt⟩ := hR _ _ hs hmove
    have hrest := ih ht
    omega

/-- **Rounds lead to the goal** when a round is possible as long as it is not reached. -/
theorem Lowers.exists_rounds {I Goal : σ → Prop} {Φ : σ → ℕ} (hR : Lowers R I Φ)
    (hprogress : ∀ s, I s → ¬ Goal s → ∃ t, R s t) {s : σ} (hs : I s) :
    ∃ n t, Rounds R n s t ∧ Goal t := by
  induction hn : Φ s using Nat.strong_induction_on generalizing s with
  | _ k ih =>
    by_cases hgoal : Goal s
    · exact ⟨0, s, .nil s, hgoal⟩
    · obtain ⟨t, hmove⟩ := hprogress s hs hgoal
      obtain ⟨ht, hlt⟩ := hR s t hs hmove
      obtain ⟨n, u, hrounds, hu⟩ := ih (Φ t) (hn ▸ hlt) ht rfl
      exact ⟨n + 1, u, .cons hmove hrounds, hu⟩

/-- **Two quantities**: every round lowers the first one, or keeps it and lowers the second one,
which is never above `L`. -/
theorem lowers_lex {I : σ → Prop} (owed patience : σ → ℕ) {L : ℕ}
    (hle : ∀ s, I s → patience s ≤ L)
    (hround : ∀ s t, I s → R s t →
      I t ∧ (owed t < owed s ∨ owed t = owed s ∧ patience t < patience s)) :
    Lowers R I fun s => owed s * (L + 1) + patience s := by
  intro s t hs hmove
  obtain ⟨ht, hless⟩ := hround s t hs hmove
  refine ⟨ht, ?_⟩
  have hpatience := hle t ht
  show owed t * (L + 1) + patience t < owed s * (L + 1) + patience s
  rcases hless with hlt | ⟨heq, hlt⟩
  -- one less of the first outweighs all of the second
  · have hmul := Nat.mul_le_mul_right (L + 1) (Nat.succ_le_of_lt hlt)
    rw [Nat.succ_mul] at hmul
    omega
  · rw [heq]
    omega

end Transition

import Mathlib.Data.Int.Cast.Basic
import NetworkLabs.Foundation.Machine

/-!
# Readers that are woken by a signal

Items arrive in a queue, and every arrival raises a signal. A signal that is already pending is not
raised twice. When the process gets to it, a handler runs that reads one item. The handler is not
entered again while it runs, but items arrive at any time.

A handler that reads one item for every signal is behind by as many items as signals were raised
twice, and never catches up.

## Main definitions

* `Handler σ δ`: what the handler does with an item, and when it reads one at all
* `Woken`, `Handler.machine`: queue, signal and handler, and their moves
* `Woken.excess`: the items that no read is due for
* `Apart`: an item arrives while no signal is pending

## Main results

* `excess_of_step`: what a move changes
* `queue_eq_nil_iff`: when a reader that is at rest has read everything
-/

namespace Signals

open Transition

variable {σ δ : Type*}

/-- A handler on a state in `σ`: it reads while `wants` holds, and what it does with an item may end
the process. Once it has stopped reading it does not begin again. -/
structure Handler (σ δ : Type*) where
  wants : σ → Bool
  handle : σ → δ → Option σ
  wants_of_handle : ∀ {s d t}, handle s d = some t → wants t = true → wants s = true

/-- Where the handler is: not running, before its read, or after it. -/
inductive Phase
  | idle
  | entered
  | handled
  deriving DecidableEq

/-- The queue, the signal and the handler. -/
structure Woken (σ δ : Type*) where
  state : σ
  queue : List δ
  pending : Bool
  phase : Phase

/-- An arrival, the delivery of the signal, and the two parts of the handler. -/
inductive Move (δ : Type*)
  | arrive (d : δ)
  | deliver
  | read
  | finish

/-- The moves. A read that finds nothing ends the process. -/
def Handler.step (H : Handler σ δ) (s : Woken σ δ) : Move δ → Option (Woken σ δ)
  | .arrive d => some { s with queue := s.queue ++ [d], pending := true }
  | .deliver =>
    if s.pending ∧ s.phase = .idle then some { s with pending := false, phase := .entered }
    else none
  | .read =>
    if s.phase = .entered then
      if H.wants s.state then
        match s.queue with
        | [] => none
        | d :: queue =>
          (H.handle s.state d).map fun state =>
            { s with state := state, queue := queue, phase := .handled }
      else some { s with phase := .handled }
    else none
  | .finish => if s.phase = .handled then some { s with phase := .idle } else none

def Handler.machine (H : Handler σ δ) : Machine (Woken σ δ) (Move δ) Empty where
  step s i := (H.step s i).map fun t => (t, [])

/-- A reader at rest, with nothing to read. -/
def Woken.start (state : σ) : Woken σ δ where
  state := state
  queue := []
  pending := false
  phase := .idle

/-- The reader is at rest. -/
def Woken.Rests (s : Woken σ δ) : Prop := s.pending = false ∧ s.phase = .idle

/-- The reads that are still to come for what was signalled: one for the pending signal, and one for
a handler before its read. -/
def Woken.due (s : Woken σ δ) : ℕ :=
  (if s.pending then 1 else 0) + if s.phase = .entered then 1 else 0

/-- The items that no read is due for. -/
def Woken.excess (s : Woken σ δ) : ℤ := s.queue.length - s.due

/-- Nothing arrives while a signal is pending. -/
def Apart (s : Woken σ δ) : Move δ → Prop
  | .arrive _ => s.pending = false
  | _ => True

variable {H : Handler σ δ} {s t : Woken σ δ} {i : Move δ} {is : List (Move δ)} {o : List Empty}

theorem machine_step_eq_some_iff :
    H.machine.step s i = some (t, o) ↔ H.step s i = some t ∧ o = [] := by
  simp only [Handler.machine, Option.map_eq_some_iff, Prod.mk.injEq]
  constructor
  · rintro ⟨u, hu, rfl, rfl⟩
    exact ⟨hu, rfl⟩
  · rintro ⟨hu, rfl⟩
    exact ⟨t, hu, rfl, rfl⟩

/-- **What a move changes**, as long as the handler still reads afterwards: an arrival that finds a
signal pending is one item more than the signals account for. -/
theorem excess_of_step (h : H.step s i = some t) (ht : H.wants t.state = true) :
    H.wants s.state = true ∧
      (Apart s i ∧ t.excess = s.excess ∨ ¬ Apart s i ∧ t.excess = s.excess + 1) := by
  cases i with
  | arrive d =>
    obtain rfl := Option.some.inj h
    refine ⟨ht, ?_⟩
    cases hp : s.pending with
    | false =>
      -- the item comes with a signal of its own
      refine .inl ⟨hp, ?_⟩
      simp only [Woken.excess, Woken.due, hp, List.length_append, List.length_singleton, if_true,
        Bool.false_eq_true, if_false]
      push_cast
      omega
    | true =>
      -- the item shares the signal that is pending
      refine .inr ⟨by simp [Apart, hp], ?_⟩
      simp only [Woken.excess, Woken.due, hp, List.length_append, List.length_singleton]
      push_cast
      omega
  | deliver =>
    -- the read that was due for the signal is due for the handler
    simp only [Handler.step, Option.ite_none_right_eq_some] at h
    obtain ⟨⟨hp, hphase⟩, h⟩ := h
    obtain rfl := Option.some.inj h
    exact ⟨ht, .inl ⟨trivial, by simp [Woken.excess, Woken.due, hp, hphase]⟩⟩
  | read =>
    simp only [Handler.step, Option.ite_none_right_eq_some] at h
    obtain ⟨hphase, h⟩ := h
    by_cases hwants : H.wants s.state = true
    · rw [if_pos hwants] at h
      cases hq : s.queue with
      | nil =>
        rw [hq] at h
        cases h
      | cons d queue =>
        rw [hq] at h
        obtain ⟨state, -, rfl⟩ := Option.map_eq_some_iff.mp h
        refine ⟨hwants, .inl ⟨trivial, ?_⟩⟩
        have hpast : Phase.handled ≠ .entered := by decide
        simp only [Woken.excess, Woken.due, hq, hphase, List.length_cons, if_true, if_neg hpast]
        push_cast
        omega
    · rw [if_neg hwants] at h
      obtain rfl := Option.some.inj h
      exact absurd ht hwants
  | finish =>
    simp only [Handler.step, Option.ite_none_right_eq_some] at h
    obtain ⟨hphase, h⟩ := h
    obtain rfl := Option.some.inj h
    exact ⟨ht, .inl ⟨trivial, by simp [Woken.excess, Woken.due, hphase]⟩⟩

/-- **Over a run** the excess grows, and stays exactly when nothing has arrived too early. -/
theorem excess_of_run (h : H.machine.run s is = some (t, o)) (ht : H.wants t.state = true) :
    H.wants s.state = true ∧ s.excess ≤ t.excess ∧
      (t.excess = s.excess ↔ H.machine.Always (fun s i _ _ => Apart s i) s is) := by
  induction is generalizing s o with
  | nil =>
    obtain ⟨rfl, -⟩ := by simpa using h
    exact ⟨ht, Int.le_refl _, iff_of_true rfl trivial⟩
  | cons i is ih =>
    obtain ⟨u, o₁, o₂, hstep, hrun, -⟩ := Machine.run_cons_eq_some_iff.mp h
    obtain ⟨hu, hle, hiff⟩ := ih hrun
    obtain ⟨hs, hmove⟩ := excess_of_step (machine_step_eq_some_iff.mp hstep).1 hu
    rw [Machine.always_cons_iff hstep, ← hiff]
    rcases hmove with ⟨hapart, heq⟩ | ⟨hearly, heq⟩
    · refine ⟨hs, heq ▸ hle, ?_⟩
      rw [and_iff_right hapart, heq]
    · refine ⟨hs, by omega, ?_⟩
      exact iff_of_false (by omega) fun hall => hearly hall.1

/-- **A reader that rests has read everything, exactly when** nothing has arrived while a signal was
pending. -/
theorem queue_eq_nil_iff {state : σ}
    (h : H.machine.run (Woken.start state) is = some (t, o)) (hrests : t.Rests)
    (ht : H.wants t.state = true) :
    t.queue = [] ↔ H.machine.Always (fun s i _ _ => Apart s i) (Woken.start state) is := by
  have hstart : (Woken.start state : Woken σ δ).excess = 0 := rfl
  have hrest : t.excess = t.queue.length := by
    simp [Woken.excess, Woken.due, hrests.1, hrests.2]
  rw [← (excess_of_run h ht).2.2, hstart, hrest]
  exact_mod_cast List.length_eq_zero_iff.symm

end Signals

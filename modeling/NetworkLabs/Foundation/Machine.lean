import Mathlib.Data.List.Basic
import Mathlib.Logic.Function.Iterate

/-!
# Machines and their runs

A machine moves on inputs and emits outputs; it may refuse an input. Its runs are driven by a list
of inputs and collect the outputs. Several parties together are a step relation on a joint state.
Each rule below turns a fact about one step into a fact about all runs.

## Main definitions

* `Machine σ ι ω`, `Machine.run`: a machine with states `σ`, inputs `ι`, outputs `ω`; its runs
* `Machine.Always`: what every step of a run satisfies
* `Machine.Settles`: the outputs of a machine that goes on for ever
* `Machine.monitor`: a machine with a record of its run beside it
* `Reachable init step`: the states that a step relation reaches

## Main results

* `Machine.run_append`: runs compose
* `Machine.run_replicate`: a run on one input over and over
* `Machine.run_iterate`: a run that counts its inputs of one kind
* `Machine.exists_run_of_step`: a machine whose steps accept inputs and keep an invariant of the
  history has a run for every history
* `Machine.Always.invariant`: what steps of a kind preserve holds after a run of such steps
* `Machine.run_invariant`: what every step preserves holds after every run
* `Machine.always_congr`: two properties that agree on every step agree on every run
* `Reachable.invariant`: an inductive invariant holds in every reachable state
-/

namespace Transition

variable {σ ι ω : Type*}

/-- A machine: on an input it moves and emits outputs, or refuses. -/
structure Machine (σ ι ω : Type*) where
  step : σ → ι → Option (σ × List ω)

namespace Machine

variable (M : Machine σ ι ω)

/-- The run on a list of inputs: the state reached and the outputs on the way. -/
def run : σ → List ι → Option (σ × List ω)
  | s, [] => some (s, [])
  | s, i :: is => (M.step s i).bind fun p => (run p.1 is).map fun q => (q.1, p.2 ++ q.2)

variable {M}

@[simp] theorem run_nil (s : σ) : M.run s [] = some (s, []) := rfl

theorem run_cons_eq_some_iff {s u : σ} {i : ι} {is : List ι} {tr : List ω} :
    M.run s (i :: is) = some (u, tr) ↔
      ∃ t o o', M.step s i = some (t, o) ∧ M.run t is = some (u, o') ∧ tr = o ++ o' := by
  simp only [run, Option.bind_eq_some_iff, Option.map_eq_some_iff, Prod.exists, Prod.mk.injEq]
  constructor
  · rintro ⟨t, o, hs, u', o', hr, rfl, rfl⟩
    exact ⟨t, o, o', hs, hr, rfl⟩
  · rintro ⟨t, o, o', hs, hr, rfl⟩
    exact ⟨t, o, hs, u, o', hr, rfl, rfl⟩

/-- A run is put together from its first step and the rest. -/
theorem run_cons {s t u : σ} {i : ι} {is : List ι} {o o' : List ω}
    (hstep : M.step s i = some (t, o)) (hrun : M.run t is = some (u, o')) :
    M.run s (i :: is) = some (u, o ++ o') :=
  run_cons_eq_some_iff.mpr ⟨t, o, o', hstep, hrun, rfl⟩

@[simp] theorem run_singleton (s : σ) (i : ι) : M.run s [i] = M.step s i := by
  unfold run
  cases M.step s i <;> simp

/-- Runs compose. -/
theorem run_append {s t u : σ} {is js : List ι} {o o' : List ω}
    (h₁ : M.run s is = some (t, o)) (h₂ : M.run t js = some (u, o')) :
    M.run s (is ++ js) = some (u, o ++ o') := by
  induction is generalizing s o with
  | nil =>
    obtain ⟨rfl, rfl⟩ := by simpa using h₁
    exact h₂
  | cons i is ih =>
    obtain ⟨v, p, p', hs, hr, rfl⟩ := run_cons_eq_some_iff.mp h₁
    rw [List.cons_append, List.append_assoc]
    exact run_cons hs (ih hr)

/-- **A run on one input over and over** goes through the states that each step leads to. -/
theorem run_replicate {f : ℕ → σ} {g : ℕ → ω} {i : ι} {n : ℕ}
    (hstep : ∀ k < n, M.step (f k) i = some (f (k + 1), [g k])) :
    M.run (f 0) (List.replicate n i) = some (f n, (List.range n).map g) := by
  induction n with
  | zero => rfl
  | succ n ih =>
    have hbefore := ih fun k hk => hstep k (Nat.lt_succ_of_lt hk)
    have hlast : M.run (f n) [i] = some (f (n + 1), [g n]) := by
      rw [run_singleton]
      exact hstep n (Nat.lt_succ_self n)
    rw [List.replicate_succ', List.range_succ, List.map_append]
    exact run_append hbefore hlast

/-- **Total runs**: if every step from a state that satisfies the invariant of the history accepts
the input and keeps the invariant, then every history has a run. -/
theorem exists_run_of_step {Inv : List ι → σ → Prop} {P : ι → Prop}
    (hstep : ∀ h s i, Inv h s → P i → ∃ t o, M.step s i = some (t, o) ∧ Inv (h ++ [i]) t)
    {h : List ι} {s : σ} (hs : Inv h s) {is : List ι} (his : ∀ i ∈ is, P i) :
    ∃ t o, M.run s is = some (t, o) ∧ Inv (h ++ is) t := by
  induction is generalizing h s with
  | nil => exact ⟨s, [], rfl, by simpa using hs⟩
  | cons i is ih =>
    -- the invariant of the longer history carries the rest of the run
    obtain ⟨t, o, hmove, ht⟩ := hstep h s i hs (his i (by simp))
    obtain ⟨u, o', hrun, hu⟩ := ih ht fun j hj => his j (by simp [hj])
    exact ⟨u, o ++ o', run_cons hmove hrun, by simpa using hu⟩

/-! ## Every step of a run -/

/-- Every step of the run on a list of inputs satisfies `Q`. -/
def Always (M : Machine σ ι ω) (Q : σ → ι → σ → List ω → Prop) : σ → List ι → Prop
  | _, [] => True
  | s, i :: is => ∀ t o, M.step s i = some (t, o) → Q s i t o ∧ Always M Q t is

/-- **Runs of steps of a kind**: what such steps preserve holds after the run. -/
theorem Always.invariant {Q : σ → ι → σ → List ω → Prop} {I : σ → Prop}
    (hstep : ∀ s i t o, I s → M.step s i = some (t, o) → Q s i t o → I t)
    {s u : σ} {is : List ι} {tr : List ω} (h : M.Always Q s is) (hs : I s)
    (hrun : M.run s is = some (u, tr)) : I u := by
  induction is generalizing s tr with
  | nil =>
    obtain ⟨rfl, rfl⟩ := by simpa using hrun
    exact hs
  | cons i is ih =>
    obtain ⟨t, o, o', hmove, hrest, rfl⟩ := run_cons_eq_some_iff.mp hrun
    obtain ⟨hq, hall⟩ := h t o hmove
    exact ih hall (hstep s i t o hs hmove hq) hrest

theorem always_cons_iff {Q : σ → ι → σ → List ω → Prop} {s t : σ} {i : ι} {is : List ι}
    {o : List ω} (hstep : M.step s i = some (t, o)) :
    M.Always Q s (i :: is) ↔ Q s i t o ∧ M.Always Q t is := by
  constructor
  · intro h
    exact h t o hstep
  · intro h t' o' hstep'
    obtain ⟨rfl, rfl⟩ := Prod.mk.inj (Option.some.inj (hstep.symm.trans hstep'))
    exact h

/-- A run is checked step by step. -/
theorem Always.cons {Q : σ → ι → σ → List ω → Prop} {s t : σ} {i : ι} {is : List ι} {o : List ω}
    (hstep : M.step s i = some (t, o)) (hq : Q s i t o) (h : M.Always Q t is) :
    M.Always Q s (i :: is) :=
  (always_cons_iff hstep).mpr ⟨hq, h⟩

/-- What the inputs alone decide holds of every step. -/
theorem Always.of_forall_mem {Q : σ → ι → σ → List ω → Prop} {is : List ι}
    (h : ∀ i ∈ is, ∀ s t o, M.step s i = some (t, o) → Q s i t o) (s : σ) : M.Always Q s is := by
  induction is generalizing s with
  | nil => trivial
  | cons i is ih =>
    intro t o hmove
    exact ⟨h i List.mem_cons_self s t o hmove, ih (fun j hj => h j (List.mem_cons_of_mem _ hj)) t⟩

/-- What every step from a state with an invariant satisfies, every step of a run does. -/
theorem Always.of_invariant {Q : σ → ι → σ → List ω → Prop} {I : σ → Prop}
    (hstep : ∀ s i t o, I s → M.step s i = some (t, o) → Q s i t o ∧ I t) {s : σ} (hs : I s)
    (is : List ι) : M.Always Q s is := by
  induction is generalizing s with
  | nil => trivial
  | cons i is ih =>
    intro t o hmove
    obtain ⟨hq, ht⟩ := hstep s i t o hs hmove
    exact ⟨hq, ih ht⟩

/-- What every step preserves holds after a run. -/
theorem run_invariant {I : σ → Prop} (hstep : ∀ s i t o, I s → M.step s i = some (t, o) → I t)
    {s u : σ} {is : List ι} {tr : List ω} (hs : I s) (hrun : M.run s is = some (u, tr)) : I u :=
  (Always.of_forall_mem (Q := fun _ _ _ _ => True) (fun _ _ _ _ _ _ => trivial) s).invariant
    (fun s i t o hs hmove _ => hstep s i t o hs hmove) hs hrun

/-- What the steps on inputs of a kind preserve, of the state and of all outputs so far, holds after
a run on such inputs. -/
theorem invariant_of_run {Inv : σ → List ω → Prop} {P : ι → Prop}
    (hstep : ∀ s tr i t o, Inv s tr → P i → M.step s i = some (t, o) → Inv t (tr ++ o))
    {s u : σ} {is : List ι} {tr tr' : List ω} (hs : Inv s tr) (his : ∀ i ∈ is, P i)
    (hrun : M.run s is = some (u, tr')) : Inv u (tr ++ tr') := by
  induction is generalizing s tr tr' with
  | nil =>
    obtain ⟨rfl, rfl⟩ := by simpa using hrun
    rwa [List.append_nil]
  | cons i is ih =>
    obtain ⟨t, o, o', hmove, hrest, rfl⟩ := run_cons_eq_some_iff.mp hrun
    rw [← List.append_assoc]
    exact ih (hstep s tr i t o hs (his i List.mem_cons_self) hmove)
      (fun j hj => his j (List.mem_cons_of_mem _ hj)) hrest

/-- **A run that counts**: where the steps on inputs of one kind change a value by `f` and the
others leave it, a run applies `f` as often as such an input occurs. -/
theorem run_iterate {α : Type*} {g : σ → α} {f : α → α} {c : ι → Bool} {I : α → Prop}
    {P : ι → Prop} (hstep : ∀ s i t o, I (g s) → P i → M.step s i = some (t, o) →
      g t = if c i then f (g s) else g s)
    (hf : ∀ x, I x → I (f x)) {s u : σ} {is : List ι} {tr : List ω} (hs : I (g s))
    (his : ∀ i ∈ is, P i) (hrun : M.run s is = some (u, tr)) :
    g u = f^[is.countP c] (g s) := by
  induction is generalizing s tr with
  | nil =>
    obtain ⟨rfl, rfl⟩ := by simpa using hrun
    rfl
  | cons i is ih =>
    obtain ⟨t, o, o', hmove, hrest, rfl⟩ := run_cons_eq_some_iff.mp hrun
    have ht := hstep s i t o hs (his i List.mem_cons_self) hmove
    have hrest' := fun h => ih h (fun j hj => his j (List.mem_cons_of_mem _ hj)) hrest
    rw [List.countP_cons]
    cases hc : c i with
    | true =>
      rw [hc, if_pos rfl] at ht
      rw [if_pos rfl, Function.iterate_succ_apply, ← ht]
      exact hrest' (ht ▸ hf _ hs)
    | false =>
      rw [hc, if_neg Bool.false_ne_true] at ht
      rw [if_neg Bool.false_ne_true, Nat.add_zero, ← ht]
      exact hrest' (ht ▸ hs)

/-- What every output of a step satisfies, every output of a run does. -/
theorem forall_mem_of_run {P : ω → Prop}
    (hstep : ∀ s i t o, M.step s i = some (t, o) → ∀ e ∈ o, P e)
    {s u : σ} {is : List ι} {tr : List ω} (h : M.run s is = some (u, tr)) : ∀ e ∈ tr, P e := by
  induction is generalizing s tr with
  | nil =>
    obtain ⟨-, rfl⟩ := by simpa using h
    simp
  | cons i is ih =>
    obtain ⟨t, o, o', hmove, hrest, rfl⟩ := run_cons_eq_some_iff.mp h
    intro e he
    rcases List.mem_append.mp he with he | he
    · exact hstep s i t o hmove e he
    · exact ih hrest e he

/-- **Two properties that agree on every step agree on every run.** The invariant that their
agreement rests on may fail with them. -/
theorem always_congr {P Q : σ → ι → σ → List ω → Prop} {I : σ → Prop}
    (hstep : ∀ s i t o, I s → M.step s i = some (t, o) →
      (P s i t o ↔ Q s i t o) ∧ (P s i t o → I t))
    {s : σ} (hs : I s) (is : List ι) : M.Always P s is ↔ M.Always Q s is := by
  induction is generalizing s with
  | nil => exact Iff.rfl
  | cons i is ih =>
    unfold Always
    refine forall_congr' fun t => forall_congr' fun o => forall_congr' fun hmove => ?_
    obtain ⟨hiff, hinv⟩ := hstep s i t o hs hmove
    constructor
    · rintro ⟨hp, hall⟩
      exact ⟨hiff.mp hp, (ih (hinv hp)).mp hall⟩
    · rintro ⟨hq, hall⟩
      exact ⟨hiff.mpr hq, (ih (hinv (hiff.mpr hq))).mpr hall⟩

/-! ## Going on for ever -/

/-- On one input over and over the machine never stops, and from some step on the outputs so far
are these. -/
def Settles (M : Machine σ ι ω) (i : ι) (s : σ) (out : List ω) : Prop :=
  ∃ N, ∀ n ≥ N, ∃ t, M.run s (List.replicate n i) = some (t, out)

/-- The outputs that a machine settles on are determined. -/
theorem Settles.unique {i : ι} {s : σ} {out out' : List ω} (h : M.Settles i s out)
    (h' : M.Settles i s out') : out = out' := by
  obtain ⟨N, hN⟩ := h
  obtain ⟨N', hN'⟩ := h'
  obtain ⟨t, ht⟩ := hN (max N N') (Nat.le_max_left ..)
  obtain ⟨t', ht'⟩ := hN' (max N N') (Nat.le_max_right ..)
  exact (Prod.mk.inj (Option.some.inj (ht.symm.trans ht'))).2

/-- One step more in front. -/
theorem Settles.of_step {i : ι} {s t : σ} {o out : List ω} (hstep : M.step s i = some (t, o))
    (h : M.Settles i t out) : M.Settles i s (o ++ out) := by
  obtain ⟨N, hN⟩ := h
  refine ⟨N + 1, fun n hn => ?_⟩
  obtain ⟨k, rfl⟩ := Nat.exists_eq_add_of_le' (Nat.le_of_add_left_le hn)
  obtain ⟨u, hu⟩ := hN k (Nat.le_of_add_le_add_right hn)
  exact ⟨u, run_cons hstep hu⟩

/-- What comes after the first step. -/
theorem Settles.exists_of_step {i : ι} {s t : σ} {o out : List ω}
    (hstep : M.step s i = some (t, o)) (h : M.Settles i s out) :
    ∃ out', out = o ++ out' ∧ M.Settles i t out' := by
  obtain ⟨N, hN⟩ := h
  have htail : ∀ n ≥ N, ∃ u out', M.run t (List.replicate n i) = some (u, out') ∧
      out = o ++ out' := by
    intro n hn
    obtain ⟨u, hu⟩ := hN (n + 1) (Nat.le_succ_of_le hn)
    obtain ⟨t', o', out', hmove, hrun, hout⟩ := run_cons_eq_some_iff.mp hu
    cases hstep.symm.trans hmove
    exact ⟨u, out', hrun, hout⟩
  obtain ⟨u, out', hu, hout⟩ := htail N (Nat.le_refl N)
  refine ⟨out', hout, N, fun n hn => ?_⟩
  obtain ⟨v, out'', hv, hout'⟩ := htail n hn
  rw [List.append_cancel_left (hout'.symm.trans hout)] at hv
  exact ⟨v, hv⟩

/-- From states that lead to each other without outputs the machine goes on for ever. -/
theorem Settles.of_silent {i : ι} (P : σ → Prop)
    (hstep : ∀ s, P s → ∃ t, M.step s i = some (t, []) ∧ P t) {s : σ} (hs : P s) :
    M.Settles i s [] := by
  refine ⟨0, fun n hn => ?_⟩
  clear hn
  induction n generalizing s with
  | zero => exact ⟨s, rfl⟩
  | succ n ih =>
    obtain ⟨t, hmove, ht⟩ := hstep s hs
    obtain ⟨u, hu⟩ := ih ht
    exact ⟨u, run_cons hmove hu⟩

/-- Where the machine refuses the input it does not go on. -/
theorem not_settles {i : ι} {s : σ} (hstep : M.step s i = none) (out : List ω) :
    ¬ M.Settles i s out := by
  rintro ⟨N, hN⟩
  obtain ⟨t, ht⟩ := hN (N + 1) (Nat.le_succ N)
  obtain ⟨u, o, o', hmove, -, -⟩ := run_cons_eq_some_iff.mp ht
  rw [hstep] at hmove
  cases hmove

/-- A machine with a record of its run beside it. -/
def monitor {γ : Type*} (M : Machine σ ι ω) (record : γ → σ → ι → σ → List ω → γ) :
    Machine (σ × γ) ι ω where
  step p i := (M.step p.1 i).map fun q => ((q.1, record p.2 p.1 i q.1 q.2), q.2)

theorem monitor_step_eq_some_iff {γ : Type*} {record : γ → σ → ι → σ → List ω → γ}
    {p q : σ × γ} {i : ι} {o : List ω} : (M.monitor record).step p i = some (q, o) ↔
      M.step p.1 i = some (q.1, o) ∧ record p.2 p.1 i q.1 o = q.2 := by
  simp only [monitor, Option.map_eq_some_iff, Prod.exists, Prod.mk.injEq]
  constructor
  · rintro ⟨t, o', hmove, rfl, rfl⟩
    exact ⟨hmove, rfl⟩
  · rintro ⟨hmove, hrecord⟩
    exact ⟨q.1, o, hmove, Prod.ext rfl hrecord, rfl⟩

end Machine

/-- The states a step relation reaches from its initial states. -/
inductive Reachable (init : σ → Prop) (step : σ → σ → Prop) : σ → Prop
  | init {s : σ} : init s → Reachable init step s
  | step {s t : σ} : Reachable init step s → step s t → Reachable init step t

/-- **An inductive invariant holds in every reachable state.** -/
theorem Reachable.invariant {init : σ → Prop} {step : σ → σ → Prop} {Inv : σ → Prop}
    (hinit : ∀ s, init s → Inv s) (hstep : ∀ s t, Inv s → step s t → Inv t)
    {s : σ} (h : Reachable init step s) : Inv s := by
  induction h with
  | init h => exact hinit _ h
  | step _ hmove ih => exact hstep _ _ ih hmove

/-- What is reached from a reachable state is reachable. -/
theorem Reachable.trans {init : σ → Prop} {step : σ → σ → Prop} {s t : σ}
    (hs : Reachable init step s) (ht : Reachable (· = s) step t) : Reachable init step t := by
  induction ht with
  | init h =>
    obtain rfl := h
    exact hs
  | step _ hmove ih => exact ih.step hmove

end Transition

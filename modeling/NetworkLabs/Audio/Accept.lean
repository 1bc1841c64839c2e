import Mathlib.Logic.Function.Basic
import NetworkLabs.Foundation.Machine

/-!
# The accept loop of the audio server

`registration_proc` accepts a connection, answers the request, forks a child for the stream and goes
back to the top of its loop. A client that asks for a missing file is answered and left by a
`continue`, with its connection open. A child whose stream is done falls through to the end of the
loop body as its parent did, and accepts.

## Main definitions

* `Process`, `System`: the processes with the accepted connections that are open in them
* `registrationTurn`, `afterStream`: the ways through the loop body
* `registrationProc`: the processes as a machine; its outputs are the returns to the top of the loop
* `OnlyListener`: only the original process returns, with no connection open

## Main results

* `always_onlyListener_iff`: the runs in which this is so
-/

namespace NetworkLabs.Audio

open Transition

/-- Where a process is: before `accept`, or in `handle_child_request` for a connection. -/
inductive Place
  | top
  | streaming (childfd : ℕ)
  deriving DecidableEq

/-- A process; the accepted connections are numbered as they come. -/
structure Process where
  original : Bool
  opened : List ℕ
  place : Place
  deriving DecidableEq

/-- All processes, and the numbers of the next process and the next connection. -/
structure System where
  procs : ℕ → Option Process
  forks : ℕ
  connections : ℕ

/-- The server when it has begun to listen. -/
def System.start : System where
  procs := Function.update (fun _ => none) 0 (some ⟨true, [], .top⟩)
  forks := 1
  connections := 0

/-- A client connects to a process and asks for a file, which exists or not, and the call of `fork`
succeeds or not; or the stream of a child is done. -/
inductive Request
  | connect (pid : ℕ) (fileExists forked : Bool)
  | done (pid : ℕ)

/-- The loop body from `accept` on: the process, when it comes back to the top, and its child. -/
def registrationTurn (p : Process) (childfd : ℕ) (fileExists forked : Bool) :
    Option Process × Option Process :=
  let opened := childfd :: p.opened
  if fileExists then
    if forked then
      (some { p with opened := opened.erase childfd },
        some { original := false, opened := opened.erase childfd, place := .streaming childfd })
    else (none, none)
  -- `continue`
  else (some { p with opened := opened }, none)

/-- The loop body after `handle_child_request`: the child closes the descriptor once more. -/
def afterStream (p : Process) (childfd : ℕ) : Process :=
  { p with opened := p.opened.erase childfd, place := .top }

/-- The processes as a machine. -/
def registrationProc : Machine System Request Process where
  step s
    | .connect pid fileExists forked =>
      match s.procs pid with
      | some p =>
        if p.place = .top then
          let r := registrationTurn p s.connections fileExists forked
          some (⟨Function.update (Function.update s.procs s.forks r.2) pid r.1, s.forks + 1,
            s.connections + 1⟩, r.1.toList)
        else none
      | none => none
    | .done pid =>
      match s.procs pid with
      | some p =>
        match p.place with
        | .streaming childfd =>
          some ({ s with procs := Function.update s.procs pid (some (afterStream p childfd)) },
            [afterStream p childfd])
        | .top => none
      | none => none

/-- Whoever returns to the top of the loop is the original process, and has no connection open. -/
def OnlyListener (_ : System) (_ : Request) (_ : System) (o : List Process) : Prop :=
  ∀ p ∈ o, p.original = true ∧ p.opened = []

/-- The request is for a file that exists; and no stream is done. -/
def Request.Harmless : Request → Prop
  | .connect _ fileExists _ => fileExists = true
  | .done _ => False

/-- Only the original process waits in `accept`, and it does not stream. -/
structure System.Sound (s : System) : Prop where
  top : ∀ {pid p}, s.procs pid = some p → p.place = .top → p.original = true ∧ p.opened = []
  streaming : ∀ {pid p}, s.procs pid = some p → p.place ≠ .top → p.original = false

theorem sound_start : System.start.Sound := by
  have hproc : ∀ {pid p}, System.start.procs pid = some p → p = ⟨true, [], .top⟩ := by
    intro pid p h
    simp only [System.start, Function.update_apply] at h
    split at h
    · exact (Option.some.inj h).symm
    · cases h
  refine ⟨fun h _ => ?_, fun h hplace => ?_⟩
  · rw [hproc h]
    exact ⟨rfl, rfl⟩
  · rw [hproc h] at hplace
    exact absurd rfl hplace

/-- **What a step can do.** -/
theorem registrationProc_step_cases {s t : System} {i : Request} {o : List Process}
    (h : registrationProc.step s i = some (t, o)) :
    (∃ pid fileExists forked p, i = .connect pid fileExists forked ∧ s.procs pid = some p ∧
      p.place = .top ∧ o = (registrationTurn p s.connections fileExists forked).1.toList ∧
      t.procs = Function.update (Function.update s.procs s.forks
        (registrationTurn p s.connections fileExists forked).2) pid
        (registrationTurn p s.connections fileExists forked).1) ∨
    (∃ pid p childfd, i = .done pid ∧ s.procs pid = some p ∧ p.place = .streaming childfd ∧
      o = [afterStream p childfd] ∧
      t.procs = Function.update s.procs pid (some (afterStream p childfd))) := by
  cases i with
  | connect pid fileExists forked =>
    simp only [registrationProc] at h
    split at h
    · next p hp =>
      simp only [Option.ite_none_right_eq_some] at h
      obtain ⟨hplace, h⟩ := h
      obtain ⟨rfl, rfl⟩ := Prod.mk.inj (Option.some.inj h)
      exact .inl ⟨pid, fileExists, forked, p, rfl, hp, hplace, rfl, rfl⟩
    · cases h
  | done pid =>
    simp only [registrationProc] at h
    split at h
    · next p hp =>
      split at h
      · next childfd hplace =>
        obtain ⟨rfl, rfl⟩ := Prod.mk.inj (Option.some.inj h)
        exact .inr ⟨pid, p, childfd, rfl, hp, hplace, rfl, rfl⟩
      · cases h
    · cases h

section Turns

variable {s t : System} {pid : ℕ} {p : Process}

/-- What a process that waits in `accept` is, in a sound state. -/
theorem System.Sound.eq_of_top (hs : s.Sound) (hp : s.procs pid = some p)
    (hplace : p.place = .top) : p = ⟨true, [], .top⟩ := by
  obtain ⟨original, opened, place⟩ := p
  obtain ⟨rfl, rfl⟩ := hs.top hp hplace
  obtain rfl : place = .top := hplace
  rfl

/-- A state stays sound when the process that turns is replaced by sound ones. -/
theorem System.Sound.update (hs : s.Sound) {self child : Option Process} (k : ℕ)
    (hself : ∀ q, self = some q → q = ⟨true, [], .top⟩)
    (hchild : ∀ q, child = some q → q.original = false ∧ q.place ≠ .top)
    (ht : t.procs = Function.update (Function.update s.procs k child) pid self) : t.Sound := by
  have hcases : ∀ {j q}, t.procs j = some q →
      q = ⟨true, [], .top⟩ ∨ (q.original = false ∧ q.place ≠ .top) ∨ s.procs j = some q := by
    intro j q hq
    rw [ht, Function.update_apply, Function.update_apply] at hq
    split at hq
    · exact .inl (hself q hq)
    · split at hq
      · exact .inr (.inl (hchild q hq))
      · exact .inr (.inr hq)
  refine ⟨fun hq hplace => ?_, fun hq hplace => ?_⟩
  · rcases hcases hq with rfl | ⟨-, hne⟩ | hold
    · exact ⟨rfl, rfl⟩
    · exact absurd hplace hne
    · exact hs.top hold hplace
  · rcases hcases hq with rfl | ⟨horiginal, -⟩ | hold
    · exact absurd rfl hplace
    · exact horiginal
    · exact hs.streaming hold hplace

/-- A turn on a file that exists brings back the listener as it was, or nobody. -/
theorem registrationTurn_exists (childfd : ℕ) (forked : Bool) :
    (∀ q, (registrationTurn ⟨true, [], .top⟩ childfd true forked).1 = some q →
      q = ⟨true, [], .top⟩) ∧
    ∀ q, (registrationTurn ⟨true, [], .top⟩ childfd true forked).2 = some q →
      q.original = false ∧ q.place ≠ .top := by
  cases forked with
  | false => simp [registrationTurn]
  | true => simp [registrationTurn]

/-- **The accept loop is the listener's alone, and it has no connection open, exactly as long as**
no client asks for a file that is missing and no stream is done. -/
theorem always_onlyListener_iff (is : List Request) :
    registrationProc.Always OnlyListener System.start is ↔
      registrationProc.Always (fun _ i _ _ => i.Harmless) System.start is := by
  refine Machine.always_congr (I := System.Sound) (fun s i t o hs hstep => ?_) sound_start is
  rcases registrationProc_step_cases hstep with
    ⟨pid, fileExists, forked, p, rfl, hp, hplace, rfl, ht⟩ |
    ⟨pid, p, childfd, rfl, hp, hplace, rfl, ht⟩
  · obtain rfl := hs.eq_of_top hp hplace
    cases fileExists with
    | true =>
      obtain ⟨hself, hchild⟩ := registrationTurn_exists s.connections forked
      refine ⟨iff_of_true (fun q hq => ?_) rfl, fun _ => hs.update s.forks hself hchild ht⟩
      rw [hself q (Option.mem_toList.mp hq)]
      exact ⟨rfl, rfl⟩
    | false =>
      -- the connection stays open
      have hopen : ¬ OnlyListener s (.connect pid false forked) t
          (registrationTurn ⟨true, [], .top⟩ s.connections false forked).1.toList := by
        intro h
        have hempty := (h _ (List.mem_singleton_self _)).2
        exact absurd hempty (List.cons_ne_nil _ _)
      exact ⟨iff_of_false hopen Bool.noConfusion, fun h => absurd h hopen⟩
  -- a child comes back
  · have hchild : p.original = false := hs.streaming hp (by simp [hplace])
    have hback : ¬ OnlyListener s (.done pid) t [afterStream p childfd] := by
      intro h
      have horiginal := (h _ (List.mem_singleton_self _)).1
      exact Bool.noConfusion (hchild.symm.trans horiginal)
    exact ⟨iff_of_false hback id, fun h => absurd h hback⟩

end Turns

/-- A missing file leaves its connection open; a child whose stream is done waits in `accept`. -/
theorem not_always_onlyListener :
    ¬ registrationProc.Always OnlyListener System.start [.connect 0 false false] ∧
      ¬ registrationProc.Always OnlyListener System.start [.connect 0 true true, .done 1] := by
  constructor
  · intro h
    have hmissing := (h _ _ rfl).1
    exact absurd (hmissing _ (List.mem_singleton_self _)).2 (List.cons_ne_nil _ _)
  · intro h
    have hdone := ((h _ _ rfl).2 _ _ rfl).1
    exact Bool.noConfusion (hdone _ (List.mem_singleton_self _)).1

end NetworkLabs.Audio

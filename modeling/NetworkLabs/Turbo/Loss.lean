import NetworkLabs.Turbo.Output
import NetworkLabs.Turbo.Session

/-!
# Simulated loss

The turbo server sends through `dropsendto`, which lets `totalnum` datagrams pass and then drops
`lossnum` of them. Two counters do this, and all calls share them, whatever their arguments: blocks
and the size of the file are sent with `(1000, LOSS_NUM)`, the answer to an entry past the file with
`(10, 9)`. The loss ends on an exact equality, so a counter that is past its bound stays there.

## Main definitions

* `LossState`, `dropsendto`, `lossy`: the counters, a call, and the calls as a machine
* `Transient`: no loss is long, and none is for ever
* `Overdue`: the states in which the counter of losses is past its bound

## Main results

* `dropsendto_cases`: what a call can do
* `stuck_iff_overdue`: the states from which no block is sent again
* `length_le_left`: how many calls in a row are dropped
* `transient_iff`: the runs of the server in which loss is transient, and when all of them are
-/

namespace NetworkLabs.Turbo

open CRuntime Transition

/-! ## The counters -/

/-- `packet_counter` and `loss_counter`. -/
structure LossState where
  packet_counter : ℤ
  loss_counter : ℤ
  deriving DecidableEq

def LossState.init : LossState where
  packet_counter := 1
  loss_counter := 1

/-- What becomes of a datagram. -/
inductive Fate
  | sent
  | dropped
  deriving DecidableEq

/-- `dropsendto`, as far as the counters go; `none` when `loss_counter` overflows. -/
def dropsendto (s : LossState) (totalnum lossnum : ℤ) : Option (LossState × Fate) :=
  if s.packet_counter < totalnum then
    some ({ s with packet_counter := s.packet_counter + 1 }, .sent)
  else if s.packet_counter = totalnum then
    if s.loss_counter = lossnum then some (⟨1, 1⟩, .dropped)
    else if s.loss_counter + 1 < 2 ^ 31 then
      some ({ s with loss_counter := s.loss_counter + 1 }, .dropped)
    else none
  -- past `totalnum` nothing is counted
  else some (s, .sent)

/-- The calls of `dropsendto`, each with its `totalnum` and `lossnum`. -/
def lossy : Machine LossState (ℤ × ℤ) Fate where
  step s call := (dropsendto s call.1 call.2).map fun p => (p.1, [p.2])

/-- **What a call can do.** -/
theorem dropsendto_cases {s t : LossState} {totalnum lossnum : ℤ} {fate : Fate}
    (h : dropsendto s totalnum lossnum = some (t, fate)) :
    (s.packet_counter < totalnum ∧ t = { s with packet_counter := s.packet_counter + 1 } ∧
        fate = .sent) ∨
      (s.packet_counter = totalnum ∧ s.loss_counter = lossnum ∧ t = .init ∧ fate = .dropped) ∨
      (s.packet_counter = totalnum ∧ s.loss_counter ≠ lossnum ∧
        t = { s with loss_counter := s.loss_counter + 1 } ∧ fate = .dropped) ∨
      (totalnum < s.packet_counter ∧ t = s ∧ fate = .sent) := by
  unfold dropsendto at h
  split at h
  · obtain ⟨rfl, rfl⟩ := by simpa using h
    exact .inl ⟨‹_›, rfl, rfl⟩
  · split at h
    · split at h
      · obtain ⟨rfl, rfl⟩ := by simpa using h
        exact .inr (.inl ⟨‹_›, ‹_›, rfl, rfl⟩)
      · split at h
        · obtain ⟨rfl, rfl⟩ := by simpa using h
          exact .inr (.inr (.inl ⟨‹_›, ‹_›, rfl, rfl⟩))
        · cases h
    · obtain ⟨rfl, rfl⟩ := by simpa using h
      exact .inr (.inr (.inr ⟨by omega, rfl, rfl⟩))

theorem lossy_step_eq_some_iff {s t : LossState} {call : ℤ × ℤ} {o : List Fate} :
    lossy.step s call = some (t, o) ↔
      ∃ fate, dropsendto s call.1 call.2 = some (t, fate) ∧ o = [fate] := by
  simp only [lossy, Option.map_eq_some_iff, Prod.exists, Prod.mk.injEq]
  constructor
  · rintro ⟨t, fate, hcall, rfl, rfl⟩
    exact ⟨fate, hcall, rfl⟩
  · rintro ⟨fate, hcall, rfl⟩
    exact ⟨t, fate, hcall, rfl, rfl⟩

/-- Below `totalnum` calls are counted. -/
theorem run_replicate_sent (totalnum lossnum l : ℤ) (n : ℕ) {p : ℤ} (h : p + n ≤ totalnum) :
    lossy.run ⟨p, l⟩ (List.replicate n (totalnum, lossnum)) =
      some (⟨p + n, l⟩, List.replicate n .sent) := by
  have hstep : ∀ k < n, lossy.step ⟨p + k, l⟩ (totalnum, lossnum) =
      some (⟨p + (k + 1 : ℕ), l⟩, [.sent]) := by
    intro k hk
    have hlt : p + k < totalnum := by omega
    rw [Nat.cast_succ, ← add_assoc]
    simp [lossy, dropsendto, hlt]
  have hrun := Machine.run_replicate (f := fun k : ℕ => LossState.mk (p + k) l)
    (g := fun _ => Fate.sent) hstep
  simpa using hrun

/-- At `totalnum` losses are counted, as long as they stay below `lossnum`. -/
theorem run_replicate_dropped (totalnum : ℤ) {lossnum : ℤ} (hmax : lossnum < 2 ^ 31) (n : ℕ)
    {l : ℤ} (h : l + n ≤ lossnum) :
    lossy.run ⟨totalnum, l⟩ (List.replicate n (totalnum, lossnum)) =
      some (⟨totalnum, l + n⟩, List.replicate n .dropped) := by
  have hstep : ∀ k < n, lossy.step ⟨totalnum, l + k⟩ (totalnum, lossnum) =
      some (⟨totalnum, l + (k + 1 : ℕ)⟩, [.dropped]) := by
    intro k hk
    have hne : l + k ≠ lossnum := by omega
    have hlt : l + k + 1 < 2147483648 := by omega
    rw [Nat.cast_succ, ← add_assoc]
    simp [lossy, dropsendto, hne, hlt]
  have hrun := Machine.run_replicate (f := fun k : ℕ => LossState.mk totalnum (l + k))
    (g := fun _ => Fate.dropped) hstep
  simpa using hrun

/-! ## The states that are reached -/

/-- The calls that a server with `LOSS_NUM` makes. -/
def IsCall (LOSS_NUM : ℤ) (call : ℤ × ℤ) : Prop := call = (1000, LOSS_NUM) ∨ call = (10, 9)

/-- The counters while such calls are made. -/
structure Counting (s : LossState) : Prop where
  packet_le : s.packet_counter ≤ 1000
  one_le_loss : 1 ≤ s.loss_counter
  /-- Before the last packet only the calls with `(10, 9)` have lost anything. -/
  loss_le : s.packet_counter < 1000 → s.loss_counter ≤ 9

/-- The counter of losses is past its bound when the loss begins. -/
def Overdue (LOSS_NUM : ℤ) (s : LossState) : Prop :=
  s.packet_counter = 1000 ∧ LOSS_NUM < s.loss_counter

section Calls

variable {LOSS_NUM : ℤ} {s t : LossState} {call : ℤ × ℤ} {fate : Fate}

theorem counting_init : Counting .init where
  packet_le := by decide
  one_le_loss := le_rfl
  loss_le := fun _ => by decide

theorem Counting.of_call (hs : Counting s) (hcall : IsCall LOSS_NUM call)
    (h : dropsendto s call.1 call.2 = some (t, fate)) : Counting t := by
  obtain ⟨hp, hl, hloss⟩ := hs
  rcases dropsendto_cases h with ⟨hlt, rfl, -⟩ | ⟨-, -, rfl, -⟩ | ⟨heq, hne, rfl, -⟩ | ⟨-, rfl, -⟩
  -- a packet is counted
  · have htotal : call.1 ≤ 1000 := by
      rcases hcall with rfl | rfl
      · exact le_rfl
      · show (10 : ℤ) ≤ 1000
        decide
    exact ⟨by dsimp only; omega, hl, fun hlt' => hloss (by dsimp only at hlt'; omega)⟩
  · exact counting_init
  -- a loss is counted
  · refine ⟨hp, by dsimp only; omega, fun hlt => ?_⟩
    rcases hcall with rfl | rfl
    · exact absurd heq hlt.ne
    · have := hloss hlt
      dsimp only at hne ⊢
      omega
  · exact ⟨hp, hl, hloss⟩

/-- How many calls in a row may still be dropped. -/
def left (LOSS_NUM : ℤ) (s : LossState) : ℤ :=
  if s.packet_counter = 1000 then LOSS_NUM + 1 - s.loss_counter
  else if s.packet_counter = 10 then 10 - s.loss_counter
  else 0

theorem left_le (hs : Counting s) : left LOSS_NUM s ≤ max LOSS_NUM 9 := by
  have := hs.one_le_loss
  unfold left
  split_ifs <;> omega

theorem left_nonneg (hs : Counting s) (hdue : ¬ Overdue LOSS_NUM s) : 0 ≤ left LOSS_NUM s := by
  have hloss := hs.loss_le
  unfold Overdue at hdue
  unfold left
  split_ifs <;> omega

/-- **A call that is dropped uses one up.** -/
theorem left_of_dropped (hs : Counting s) (hdue : ¬ Overdue LOSS_NUM s)
    (hcall : IsCall LOSS_NUM call) (h : dropsendto s call.1 call.2 = some (t, .dropped)) :
    left LOSS_NUM t + 1 ≤ left LOSS_NUM s ∧ ¬ Overdue LOSS_NUM t := by
  have hloss := hs.loss_le
  unfold Overdue at hdue
  rcases dropsendto_cases h with ⟨-, -, hf⟩ | ⟨heq, hl, rfl, -⟩ | ⟨heq, hne, rfl, -⟩ | ⟨-, -, hf⟩
  · cases hf
  -- the counters are reset
  · have hzero : left LOSS_NUM .init = 0 := rfl
    refine ⟨?_, fun hdue' => absurd hdue'.1 (by decide)⟩
    rw [hzero]
    rcases hcall with rfl | rfl
    · rw [left, if_pos heq, hl]
      omega
    · rw [left, if_neg (by rw [heq]; decide), if_pos heq, hl]
      decide
  -- the loss is counted
  · rcases hcall with rfl | rfl
    · have hlt : s.loss_counter < LOSS_NUM := by
        dsimp only at heq hne
        omega
      refine ⟨?_, fun hdue' => ?_⟩
      · rw [left, left, if_pos heq, if_pos heq]
        dsimp only
        omega
      · have := hdue'.2
        dsimp only at this
        omega
    · have hne' : s.packet_counter ≠ 1000 := by
        rw [heq]
        decide
      refine ⟨?_, fun hdue' => hne' hdue'.1⟩
      rw [left, left, if_neg hne', if_neg hne', if_pos heq, if_pos heq]
      dsimp only
      omega
  · cases hf

/-- How many calls in a row are dropped. -/
theorem length_le_left (hs : Counting s) (hdue : ¬ Overdue LOSS_NUM s) {calls : List (ℤ × ℤ)}
    (hcalls : ∀ call ∈ calls, IsCall LOSS_NUM call)
    (h : lossy.run s calls = some (t, List.replicate calls.length .dropped)) :
    (calls.length : ℤ) ≤ left LOSS_NUM s := by
  induction calls generalizing s with
  | nil => exact left_nonneg hs hdue
  | cons call calls ih =>
    obtain ⟨u, o, o', hstep, hrun, hout⟩ := Machine.run_cons_eq_some_iff.mp h
    obtain ⟨fate, hdrop, rfl⟩ := lossy_step_eq_some_iff.mp hstep
    obtain ⟨rfl, rfl⟩ := List.cons.inj hout
    have hcall := hcalls call List.mem_cons_self
    obtain ⟨hleft, hdue'⟩ := left_of_dropped hs hdue hcall hdrop
    have hrest := ih (hs.of_call hcall hdrop) hdue'
      (fun c hc => hcalls c (List.mem_cons_of_mem _ hc)) hrun
    push_cast [List.length_cons]
    omega

/-! ## Loss for ever -/

/-- No later block is sent, however many are handed over. -/
def Stuck (LOSS_NUM : ℤ) (s : LossState) : Prop :=
  ∀ n t o, lossy.run s (List.replicate n (1000, LOSS_NUM)) = some (t, o) → .sent ∉ o

/-- A counter that is past its bound never meets it again. -/
theorem Overdue.stuck (hdue : Overdue LOSS_NUM s) : Stuck LOSS_NUM s := by
  intro n
  induction n generalizing s with
  | zero =>
    intro t o hrun
    obtain ⟨-, rfl⟩ := by simpa using hrun
    exact List.not_mem_nil
  | succ n ih =>
    intro t o hrun hmem
    rw [List.replicate_succ, Machine.run_cons_eq_some_iff] at hrun
    obtain ⟨u, o, o', hstep, hrun, rfl⟩ := hrun
    obtain ⟨fate, hcall, rfl⟩ := lossy_step_eq_some_iff.mp hstep
    obtain ⟨hp, hl⟩ := hdue
    rcases dropsendto_cases hcall with ⟨hlt, -, -⟩ | ⟨-, heq, -, -⟩ | ⟨-, -, rfl, rfl⟩ |
      ⟨hlt, -, -⟩
    · exact absurd hp hlt.ne
    · exact absurd heq hl.ne'
    -- the loss is counted, and the counter is past its bound by one more
    · have hlater : Overdue LOSS_NUM { s with loss_counter := s.loss_counter + 1 } :=
        ⟨hp, hl.trans (Int.lt_succ _)⟩
      exact ih hlater t o' hrun ((List.mem_cons.mp hmem).resolve_left Fate.noConfusion)
    · exact absurd hp hlt.ne'

/-- From any other state some block is sent. -/
theorem exists_run_sent (hmax : LOSS_NUM < 2 ^ 31) (hs : Counting s)
    (hdue : ¬ Overdue LOSS_NUM s) :
    ∃ n t o, lossy.run s (List.replicate n (1000, LOSS_NUM)) = some (t, o) ∧ .sent ∈ o := by
  obtain ⟨p, l⟩ := s
  rcases hs.packet_le.lt_or_eq with hlt | rfl
  -- the next one is sent
  · dsimp only at hlt
    have hsent := run_replicate_sent 1000 LOSS_NUM l 1 (p := p) (by omega)
    exact ⟨1, _, _, hsent, List.mem_singleton_self _⟩
  -- the loss runs to its end, and the one after it is sent
  · have hle : l ≤ LOSS_NUM := not_lt.mp fun hlt => hdue ⟨rfl, hlt⟩
    obtain ⟨n, hn⟩ := Int.le.dest hle
    have hlose := run_replicate_dropped 1000 hmax n hn.le
    rw [hn] at hlose
    have hreset : lossy.run ⟨1000, LOSS_NUM⟩ [(1000, LOSS_NUM)] =
        some (⟨1, 1⟩, [.dropped]) := by
      rw [Machine.run_singleton]
      simp [lossy, dropsendto]
    have hsent := run_replicate_sent 1000 LOSS_NUM 1 1 (p := 1) (by decide)
    have hall := Machine.run_append (Machine.run_append hlose hreset) hsent
    rw [← List.replicate_one, ← List.replicate_add, ← List.replicate_add] at hall
    exact ⟨_, _, _, hall, List.mem_append_right _ (List.mem_singleton_self _)⟩

/-- **A block is sent again unless the counter of losses is past its bound.** -/
theorem stuck_iff_overdue (hmax : LOSS_NUM < 2 ^ 31) (hs : Counting s) :
    Stuck LOSS_NUM s ↔ Overdue LOSS_NUM s := by
  refine ⟨fun hstuck => ?_, Overdue.stuck⟩
  by_contra hdue
  obtain ⟨n, t, o, hrun, hmem⟩ := exists_run_sent hmax hs hdue
  exact hstuck n t o hrun hmem

end Calls

/-! ## Sequences of calls -/

/-- No loss is long, and none is for ever: wherever the calls have led, at most
`max LOSS_NUM 9` of those that follow are dropped in a row, and a block is still sent some time. -/
def Transient (LOSS_NUM : ℤ) (calls : List (ℤ × ℤ)) : Prop :=
  ∀ before s o, before <+: calls → lossy.run .init before = some (s, o) →
    (∀ row t, before ++ row <+: calls →
      lossy.run s row = some (t, List.replicate row.length .dropped) →
        (row.length : ℤ) ≤ max LOSS_NUM 9) ∧
    ¬ Stuck LOSS_NUM s

/-- The counter of losses is never past its bound. -/
def OnTime (LOSS_NUM : ℤ) (calls : List (ℤ × ℤ)) : Prop :=
  ∀ before s o, before <+: calls → lossy.run .init before = some (s, o) → ¬ Overdue LOSS_NUM s

section Sequences

variable {LOSS_NUM : ℤ} {calls : List (ℤ × ℤ)}

/-- A property of the counters that every call keeps holds after all calls. -/
theorem invariant_of_calls {I : LossState → Prop} (hinit : I .init)
    (hstep : ∀ s t call fate, I s → IsCall LOSS_NUM call →
      dropsendto s call.1 call.2 = some (t, fate) → I t)
    (hcalls : ∀ call ∈ calls, IsCall LOSS_NUM call) {s : LossState} {o : List Fate}
    (h : lossy.run .init calls = some (s, o)) : I s := by
  have hall : lossy.Always (fun _ call _ _ => IsCall LOSS_NUM call) .init calls :=
    .of_forall_mem (fun call hcall _ _ _ _ => hcalls call hcall) _
  refine hall.invariant (fun s call t o hs hmove hcall => ?_) hinit h
  obtain ⟨fate, hmove, -⟩ := lossy_step_eq_some_iff.mp hmove
  exact hstep s t call fate hs hcall hmove

theorem counting_of_calls (hcalls : ∀ call ∈ calls, IsCall LOSS_NUM call) {s : LossState}
    {o : List Fate} (h : lossy.run .init calls = some (s, o)) : Counting s :=
  invariant_of_calls counting_init (fun _ _ _ _ hs hcall => hs.of_call hcall) hcalls h

/-- **Loss is transient exactly when the counter of losses is never past its bound.** -/
theorem transient_iff_onTime (hmax : LOSS_NUM < 2 ^ 31)
    (hcalls : ∀ call ∈ calls, IsCall LOSS_NUM call) :
    Transient LOSS_NUM calls ↔ OnTime LOSS_NUM calls := by
  constructor
  · intro h before s o hbefore hrun
    have hs := counting_of_calls (fun c hc => hcalls c (hbefore.subset hc)) hrun
    rw [← stuck_iff_overdue hmax hs]
    exact (h before s o hbefore hrun).2
  · intro h before s o hbefore hrun
    have hs := counting_of_calls (fun c hc => hcalls c (hbefore.subset hc)) hrun
    have hdue := h before s o hbefore hrun
    rw [← stuck_iff_overdue hmax hs] at hdue
    refine ⟨fun row t hrow hdropped => ?_, hdue⟩
    rw [stuck_iff_overdue hmax hs] at hdue
    have hrowcalls : ∀ call ∈ row, IsCall LOSS_NUM call :=
      fun c hc => hcalls c (hrow.subset (List.mem_append_right _ hc))
    exact (length_le_left hs hdue hrowcalls hdropped).trans (left_le hs)

/-- With `LOSS_NUM` at least nine, the losses of the calls with `(10, 9)` do no harm. -/
theorem onTime_of_nine_le (h9 : 9 ≤ LOSS_NUM) (hcalls : ∀ call ∈ calls, IsCall LOSS_NUM call) :
    OnTime LOSS_NUM calls := by
  intro before s o hbefore hrun
  refine (invariant_of_calls (I := fun s => Counting s ∧ ¬ Overdue LOSS_NUM s)
    ⟨counting_init, fun hdue => absurd hdue.1 (by decide)⟩ ?_
    (fun c hc => hcalls c (hbefore.subset hc)) hrun).2
  rintro s t call fate ⟨hs, hdue⟩ hcall hmove
  refine ⟨hs.of_call hcall hmove, ?_⟩
  have hloss := hs.loss_le
  rcases dropsendto_cases hmove with ⟨hlt, rfl, -⟩ | ⟨-, -, rfl, rfl⟩ | ⟨-, -, -, rfl⟩ | ⟨-, rfl, -⟩
  · rintro ⟨hp, hl⟩
    dsimp only at hp hl
    have := hloss (by omega)
    omega
  · exact (left_of_dropped hs hdue hcall hmove).2
  · exact (left_of_dropped hs hdue hcall hmove).2
  · exact hdue

/-- With `LOSS_NUM` below nine, calls that find the tenth packet lose one more than the blocks
allow, and the next thousand blocks lead to a loss that does not end. -/
theorem overdue_of_lt_nine (h0 : 0 ≤ LOSS_NUM) (h9 : LOSS_NUM < 9) :
    ∃ o, lossy.run .init (List.replicate 3 (1000, LOSS_NUM) ++ List.replicate 6 (10, 9) ++
      List.replicate LOSS_NUM.toNat (10, 9) ++ List.replicate 990 (1000, LOSS_NUM)) =
        some (⟨1000, LOSS_NUM + 1⟩, o) := by
  obtain ⟨n, rfl⟩ := Int.eq_ofNat_of_zero_le h0
  have hfirst := run_replicate_sent 1000 n 1 3 (p := 1) (by decide)
  have hmarkers := run_replicate_sent 10 9 1 6 (p := 4) (by decide)
  have hlost : lossy.run ⟨10, 1⟩ (List.replicate n (10, 9)) =
      some (⟨10, 1 + n⟩, List.replicate n .dropped) :=
    run_replicate_dropped 10 (by decide) n (by omega)
  have hblocks := run_replicate_sent 1000 n (1 + n) 990 (p := 10) (by decide)
  have hall := Machine.run_append (Machine.run_append (Machine.run_append hfirst hmarkers) hlost)
    hblocks
  rw [add_comm (1 : ℤ) (n : ℤ)] at hall
  exact ⟨_, hall⟩

end Sequences

/-! ## The calls of a server -/

/-- The arguments `totalnum` and `lossnum` of a call. -/
def Event.call : Event → Option (ℤ × ℤ)
  | .hand _ totalnum lossnum => some (totalnum, lossnum)
  | _ => none

/-- The calls of a run: the size of the file, which the handshake sends `k` times, and what is
handed over afterwards. -/
def Server.calls (sv : Server) (k : ℕ) (evs : List Event) : List (ℤ × ℤ) :=
  List.replicate k (1000, sv.LOSS_NUM) ++ evs.filterMap Event.call

/-- The event is no call, or one of the two kinds. -/
def Event.Calls (LOSS_NUM : ℤ) (e : Event) : Prop :=
  ∀ call, e.call = some call → IsCall LOSS_NUM call

section Server

variable {sv : Server}

theorem calls_sendIteration {k : ℕ} : ∀ e ∈ sv.sendIteration k, e.Calls sv.LOSS_NUM := by
  unfold Server.sendIteration
  dsimp only
  split_ifs <;> simp [Event.Calls, Event.call, IsCall]

theorem calls_retransmit {c : ℕ} : ∀ e ∈ sv.retransmit c, e.Calls sv.LOSS_NUM := by
  unfold Server.retransmit
  dsimp only
  split_ifs <;> simp [Event.Calls, Event.call, IsCall]

theorem calls_nackhandle (sv : Server) (stack : Mem UInt8) (d : List UInt8) :
    ∀ e ∈ (sv.nackhandle stack d).2, e.Calls sv.LOSS_NUM := by
  unfold Server.nackhandle
  split
  · simp
  · intro e he
    obtain ⟨c, -, he⟩ := mem_retransmitAll he
    exact calls_retransmit e he

theorem calls_of_step {s t : ServerState} {i : ServerInput} {evs : List Event}
    (h : sv.machine.step s i = some (t, evs)) : ∀ e ∈ evs, e.Calls sv.LOSS_NUM := by
  change sv.step s i = _ at h
  unfold Server.step at h
  split at h
  -- the program itself
  · have htick := congrArg Prod.snd (Option.some.inj h)
    subst htick
    unfold Server.tick
    split
    · split
      · simp
      · exact calls_sendIteration
    · split <;> simp
  -- the answer to a NACK
  · next stack d _ =>
      have hnack := calls_nackhandle sv stack d
      cases hr : sv.nackhandle stack d with
      | mk final es =>
        rw [hr] at hnack h
        obtain rfl : es = evs := by
          cases final <;> exact congrArg Prod.snd (Option.some.inj h)
        exact hnack
  · cases h

/-- A server makes no other calls. -/
theorem isCall_of_run {s : ServerState} {is : List ServerInput} {evs : List Event} (k : ℕ)
    (h : sv.machine.run .init is = some (s, evs)) :
    ∀ call ∈ sv.calls k evs, IsCall sv.LOSS_NUM call := by
  intro call hcall
  rcases List.mem_append.mp hcall with hcall | hcall
  · exact .inl (List.eq_of_mem_replicate hcall)
  · obtain ⟨e, he, hcall⟩ := List.mem_filterMap.mp hcall
    have hall := Machine.forall_mem_of_run (P := fun e => e.Calls sv.LOSS_NUM)
      (fun _ _ _ _ hmove => calls_of_step hmove) h
    exact hall e he call hcall

end Server

/-! ## A server that makes all of them -/

/-- The server of a file of one byte. -/
def smallServer (LOSS_NUM : ℤ) : Server := { oneByteServer with LOSS_NUM := LOSS_NUM }

section Small

variable {LOSS_NUM : ℤ}

theorem numPackets_smallServer (LOSS_NUM : ℤ) : (smallServer LOSS_NUM).numPackets = 1 := by
  have hblocks : (smallServer LOSS_NUM).blocks = 1 := by
    show Blocks.numBlocks 1 1 = 1
    decide
  rw [numPackets_of_lt (by rw [hblocks]; decide), hblocks]
  rfl

theorem remaining_smallServer (LOSS_NUM : ℤ) {seq : ℕ} (h : seq < 2 ^ 32) :
    (smallServer LOSS_NUM).remaining seq = 1 - seq := by
  have hoff : blockOffset 1 seq = seq := by
    rw [blockOffset_of_lt (by omega), Nat.mul_one]
  show 1 - blockOffset 1 seq = 1 - seq
  rw [hoff]

/-- The first pass: the block, and the buffer as it was declared. -/
theorem exists_run_firstPass (LOSS_NUM : ℤ) : ∃ is evs,
    (smallServer LOSS_NUM).machine.run .init is = some (⟨.awaitingNack, 2, true⟩, evs) ∧
      evs.filterMap Event.call = List.replicate 2 (1000, LOSS_NUM) := by
  have hnum := numPackets_smallServer LOSS_NUM
  have hblock : (smallServer LOSS_NUM).sendIteration 0 = [.copy (blockOffset 1 0) 1,
      .hand ((smallServer LOSS_NUM).stamped 0 1 none) 1000 LOSS_NUM] :=
    sendIteration_of_lt (by rw [hnum]; decide) (by decide)
  have hlast : (smallServer LOSS_NUM).sendIteration 1 =
      [.hand (List.replicate (1 + 8) none) 1000 LOSS_NUM] :=
    sendIteration_of_remaining_eq_zero (by rw [hnum]; rfl)
      (remaining_smallServer LOSS_NUM (by decide))
  have hone := ((reaches_zero (smallServer LOSS_NUM)).iterate (by rw [hnum]; decide)).2
    (by simp [hblock])
  have htwo := (hone.iterate (by rw [hnum]; decide)).2 (by simp [hlast])
  obtain ⟨is, i, -, hi, hrun⟩ := htwo
  have hend : (smallServer LOSS_NUM).machine.run ⟨.sending i, 0 + 1 + 1, false⟩ [.tick] =
      some (⟨.awaitingNack, 2, true⟩, []) := by
    rw [run_tick rfl, Server.tick, if_pos hi, if_pos (by rw [hnum]; rfl)]
  refine ⟨_, _, Machine.run_append hrun hend, ?_⟩
  rw [hblock, hlast]
  rfl

/-- A NACK for block 0, which is the last one. -/
theorem retransmit_zero_smallServer (LOSS_NUM : ℤ) :
    ((smallServer LOSS_NUM).retransmit 0).filterMap Event.call = [(1000, LOSS_NUM)] ∧
      .fault ∉ (smallServer LOSS_NUM).retransmit 0 := by
  have hrem : (smallServer LOSS_NUM).remaining 0 = 1 := remaining_smallServer LOSS_NUM (by decide)
  have hblock : (smallServer LOSS_NUM).retransmit 0 =
      [.copy (blockOffset 1 0) ((smallServer LOSS_NUM).remaining 0),
        .hand ((smallServer LOSS_NUM).stamped 0 ((smallServer LOSS_NUM).remaining 0) (some 0)) 1000
          LOSS_NUM] :=
    retransmit_of_remaining (by rw [numPackets_smallServer]; rfl) (by rw [hrem]; decide) hrem.le
      (by decide)
  rw [hblock]
  exact ⟨rfl, by simp⟩

/-- A NACK for block 1, which is past the file. -/
theorem retransmit_one_smallServer (LOSS_NUM : ℤ) :
    ((smallServer LOSS_NUM).retransmit 1).filterMap Event.call = [(10, 9)] ∧
      .fault ∉ (smallServer LOSS_NUM).retransmit 1 := by
  have hrem : (smallServer LOSS_NUM).remaining 1 = 0 := remaining_smallServer LOSS_NUM (by decide)
  have hmarker : (smallServer LOSS_NUM).retransmit 1 = [.hand [] 10 9] := by
    simp only [Server.retransmit]
    rw [if_neg (by rw [numPackets_smallServer]; decide), if_pos hrem]
  rw [hmarker]
  exact ⟨rfl, by simp⟩

/-- A NACK with one entry is answered, and the next one awaited. -/
theorem run_nackFor {c : ℕ} (hc : nackDecode 1 (fun _ => 0) (leBytes 4 c) = some [c])
    (hfault : .fault ∉ (smallServer LOSS_NUM).retransmit c) :
    (smallServer LOSS_NUM).machine.run ⟨.awaitingNack, 2, true⟩
        [.nack (fun _ => 0) (leBytes 4 c), .tick] =
      some (⟨.awaitingNack, 2, true⟩, (smallServer LOSS_NUM).retransmit c) := by
  have hall : (smallServer LOSS_NUM).retransmitAll [c] = (smallServer LOSS_NUM).retransmit c := by
    simp [Server.retransmitAll, any_isFault_eq_false hfault]
  have hnack : (smallServer LOSS_NUM).machine.run ⟨.awaitingNack, 2, true⟩
      [.nack (fun _ => 0) (leBytes 4 c)] =
        some (⟨Server.afterEvents ((smallServer LOSS_NUM).retransmitAll [c]) (.sending 0), 2, true⟩,
          (smallServer LOSS_NUM).retransmitAll [c]) :=
    run_nack_of_some rfl hc
  rw [hall, afterEvents_of_notMem hfault] at hnack
  have htick : (smallServer LOSS_NUM).machine.run ⟨.sending 0, 2, true⟩ [.tick] =
      some (⟨.awaitingNack, 2, true⟩, []) := by
    rw [run_tick rfl, Server.tick, if_pos (by exact Nat.one_pos),
      if_pos (by rw [numPackets_smallServer]; rfl)]
  have hrun := Machine.run_append hnack htick
  rwa [List.append_nil] at hrun

/-- Any calls can be had of it. -/
theorem run_smallServer (calls : List (ℤ × ℤ)) (hcalls : ∀ call ∈ calls, IsCall LOSS_NUM call) :
    ∃ is evs, (smallServer LOSS_NUM).machine.run ⟨.awaitingNack, 2, true⟩ is =
      some (⟨.awaitingNack, 2, true⟩, evs) ∧ evs.filterMap Event.call = calls := by
  induction calls with
  | nil => exact ⟨[], [], rfl, rfl⟩
  | cons call calls ih =>
    obtain ⟨is, evs, hrun, hevs⟩ := ih fun c hc => hcalls c (List.mem_cons_of_mem _ hc)
    rcases hcalls call List.mem_cons_self with rfl | rfl
    · obtain ⟨hcall, hfault⟩ := retransmit_zero_smallServer LOSS_NUM
      refine ⟨_, _, Machine.run_append (run_nackFor (by decide) hfault) hrun, ?_⟩
      rw [List.filterMap_append, hcall, hevs, List.singleton_append]
    · obtain ⟨hcall, hfault⟩ := retransmit_one_smallServer LOSS_NUM
      refine ⟨_, _, Machine.run_append (run_nackFor (by decide) hfault) hrun, ?_⟩
      rw [List.filterMap_append, hcall, hevs, List.singleton_append]

/-- After the handshake and the first pass any calls can follow. -/
theorem exists_run_calls (calls : List (ℤ × ℤ)) (hcalls : ∀ call ∈ calls, IsCall LOSS_NUM call) :
    ∃ is s evs, (smallServer LOSS_NUM).machine.run .init is = some (s, evs) ∧
      (smallServer LOSS_NUM).calls 1 evs = List.replicate 3 (1000, LOSS_NUM) ++ calls := by
  obtain ⟨is₀, evs₀, hrun₀, hevs₀⟩ := exists_run_firstPass LOSS_NUM
  obtain ⟨is, evs, hrun, hevs⟩ := run_smallServer calls hcalls
  refine ⟨_, _, _, Machine.run_append hrun₀ hrun, ?_⟩
  rw [Server.calls, List.filterMap_append, hevs₀, hevs, ← List.append_assoc]
  rfl

/-- With `LOSS_NUM` below nine there is a run with a loss that does not end. -/
theorem exists_run_overdue (h0 : 0 ≤ LOSS_NUM) (h9 : LOSS_NUM < 9) :
    ∃ is s evs, (smallServer LOSS_NUM).machine.run .init is = some (s, evs) ∧
      ¬ OnTime LOSS_NUM ((smallServer LOSS_NUM).calls 1 evs) := by
  have hcalls : ∀ call ∈ List.replicate 6 (10, 9) ++ (List.replicate LOSS_NUM.toNat (10, 9) ++
      List.replicate 990 (1000, LOSS_NUM)), IsCall LOSS_NUM call := by
    intro call hcall
    rcases List.mem_append.mp hcall with hcall | hcall
    · exact .inr (List.eq_of_mem_replicate hcall)
    · rcases List.mem_append.mp hcall with hcall | hcall
      · exact .inr (List.eq_of_mem_replicate hcall)
      · exact .inl (List.eq_of_mem_replicate hcall)
  obtain ⟨is, s, evs, hrun, hevs⟩ := exists_run_calls _ hcalls
  refine ⟨is, s, evs, hrun, fun h => ?_⟩
  obtain ⟨o, hover⟩ := overdue_of_lt_nine h0 h9
  rw [List.append_assoc, List.append_assoc, ← hevs] at hover
  exact h _ _ _ List.prefix_rfl hover ⟨rfl, Int.lt_succ LOSS_NUM⟩

end Small

/-- **Loss is transient in exactly the runs** in which the counter of losses is never past its
bound, and these are all runs exactly when `LOSS_NUM` is at least nine. -/
theorem transient_iff (LOSS_NUM : ℤ) (h0 : 0 ≤ LOSS_NUM) (hmax : LOSS_NUM < 2 ^ 31) :
    (∀ (sv : Server) (k : ℕ) is s evs, sv.LOSS_NUM = LOSS_NUM →
      sv.machine.run .init is = some (s, evs) →
        (Transient LOSS_NUM (sv.calls k evs) ↔ OnTime LOSS_NUM (sv.calls k evs))) ∧
    ((∀ (sv : Server) (k : ℕ) is s evs, sv.LOSS_NUM = LOSS_NUM →
      sv.machine.run .init is = some (s, evs) → OnTime LOSS_NUM (sv.calls k evs)) ↔
        9 ≤ LOSS_NUM) := by
  refine ⟨?_, fun h => ?_, ?_⟩
  · rintro sv k is s evs rfl hrun
    exact transient_iff_onTime hmax (isCall_of_run k hrun)
  · by_contra h9
    obtain ⟨is, s, evs, hrun, hover⟩ := exists_run_overdue h0 (not_le.mp h9)
    exact hover (h (smallServer LOSS_NUM) 1 is s evs rfl hrun)
  · rintro h9 sv k is s evs rfl hrun
    exact onTime_of_nine_le h9 (isCall_of_run k hrun)

/-- The handshake of a server that is asked to lose nine of a thousand. -/
theorem transient_nine : Transient 9 ((smallServer 9).calls 1 []) := by
  obtain ⟨hiff, hall⟩ := transient_iff 9 (by decide) (by decide)
  exact (hiff (smallServer 9) 1 [] .init [] rfl rfl).mpr
    (hall.mpr le_rfl (smallServer 9) 1 [] .init [] rfl rfl)

/-- A server that is asked to lose nothing loses every block from the thousandth on. -/
theorem not_transient_zero : ∃ is s evs,
    (smallServer 0).machine.run .init is = some (s, evs) ∧
      ¬ Transient 0 ((smallServer 0).calls 1 evs) := by
  obtain ⟨is, s, evs, hrun, hover⟩ := exists_run_overdue (le_refl 0) (by decide)
  have hcalls : ∀ call ∈ (smallServer 0).calls 1 evs, IsCall 0 call := isCall_of_run 1 hrun
  exact ⟨is, s, evs, hrun, fun h => hover ((transient_iff_onTime (by decide) hcalls).mp h)⟩

end NetworkLabs.Turbo

import NetworkLabs.Audio.Client

/-!
# The audio client, interrupted

The handler of packets is a signal handler: it runs, whole, between any two statements of
`play_it_back`. What is still to be played then depends on the statement that comes next. Where the
handler appends behind bytes that `play_it_back` has already dealt with, what it appends is
displaced or forgotten.

## Main definitions

* `Point`: what `play_it_back` does next
* `interruptible`: the client, statement by statement
* `Interrupted.pending`: what is still to be played, at every point
* `Undisturbed`: no data arrives just before the level is set

## Main results

* `run_uninterrupted`: without an interruption the statements are `playbackHandler`
* `written_append_pending_of_run`: what statements and arrivals preserve
* `intact_of_undisturbed`: the runs that lose nothing
-/

namespace NetworkLabs.Audio

open CRuntime Transition

/-! ## Statement by statement -/

/-- What `play_it_back` does next; `idle` when it is not in progress. -/
inductive Point
  | idle
  | test
  | writeRest
  | reset
  | writeBlock
  | move
  | update
  deriving DecidableEq

structure Interrupted extends Player where
  point : Point

/-- A signal with its datagram, the end of a sleep, or the next statement of `play_it_back`. -/
inductive Turn
  | packet (d : List UInt8)
  | tick
  | next

/-- The statements of `play_it_back`. -/
def Interrupted.next (L : Listener) (s : Interrupted) : Option (Interrupted × List Event) :=
  match s.point with
  | .idle => none
  | .test =>
    some ({ s with
      point := if s.current_buffer_level < L.pyld_sz then .writeRest else .writeBlock }, [])
  | .writeRest =>
    some ({ s with point := .reset }, [.write (s.shared_buffer.read s.current_buffer_level)])
  | .reset => some ({ s with current_buffer_level := 0, point := .idle }, [])
  | .writeBlock => some ({ s with point := .move }, [.write (s.shared_buffer.read L.pyld_sz)])
  | .move =>
    some ({ s with
      shared_buffer := s.shared_buffer.copy 0 (s.shared_buffer.shift L.pyld_sz)
        (s.current_buffer_level - L.pyld_sz)
      point := .update }, [])
  | .update =>
    some ({ s with
      current_buffer_level := s.current_buffer_level - L.pyld_sz
      point := .idle }, [])

/-- `playback_handler` up to its call of `play_it_back`. -/
def Interrupted.tick (L : Listener) (s : Interrupted) : Interrupted :=
  if s.transmitting then
    if s.full = 0 then s else { s with full := s.full - 1, point := .test }
  else if s.current_buffer_level ≠ 0 ∧ L.audio_fd ≠ 0 then { s with point := .test }
  else s

/-- The client, statement by statement. -/
def interruptible (L : Listener) : Machine Interrupted Turn Event where
  step s i :=
    match i with
    | .packet d =>
      some ({ s with toPlayer := (packetHandler L s.toPlayer d).1 },
        (packetHandler L s.toPlayer d).2)
    | .tick => if s.point = .idle then some (s.tick L, []) else none
    | .next => s.next L

/-- A tick does nothing, or starts `play_it_back`. -/
theorem tick_cases (L : Listener) (s : Player) :
    (Interrupted.tick L ⟨s, .idle⟩ = ⟨s, .idle⟩ ∧ playbackHandler L s = (s, [])) ∨
      ∃ full, Interrupted.tick L ⟨s, .idle⟩ = ⟨{ s with full := full }, .test⟩ ∧
        playbackHandler L s = playItBack L { s with full := full } := by
  unfold Interrupted.tick playbackHandler
  dsimp only
  split_ifs
  · exact .inl ⟨rfl, rfl⟩
  · exact .inr ⟨s.full - 1, rfl, rfl⟩
  · exact .inr ⟨s.full, rfl, rfl⟩
  · exact .inl ⟨rfl, rfl⟩

/-- **Without an interruption** the statements are what the handler was taken for. -/
theorem run_uninterrupted (L : Listener) (s : Player) :
    ∃ n, (interruptible L).run ⟨s, .idle⟩ (.tick :: List.replicate n .next) =
      some (⟨(playbackHandler L s).1, .idle⟩, (playbackHandler L s).2) := by
  have hplay : ∀ p : Player, ∃ n, (interruptible L).run ⟨p, .test⟩ (List.replicate n .next) =
      some (⟨(playItBack L p).1, .idle⟩, (playItBack L p).2) := by
    intro p
    by_cases hlt : p.current_buffer_level < L.pyld_sz
    · refine ⟨3, ?_⟩
      simp [Machine.run, interruptible, Interrupted.next, playItBack, hlt, List.replicate]
    · refine ⟨4, ?_⟩
      simp [Machine.run, interruptible, Interrupted.next, playItBack, hlt, List.replicate]
  have htick : (interruptible L).step ⟨s, .idle⟩ .tick =
      some (Interrupted.tick L ⟨s, .idle⟩, []) := by
    simp [interruptible]
  rcases tick_cases L s with ⟨hsame, hplayback⟩ | ⟨full, htest, hplayback⟩
  · rw [hsame] at htick
    rw [hplayback]
    exact ⟨0, Machine.run_cons htick (Machine.run_nil _)⟩
  · obtain ⟨n, hrun⟩ := hplay { s with full := full }
    rw [← htest, ← hplayback] at hrun
    exact ⟨n, Machine.run_cons htick hrun⟩

/-! ## What is still to be played -/

/-- What is still to be played, by the statement that comes next. -/
def Interrupted.pending (L : Listener) (s : Interrupted) : List UInt8 :=
  match s.point with
  | .idle | .test | .writeRest | .writeBlock => s.contents
  | .reset => []
  | .move => s.contents.drop L.pyld_sz
  | .update => s.shared_buffer.read (s.current_buffer_level - L.pyld_sz)

/-- A block is played only when the buffer holds one. -/
def Interrupted.HoldsBlock (L : Listener) (s : Interrupted) : Prop :=
  s.point = .writeBlock ∨ s.point = .move ∨ s.point = .update →
    L.pyld_sz ≤ s.current_buffer_level

/-- No data arrives between a write and the reset of the level, or between the `memmove` and the
update of the level. -/
def Undisturbed (L : Listener) (s : Interrupted) : Turn → Prop
  | .packet d => s.transmitting = true → s.point = .reset ∨ s.point = .update →
      d.take L.pyld_sz ≠ god → d.take L.pyld_sz = []
  | _ => True

/-- What arrives with a turn. -/
def Turn.input : Turn → Option Input
  | .packet d => some (.packet d)
  | _ => none

section Runs

variable {L : Listener} {s t : Interrupted} {i : Turn} {is : List Turn} {o : List Event}

/-- Where an arrival would be displaced or forgotten, an undisturbed client takes nothing. -/
theorem accepted_eq_nil {d : List UInt8} (hd : Undisturbed L s (.packet d))
    (hpoint : s.point = .reset ∨ s.point = .update) : accepted L s.toPlayer d = [] := by
  unfold accepted
  split
  · next hdata => exact hd hdata.1 hpoint hdata.2
  · rfl

/-- An arrival goes to the end of what is still to be played. -/
theorem pending_packet (hs : s.HoldsBlock L) {d : List UInt8} (hd : Undisturbed L s (.packet d)) :
    Interrupted.pending L { s with toPlayer := (packetHandler L s.toPlayer d).1 } =
      s.pending L ++ accepted L s.toPlayer d := by
  have hcontents := contents_packetHandler L s.toPlayer d
  obtain ⟨p, point⟩ := s
  -- the handler appends behind the level, and only `move` and `update` play from elsewhere
  cases point with
  | idle => exact hcontents
  | test => exact hcontents
  | writeRest => exact hcontents
  | writeBlock => exact hcontents
  | reset =>
    rw [accepted_eq_nil hd (.inl rfl)]
    rfl
  | move =>
    have hle : L.pyld_sz ≤ p.contents.length := by
      rw [Player.contents, Mem.length_read]
      exact hs (.inr (.inl rfl))
    show ((packetHandler L p d).1.contents).drop L.pyld_sz = _
    rw [hcontents, List.drop_append_of_le_length hle]
    rfl
  | update =>
    have hnil := accepted_eq_nil hd (.inr rfl)
    obtain ⟨hbuffer, hlevel⟩ := packetHandler_of_accepted_eq_nil L hnil
    rw [hnil, List.append_nil]
    simp only [Interrupted.pending, hbuffer, hlevel]

/-- A tick leaves what is still to be played. -/
theorem pending_of_tick (h : (interruptible L).step s .tick = some (t, o)) :
    t.pending L = s.pending L ∧ t.transmitting = s.transmitting ∧ t.HoldsBlock L ∧ o = [] := by
  obtain ⟨p, point⟩ := s
  simp only [interruptible, Option.ite_none_right_eq_some, Option.some.injEq, Prod.mk.injEq] at h
  obtain ⟨rfl, rfl, rfl⟩ := h
  rcases tick_cases L p with ⟨hsame, -⟩ | ⟨full, htest, -⟩
  · rw [hsame]
    exact ⟨rfl, rfl, by simp [Interrupted.HoldsBlock], rfl⟩
  · rw [htest]
    exact ⟨rfl, rfl, by simp [Interrupted.HoldsBlock], rfl⟩

/-- **A statement takes what it writes from the front** of what is still to be played. -/
theorem written_append_pending_of_next (hs : s.HoldsBlock L)
    (h : (interruptible L).step s .next = some (t, o)) :
    written o ++ t.pending L = s.pending L ∧ t.transmitting = s.transmitting ∧
      t.HoldsBlock L := by
  change s.next L = some (t, o) at h
  obtain ⟨p, point⟩ := s
  cases point with
  | idle => cases h
  | test =>
    obtain ⟨rfl, rfl⟩ := Prod.mk.inj (Option.some.inj h)
    by_cases hlt : p.current_buffer_level < L.pyld_sz
    · simp [Interrupted.pending, Interrupted.HoldsBlock, written, hlt]
    · simp [Interrupted.pending, Interrupted.HoldsBlock, written, hlt, not_lt.mp hlt]
  | writeRest =>
    obtain ⟨rfl, rfl⟩ := Prod.mk.inj (Option.some.inj h)
    simp [Interrupted.pending, Interrupted.HoldsBlock, written, Player.contents]
  | reset =>
    -- everything below the level has been written
    obtain ⟨rfl, rfl⟩ := Prod.mk.inj (Option.some.inj h)
    simp [Interrupted.pending, Interrupted.HoldsBlock, written, Player.contents, Mem.read]
  | writeBlock =>
    obtain ⟨rfl, rfl⟩ := Prod.mk.inj (Option.some.inj h)
    have hle : L.pyld_sz ≤ p.current_buffer_level := hs (.inl rfl)
    rw [written_write]
    exact ⟨p.shared_buffer.read_append_drop hle, rfl, fun _ => hle⟩
  | move =>
    -- the block that was written is shifted out, with the level still as it was
    obtain ⟨rfl, rfl⟩ := Prod.mk.inj (Option.some.inj h)
    have hle : L.pyld_sz ≤ p.current_buffer_level := hs (.inr (.inl rfl))
    refine ⟨?_, rfl, fun _ => hle⟩
    simp only [Interrupted.pending, Player.contents, Mem.read_copy_shift, Nat.add_sub_cancel' hle]
    rfl
  | update =>
    obtain ⟨rfl, rfl⟩ := Prod.mk.inj (Option.some.inj h)
    exact ⟨rfl, rfl, by simp [Interrupted.HoldsBlock]⟩

/-- The handler of packets leaves `play_it_back` where it is. -/
theorem holdsBlock_packet (hs : s.HoldsBlock L) (d : List UInt8) :
    Interrupted.HoldsBlock L { s with toPlayer := (packetHandler L s.toPlayer d).1 } :=
  fun hpoint => (hs hpoint).trans (le_current_buffer_level_packetHandler L s.toPlayer d)

/-- **Every undisturbed run keeps what was written, followed by what is still to be played.** -/
theorem written_append_pending_of_run
    (hall : (interruptible L).Always (fun s i _ _ => Undisturbed L s i) s is)
    (hs : s.HoldsBlock L) (h : (interruptible L).run s is = some (t, o)) :
    written o ++ t.pending L = s.pending L ++
      if s.transmitting then received L.pyld_sz (is.filterMap Turn.input) else [] := by
  induction is generalizing s o with
  | nil =>
    obtain ⟨rfl, rfl⟩ := by simpa using h
    simp [written, received]
  | cons i is ih =>
    obtain ⟨u, o₁, o₂, hstep, hrun, rfl⟩ := Machine.run_cons_eq_some_iff.mp h
    obtain ⟨hi, hrest⟩ := hall u o₁ hstep
    rw [written_append, List.append_assoc]
    cases i with
    | packet d =>
      obtain ⟨rfl, rfl⟩ := Prod.mk.inj (Option.some.inj hstep)
      have hreceived := received_packet L s.toPlayer d (is.filterMap Turn.input)
      rw [ih hrest (holdsBlock_packet hs d) hrun, written_packetHandler, List.nil_append,
        pending_packet hs hi, List.append_assoc, ← hreceived]
      rfl
    | tick =>
      obtain ⟨hpending, htr, hblock, rfl⟩ := pending_of_tick hstep
      rw [ih hrest hblock hrun, hpending, htr]
      rfl
    | next =>
      obtain ⟨hpending, htr, hblock⟩ := written_append_pending_of_next hs hstep
      rw [ih hrest hblock hrun, ← List.append_assoc, hpending, htr]
      rfl

/-- The client before its first sleep. -/
def Interrupted.start (buffer : Mem UInt8) : Interrupted :=
  ⟨(Client.start buffer).toPlayer, .idle⟩

/-- What was written, followed by what is buffered, is what was received. -/
def Intact (L : Listener) (is : List Turn) (t : Interrupted) (o : List Event) : Prop :=
  written o ++ t.contents = received L.pyld_sz (is.filterMap Turn.input)

/-- **Whenever `play_it_back` is not in progress nothing is lost, repeated or displaced**, as long
as no data has arrived just before it set the level. -/
theorem intact_of_undisturbed (L : Listener) (buffer : Mem UInt8) (is : List Turn)
    (hall : (interruptible L).Always (fun s i _ _ => Undisturbed L s i)
      (Interrupted.start buffer) is)
    (t : Interrupted) (o : List Event)
    (h : (interruptible L).run (Interrupted.start buffer) is = some (t, o))
    (hidle : t.point = .idle) : Intact L is t o := by
  have hblock : (Interrupted.start buffer).HoldsBlock L := by
    simp [Interrupted.HoldsBlock, Interrupted.start]
  have hkept := written_append_pending_of_run hall hblock h
  have hpending : t.pending L = t.contents := by
    simp [Interrupted.pending, hidle]
  rw [hpending] at hkept
  exact hkept

end Runs

/-- Data that arrives between the write and the `memmove`. -/
def earlyRun : List Turn :=
  [.packet [1, 2, 3], .tick, .next, .next, .packet [4, 5], .next, .next]

theorem intact_earlyRun : ∃ t o,
    (interruptible smallListener).run (Interrupted.start fun _ => 0) earlyRun = some (t, o) ∧
      t.point = .idle ∧ Intact smallListener earlyRun t o := by
  have hall : (interruptible smallListener).Always
      (fun s i _ _ => Undisturbed smallListener s i) (Interrupted.start fun _ => 0) earlyRun := by
    refine .cons rfl ?_ (.cons rfl trivial (.cons rfl trivial (.cons rfl trivial
      (.cons rfl ?_ (.cons rfl trivial (.cons rfl trivial trivial))))))
    · exact fun _ hpoint => absurd hpoint (by decide)
    · exact fun _ hpoint => absurd hpoint (by decide)
  exact ⟨_, _, rfl, rfl, intact_of_undisturbed smallListener (fun _ => 0) earlyRun hall _ _ rfl rfl⟩

/-- Data that arrives between the `memmove` and the update of the level. -/
def displacedRun : List Turn :=
  [.packet [1, 2, 3], .packet [4], .tick, .next, .next, .next, .packet [5], .next]

/-- Data that arrives between the write of a short rest and the reset of the level. -/
def forgottenRun : List Turn :=
  [.packet [1, 2], .tick, .next, .next, .packet [3], .next]

/-- The byte that arrives is displaced in one run, and forgotten in the other. -/
theorem not_intact_interrupted :
    (∃ t o, (interruptible smallListener).run (Interrupted.start fun _ => 0) displacedRun =
        some (t, o) ∧ t.point = .idle ∧ ¬ Intact smallListener displacedRun t o) ∧
      ∃ t o, (interruptible smallListener).run (Interrupted.start fun _ => 0) forgottenRun =
        some (t, o) ∧ t.point = .idle ∧ ¬ Intact smallListener forgottenRun t o := by
  refine ⟨⟨_, _, rfl, rfl, ?_⟩, _, _, rfl, rfl, ?_⟩
  · unfold Intact
    decide
  · unfold Intact
    decide

end NetworkLabs.Audio

import NetworkLabs.Foundation.Blocks
import NetworkLabs.Foundation.Machine
import NetworkLabs.Runtime.Memory

/-!
# The audio client

The client appends what it receives to a buffer, and a timer plays the buffer from its front. The
two meet in `shared_buffer` and `current_buffer_level`. While the transmission lasts, a tick plays
only when the semaphore `full`, which counts packets, lets it; afterwards it plays whatever is left.

The buffer of the model has no end: a `memcpy` is an output, and whether it stays inside the
allocation is asked of the output.

## Main definitions

* `Listener`: the command line, and the descriptor of the device
* `Player`: the variables that the handlers share
* `packetHandler`, `playItBack`, `playbackHandler`: the handlers
* `audiolisten`: the client as a machine, with the two playback loops of `main`

## Main results

* `written_append_contents_of_run`: a run keeps what was written followed by what is buffered
* `run_drain`: how many ticks the end takes
* `plays_everything`: what the device gets
* `always_fits_iff`: the runs in which the buffer does not overflow
* `current_buffer_level_le_of_run`: what the semaphore says about the buffer
-/

namespace NetworkLabs.Audio

open CRuntime Blocks Transition

/-! ## The handlers -/

/-- What the client is started with, and the descriptor of the audio device. -/
structure Listener where
  pyld_sz : ℕ
  gamm_r : ℤ
  max_buf_sz : ℕ
  target_buf_sz : ℤ
  audio_fd : ℤ

/-- The variables of the handlers; `full` is the value of the semaphore. -/
structure Player where
  transmitting : Bool
  current_buffer_level : ℕ
  shared_buffer : Mem UInt8
  full : ℕ

/-- What the client does to the outside, and to its buffer. -/
inductive Event
  /-- `write(audio_fd, ...)` of these bytes. -/
  | write (bytes : List UInt8)
  /-- `memcpy(&shared_buffer[off], ..., n)`. -/
  | memcpy (off n : ℕ)
  /-- `report_statistics(Q_star, Q_t, tau)`. -/
  | statistic (Q_star : ℤ) (Q_t : ℕ) (tau : ℤ)
  deriving DecidableEq

/-- `"GOD"`, which ends the transmission. -/
def god : List UInt8 := [71, 79, 68]

/-- `packet_handler` on a datagram, of which `recvfrom` takes `pyld_sz` bytes. -/
def packetHandler (L : Listener) (s : Player) (d : List UInt8) : Player × List Event :=
  if s.transmitting then
    let buffer := d.take L.pyld_sz
    if buffer = god then ({ s with transmitting := false }, [])
    else
      ({ s with
          shared_buffer := s.shared_buffer.store s.current_buffer_level buffer
          current_buffer_level := s.current_buffer_level + buffer.length
          full := s.full + 1 },
        [.statistic L.target_buf_sz s.current_buffer_level L.gamm_r,
          .memcpy s.current_buffer_level buffer.length])
  else (s, [])

/-- `play_it_back`. -/
def playItBack (L : Listener) (s : Player) : Player × List Event :=
  if s.current_buffer_level < L.pyld_sz then
    ({ s with current_buffer_level := 0 },
      [.write (s.shared_buffer.read s.current_buffer_level)])
  else
    ({ s with
        shared_buffer := s.shared_buffer.copy 0 (s.shared_buffer.shift L.pyld_sz)
          (s.current_buffer_level - L.pyld_sz)
        current_buffer_level := s.current_buffer_level - L.pyld_sz },
      [.write (s.shared_buffer.read L.pyld_sz)])

/-- `playback_handler`. -/
def playbackHandler (L : Listener) (s : Player) : Player × List Event :=
  if s.transmitting then
    -- `sem_trywait`
    if s.full = 0 then (s, []) else playItBack L { s with full := s.full - 1 }
  else if s.current_buffer_level ≠ 0 ∧ L.audio_fd ≠ 0 then playItBack L s
  else (s, [])

/-! ## The playback loops -/

/-- Where `main` sleeps: in its first `do_sleep_alarm`, in the loop on `transmitting`, in the loop
that empties the buffer; or it has left them. -/
inductive Loop
  | starting
  | playing
  | draining
  | left
  deriving DecidableEq

/-- Where `main` sleeps next, after a call of `playback_handler`. -/
def Loop.next (s : Player) : Loop → Loop
  | .starting | .playing =>
    if s.transmitting then .playing else if 0 < s.current_buffer_level then .draining else .left
  | .draining =>
    if s.transmitting = false ∧ 0 < s.current_buffer_level then .draining else .left
  | .left => .left

structure Client extends Player where
  loop : Loop

/-- A signal with its datagram, or the end of a sleep. -/
inductive Input
  | packet (d : List UInt8)
  | tick

/-- The client as a machine, until it leaves its loops. -/
def audiolisten (L : Listener) : Machine Client Input Event where
  step s i :=
    if s.loop = .left then none
    else
      match i with
      | .packet d =>
        some ({ s with toPlayer := (packetHandler L s.toPlayer d).1 },
          (packetHandler L s.toPlayer d).2)
      | .tick =>
        some (⟨(playbackHandler L s.toPlayer).1, s.loop.next (playbackHandler L s.toPlayer).1⟩,
          (playbackHandler L s.toPlayer).2)

/-- The client before its first sleep; the buffer holds whatever `malloc` returned. -/
def Client.start (buffer : Mem UInt8) : Client where
  transmitting := true
  current_buffer_level := 0
  shared_buffer := buffer
  full := 0
  loop := .starting

/-! ## What was received, buffered and written -/

/-- The bytes that wait to be played. -/
def Player.contents (s : Player) : List UInt8 := s.shared_buffer.read s.current_buffer_level

/-- The bytes written to the device. -/
def written (evs : List Event) : List UInt8 :=
  evs.flatMap fun
    | .write bytes => bytes
    | _ => []

/-- The payloads handled before the first `"GOD"`, in the order of their arrival. -/
def received (pyld_sz : ℕ) : List Input → List UInt8
  | [] => []
  | .tick :: is => received pyld_sz is
  | .packet d :: is =>
    if d.take pyld_sz = god then [] else d.take pyld_sz ++ received pyld_sz is

@[simp] theorem written_append (evs evs' : List Event) :
    written (evs ++ evs') = written evs ++ written evs' := List.flatMap_append

@[simp] theorem written_write (bytes : List UInt8) : written [.write bytes] = bytes := by
  simp [written]

section Handlers

variable (L : Listener) {s : Player} {d : List UInt8}

theorem packetHandler_of_not_transmitting (h : s.transmitting = false) (d : List UInt8) :
    packetHandler L s d = (s, []) := by
  simp [packetHandler, h]

theorem packetHandler_of_god (h : s.transmitting = true) (hd : d.take L.pyld_sz = god) :
    packetHandler L s d = ({ s with transmitting := false }, []) := by
  simp [packetHandler, h, hd]

theorem packetHandler_of_data (h : s.transmitting = true) (hd : d.take L.pyld_sz ≠ god) :
    packetHandler L s d =
      ({ s with
          shared_buffer := s.shared_buffer.store s.current_buffer_level (d.take L.pyld_sz)
          current_buffer_level := s.current_buffer_level + (d.take L.pyld_sz).length
          full := s.full + 1 },
        [.statistic L.target_buf_sz s.current_buffer_level L.gamm_r,
          .memcpy s.current_buffer_level (d.take L.pyld_sz).length]) := by
  simp only [packetHandler, h, if_true, if_neg hd]

/-- What the handler of packets takes from a datagram. -/
def accepted (L : Listener) (s : Player) (d : List UInt8) : List UInt8 :=
  if s.transmitting ∧ d.take L.pyld_sz ≠ god then d.take L.pyld_sz else []

theorem accepted_of_data (h : s.transmitting = true) (hd : d.take L.pyld_sz ≠ god) :
    accepted L s d = d.take L.pyld_sz :=
  if_pos ⟨h, hd⟩

/-- What is received while the transmission lasts goes to the end of the buffer. -/
theorem contents_packetHandler (s : Player) (d : List UInt8) :
    (packetHandler L s d).1.contents = s.contents ++ accepted L s d := by
  cases h : s.transmitting with
  | false => simp [packetHandler_of_not_transmitting L h, accepted, h]
  | true =>
    by_cases hd : d.take L.pyld_sz = god
    · rw [packetHandler_of_god L h hd, accepted, if_neg fun hdata => hdata.2 hd, List.append_nil]
      rfl
    · rw [packetHandler_of_data L h hd, accepted_of_data L h hd]
      exact s.shared_buffer.read_store _ _

/-- The handler of packets writes nothing to the device. -/
theorem written_packetHandler (s : Player) (d : List UInt8) :
    written (packetHandler L s d).2 = [] := by
  unfold packetHandler
  dsimp only
  split_ifs
  · rfl
  · rfl
  · rfl

/-- A handler that takes nothing leaves the buffer and its level. -/
theorem packetHandler_of_accepted_eq_nil (h : accepted L s d = []) :
    (packetHandler L s d).1.shared_buffer = s.shared_buffer ∧
      (packetHandler L s d).1.current_buffer_level = s.current_buffer_level := by
  unfold packetHandler
  dsimp only
  split_ifs with htr hd
  · exact ⟨rfl, rfl⟩
  · rw [accepted_of_data L htr hd] at h
    rw [h]
    exact ⟨s.shared_buffer.store_nil _, rfl⟩
  · exact ⟨rfl, rfl⟩

/-- What is received with a packet is what the handler takes, and what is received after it. -/
theorem received_packet (s : Player) (d : List UInt8) (is : List Input) :
    (if s.transmitting then received L.pyld_sz (.packet d :: is) else []) =
      accepted L s d ++
        if (packetHandler L s d).1.transmitting then received L.pyld_sz is else [] := by
  cases h : s.transmitting with
  | false => simp [packetHandler_of_not_transmitting L h, accepted, h]
  | true =>
    by_cases hd : d.take L.pyld_sz = god
    · simp [packetHandler_of_god L h hd, accepted, received, hd]
    · rw [packetHandler_of_data L h hd, accepted_of_data L h hd]
      simp only [h, if_true, received, if_neg hd]

/-- The handler of packets takes nothing from the buffer. -/
theorem le_current_buffer_level_packetHandler (s : Player) (d : List UInt8) :
    s.current_buffer_level ≤ (packetHandler L s d).1.current_buffer_level := by
  cases htr : s.transmitting with
  | false => rw [packetHandler_of_not_transmitting L htr]
  | true =>
    by_cases hd : d.take L.pyld_sz = god
    · rw [packetHandler_of_god L htr hd]
    · rw [packetHandler_of_data L htr hd]
      exact Nat.le_add_right ..

/-- What is played is taken from the front of the buffer. -/
theorem written_append_contents_playItBack (s : Player) :
    written (playItBack L s).2 ++ (playItBack L s).1.contents = s.contents := by
  unfold playItBack
  split
  · simp [written, Player.contents, Mem.read]
  · next hge =>
    have hle := not_lt.mp hge
    simp only [Player.contents, Mem.read_copy_shift, Nat.add_sub_cancel' hle, written_write]
    exact s.shared_buffer.read_append_drop hle

theorem current_buffer_level_playItBack (s : Player) :
    (playItBack L s).1.current_buffer_level = s.current_buffer_level - L.pyld_sz := by
  unfold playItBack
  split
  · next hlt => exact (Nat.sub_eq_zero_of_le hlt.le).symm
  · rfl

theorem transmitting_playItBack (s : Player) :
    (playItBack L s).1.transmitting = s.transmitting := by
  unfold playItBack
  split <;> rfl

/-- A tick plays from the front, or nothing. -/
theorem written_append_contents_playbackHandler (s : Player) :
    written (playbackHandler L s).2 ++ (playbackHandler L s).1.contents = s.contents := by
  unfold playbackHandler
  split_ifs
  -- `sem_trywait` fails
  · rfl
  · exact written_append_contents_playItBack L { s with full := s.full - 1 }
  · exact written_append_contents_playItBack L s
  · rfl

theorem transmitting_playbackHandler (s : Player) :
    (playbackHandler L s).1.transmitting = s.transmitting := by
  unfold playbackHandler
  split_ifs
  · rfl
  · exact transmitting_playItBack L { s with full := s.full - 1 }
  · exact transmitting_playItBack L s
  · rfl

theorem current_buffer_level_playbackHandler_le (s : Player) :
    (playbackHandler L s).1.current_buffer_level ≤ s.current_buffer_level := by
  unfold playbackHandler
  split_ifs
  · exact le_rfl
  · rw [current_buffer_level_playItBack]
    exact Nat.sub_le ..
  · rw [current_buffer_level_playItBack]
    exact Nat.sub_le ..
  · exact le_rfl

/-- After the transmission every tick plays, up to `pyld_sz` bytes. -/
theorem current_buffer_level_playbackHandler (hfd : L.audio_fd ≠ 0)
    (h : s.transmitting = false) :
    (playbackHandler L s).1.current_buffer_level = s.current_buffer_level - L.pyld_sz := by
  unfold playbackHandler
  rw [if_neg (by simp [h])]
  split
  · exact current_buffer_level_playItBack L s
  · next hno =>
    -- the descriptor is there, so the buffer is empty
    have hzero : s.current_buffer_level = 0 := by
      by_contra hpos
      exact hno ⟨hpos, hfd⟩
    simp [hzero]

end Handlers

/-! ## Runs of the client -/

section Runs

variable {L : Listener} {s t : Client} {i : Input} {is : List Input} {o : List Event}

/-- **What a step can do.** -/
theorem audiolisten_step_cases (h : (audiolisten L).step s i = some (t, o)) :
    s.loop ≠ .left ∧
      ((∃ d, i = .packet d ∧ t = { s with toPlayer := (packetHandler L s.toPlayer d).1 } ∧
          o = (packetHandler L s.toPlayer d).2) ∨
        (i = .tick ∧ t = ⟨(playbackHandler L s.toPlayer).1,
            s.loop.next (playbackHandler L s.toPlayer).1⟩ ∧
          o = (playbackHandler L s.toPlayer).2)) := by
  simp only [audiolisten, Option.ite_none_left_eq_some] at h
  obtain ⟨hloop, h⟩ := h
  refine ⟨hloop, ?_⟩
  cases i with
  | packet d =>
    obtain ⟨rfl, rfl⟩ := Prod.mk.inj (Option.some.inj h)
    exact .inl ⟨d, rfl, rfl, rfl⟩
  | tick =>
    obtain ⟨rfl, rfl⟩ := Prod.mk.inj (Option.some.inj h)
    exact .inr ⟨rfl, rfl, rfl⟩

/-- **Every run keeps what was written, followed by what is buffered.** -/
theorem written_append_contents_of_run (h : (audiolisten L).run s is = some (t, o)) :
    written o ++ t.contents =
      s.contents ++ if s.transmitting then received L.pyld_sz is else [] := by
  induction is generalizing s o with
  | nil =>
    obtain ⟨rfl, rfl⟩ := by simpa using h
    simp [written, received]
  | cons i is ih =>
    obtain ⟨u, o₁, o₂, hstep, hrun, rfl⟩ := Machine.run_cons_eq_some_iff.mp h
    have hrest := ih hrun
    rw [written_append, List.append_assoc, hrest, ← List.append_assoc]
    rcases (audiolisten_step_cases hstep).2 with ⟨d, rfl, rfl, rfl⟩ | ⟨rfl, rfl, rfl⟩
    -- what is taken goes to the end
    · rw [written_packetHandler, List.nil_append, contents_packetHandler, List.append_assoc,
        ← received_packet]
    -- what is played comes from the front
    · have hplay := written_append_contents_playbackHandler L s.toPlayer
      simp only [transmitting_playbackHandler, received]
      rw [hplay]

/-- `main` drains a buffer that is not empty, and leaves one that is, after the transmission. -/
structure Client.Settled (s : Client) : Prop where
  draining : s.loop = .draining → s.transmitting = false ∧ 0 < s.current_buffer_level
  left : s.loop = .left → s.transmitting = false ∧ s.current_buffer_level = 0

theorem settled_start (buffer : Mem UInt8) : (Client.start buffer).Settled where
  draining h := Loop.noConfusion h
  left h := Loop.noConfusion h

/-- After the transmission the level decides. -/
theorem next_of_not_transmitting {p : Player} {l : Loop} (hl : l ≠ .left)
    (hp : p.transmitting = false) :
    l.next p = if 0 < p.current_buffer_level then .draining else .left := by
  cases l with
  | starting => simp [Loop.next, hp]
  | playing => simp [Loop.next, hp]
  | draining => simp [Loop.next, hp]
  | left => exact absurd rfl hl

/-- The loop conditions of `main`, on what a tick has left. -/
theorem settled_next {p : Player} {l : Loop} (hl : l ≠ .left)
    (hp : l = .draining → p.transmitting = false) : Client.Settled ⟨p, l.next p⟩ := by
  cases htr : p.transmitting with
  | true =>
    have hnext : l.next p = .playing := by
      cases l with
      | starting => simp [Loop.next, htr]
      | playing => simp [Loop.next, htr]
      | draining => exact absurd htr (by simp [hp rfl])
      | left => exact absurd rfl hl
    rw [hnext]
    exact ⟨Loop.noConfusion, Loop.noConfusion⟩
  | false =>
    rw [next_of_not_transmitting hl htr]
    by_cases hpos : 0 < p.current_buffer_level
    · rw [if_pos hpos]
      exact ⟨fun _ => ⟨htr, hpos⟩, Loop.noConfusion⟩
    · rw [if_neg hpos]
      exact ⟨Loop.noConfusion, fun _ => ⟨htr, Nat.eq_zero_of_not_pos hpos⟩⟩

theorem Client.Settled.step (hs : s.Settled) (h : (audiolisten L).step s i = some (t, o)) :
    t.Settled := by
  obtain ⟨hloop, ⟨d, rfl, rfl, rfl⟩ | ⟨rfl, rfl, rfl⟩⟩ := audiolisten_step_cases h
  -- in the second loop packets are not read any more
  · refine ⟨fun hd => ?_, fun hl => absurd hl hloop⟩
    have htr := (hs.draining hd).1
    rw [packetHandler_of_not_transmitting L htr]
    exact hs.draining hd
  · refine settled_next hloop fun hd => ?_
    rw [transmitting_playbackHandler]
    exact (hs.draining hd).1

theorem Client.Settled.run (hs : s.Settled) (h : (audiolisten L).run s is = some (t, o)) :
    t.Settled := by
  exact Machine.run_invariant (fun _ _ _ _ hs hstep => hs.step hstep) hs h

/-! ## The end of the playback -/

/-- The number of ticks. -/
def ticks : List Input → ℕ
  | [] => 0
  | .tick :: is => ticks is + 1
  | .packet _ :: is => ticks is

/-- How many ticks the end takes: one for every block of the buffer, and one at least. -/
def Client.rest (L : Listener) (s : Client) : ℕ :=
  max 1 (numBlocks s.current_buffer_level L.pyld_sz)

/-- With a block left over the rest is one tick more. -/
theorem rest_eq_succ {u : Client} (hp : 1 ≤ L.pyld_sz)
    (hlevel : u.current_buffer_level = s.current_buffer_level - L.pyld_sz)
    (hpos : 0 < u.current_buffer_level) : s.rest L = u.rest L + 1 := by
  have hblocks : numBlocks s.current_buffer_level L.pyld_sz =
      numBlocks u.current_buffer_level L.pyld_sz + 1 := by
    rw [hlevel]
    exact numBlocks_sub hp (by omega)
  have hone := numBlocks_pos hp hpos
  rw [Client.rest, Client.rest, hblocks, max_eq_right (by omega), max_eq_right hone]

/-- A client that has left its loops does nothing. -/
theorem run_of_left (hloop : s.loop = .left) (h : (audiolisten L).run s is = some (t, o)) :
    is = [] ∧ t = s := by
  cases is with
  | nil =>
    obtain ⟨rfl, -⟩ := by simpa using h
    exact ⟨rfl, rfl⟩
  | cons i is =>
    obtain ⟨u, o₁, o₂, hstep, -, -⟩ := Machine.run_cons_eq_some_iff.mp h
    exact absurd hloop (audiolisten_step_cases hstep).1

/-- **After the transmission the client leaves with the last of the ticks that the buffer takes**,
whatever still arrives. -/
theorem run_drain (hp : 1 ≤ L.pyld_sz) (hfd : L.audio_fd ≠ 0) (hend : s.transmitting = false)
    (hloop : s.loop ≠ .left) (h : (audiolisten L).run s is = some (t, o)) :
    ticks is ≤ s.rest L ∧ (t.loop = .left ↔ ticks is = s.rest L) := by
  induction is generalizing s o with
  | nil =>
    obtain ⟨rfl, rfl⟩ := by simpa using h
    have hone : 1 ≤ s.rest L := le_max_left ..
    refine ⟨Nat.zero_le _, iff_of_false hloop ?_⟩
    show 0 ≠ s.rest L
    omega
  | cons i is ih =>
    obtain ⟨u, o₁, o₂, hstep, hrun, rfl⟩ := Machine.run_cons_eq_some_iff.mp h
    rcases (audiolisten_step_cases hstep).2 with ⟨d, rfl, rfl, rfl⟩ | ⟨rfl, hu, rfl⟩
    -- nothing is received any more
    · have hsame := packetHandler_of_not_transmitting L hend d
      simp only [hsame] at hrun
      exact ih hend hloop hrun
    · have hoff : u.transmitting = false := by
        rw [hu, transmitting_playbackHandler]
        exact hend
      have hlevel : u.current_buffer_level = s.current_buffer_level - L.pyld_sz := by
        rw [hu]
        exact current_buffer_level_playbackHandler L hfd hend
      have hnext : u.loop = if 0 < u.current_buffer_level then .draining else .left := by
        rw [hu]
        exact next_of_not_transmitting hloop ((transmitting_playbackHandler L _).trans hend)
      by_cases hpos : 0 < u.current_buffer_level
      · rw [if_pos hpos] at hnext
        obtain ⟨hle, hiff⟩ := ih hoff (by simp [hnext]) hrun
        rw [rest_eq_succ hp hlevel hpos]
        exact ⟨Nat.succ_le_succ hle, hiff.trans (Nat.succ_inj).symm⟩
      -- the tick was the last one
      · rw [if_neg hpos] at hnext
        obtain ⟨rfl, rfl⟩ := run_of_left hnext hrun
        have hone : s.rest L = 1 := max_eq_left (numBlocks_le_one hp (by omega))
        rw [hone]
        exact ⟨le_rfl, iff_of_true hnext rfl⟩

/-- **The client plays everything it received, once and in order**: when it leaves its loops, the
device has got the payloads up to the first `"GOD"`; and it leaves them as soon as the ticks after
the transmission have emptied the buffer. -/
theorem plays_everything (L : Listener) (hp : 1 ≤ L.pyld_sz) (hfd : L.audio_fd ≠ 0)
    (buffer : Mem UInt8) (is : List Input) (t : Client) (o : List Event)
    (h : (audiolisten L).run (Client.start buffer) is = some (t, o)) :
    (t.loop = .left → written o = received L.pyld_sz is) ∧
      (t.loop = .draining → t.rest L = numBlocks t.current_buffer_level L.pyld_sz) ∧
      (t.transmitting = false → t.loop ≠ .left → ∀ js u o',
        (audiolisten L).run t js = some (u, o') →
          ticks js ≤ t.rest L ∧ (u.loop = .left ↔ ticks js = t.rest L)) := by
  have hsettled := (settled_start buffer).run h
  refine ⟨fun hleft => ?_, fun hdrain => ?_, fun hend hloop js u o' hrun => ?_⟩
  · have hkept := written_append_contents_of_run h
    have hempty : t.contents = [] := by
      rw [Player.contents, (hsettled.left hleft).2]
      rfl
    rwa [hempty, List.append_nil] at hkept
  · exact max_eq_right (numBlocks_pos hp (hsettled.draining hdrain).2)
  · exact run_drain hp hfd hend hloop hrun

end Runs

/-- Payloads of three bytes, and a buffer for eight. -/
def smallListener : Listener where
  pyld_sz := 3
  gamm_r := 30
  max_buf_sz := 8
  target_buf_sz := 4
  audio_fd := 4

/-- Two packets, a tick, the end of the transmission, and a tick. -/
def smallRun : List Input := [.packet [1, 2, 3], .packet [4], .tick, .packet god, .tick]

theorem plays_everything_smallRun : ∃ t o,
    (audiolisten smallListener).run (Client.start fun _ => 0) smallRun = some (t, o) ∧
      written o = [1, 2, 3, 4] := by
  have hplays :=
    plays_everything smallListener (by decide) (by decide) (fun _ => 0) smallRun _ _ rfl
  exact ⟨_, _, rfl, hplays.1 rfl⟩

/-! ## The size of the buffer -/

/-- The buffer holds no more than was asked for, and every `memcpy` stays inside the allocation. -/
def Fits (L : Listener) (_ : Client) (_ : Input) (t : Client) (o : List Event) : Prop :=
  t.current_buffer_level ≤ L.max_buf_sz ∧
    ∀ off n, .memcpy off n ∈ o → off + n ≤ L.max_buf_sz + 1

/-- The data that is handled finds room behind what waits to be played. -/
def FindsRoom (L : Listener) (s : Client) : Input → Prop
  | .packet d => s.transmitting = true → d.take L.pyld_sz ≠ god →
      s.current_buffer_level + (d.take L.pyld_sz).length ≤ L.max_buf_sz
  | .tick => True

section Size

variable {L : Listener} {s : Client}

theorem memcpy_notMem_playItBack (p : Player) (off n : ℕ) :
    .memcpy off n ∉ (playItBack L p).2 := by
  unfold playItBack
  split <;> simp

theorem memcpy_notMem_playbackHandler (p : Player) (off n : ℕ) :
    .memcpy off n ∉ (playbackHandler L p).2 := by
  unfold playbackHandler
  split_ifs
  · simp
  · exact memcpy_notMem_playItBack _ off n
  · exact memcpy_notMem_playItBack _ off n
  · simp

theorem fits_packet_iff (hs : s.current_buffer_level ≤ L.max_buf_sz) (d : List UInt8) :
    Fits L s (.packet d) { s with toPlayer := (packetHandler L s.toPlayer d).1 }
      (packetHandler L s.toPlayer d).2 ↔ FindsRoom L s (.packet d) := by
  cases htr : s.transmitting with
  | false =>
    rw [packetHandler_of_not_transmitting L htr]
    exact iff_of_true ⟨hs, by simp⟩ fun h => absurd h (by simp [htr])
  | true =>
    by_cases hd : d.take L.pyld_sz = god
    · rw [packetHandler_of_god L htr hd]
      exact iff_of_true ⟨hs, by simp⟩ fun _ h => absurd hd h
    · rw [packetHandler_of_data L htr hd]
      constructor
      · intro h _ _
        exact h.1
      · intro h
        have hroom := h htr hd
        refine ⟨hroom, fun off n hmem => ?_⟩
        simp only [List.mem_cons, Event.memcpy.injEq, reduceCtorEq, List.not_mem_nil, or_false,
          false_or] at hmem
        rw [hmem.1, hmem.2]
        exact hroom.trans (Nat.le_succ _)

/-- **The buffer does not overflow, exactly when** all data that is handled finds room. -/
theorem always_fits_iff (L : Listener) (buffer : Mem UInt8) (is : List Input) :
    (audiolisten L).Always (Fits L) (Client.start buffer) is ↔
      (audiolisten L).Always (fun s i _ _ => FindsRoom L s i) (Client.start buffer) is := by
  refine Machine.always_congr (I := fun s => s.current_buffer_level ≤ L.max_buf_sz)
    (fun s i t o hs hstep => ⟨?_, fun h => h.1⟩) (Nat.zero_le _) is
  rcases (audiolisten_step_cases hstep).2 with ⟨d, rfl, rfl, rfl⟩ | ⟨rfl, rfl, rfl⟩
  · exact fits_packet_iff hs d
  · refine iff_of_true ⟨?_, fun off n hmem => ?_⟩ trivial
    · exact (current_buffer_level_playbackHandler_le L s.toPlayer).trans hs
    · exact absurd hmem (memcpy_notMem_playbackHandler s.toPlayer off n)

/-- Three packets of three bytes, and no tick between them. -/
theorem not_always_fits_burst : ¬ (audiolisten smallListener).Always (Fits smallListener)
    (Client.start fun _ => 0) [.packet [1, 2, 3], .packet [4, 5, 6], .packet [7, 8, 9, 10]] := by
  intro h
  have hfirst := h _ _ rfl
  have hsecond := hfirst.2 _ _ rfl
  have hthird := hsecond.2 _ _ rfl
  exact absurd hthird.1.1 (by decide)

end Size

/-! ## The semaphore -/

/-- While the transmission lasts, the semaphore covers the buffer: a packet counts for `pyld_sz`
bytes, which is what a tick takes. -/
def Player.Covered (L : Listener) (s : Player) : Prop :=
  s.transmitting = true → s.current_buffer_level ≤ s.full * L.pyld_sz

section Semaphore

variable {L : Listener} {s : Player}

theorem full_playItBack (s : Player) : (playItBack L s).1.full = s.full := by
  unfold playItBack
  split <;> rfl

/-- A packet brings at most what it is counted for. -/
theorem Player.Covered.packetHandler (hs : s.Covered L) (d : List UInt8) :
    (packetHandler L s d).1.Covered L := by
  intro htr
  cases h : s.transmitting with
  | false =>
    rw [packetHandler_of_not_transmitting L h] at htr ⊢
    exact hs htr
  | true =>
    by_cases hd : d.take L.pyld_sz = god
    · rw [packetHandler_of_god L h hd] at htr
      cases htr
    · have hlevel := hs h
      have hlen := List.length_take_le L.pyld_sz d
      rw [packetHandler_of_data L h hd]
      show s.current_buffer_level + (d.take L.pyld_sz).length ≤ (s.full + 1) * L.pyld_sz
      rw [Nat.succ_mul]
      omega

/-- A tick that the semaphore lets through takes as much as it is counted for, or all there is. -/
theorem Player.Covered.playbackHandler (hs : s.Covered L) :
    (playbackHandler L s).1.Covered L := by
  intro htr
  rw [transmitting_playbackHandler] at htr
  have hlevel := hs htr
  unfold Audio.playbackHandler
  rw [if_pos htr]
  split
  · exact hlevel
  · next hfull =>
    obtain ⟨v, hv⟩ := Nat.exists_eq_succ_of_ne_zero hfull
    rw [current_buffer_level_playItBack, full_playItBack]
    simp only [hv, Nat.succ_sub_one]
    rw [hv, Nat.succ_mul] at hlevel
    omega

/-- **The semaphore never starves the player**: while the transmission lasts, the buffer holds at
most `pyld_sz` bytes for each unit of `full`, and nothing when there are none. -/
theorem current_buffer_level_le_of_run (L : Listener) (buffer : Mem UInt8) (is : List Input)
    (t : Client) (o : List Event)
    (h : (audiolisten L).run (Client.start buffer) is = some (t, o))
    (htr : t.transmitting = true) :
    t.current_buffer_level ≤ t.full * L.pyld_sz ∧ (t.full = 0 → t.current_buffer_level = 0) := by
  have hstart : (Client.start buffer).toPlayer.Covered L := fun _ => Nat.zero_le _
  have hcovered : t.toPlayer.Covered L := by
    refine Machine.run_invariant (I := fun s => s.toPlayer.Covered L)
      (fun s i u o hs hstep => ?_) hstart h
    rcases (audiolisten_step_cases hstep).2 with ⟨d, rfl, rfl, rfl⟩ | ⟨rfl, rfl, rfl⟩
    · exact hs.packetHandler d
    · exact hs.playbackHandler
  have hlevel := hcovered htr
  refine ⟨hlevel, fun hzero => ?_⟩
  rw [hzero, Nat.zero_mul] at hlevel
  exact Nat.le_zero.mp hlevel

/-- Two short packets, of which one tick takes all. -/
def shortPackets : List Input := [.packet [1, 2], .packet [3], .tick]

theorem current_buffer_level_le_of_run_shortPackets : ∃ t o,
    (audiolisten smallListener).run (Client.start fun _ => 0) shortPackets = some (t, o) ∧
      t.current_buffer_level ≤ t.full * 3 ∧ (t.full = 0 → t.current_buffer_level = 0) := by
  have hlevel := current_buffer_level_le_of_run smallListener (fun _ => 0) shortPackets _ _ rfl rfl
  exact ⟨_, _, rfl, hlevel⟩

end Semaphore

end NetworkLabs.Audio

import NetworkLabs.Foundation.Machine
import NetworkLabs.Turbo.Packet

/-!
# The turbo server's sending loop

After the handshake the server sends every block once, and from then on answers NACKs. The two
paths are written apart: the first pass copies from the mapped file into the datagram, the NACK
handler goes through a second buffer.

The outputs of the model are what the results on the server speak of: the reads of the mapped file
with their bounds, which the results judge that need them inside the file or its pages, the
datagrams handed to `dropsendto`, and a write past the end of a local array, after which the run of
a C program means nothing.

## Main definitions

* `Server`, `Event`: the data of the server, and what it does
* `Server.sendIteration`: one pass through the body of the sending loop
* `Server.retransmit`, `Server.nackhandle`: the handler of a NACK, and its loop body
* `Server.machine`: the loop

## Main results

* `Server.sendIteration_of_lt`, `Server.sendIteration_of_remaining_eq_zero`: the branches of the
  first pass
* `mem_retransmitAll`: every event of the handler comes from one entry of the NACK
-/

namespace NetworkLabs.Turbo

open CRuntime Blocks Transition

/-- A datagram handed to `dropsendto`; `none` is a byte that was never written. -/
abbrev Packet := List (Option UInt8)

/-- What the server does. -/
inductive Event
  /-- A `memcpy` of `len` bytes from `&map[off]`. -/
  | copy (off len : ℕ)
  /-- `dropsendto(sockUDP, pkt, sizeof(pkt), ..., totalnum, lossnum)`. -/
  | hand (pkt : Packet) (totalnum lossnum : ℤ)
  /-- A write past the end of a local array. -/
  | fault
  deriving DecidableEq

def Event.isFault : Event → Bool
  | .fault => true
  | _ => false

def Event.handed : Event → Option Packet
  | .hand pkt _ _ => some pkt
  | _ => none

/-- The data of the server: `past` is what lies behind the file in its last page. -/
structure Server extends Served where
  past : Mem UInt8
  LOSS_NUM : ℤ

namespace Server

variable (sv : Server)

/-- The mapped file. -/
def map : Mem UInt8 := fun i => sv.file.getD i (sv.past i)

/-- `numPackets`, an `int`. -/
def numPackets : ℤ := toInt sv.blocks

/-- `MAX(0, finfo.st_size - seq*BLOCKSIZE)`. -/
def remaining (seq : ℕ) : ℕ := sv.size - blockOffset sv.BLOCKSIZE seq

/-- `sendData` with the stamp and `len` bytes of the map behind it; the rest of the buffer holds
`rest`. -/
def stamped (seq len : ℕ) (rest : Option UInt8) : Packet :=
  (header seq ++ (sv.map.shift (blockOffset sv.BLOCKSIZE seq)).read len).map some ++
    List.replicate (sv.BLOCKSIZE - len) rest

/-! ## The first pass -/

/-- The body of the sending loop, when `currSeq` is not yet `numPackets + 1`. `sendData` is
declared in the body and `seqChar` has nine bytes, its terminator included. -/
def sendIteration (currSeq : ℕ) : List Event :=
  let off := blockOffset sv.BLOCKSIZE currSeq
  -- all packets except the last packet, as the source has it; the last one comes here too
  if (currSeq : ℤ) < sv.numPackets then
    if (header currSeq).length ≤ 8 then
      [.copy off sv.BLOCKSIZE, .hand (sv.stamped currSeq sv.BLOCKSIZE none) 1000 sv.LOSS_NUM]
    else [.fault]
  else if sv.remaining currSeq = 0 then
    -- `sendData` is sent as it was declared
    [.hand (List.replicate (sv.BLOCKSIZE + 8) none) 1000 sv.LOSS_NUM]
  else if (header currSeq).length ≤ 8 then
    .copy off (sv.remaining currSeq) ::
      if sv.remaining currSeq ≤ sv.BLOCKSIZE then
        [.hand (sv.stamped currSeq (sv.remaining currSeq) none) 1000 sv.LOSS_NUM]
      else [.fault]
  else [.fault]

/-! ## The NACK handler -/

/-- The body of the loop over `control`, for a value that is not negative. `data` was cleared, so
the block is padded with zeros. -/
def retransmit (c : ℕ) : List Event :=
  let off := blockOffset sv.BLOCKSIZE c
  -- here the last packet does take the other branch
  if (c : ℤ) < sv.numPackets - 1 then
    .copy off sv.BLOCKSIZE ::
      if (header c).length ≤ 8 then
        [.hand (sv.stamped c sv.BLOCKSIZE (some 0)) 1000 sv.LOSS_NUM]
      else [.fault]
  else if sv.remaining c = 0 then
    -- one byte `'A'`, sent with length zero
    [.hand [] 10 9]
  else
    .copy off (sv.remaining c) ::
      if sv.remaining c ≤ sv.BLOCKSIZE ∧ (header c).length ≤ 8 then
        [.hand (sv.stamped c (sv.remaining c) (some 0)) 1000 sv.LOSS_NUM]
      else [.fault]  -- `memcpy` past `data`, or `sprintf` past `seqChar`

/-- The loop over the entries of `control`, up to a fault. -/
def retransmitAll : List ℕ → List Event
  | [] => []
  | c :: cs =>
    if (sv.retransmit c).any Event.isFault then sv.retransmit c
    else sv.retransmit c ++ retransmitAll cs

end Server

/-- The entries of `control` up to the first negative one, or all of them. -/
def nackSeqs (BLOCKSIZE : ℕ) (control : Mem UInt8) : List ℕ :=
  (((List.range BLOCKSIZE).map control.int32).takeWhile fun c => 0 ≤ c).map Int.toNat

/-- What the handler makes of a datagram: `none` for the final message, else the blocks that are
asked for. The array `control` holds `stack` when it is declared, and `bzero` clears a quarter of
it. -/
def nackDecode (BLOCKSIZE : ℕ) (stack : Mem UInt8) (d : List UInt8) : Option (List ℕ) :=
  let control := (stack.fill BLOCKSIZE 0).recv d (4 * BLOCKSIZE)
  if control.int32 0 = -1 then none else some (nackSeqs BLOCKSIZE control)

/-- `nackhandle`: it returns true on the final message. -/
def Server.nackhandle (sv : Server) (stack : Mem UInt8) (d : List UInt8) : Bool × List Event :=
  match nackDecode sv.BLOCKSIZE stack d with
  | none => (true, [])
  | some cs => (false, sv.retransmitAll cs)

/-! ## The loop -/

/-- Where the server is: in the `for` loop with its counter `i`, in the `recvfrom` of
`nackhandle`, after the `break`, or past a fault. -/
inductive ServerPc
  | sending (i : ℕ)
  | awaitingNack
  | finished
  | faulted
  deriving DecidableEq

structure ServerState where
  pc : ServerPc
  currSeq : ℕ
  isFileSent : Bool
  deriving DecidableEq

/-- What moves the server: its own program, or a datagram in `nackhandle`. -/
inductive ServerInput
  | tick
  | nack (stack : Mem UInt8) (d : List UInt8)

def ServerState.init : ServerState where
  pc := .sending 0
  currSeq := 0
  isFileSent := false

namespace Server

variable (sv : Server)

/-- Where the server is after `evs`, when it would be at `pc` had there been no fault. -/
def afterEvents (evs : List Event) (pc : ServerPc) : ServerPc :=
  if evs.any Event.isFault then .faulted else pc

/-- One step of the program, up to the next `recvfrom`. -/
def tick (s : ServerState) (i : ℕ) : ServerState × List Event :=
  if i < sv.size then
    if (s.currSeq : ℤ) = sv.numPackets + 1 then
      ({ s with isFileSent := true, pc := .awaitingNack }, [])
    else
      ({ s with
          pc := afterEvents (sv.sendIteration s.currSeq) (.sending (i + 1))
          currSeq := s.currSeq + 1 }, sv.sendIteration s.currSeq)
  -- the `for` loop has run out: `nackhandle` is called only once the file was sent
  else if s.isFileSent then ({ s with pc := .awaitingNack }, [])
  else ({ s with pc := .sending 0 }, [])

/-- One step of the server. -/
def step (s : ServerState) (i : ServerInput) : Option (ServerState × List Event) :=
  match s.pc, i with
  | .sending i, .tick => some (sv.tick s i)
  | .awaitingNack, .nack stack d =>
    match sv.nackhandle stack d with
    | (true, evs) => some ({ s with pc := .finished }, evs)
    | (false, evs) => some ({ s with pc := afterEvents evs (.sending 0) }, evs)
  | _, _ => none

/-- The sending loop. -/
def machine : Machine ServerState ServerInput Event where
  step := sv.step

end Server

/-! ## What the branches do -/

section Branches

variable {sv : Server} {seq : ℕ}

theorem numPackets_of_lt (h : sv.blocks < 2 ^ 31) : sv.numPackets = sv.blocks :=
  toInt_eq_self (by omega) (by exact_mod_cast h)

/-- Where no offset wraps, what remains at a block of the file is the file from there on. -/
theorem remaining_of_lt_blocks (hN : sv.size < 2 ^ 32) (hseq : seq < sv.blocks) :
    blockOffset sv.BLOCKSIZE seq = seq * sv.BLOCKSIZE ∧
      sv.remaining seq = sv.size - seq * sv.BLOCKSIZE ∧ 0 < sv.remaining seq := by
  have hlt := (lt_numBlocks_iff sv.blocksize_pos).mp hseq
  have hoff : blockOffset sv.BLOCKSIZE seq = seq * sv.BLOCKSIZE := blockOffset_of_lt (by omega)
  have hrem : sv.remaining seq = sv.size - seq * sv.BLOCKSIZE := by
    rw [Server.remaining, hoff]
  exact ⟨hoff, hrem, by omega⟩

theorem length_header_le_iff : (header seq).length ≤ 8 ↔ seq < 10 ^ 7 := by
  constructor
  · intro h
    by_contra hge
    have hlong : 8 < (header seq).length := lt_length_header (not_lt.mp hge)
    omega
  · intro h
    exact (length_header h).le

/-- The first pass over a block that it counts. -/
theorem sendIteration_of_lt (hlt : (seq : ℤ) < sv.numPackets) (hseq : seq < 10 ^ 7) :
    sv.sendIteration seq = [.copy (blockOffset sv.BLOCKSIZE seq) sv.BLOCKSIZE,
      .hand (sv.stamped seq sv.BLOCKSIZE none) 1000 sv.LOSS_NUM] := by
  simp only [Server.sendIteration]
  rw [if_pos hlt, if_pos (length_header_le_iff.mpr hseq)]

/-- Past the last block the first pass sends its buffer as it was declared. -/
theorem sendIteration_of_remaining_eq_zero (hge : sv.numPackets ≤ seq)
    (hrem : sv.remaining seq = 0) :
    sv.sendIteration seq = [.hand (List.replicate (sv.BLOCKSIZE + 8) none) 1000 sv.LOSS_NUM] := by
  simp only [Server.sendIteration]
  rw [if_neg (by omega), if_pos hrem]

/-- A block that the first pass does not count and that fits into its buffer. -/
theorem sendIteration_of_remaining (hge : sv.numPackets ≤ seq) (hpos : 0 < sv.remaining seq)
    (hrem : sv.remaining seq ≤ sv.BLOCKSIZE) (hseq : seq < 10 ^ 7) :
    sv.sendIteration seq = [.copy (blockOffset sv.BLOCKSIZE seq) (sv.remaining seq),
      .hand (sv.stamped seq (sv.remaining seq) none) 1000 sv.LOSS_NUM] := by
  simp only [Server.sendIteration]
  rw [if_neg (by omega), if_neg (by omega), if_pos (length_header_le_iff.mpr hseq), if_pos hrem]

/-- A block that the first pass does not count and that is longer than its buffer. -/
theorem fault_mem_sendIteration (hge : sv.numPackets ≤ seq)
    (hrem : sv.BLOCKSIZE < sv.remaining seq) : .fault ∈ sv.sendIteration seq := by
  simp only [Server.sendIteration]
  rw [if_neg (by omega), if_neg (by omega)]
  split
  · rw [if_neg (by omega)]
    exact List.mem_cons_of_mem _ (List.mem_singleton_self _)
  · exact List.mem_singleton_self _

/-- The stamp of a sequence number of eight digits does not fit into `seqChar`. -/
theorem fault_mem_sendIteration_of_long (hseq : 10 ^ 7 ≤ seq) (hpos : 0 < sv.remaining seq) :
    .fault ∈ sv.sendIteration seq := by
  have hlong : ¬ (header seq).length ≤ 8 := by
    rw [length_header_le_iff]
    exact not_lt.mpr hseq
  -- both branches that stamp write the text first
  simp only [Server.sendIteration, if_neg hlong, if_neg hpos.ne']
  split <;> exact List.mem_singleton_self _

/-- The handler on a block it takes for a full one. -/
theorem retransmit_of_lt (hlt : (seq : ℤ) < sv.numPackets - 1) (hseq : seq < 10 ^ 7) :
    sv.retransmit seq = [.copy (blockOffset sv.BLOCKSIZE seq) sv.BLOCKSIZE,
      .hand (sv.stamped seq sv.BLOCKSIZE (some 0)) 1000 sv.LOSS_NUM] := by
  simp only [Server.retransmit]
  rw [if_pos hlt, if_pos (length_header_le_iff.mpr hseq)]

/-- The handler on the last block, or on one past it that the map still holds. -/
theorem retransmit_of_remaining (hge : sv.numPackets - 1 ≤ seq) (hpos : 0 < sv.remaining seq)
    (hrem : sv.remaining seq ≤ sv.BLOCKSIZE) (hseq : seq < 10 ^ 7) :
    sv.retransmit seq = [.copy (blockOffset sv.BLOCKSIZE seq) (sv.remaining seq),
      .hand (sv.stamped seq (sv.remaining seq) (some 0)) 1000 sv.LOSS_NUM] := by
  simp only [Server.retransmit]
  rw [if_neg (by omega), if_neg (by omega), if_pos ⟨hrem, length_header_le_iff.mpr hseq⟩]

theorem fault_mem_retransmit (hge : sv.numPackets - 1 ≤ seq)
    (hrem : sv.BLOCKSIZE < sv.remaining seq) : .fault ∈ sv.retransmit seq := by
  simp only [Server.retransmit]
  rw [if_neg (by omega), if_neg (by omega), if_neg (by omega)]
  exact List.mem_cons_of_mem _ (List.mem_singleton_self _)

theorem any_isFault_eq_false {evs : List Event} (h : .fault ∉ evs) :
    evs.any Event.isFault = false := by
  rw [List.any_eq_false]
  intro e he hfault
  cases e with
  | copy off len => cases hfault
  | hand pkt t l => cases hfault
  | fault => exact h he

/-- Events without a fault leave the server where it would be. -/
theorem afterEvents_of_notMem {evs : List Event} (h : .fault ∉ evs) (pc : ServerPc) :
    Server.afterEvents evs pc = pc := by
  unfold Server.afterEvents
  simp only [any_isFault_eq_false h, Bool.false_eq_true, if_false]

/-- No event ends the loop. -/
theorem afterEvents_ne_finished (evs : List Event) (i : ℕ) :
    Server.afterEvents evs (.sending i) ≠ .finished := by
  unfold Server.afterEvents
  split
  · exact ServerPc.noConfusion
  · exact ServerPc.noConfusion

/-- Every event of the handler comes from one entry of the NACK. -/
theorem mem_retransmitAll {cs : List ℕ} {e : Event} (h : e ∈ sv.retransmitAll cs) :
    ∃ c ∈ cs, e ∈ sv.retransmit c := by
  induction cs with
  | nil => cases h
  | cons c cs ih =>
    rw [Server.retransmitAll] at h
    split at h
    -- the first entry ends in a fault
    · exact ⟨c, List.mem_cons_self, h⟩
    · rcases List.mem_append.mp h with h | h
      · exact ⟨c, List.mem_cons_self, h⟩
      · obtain ⟨c', hc', he⟩ := ih h
        exact ⟨c', List.mem_cons_of_mem _ hc', he⟩

theorem run_tick {s : ServerState} {i : ℕ} (hpc : s.pc = .sending i) :
    sv.machine.run s [.tick] = some (sv.tick s i) := by
  rw [Machine.run_singleton]
  show sv.step s .tick = _
  simp only [Server.step, hpc]

/-- The loop goes on as the handler of NACKs tells it. -/
theorem run_nack {s : ServerState} {stack : Mem UInt8} {d : List UInt8} {final : Bool}
    {es : List Event} (hpc : s.pc = .awaitingNack) (hnack : sv.nackhandle stack d = (final, es)) :
    sv.machine.run s [.nack stack d] =
      some ({ s with pc := if final then .finished else Server.afterEvents es (.sending 0) },
        es) := by
  rw [Machine.run_singleton]
  show sv.step s (.nack stack d) = _
  simp only [Server.step, hpc, hnack]
  cases final <;> rfl

/-- The final message ends the loop. -/
theorem run_nack_of_none {s : ServerState} {stack : Mem UInt8} {d : List UInt8}
    (hpc : s.pc = .awaitingNack) (h : nackDecode sv.BLOCKSIZE stack d = none) :
    sv.machine.run s [.nack stack d] = some ({ s with pc := .finished }, []) := by
  have hnack : sv.nackhandle stack d = (true, []) := by
    rw [Server.nackhandle, h]
  exact run_nack hpc hnack

/-- Every other datagram is answered as a NACK. -/
theorem run_nack_of_some {s : ServerState} {stack : Mem UInt8} {d : List UInt8} {cs : List ℕ}
    (hpc : s.pc = .awaitingNack) (h : nackDecode sv.BLOCKSIZE stack d = some cs) :
    sv.machine.run s [.nack stack d] =
      some ({ s with pc := Server.afterEvents (sv.retransmitAll cs) (.sending 0) },
        sv.retransmitAll cs) := by
  have hnack : sv.nackhandle stack d = (false, sv.retransmitAll cs) := by
    rw [Server.nackhandle, h]
  exact run_nack hpc hnack

/-- The first entry of a NACK is always served. -/
theorem mem_retransmitAll_head {c : ℕ} {cs : List ℕ} {e : Event} (h : e ∈ sv.retransmit c) :
    e ∈ sv.retransmitAll (c :: cs) := by
  rw [Server.retransmitAll]
  split
  · exact h
  · exact List.mem_append_left _ h

end Branches

end NetworkLabs.Turbo

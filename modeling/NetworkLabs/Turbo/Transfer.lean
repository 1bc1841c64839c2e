import NetworkLabs.Turbo.Address
import NetworkLabs.Turbo.Answer
import NetworkLabs.Turbo.Loss

/-!
# A transfer over a network that loses

After the handshake the sending loop and the receive loop face each other. What the server hands
over goes through `dropsendto`, whose counters the handshake has already moved; what passes, the
network may still lose, repeat, delay and reorder.

One datagram of the first pass is sent as it was declared, without anything in it. What it holds on
the stack is a parameter here, and the transfer is intact as long as it is a datagram that was
filled before. A NACK reaches the server only once the client has received something, which writes
the address that NACKs are sent to.

## Main definitions

* `Server.dropping`: the sending loop behind `dropsendto`
* `arriving`: what comes to the server of what the client sends
* `Transfer`, `Server.TransferStep`: both loops and all datagrams sent so far
* `Server.Sound`: the invariant

## Main results

* `isDatagram_of_resolves`: what a stamped buffer is sent as
* `nackDecode_of_timeout`: every NACK is read as blocks of the file
* `Sound.step`: one step of either party
* `transfer_intact`: all reachable states
-/

namespace NetworkLabs.Turbo

open CRuntime Blocks Transition

/-! ## The server behind `dropsendto` -/

/-- The datagrams that pass, of those handed over. -/
def passed (fates : List Fate) (pkts : List Packet) : List Packet :=
  (pkts.zip fates).filterMap fun p => if p.2 = .sent then some p.1 else none

/-- A step of the server, with its calls of `dropsendto`: the outputs are the datagrams sent. -/
def Server.dropping (sv : Server) : Machine (ServerState × LossState) ServerInput Packet where
  step p i := (sv.step p.1 i).bind fun q =>
    (lossy.run p.2 (q.2.filterMap Event.call)).map fun r =>
      ((q.1, r.1), passed r.2 (handed q.2))

theorem dropping_step_eq_some_iff {sv : Server} {p q : ServerState × LossState} {i : ServerInput}
    {pkts : List Packet} : sv.dropping.step p i = some (q, pkts) ↔
      ∃ evs fates, sv.step p.1 i = some (q.1, evs) ∧
        lossy.run p.2 (evs.filterMap Event.call) = some (q.2, fates) ∧
        pkts = passed fates (handed evs) := by
  simp only [Server.dropping, Option.bind_eq_some_iff, Option.map_eq_some_iff, Prod.exists,
    Prod.mk.injEq]
  constructor
  · rintro ⟨st, evs, hmove, l, fates, hcalls, hq, rfl⟩
    obtain rfl := hq
    exact ⟨evs, fates, hmove, hcalls, rfl⟩
  · rintro ⟨evs, fates, hmove, hcalls, rfl⟩
    exact ⟨q.1, evs, hmove, q.2, fates, hcalls, rfl, rfl⟩

theorem mem_of_mem_passed {fates : List Fate} {pkts : List Packet} {pkt : Packet}
    (h : pkt ∈ passed fates pkts) : pkt ∈ pkts := by
  obtain ⟨⟨pkt', fate⟩, hmem, hfate⟩ := List.mem_filterMap.mp h
  simp only [Option.ite_none_right_eq_some, Option.some_inj] at hfate
  obtain ⟨-, rfl⟩ := hfate
  exact (List.of_mem_zip hmem).1

/-! ## The client behind its variable `from` -/

/-- What comes to the server of what was sent: an address that was never written is not its own. -/
def arriving (addr : SockAddr) (out : List Sent) : Set (List UInt8) :=
  {d | .nack (some addr) d ∈ out ∨ .final (some addr) d ∈ out}

section Arriving

variable {addr : SockAddr} {D : Download}

theorem arriving_map_final (ds : List (List UInt8)) :
    arriving addr (ds.map (.final (some addr))) = {d | d ∈ ds} := by
  ext d
  simp [arriving]

theorem arriving_map_nack (ds : List (List UInt8)) :
    arriving addr (ds.map (.nack (some addr))) = {d | d ∈ ds} := by
  ext d
  simp [arriving]

/-- A step of the loop with its variable is a step of the loop; a datagram writes the variable. -/
theorem clientStep_of_addressedStep {c c' : ClientState × Option SockAddr} {i : ClientInput}
    {out : List Sent} (h : addressedStep addr D c i = some (c', out)) :
    ∃ ds, clientStep D c.1 i = some (c'.1, ds) ∧ arriving addr out ⊆ {d | d ∈ ds} := by
  cases i with
  | datagram d =>
    obtain ⟨⟨c₁, ds⟩, hstep, hp⟩ := Option.map_eq_some_iff.mp h
    obtain ⟨rfl, rfl⟩ := Prod.mk.inj hp
    exact ⟨ds, hstep, (arriving_map_final ds).subset⟩
  | timeout stack =>
    obtain ⟨⟨c₁, ds⟩, hstep, hp⟩ := Option.map_eq_some_iff.mp h
    obtain ⟨rfl, rfl⟩ := Prod.mk.inj hp
    refine ⟨ds, hstep, ?_⟩
    intro d hd
    simp only [arriving, List.mem_map, Set.mem_ofPred_eq, Sent.nack.injEq, reduceCtorEq,
      and_false, exists_false, or_false] at hd
    obtain ⟨d', hd', -, rfl⟩ := hd
    exact hd'

/-- The loop of a client that has heard of the server: all it sends comes there. -/
theorem addressedStep_of_clientStep (addr : SockAddr) {c c' : ClientState} {i : ClientInput}
    {ds : List (List UInt8)} (h : clientStep D c i = some (c', ds)) :
    ∃ out, addressedStep addr D (c, some addr) i = some ((c', some addr), out) ∧
      arriving addr out = {d | d ∈ ds} := by
  cases i with
  | datagram d =>
    refine ⟨ds.map (.final (some addr)), ?_, arriving_map_final ds⟩
    simp [addressedStep, h]
  | timeout stack =>
    refine ⟨ds.map (.nack (some addr)), ?_, arriving_map_nack ds⟩
    simp [addressedStep, h]

end Arriving

/-! ## Both loops -/

/-- The two loops, that of the client with its variable `from`, the counters of `dropsendto`, and
all datagrams that were sent to either so far. -/
structure Transfer where
  client : ClientState × Option SockAddr
  server : ServerState
  counters : LossState
  toServer : Set (List UInt8)
  toClient : Set (List UInt8)

/-- The bytes that go out for a datagram, when a buffer that was not filled goes out as one of
`stale`. -/
def GoesOut (stale : List UInt8 → Prop) (pkt : Packet) (d : List UInt8) : Prop :=
  Resolves pkt d ∧ (none ∈ pkt → stale d)

namespace Server

variable (sv : Server)

/-- The handshake is over: it has sent the size of the file a number of times, and nothing of it is
under way any more. It was read with `read`, which leaves `from` as it was declared. -/
def BeginsTransfer (s : Transfer) : Prop :=
  s.client = (.init, none) ∧ s.server = .init ∧ s.toServer = ∅ ∧ s.toClient = ∅ ∧
    ∃ k fates, lossy.run .init (List.replicate k (1000, sv.LOSS_NUM)) = some (s.counters, fates)

/-- A turn of one of the loops, on a datagram that was sent to it at any time before. -/
inductive TransferStep (addr : SockAddr) (stale : List UInt8 → Prop) : Transfer → Transfer → Prop
  | turn {client server counters toServer toClient i client' out} : ClientInput.From toClient i →
      addressedStep addr sv.download client i = some (client', out) →
      TransferStep addr stale ⟨client, server, counters, toServer, toClient⟩
        ⟨client', server, counters, toServer ∪ arriving addr out, toClient⟩
  | serve {client server counters toServer toClient i server' counters' pkts} :
      ServerInput.From toServer i →
      sv.dropping.step (server, counters) i = some ((server', counters'), pkts) →
      TransferStep addr stale ⟨client, server, counters, toServer, toClient⟩
        ⟨client, server', counters', toServer,
          toClient ∪ {d | ∃ pkt ∈ pkts, GoesOut stale pkt d}⟩

/-- The list of missing blocks always ends in the part of the NACK that `memset` clears, and no
offset wraps around. -/
structure Roomy : Prop where
  size_lt : sv.size < 2 ^ 31
  blocksize_lt : sv.BLOCKSIZE < 2 ^ 31
  room : 4 * (sv.blocks + 1) ≤ sv.BLOCKSIZE

end Server

/-! ## What the server sends -/

section Sends

variable {sv : Server} {seq : ℕ}

/-- A NACK of `BLOCKSIZE` bytes that lists all blocks leaves little room for blocks. -/
theorem Server.Roomy.blocks_lt (h : sv.Roomy) : sv.blocks < 2 ^ 15 := by
  have hsize := h.size_lt
  have hroom := h.room
  by_contra hge
  have hlast := (lt_numBlocks_iff sv.blocksize_pos).mp (show 2 ^ 15 - 1 < sv.blocks by omega)
  omega

theorem Server.Roomy.blocks_le (h : sv.Roomy) : sv.blocks ≤ tableSize := by
  have hlt := h.blocks_lt
  have htable : 2 ^ 15 ≤ tableSize := by decide
  omega

theorem Server.Roomy.numPackets (h : sv.Roomy) : sv.numPackets = sv.blocks := by
  have hlt := h.blocks_lt
  exact numPackets_of_lt (by omega)

theorem eq_of_resolves_map {l d : List UInt8} (h : Resolves (l.map some) d) : d = l := by
  unfold Resolves at h
  rw [List.forall₂_map_left_iff] at h
  induction h with
  | nil => rfl
  | cons hcell _ ih =>
    obtain rfl := Option.some.inj (hcell.resolve_left (Option.some_ne_none _))
    rw [ih]

/-- **A stamped buffer is sent as a datagram of its block**, whatever the rest of it holds. -/
theorem isDatagram_of_resolves (hN : sv.size < 2 ^ 32) (hseq : seq < sv.blocks)
    (hshort : seq < 10 ^ 7) {len : ℕ} (hlen : sv.lenOf seq ≤ len) (hle : len ≤ sv.BLOCKSIZE)
    {rest : Option UInt8} {d : List UInt8}
    (h : Resolves (sv.stamped seq len rest) d) : sv.IsDatagram seq d := by
  obtain ⟨hoff, -, -⟩ := remaining_of_lt_blocks hN hseq
  have hfit : seq * sv.BLOCKSIZE + sv.lenOf seq ≤ sv.file.length :=
    mul_add_blockLen_le sv.blocksize_pos hseq
  have h8 := length_header hshort
  have hall : d.length = sv.BLOCKSIZE + 8 := by
    rw [← h.length_eq, Server.stamped]
    simp only [List.length_append, List.length_map, h8, Mem.length_read, List.length_replicate]
    omega
  have hstamp : d.take 8 = header seq := by
    apply eq_of_resolves_map
    have htake := List.forall₂_take 8 h
    rwa [Server.stamped, List.map_append, List.append_assoc,
      List.take_left' (by rw [List.length_map, h8])] at htake
  -- the bytes behind the stamp, up to `len`, are those of the map
  have hblock : (d.drop 8).take len = (sv.map.shift (seq * sv.BLOCKSIZE)).read len := by
    apply eq_of_resolves_map
    have hdrop := List.forall₂_take len (List.forall₂_drop 8 h)
    rwa [Server.stamped, List.map_append, List.append_assoc,
      List.drop_left' (by rw [List.length_map, h8]), hoff,
      List.take_left' (by rw [List.length_map, Mem.length_read])] at hdrop
  refine ⟨d.drop 8, ⟨by rw [List.length_drop, hall, Nat.add_sub_cancel], fun i hi => ?_⟩, ?_⟩
  · have hbyte := congrArg (fun l => l[i]?) hblock
    have hin : seq * sv.BLOCKSIZE + i < sv.file.length := by omega
    simp only [List.getElem?_take_of_lt (hi.trans_le hlen)] at hbyte
    rw [hbyte, List.getElem?_eq_getElem (by rw [Mem.length_read]; omega), Mem.getElem_read,
      Mem.shift_apply, Server.map, List.getD_eq_getElem _ _ hin, List.getElem?_eq_getElem hin]
  · rw [← hstamp, List.take_append_drop]

/-- Events that write inside their buffers, read whole blocks at most, and hand over datagrams of
blocks among these, with the counts of blocks. -/
structure Server.Carries (sv : Server) (stale : List UInt8 → Prop) (among : ℕ → Prop)
    (evs : List Event) : Prop where
  noFault : .fault ∉ evs
  copies : ∀ off len, .copy off len ∈ evs → off + len ≤ sv.blocks * sv.BLOCKSIZE
  calls : ∀ e ∈ evs, ∀ call, e.call = some call → call = (1000, sv.LOSS_NUM)
  blocks : ∀ pkt ∈ handed evs, ∀ d, GoesOut stale pkt d → ∃ seq, among seq ∧ sv.IsDatagram seq d

variable {stale : List UInt8 → Prop} {among : ℕ → Prop}

theorem carries_nil : sv.Carries stale among [] where
  noFault := List.not_mem_nil
  copies := fun _ _ he => absurd he List.not_mem_nil
  calls := fun _ he => absurd he List.not_mem_nil
  blocks := fun _ hpkt => absurd hpkt List.not_mem_nil

theorem Server.Carries.append {evs evs' : List Event} (h : sv.Carries stale among evs)
    (h' : sv.Carries stale among evs') : sv.Carries stale among (evs ++ evs') where
  noFault := fun hfault => (List.mem_append.mp hfault).elim h.noFault h'.noFault
  copies := fun off len he => (List.mem_append.mp he).elim (h.copies off len) (h'.copies off len)
  calls := fun e he => (List.mem_append.mp he).elim (h.calls e) (h'.calls e)
  blocks := by
    intro pkt hpkt
    rw [handed_append] at hpkt
    exact (List.mem_append.mp hpkt).elim (h.blocks pkt) (h'.blocks pkt)

/-- A block that is copied, stamped and handed over. -/
theorem carries_copy_hand (h : sv.Roomy) (hseq : seq < sv.blocks) (hamong : among seq)
    {len : ℕ} (hlen : sv.lenOf seq ≤ len) (hle : len ≤ sv.BLOCKSIZE) (rest : Option UInt8) :
    sv.Carries stale among [.copy (blockOffset sv.BLOCKSIZE seq) len,
      .hand (sv.stamped seq len rest) 1000 sv.LOSS_NUM] := by
  have hsize := h.size_lt
  have hblocks := h.blocks_lt
  have hnext : (seq + 1) * sv.BLOCKSIZE ≤ sv.blocks * sv.BLOCKSIZE := Nat.mul_le_mul_right _ hseq
  have hoff := blockOffset_le sv.BLOCKSIZE seq
  rw [Nat.add_mul, Nat.one_mul] at hnext
  refine ⟨by simp, fun off len hcopy => le_of_mem_copy_hand hcopy (by omega),
    by simp [Event.call], fun pkt hpkt d hd => ⟨seq, hamong, ?_⟩⟩
  obtain rfl : sv.stamped seq len rest = pkt := by simpa [handed, Event.handed] using hpkt
  exact isDatagram_of_resolves (by omega) hseq (by omega) hlen hle hd.1

/-- **A turn of the first pass** carries its block, or what the buffer held before. -/
theorem carries_sendIteration (h : sv.Roomy)
    (hstale : ∀ d, stale d → ∃ seq < sv.blocks, sv.IsDatagram seq d) (hseq : seq ≤ sv.blocks) :
    sv.Carries stale (· < sv.blocks) (sv.sendIteration seq) := by
  have hsize := h.size_lt
  have hB := h.blocksize_lt
  have hblocks := h.blocks_lt
  rcases hseq.lt_or_eq with hlt | rfl
  · rw [sendIteration_of_lt (by rw [h.numPackets]; omega) (by omega)]
    exact carries_copy_hand h hlt hlt blockLen_le le_rfl none
  -- behind the last block nothing remains
  · have hlast := (lt_numBlocks_iff sv.blocksize_pos).mp (show sv.blocks - 1 < sv.blocks from
      Nat.sub_lt (numBlocks_pos sv.blocksize_pos sv.file_pos) Nat.one_pos)
    have hend : ¬ sv.blocks * sv.BLOCKSIZE < sv.size := by
      rw [← lt_numBlocks_iff sv.blocksize_pos]
      exact lt_irrefl _
    rw [Nat.sub_mul, Nat.one_mul] at hlast
    have hzero : sv.remaining sv.blocks = 0 := by
      rw [Server.remaining, blockOffset_of_lt (by omega)]
      omega
    rw [sendIteration_of_remaining_eq_zero h.numPackets.le hzero]
    refine ⟨by simp, fun off len hcopy => by simp at hcopy, by simp [Event.call],
      fun pkt hpkt d hd => hstale d (hd.2 ?_)⟩
    obtain rfl : pkt = List.replicate (sv.BLOCKSIZE + 8) none := by
      simpa [handed, Event.handed] using hpkt
    exact List.mem_replicate.mpr ⟨Nat.succ_ne_zero _, rfl⟩

/-- **The answer to an entry** is its block, in a buffer that was cleared. -/
theorem retransmit_eq (h : sv.Roomy) (hseq : seq < sv.blocks) :
    ∃ len, sv.lenOf seq ≤ len ∧ len ≤ sv.BLOCKSIZE ∧ sv.retransmit seq =
      [.copy (blockOffset sv.BLOCKSIZE seq) len,
        .hand (sv.stamped seq len (some 0)) 1000 sv.LOSS_NUM] := by
  have hsize := h.size_lt
  have hblocks := h.blocks_lt
  by_cases hlast : seq + 1 < sv.blocks
  · exact ⟨_, blockLen_le, le_rfl, retransmit_of_lt (by rw [h.numPackets]; omega) (by omega)⟩
  -- the last block: what remains of the file is its length
  · obtain ⟨hoff, hrem, hpos⟩ := remaining_of_lt_blocks (by omega) hseq
    have hend : seq + 1 = sv.blocks := by omega
    have hlen : sv.lenOf seq = sv.remaining seq := by
      rw [hrem]
      exact blockLen_of_succ_eq sv.blocksize_pos hend
    have hle : sv.remaining seq ≤ sv.BLOCKSIZE := hlen ▸ blockLen_le
    exact ⟨_, hlen.le, hle,
      retransmit_of_remaining (by rw [h.numPackets]; omega) hpos hle (by omega)⟩

theorem carries_retransmit (h : sv.Roomy) (hseq : seq < sv.blocks) (hamong : among seq) :
    sv.Carries stale among (sv.retransmit seq) := by
  obtain ⟨len, hlen, hle, heq⟩ := retransmit_eq h hseq
  rw [heq]
  exact carries_copy_hand h hseq hamong hlen hle (some 0)

theorem retransmitAll_cons (h : sv.Roomy) (hseq : seq < sv.blocks) (cs : List ℕ) :
    sv.retransmitAll (seq :: cs) = sv.retransmit seq ++ sv.retransmitAll cs := by
  obtain ⟨len, -, -, heq⟩ := retransmit_eq h hseq
  apply retransmitAll_cons_of_notMem
  rw [heq]
  simp

/-- **The answer to a list** carries the blocks of the list. -/
theorem carries_retransmitAll (h : sv.Roomy) {cs : List ℕ} (hcs : ∀ c ∈ cs, c < sv.blocks)
    (hamong : ∀ c ∈ cs, among c) : sv.Carries stale among (sv.retransmitAll cs) := by
  induction cs with
  | nil => exact carries_nil
  | cons c cs ih =>
    rw [List.forall_mem_cons] at hcs hamong
    rw [retransmitAll_cons h hcs.1]
    exact (carries_retransmit h hcs.1 hamong.1).append (ih hcs.2 hamong.2)

end Sends

/-! ## What the client sends -/

section Understood

variable {sv : Server} {c c' : ClientState}

/-- The handler takes the datagram for a list of blocks of the file, whatever its array held before,
or for the final message of a client that is done. -/
def Server.Understood (sv : Server) (c : ClientState) (d : List UInt8) : Prop :=
  ∀ stack, (∃ cs, nackDecode sv.BLOCKSIZE stack d = some cs ∧ ∀ k ∈ cs, k < sv.blocks) ∨
    nackDecode sv.BLOCKSIZE stack d = none ∧ c.received = true

theorem nackDecode_finalMessage {B : ℕ} (hB : 1 ≤ B) (stack : Mem UInt8) :
    nackDecode B stack finalMessage = none := by
  have hlen : finalMessage.length = 4 := length_leBytes ..
  have hvalue : toInt (leValue finalMessage) = -1 := by decide
  have hcap : finalMessage.length ≤ 4 * B := by omega
  have hread : ((stack.fill B 0).recv finalMessage (4 * B)).read finalMessage.length =
      finalMessage := Mem.read_recv hcap
  rw [hlen] at hread
  have hfirst : (((stack.fill B 0).recv finalMessage (4 * B)).shift (4 * 0)).read 4 =
      finalMessage := by
    rw [← hread]
    refine Mem.read_congr fun k _ => ?_
    rw [Mem.shift_apply, Nat.mul_zero, Nat.zero_add, hread]
  rw [nackDecode_eq_none_iff, Mem.int32, hfirst, hvalue]

/-- **Every NACK is read as it was meant**: as blocks of the file that are missing. -/
theorem nackDecode_of_timeout (h : sv.Roomy) (hne : missing c.pktsRcvd sv.blocks ≠ [])
    (stack sstack : Mem UInt8) :
    nackDecode sv.BLOCKSIZE sstack ((nackOf sv.download c stack).read (4 * sv.BLOCKSIZE)) =
      some (missing c.pktsRcvd sv.blocks) := by
  have hroom := h.room
  obtain ⟨tail, hdecode, htail⟩ :=
    nackDecode_nackOf (D := sv.download) h.blocks_le hne stack sstack
  have hlen : (missing c.pktsRcvd sv.blocks).length ≤ sv.blocks :=
    (List.length_filter_le ..).trans (List.length_range' ..).le
  -- the array has room for all missing blocks, and for the end of the list behind them
  have hlisted : sv.download.listed c = missing c.pktsRcvd sv.blocks := by
    apply List.take_of_length_le
    show (missing c.pktsRcvd sv.blocks).length ≤ sv.BLOCKSIZE
    omega
  rw [hlisted] at hdecode htail
  have hnil : tail = [] := by
    rw [htail]
    right
    have hquarter : (missing c.pktsRcvd sv.blocks).length < sv.BLOCKSIZE / 4 := by omega
    exact int32_fill_neg_iff.mpr hquarter stack
  rw [hnil, List.append_nil] at hdecode
  exact hdecode

theorem Server.Understood.mono {d : List UInt8} (h : sv.Understood c d)
    (hdone : c.received = true → c'.received = true) : sv.Understood c' d :=
  fun stack => (h stack).imp_right (And.imp_right hdone)

/-- A NACK is read by the handler only. -/
theorem pc_of_step_nack {s t : ServerState} {stack : Mem UInt8} {d : List UInt8}
    {evs : List Event} (h : sv.step s (.nack stack d) = some (t, evs)) : s.pc = .awaitingNack := by
  unfold Server.step at h
  cases hpc : s.pc with
  | awaitingNack => rfl
  | sending i => simp [hpc] at h
  | finished => simp [hpc] at h
  | faulted => simp [hpc] at h

/-- The loop is not entered again. -/
theorem clientStep_of_received (D : Download) (hdone : c.received = true) (i : ClientInput) :
    clientStep D c i = some (c, []) := by
  unfold clientStep
  rw [if_pos hdone]

theorem received_of_clientStep {D : Download} {i : ClientInput} {out : List (List UInt8)}
    (h : clientStep D c i = some (c', out)) (hdone : c.received = true) : c'.received = true := by
  rw [clientStep_of_received D hdone] at h
  obtain ⟨rfl, -⟩ := Prod.mk.inj (Option.some.inj h)
  exact hdone

/-- **What the receive loop sends is understood.** -/
theorem understood_of_clientStep (h : sv.Roomy) {i : ClientInput} {out : List (List UInt8)}
    (hstep : clientStep sv.download c i = some (c', out)) {d : List UInt8} (hd : d ∈ out) :
    sv.Understood c' d := by
  by_cases hdone : c.received = true
  · rw [clientStep_of_received sv.download hdone] at hstep
    obtain ⟨-, rfl⟩ := Prod.mk.inj (Option.some.inj hstep)
    cases hd
  unfold clientStep at hstep
  rw [if_neg hdone] at hstep
  intro stack
  cases i with
  | datagram e =>
    obtain ⟨rfl, hfull⟩ := sends_of_receiveData hstep hd
    exact .inr ⟨nackDecode_finalMessage sv.blocksize_pos stack, hfull⟩
  | timeout sent =>
    simp only [timeout_eq (D := sv.download) h.blocks_le] at hstep
    split at hstep
    · obtain ⟨-, rfl⟩ := Prod.mk.inj (Option.some.inj hstep)
      cases hd
    -- the list of the missing blocks, twice
    · next hne =>
      obtain ⟨-, rfl⟩ := Prod.mk.inj (Option.some.inj hstep)
      obtain rfl : d = (nackOf sv.download c sent).read (4 * sv.download.BLOCKSIZE) := by
        simpa using hd
      exact .inl ⟨_, nackDecode_of_timeout h hne sent stack, fun k hk => (mem_missing.mp hk).1⟩

end Understood

/-! ## The invariant -/

section Safety

variable {sv : Server} {addr : SockAddr} {stale : List UInt8 → Prop}

/-- The loop counts up to `numPackets + 1`, and waits for a NACK only there. -/
structure Server.OnTrack (sv : Server) (s : ServerState) : Prop where
  currSeq_le : s.currSeq ≤ sv.blocks + 1
  not_faulted : s.pc ≠ .faulted
  fileSent : s.isFileSent = true → s.currSeq = sv.blocks + 1
  awaiting : s.pc = .awaitingNack → s.isFileSent = true

/-- The blocks that the client has are those of the file, every datagram is one of a block, every
NACK is understood, and only a client that is done is answered no more. -/
structure Server.Sound (sv : Server) (s : Transfer) : Prop where
  assembles : ∃ S, Assembles sv.toServed S s.client.1
  toClient : ∀ d ∈ s.toClient, ∃ seq < sv.blocks, sv.IsDatagram seq d
  toServer : ∀ d ∈ s.toServer, sv.Understood s.client.1 d
  onTrack : sv.OnTrack s.server
  finished : s.server.pc = .finished → s.client.1.received = true

theorem Server.Sound.init {s : Transfer} (h : sv.BeginsTransfer s) : sv.Sound s := by
  obtain ⟨hclient, hserver, hto, hfrom, -⟩ := h
  refine ⟨⟨∅, ?_⟩, ?_, ?_, ?_, ?_⟩
  · rw [hclient]
    exact Assembles.init sv.toServed
  · rw [hfrom]
    exact fun d hd => absurd hd (Set.notMem_empty d)
  · rw [hto]
    exact fun d hd => absurd hd (Set.notMem_empty d)
  · rw [hserver]
    exact ⟨Nat.zero_le _, ServerPc.noConfusion, Bool.noConfusion, ServerPc.noConfusion⟩
  · rw [hserver]
    exact fun hpc => absurd hpc ServerPc.noConfusion

/-- The receive loop never leaves its arrays, and keeps to the blocks of the file. -/
theorem Server.Sound.client (addr : SockAddr) (hroomy : sv.Roomy) {s : Transfer} (h : sv.Sound s)
    {i : ClientInput} (hfrom : ClientInput.From s.toClient i) :
    ∃ c' out, addressedStep addr sv.download s.client i = some (c', out) ∧
      ∃ S, Assembles sv.toServed S c'.1 := by
  obtain ⟨S, hS⟩ := h.assembles
  cases i with
  | datagram d =>
    obtain ⟨seq, hseq, hd⟩ := h.toClient d hfrom
    obtain ⟨c', out, hstep, hnext⟩ := hS.datagram hroomy.size_lt hroomy.blocks_le hseq hd
    have hloop : clientStep sv.download s.client.1 (.datagram d) = some (c', out) := hstep
    exact ⟨_, _, by rw [addressedStep, hloop]; rfl, _, hnext⟩
  | timeout stack =>
    obtain ⟨c', out, hstep, hnext⟩ := hS.timeout hroomy.blocks_le stack
    have hloop : clientStep sv.download s.client.1 (.timeout stack) = some (c', out) := hstep
    exact ⟨_, _, by rw [addressedStep, hloop]; rfl, S, hnext⟩

/-- **One step of the server** carries blocks and ends in no fault. -/
theorem Server.Sound.server (hroomy : sv.Roomy)
    (hstale : ∀ d, stale d → ∃ seq < sv.blocks, sv.IsDatagram seq d) {s : Transfer}
    (h : sv.Sound s) {i : ServerInput} (hfrom : ServerInput.From s.toServer i) {t : ServerState}
    {evs : List Event} (hstep : sv.step s.server i = some (t, evs)) :
    sv.Carries stale (· < sv.blocks) evs ∧ sv.OnTrack t := by
  obtain ⟨hseq, -, hsent, hawaiting⟩ := h.onTrack
  have hnum := hroomy.numPackets
  cases i with
  | tick =>
    rcases step_tick_cases hstep with ⟨i, -, hmore, rfl, rfl⟩ | ⟨rfl, hsame, hpc⟩
    -- a turn of the loop that sends
    · have hle : s.server.currSeq ≤ sv.blocks := by omega
      have hcarries := carries_sendIteration hroomy hstale hle
      refine ⟨hcarries, ?_⟩
      rw [afterEvents_of_notMem hcarries.noFault]
      have hnot : ¬ s.server.isFileSent = true := by
        intro hfile
        have := hsent hfile
        omega
      exact ⟨by dsimp only; omega, ServerPc.noConfusion, fun hfile => absurd hfile hnot,
        ServerPc.noConfusion⟩
    · refine ⟨carries_nil, ?_⟩
      rcases hpc with ⟨hlast, hpc, hfile⟩ | ⟨hfile, hpc, hfile'⟩ | ⟨hpc, hfile⟩
      · exact ⟨hsame ▸ hseq, by rw [hpc]; exact ServerPc.noConfusion, fun _ => by omega,
          fun _ => hfile⟩
      · exact ⟨hsame ▸ hseq, by rw [hpc]; exact ServerPc.noConfusion,
          fun _ => hsame ▸ hsent hfile, fun _ => hfile'⟩
      · exact ⟨hsame ▸ hseq, by rw [hpc]; exact ServerPc.noConfusion,
          fun h' => hsame ▸ hsent (hfile ▸ h'), fun h' => by rw [hpc] at h'; cases h'⟩
  | nack stack d =>
    have hpc := pc_of_step_nack hstep
    have hrun : sv.machine.run s.server [.nack stack d] = some (t, evs) := by
      rwa [Machine.run_singleton]
    rcases h.toServer d hfrom stack with ⟨cs, hdecode, hcs⟩ | ⟨hdecode, -⟩
    -- the blocks that are asked for
    · have hcarries : sv.Carries stale (· < sv.blocks) (sv.retransmitAll cs) :=
        carries_retransmitAll hroomy hcs hcs
      rw [run_nack_of_some hpc hdecode, afterEvents_of_notMem hcarries.noFault] at hrun
      obtain ⟨rfl, rfl⟩ := Prod.mk.inj (Option.some.inj hrun)
      exact ⟨hcarries, hseq, ServerPc.noConfusion, hsent, ServerPc.noConfusion⟩
    -- the final message
    · rw [run_nack_of_none hpc hdecode] at hrun
      obtain ⟨rfl, rfl⟩ := Prod.mk.inj (Option.some.inj hrun)
      exact ⟨carries_nil, hseq, ServerPc.noConfusion, hsent, ServerPc.noConfusion⟩

/-- **One step** of either party keeps the invariant. -/
theorem Server.Sound.step (hroomy : sv.Roomy)
    (hstale : ∀ d, stale d → ∃ seq < sv.blocks, sv.IsDatagram seq d) {s t : Transfer}
    (h : sv.Sound s) (hstep : sv.TransferStep addr stale s t) : sv.Sound t := by
  cases hstep with
  | turn hfrom hturn =>
    obtain ⟨c', out, hturn', hassembles⟩ := h.client addr hroomy hfrom
    rw [hturn] at hturn'
    obtain ⟨rfl, rfl⟩ := Prod.mk.inj (Option.some.inj hturn')
    obtain ⟨ds, hloop, harriving⟩ := clientStep_of_addressedStep hturn
    have hstays := received_of_clientStep hloop
    refine ⟨hassembles, h.toClient, ?_, h.onTrack, fun hpc => hstays (h.finished hpc)⟩
    rintro d (hold | hnew)
    · exact (h.toServer d hold).mono hstays
    · exact understood_of_clientStep hroomy hloop (harriving hnew)
  | serve hfrom hserve =>
    obtain ⟨evs, fates, hmove, -, rfl⟩ := dropping_step_eq_some_iff.mp hserve
    obtain ⟨hcarries, hontrack⟩ := h.server hroomy hstale hfrom hmove
    refine ⟨h.assembles, ?_, h.toServer, hontrack, fun hpc => ?_⟩
    · rintro d (hold | ⟨pkt, hpkt, hd⟩)
      · exact h.toClient d hold
      · exact hcarries.blocks pkt (mem_of_mem_passed hpkt) d hd
    · obtain ⟨stack, d, rfl, hfinal⟩ := finished_of_step hmove hpc
      rcases h.toServer d hfrom stack with ⟨cs, hdecode, -⟩ | ⟨-, hdone⟩
      · rw [hfinal] at hdecode
        cases hdecode
      · exact hdone

end Safety

/-- **A transfer is intact at any time.** In every state that is reached, whatever was lost by
`dropsendto` or by the network, repeated or reordered: no turn of the server faults, and none reads
behind the mapped pages when these hold the last block whole; no turn of the client leaves its
table, its map or the `BLOCKSIZE + 8` bytes that it uses of `recvData`; what the client has marked
as received are bytes of the file, and a client that is done has the file; the server ends only when
the client is done. -/
theorem transfer_intact (sv : Server) (hroomy : sv.Roomy) (addr : SockAddr) (page : ℕ)
    (hpages : sv.blocks * sv.BLOCKSIZE ≤ sv.mapped page) (stale : List UInt8 → Prop)
    (hstale : ∀ d, stale d → ∃ seq < sv.blocks, sv.IsDatagram seq d) {s : Transfer}
    (hs : Reachable sv.BeginsTransfer (sv.TransferStep addr stale) s) :
    s.server.pc ≠ .faulted ∧
      (∀ i, ServerInput.From s.toServer i → ∀ t evs, sv.step s.server i = some (t, evs) →
        ∀ off len, .copy off len ∈ evs → off + len ≤ sv.mapped page) ∧
      (∀ i, ClientInput.From s.toClient i → addressedStep addr sv.download s.client i ≠ none) ∧
      (∀ seq, s.client.1.pktsRcvd seq = true → ∀ i < sv.lenOf seq,
        sv.file[seq * sv.BLOCKSIZE + i]? = some (s.client.1.map (seq * sv.BLOCKSIZE + i))) ∧
      (s.client.1.received = true → s.client.1.map.read sv.size = sv.file) ∧
      (s.server.pc = .finished → s.client.1.received = true) := by
  have hinit : ∀ s, sv.BeginsTransfer s → sv.Sound s := fun s => Server.Sound.init
  have hstep : ∀ s t, sv.Sound s → sv.TransferStep addr stale s t → sv.Sound t :=
    fun s t h => h.step hroomy hstale
  have hsound : sv.Sound s := hs.invariant hinit hstep
  obtain ⟨S, hS⟩ := hsound.assembles
  refine ⟨hsound.onTrack.not_faulted, fun i hfrom t evs hmove off len hcopy => ?_,
    fun i hfrom => ?_, fun seq hseq => ?_, fun hdone => ?_, hsound.finished⟩
  · obtain ⟨hcarries, -⟩ := hsound.server hroomy hstale hfrom hmove
    exact (hcarries.copies off len hcopy).trans hpages
  · obtain ⟨c', out, hstep, -⟩ := hsound.client addr hroomy hfrom
    rw [hstep]
    exact Option.some_ne_none _
  · exact hS.content seq ((hS.table seq).mp hseq)
  · rw [hS.received.mp hdone] at hS
    exact hS.map_eq

/-! ## A transfer whose second block is lost -/

/-- A file of thirteen bytes in blocks of twelve, with two losses after every 999 datagrams. -/
def roomyServer : Server where
  file := List.replicate 12 7 ++ [8]
  BLOCKSIZE := 12
  file_pos := by decide
  blocksize_pos := Nat.succ_pos 11
  past := fun _ => 0
  LOSS_NUM := 2

theorem roomy_roomyServer : roomyServer.Roomy where
  size_lt := by decide
  blocksize_lt := by decide
  room := by decide

/-- The two blocks as they are sent. -/
def roomyFirst : List UInt8 := header 0 ++ List.replicate 12 7

def roomySecond : List UInt8 := header 1 ++ 8 :: List.replicate 11 0

/-- The list of the second block, with the mark of its end behind it. -/
def roomyNack : List UInt8 :=
  [1, 0, 0, 0] ++ List.replicate 8 0xFE ++ List.replicate 36 0

/-- The client after the first block. -/
def roomyClient : ClientState :=
  ClientState.init.stored roomyServer.download 0
    ((Mem.recv (fun _ => 0) roomyFirst 20).shift 8)

/-- The first block tells the client the address of the server. -/
theorem addressedStep_roomyFirst (addr : SockAddr) :
    addressedStep addr roomyServer.download (.init, none) (.datagram roomyFirst) =
      some ((roomyClient, some addr), []) := by
  have hnew : receiveData roomyServer.download .init (header 0 ++ List.replicate 12 7) =
      some (complete roomyServer.download roomyClient) :=
    receiveData_of_new (by decide) (by decide) (by decide) rfl rfl
  have hloop : clientStep roomyServer.download .init (.datagram roomyFirst) =
      some (complete roomyServer.download roomyClient) := hnew
  rw [addressedStep, hloop]
  rfl

/-- Of the first pass only the first block passes, and the client receives it. -/
theorem reachable_roomyServer (addr : SockAddr) : ∃ toServer toClient,
    Reachable roomyServer.BeginsTransfer (roomyServer.TransferStep addr fun _ => False)
      ⟨(roomyClient, some addr), ⟨.awaitingNack, 3, true⟩, .init, toServer, toClient⟩ := by
  have hcounters := run_replicate_sent 1000 2 1 998 (p := 1) (by decide)
  have hstart : Reachable roomyServer.BeginsTransfer
      (roomyServer.TransferStep addr fun _ => False)
      ⟨(.init, none), .init, ⟨999, 1⟩, ∅, ∅⟩ := .init ⟨rfl, rfl, rfl, rfl, 998, _, hcounters⟩
  have hpass := ((((hstart.step (.serve (i := .tick) trivial rfl)).step
    (.serve (i := .tick) trivial rfl)).step (.serve (i := .tick) trivial rfl)).step
    (.serve (i := .tick) trivial rfl))
  have hgoes : GoesOut (fun _ => False) (roomyServer.stamped 0 12 none) roomyFirst :=
    ⟨by decide, by decide⟩
  have hfirst := hpass.step (.turn (i := .datagram roomyFirst)
    (.inl (.inl (.inl (.inr ⟨_, List.mem_singleton_self _, hgoes⟩))))
    (addressedStep_roomyFirst addr))
  exact ⟨_, _, hfirst⟩

/-- The client asks for the second block, and the server is done when the client is. -/
theorem transfer_intact_roomyServer : ∃ s,
    Reachable roomyServer.BeginsTransfer (roomyServer.TransferStep localServer fun _ => False) s ∧
      s.server.pc = .finished ∧ s.client.1.map.read 13 = List.replicate 12 7 ++ [8] := by
  obtain ⟨toServer, toClient, hlost⟩ := reachable_roomyServer localServer
  have hasked := hlost.step (.turn (i := .timeout fun _ => 0) trivial rfl)
  have hanswered := hasked.step (.serve (i := .nack (fun _ => 0) roomyNack)
    (.inr (.inl List.mem_cons_self)) rfl)
  have hgoes : GoesOut (fun _ => False) (roomyServer.stamped 1 1 (some 0)) roomySecond :=
    ⟨by decide, by decide⟩
  have hdone := hanswered.step (.turn (i := .datagram roomySecond)
    (.inr ⟨_, List.mem_singleton_self _, hgoes⟩) rfl)
  have hend := (hdone.step (.serve (i := .tick) trivial rfl)).step
    (.serve (i := .nack (fun _ => 0) finalMessage) (.inr (.inr List.mem_cons_self)) rfl)
  obtain ⟨-, -, -, -, hfile, hfinished⟩ := transfer_intact roomyServer roomy_roomyServer localServer
    4096 (by decide) (fun _ => False) (fun _ h => h.elim) hend
  exact ⟨_, hend, rfl, hfile (hfinished rfl)⟩

end NetworkLabs.Turbo

import NetworkLabs.Request.Format
import NetworkLabs.Turbo.Nack

/-!
# One client and one server

Request, acknowledgement, NACKs and the final message travel over one socket, and the server tells
them apart by the first four bytes. The network may lose, repeat, delay and reorder: a datagram
that was sent once can be delivered at any later time, any number of times, or never.

The server stops when it reads the final message. It can only read it after the client has sent
it: everything else that a client sends is, read as an `int`, different from `-1`.

## Main definitions

* `Setup`, `Session`, `Setup.Step`: the two programs, their joint state and its steps
* `Harmless`: the datagrams that are no final message, whatever the array held before
* `Setup.Safe`: the invariant

## Main results

* `clientStep_sends`: what the receive loop sends
* `Safe.step`: one step of either party
* `termination_safe`: all reachable states
-/

namespace NetworkLabs.Turbo

open CRuntime Transition Request

/-! ## The parties -/

/-- What the two programs are started with: the arguments of the client, the secret key and the
files of the server. -/
structure Setup where
  BLOCKSIZE : ℕ
  blocksize_pos : 1 ≤ BLOCKSIZE
  args : ClientArgs
  secretKeyGiven : List UInt8
  files : List UInt8 → Option (List UInt8)
  past : Mem UInt8
  LOSS_NUM : ℤ

/-- Where the client is: `completed` once it has taken the completion branch. -/
inductive ClientPhase
  | start
  | awaitingSize
  | receiving (D : Download) (c : ClientState)
  | completed
  | exited

/-- Where the server is. -/
inductive ServerPhase
  | awaitingRequest
  | awaitingAck (file : List UInt8)
  | serving (sv : Server) (st : ServerState)
  | exited

/-- The text `"ACK"`. -/
def ackText : List UInt8 := [65, 67, 75]

/-- `buffer`, 256 bytes with the text of `"%lld"` at their start. -/
def sizeText (st_size : ℕ) : List UInt8 :=
  (Mem.recv (fun _ => 0) (decimal st_size) 256).read 256

/-- The client after a turn of its receive loop. -/
def ClientPhase.afterTurn (D : Download) (c : ClientState) : ClientPhase :=
  if c.received then .completed else .receiving D c

theorem one_le_toNat {z : ℤ} (h : 1 ≤ z) : 1 ≤ z.toNat := by omega

namespace Setup

variable (S : Setup)

/-- The client after it has read a datagram into the 256 bytes `stack`: `lseek` fails on a size
below one. -/
def afterSize (stack : Mem UInt8) (d : List UInt8) : ClientPhase :=
  match atoi ((stack.recv d 255).read 256) with
  | none => .exited
  | some fileSize =>
    if h : 1 ≤ fileSize then
      .receiving ⟨S.BLOCKSIZE, fileSize.toNat, S.blocksize_pos, one_le_toNat h⟩ ClientState.init
    else .exited

/-- The server after the request `d`, with the datagrams that it sends. -/
def afterRequest (d : List UInt8) : ServerPhase × List (List UInt8) :=
  match decode d with
  | (some secretKey, some filename) =>
    if secretKey = S.secretKeyGiven ∧ validateFile (fun f => (S.files f).isSome) filename then
      match S.files filename with
      | some file => (.awaitingAck file, [sizeText file.length])
      | none => (.exited, [])
    else (.exited, [])
  | _ => (.exited, [])

/-- The server after whatever it takes for an acknowledgement: `mmap` fails on an empty file. -/
def afterAck (file : List UInt8) : ServerPhase :=
  if h : 1 ≤ file.length then
    .serving ⟨⟨file, S.BLOCKSIZE, h, S.blocksize_pos⟩, S.past, S.LOSS_NUM⟩ ServerState.init
  else .exited

end Setup

/-! ## The network -/

/-- The two parties and all datagrams that were sent so far, in each direction. -/
structure Session where
  client : ClientPhase
  server : ServerPhase
  toServer : Set (List UInt8)
  toClient : Set (List UInt8)

/-- The bytes that go out for a datagram: a byte that was never written can be any byte. -/
def Resolves (pkt : Packet) (d : List UInt8) : Prop :=
  List.Forall₂ (fun cell b => cell = none ∨ cell = some b) pkt d

instance (pkt : Packet) (d : List UInt8) : Decidable (Resolves pkt d) :=
  inferInstanceAs (Decidable (List.Forall₂ _ _ _))

def ClientInput.From (sent : Set (List UInt8)) : ClientInput → Prop
  | .datagram d => d ∈ sent
  | .timeout _ => True

def ServerInput.From (sent : Set (List UInt8)) : ServerInput → Prop
  | .tick => True
  | .nack _ d => d ∈ sent

def Setup.Init (s : Session) : Prop := s = ⟨.start, .awaitingRequest, ∅, ∅⟩

/-- A step of one of the parties, on a datagram that was sent to it at any time before. -/
inductive Setup.Step (S : Setup) : Session → Session → Prop
  | request {server toServer toClient} :
      S.Step ⟨.start, server, toServer, toClient⟩
        ⟨.awaitingSize, server, insert S.args.text toServer, toClient⟩
  | size {server toServer toClient d} (stack : Mem UInt8) : d ∈ toClient →
      S.Step ⟨.awaitingSize, server, toServer, toClient⟩
        ⟨S.afterSize stack d, server, insert ackText toServer, toClient⟩
  | turn {D c server toServer toClient i c' out} : ClientInput.From toClient i →
      clientStep D c i = some (c', out) →
      S.Step ⟨.receiving D c, server, toServer, toClient⟩
        ⟨.afterTurn D c', server, toServer ∪ {d | d ∈ out}, toClient⟩
  | crash {D c server toServer toClient i} : ClientInput.From toClient i →
      clientStep D c i = none →
      S.Step ⟨.receiving D c, server, toServer, toClient⟩ ⟨.exited, server, toServer, toClient⟩
  | accept {client toServer toClient d} : d ∈ toServer →
      S.Step ⟨client, .awaitingRequest, toServer, toClient⟩
        ⟨client, (S.afterRequest d).1, toServer, toClient ∪ {d' | d' ∈ (S.afterRequest d).2}⟩
  | ack {client file toServer toClient d} : d ∈ toServer →
      S.Step ⟨client, .awaitingAck file, toServer, toClient⟩
        ⟨client, S.afterAck file, toServer, toClient⟩
  | serve {client sv st toServer toClient i st' evs} : ServerInput.From toServer i →
      sv.step st i = some (st', evs) →
      S.Step ⟨client, .serving sv st, toServer, toClient⟩
        ⟨client, .serving sv st', toServer,
          toClient ∪ {d | ∃ pkt, some pkt ∈ evs.map Event.handed ∧ Resolves pkt d}⟩

/-! ## What is no final message -/

/-- A datagram that `nackhandle` never takes for the final message. -/
def Harmless (d : List UInt8) : Prop :=
  ∀ B, 1 ≤ B → ∀ stack, nackDecode B stack d ≠ none

theorem nackDecode_eq_none_iff {B : ℕ} {stack : Mem UInt8} {d : List UInt8} :
    nackDecode B stack d = none ↔ ((stack.fill B 0).recv d (4 * B)).int32 0 = -1 := by
  simp only [nackDecode]
  split <;> simp_all

/-- The first byte tells a text from the final message. -/
theorem harmless_cons {b : UInt8} (hb : b ≠ 0xFF) (t : List UInt8) : Harmless (b :: t) := by
  intro B hB stack h
  have hfirst := Mem.first_of_int32_eq_neg_one (nackDecode_eq_none_iff.mp h)
  rw [Nat.mul_zero, Mem.recv_of_lt (by simp) (by omega)] at hfirst
  exact hb hfirst

/-- An array of `int`s with a first entry that is not negative. -/
theorem harmless_read {m : Mem UInt8} {B : ℕ} (hB : 1 ≤ B) (h : 0 ≤ m.int32 0) :
    Harmless (m.read (4 * B)) := by
  intro B' hB' stack hnone
  have hfirst : ((stack.fill B' 0).recv (m.read (4 * B)) (4 * B')).int32 0 = m.int32 0 := by
    apply Mem.int32_congr
    intro k hk
    rw [Mem.recv_of_lt (by simp; omega) (by omega), Mem.getElem_read]
  rw [nackDecode_eq_none_iff, hfirst] at hnone
  omega

theorem harmless_text (r : ClientArgs) : Harmless r.text := harmless_cons (by decide) _

theorem harmless_ackText : Harmless ackText := harmless_cons (by decide) _

/-! ## What the receive loop sends -/

/-- The first entry of `control` is a sequence number as soon as there is an entry. -/
def NackScan.Started (s : NackScan) : Prop := s.full = true ∨ 0 < s.num → 0 ≤ s.control.int32 0

theorem NackScan.Started.set {s : NackScan} (h : s.Started) (hj : s.j < tableSize) :
    0 ≤ (s.control.setInt32 s.num s.j).int32 0 := by
  have hsmall : tableSize < 2 ^ 31 := by decide
  rcases Nat.eq_zero_or_pos s.num with hzero | hpos
  -- the store goes to the first entry
  · rw [hzero, Mem.int32_setInt32_self _ _ (by omega) (by omega)]
    omega
  · rw [Mem.int32_setInt32_of_ne _ _ (by omega)]
    exact h (Or.inr hpos)

theorem NackScan.Started.scan {B : ℕ} {pktsRcvd : ℕ → Bool} {k : ℕ} {s t : NackScan}
    (h : s.Started) (hscan : nackScan B pktsRcvd k s = some t) : t.Started := by
  induction k generalizing s with
  | zero =>
    obtain rfl := by simpa [nackScan] using hscan
    exact h
  | succ k ih =>
    rw [nackScan] at hscan
    split at hscan
    · next hj =>
      have hset := h.set hj
      split at hscan
      · exact ih (s := { s with j := s.j + 1 }) h hscan
      · simp only at hscan
        split at hscan
        · rw [← Option.some.inj hscan]
          exact fun _ => hset
        · exact ih (s := ⟨_, s.num + 1, s.reqs + 1, s.j + 1, s.full⟩) (fun _ => hset) hscan
    · cases hscan

/-- What a timeout sends is no final message. -/
theorem harmless_of_timeout {D : Download} {c c' : ClientState} {stack : Mem UInt8}
    {out : List (List UInt8)} (h : timeout D c stack = some (c', out)) {d : List UInt8}
    (hd : d ∈ out) : Harmless d := by
  unfold timeout at h
  simp only at h
  split at h
  · cases h
  · next t ht =>
    split at h
    · next hsend =>
      -- a NACK goes out only when an entry was written, and the first one is a block
      have hstarted : t.Started := by
        refine NackScan.Started.scan ?_ ht
        rintro (hfull | hnum)
        · cases hfull
        · exact absurd hnum (lt_irrefl 0)
      obtain ⟨-, rfl⟩ := by simpa using h
      have hfirst : 0 ≤ t.control.int32 0 := hstarted (hsend.imp id fun h => h.2)
      have hmem : d = t.control.read (4 * D.BLOCKSIZE) := by simpa using hd
      rw [hmem]
      exact harmless_read D.blocksize_pos hfirst
    · obtain ⟨-, rfl⟩ := by simpa using h
      cases hd

/-- A datagram makes the client send the final message or nothing. -/
theorem sends_of_receiveData {D : Download} {c c' : ClientState} {e : List UInt8}
    {out : List (List UInt8)} (h : receiveData D c e = some (c', out)) {d : List UInt8}
    (hd : d ∈ out) : d = finalMessage ∧ c'.received = true := by
  unfold receiveData at h
  simp only at h
  split at h
  · cases h
  · split at h
    · split at h
      · obtain ⟨-, rfl⟩ := by simpa using h
        cases hd
      · unfold receiveNew at h
        split at h
        · cases h
        · split at h
          · obtain ⟨c₁, -, hcomplete⟩ := Option.map_eq_some_iff.mp h
            unfold complete at hcomplete
            split at hcomplete
            · obtain ⟨rfl, rfl⟩ := Prod.mk.inj hcomplete
              exact ⟨by simpa using hd, rfl⟩
            · obtain ⟨-, rfl⟩ := Prod.mk.inj hcomplete
              cases hd
          · cases h
    · cases h

/-- **What the receive loop sends** is harmless, or is the final message on completion. -/
theorem clientStep_sends {D : Download} {c c' : ClientState} {i : ClientInput}
    {out : List (List UInt8)} (h : clientStep D c i = some (c', out)) {d : List UInt8}
    (hd : d ∈ out) : Harmless d ∨ d = finalMessage ∧ c'.received = true := by
  unfold clientStep at h
  split at h
  · obtain ⟨-, rfl⟩ := by simpa using h
    cases hd
  · cases i with
    | datagram e => exact Or.inr (sends_of_receiveData h hd)
    | timeout stack => exact Or.inl (harmless_of_timeout h hd)

/-! ## The invariant -/

namespace Setup

variable (S : Setup)

/-- Only a client that has completed has sent a final message, and only a server that has read one
has finished. -/
structure Safe (s : Session) : Prop where
  sent : ∀ d ∈ s.toServer, Harmless d ∨ d = finalMessage ∧ s.client = .completed
  blocksize : ∀ sv st, s.server = .serving sv st → sv.BLOCKSIZE = S.BLOCKSIZE
  finished : ∀ sv st, s.server = .serving sv st → st.pc = .finished → s.client = .completed

end Setup

variable {S : Setup}

theorem Safe.init {s : Session} (h : Setup.Init s) : S.Safe s := by
  obtain rfl := h
  refine ⟨?_, ?_, ?_⟩
  · intro d hd
    cases hd
  · intro sv st hserver
    cases hserver
  · intro sv st hserver
    cases hserver

/-- A client that moves without completing sends only harmless datagrams; it had not completed. -/
theorem Safe.client {client client' : ClientPhase} {server : ServerPhase}
    {toServer toServer' toClient : Set (List UInt8)}
    (h : S.Safe ⟨client, server, toServer, toClient⟩) (hopen : client ≠ .completed)
    (hsent : ∀ d ∈ toServer', d ∈ toServer ∨ Harmless d ∨ d = finalMessage ∧ client' = .completed) :
    S.Safe ⟨client', server, toServer', toClient⟩ := by
  refine ⟨?_, h.blocksize, ?_⟩
  · intro d hd
    rcases hsent d hd with hold | hnew
    · rcases h.sent d hold with hd | ⟨-, hdone⟩
      · exact Or.inl hd
      -- an old final message would mean that the client had completed before
      · exact absurd hdone hopen
    · exact hnew
  · intro sv st hserver hpc
    exact absurd (h.finished sv st hserver hpc) hopen

/-- The server finishes on a final message only. -/
theorem finished_of_step {sv : Server} {st st' : ServerState} {i : ServerInput}
    {evs : List Event} (h : sv.step st i = some (st', evs)) (hpc : st'.pc = .finished) :
    ∃ stack d, i = .nack stack d ∧ nackDecode sv.BLOCKSIZE stack d = none := by
  unfold Server.step at h
  split at h
  · next k _ =>
    obtain rfl := congrArg Prod.fst (Option.some.inj h)
    unfold Server.tick at hpc
    split at hpc
    · split at hpc
      · cases hpc
      · exact absurd hpc (afterEvents_ne_finished _ _)
    · split at hpc <;> cases hpc
  · next stack d _ =>
    refine ⟨stack, d, rfl, ?_⟩
    unfold Server.nackhandle at h
    split at h
    · next hnack =>
      split at hnack
      · assumption
      · cases hnack
    · obtain rfl := congrArg Prod.fst (Option.some.inj h)
      exact absurd hpc (afterEvents_ne_finished _ _)
  · cases h

theorem blocksize_of_afterAck {file : List UInt8} {sv : Server} {st : ServerState}
    (h : S.afterAck file = .serving sv st) :
    sv.BLOCKSIZE = S.BLOCKSIZE ∧ st = ServerState.init := by
  unfold Setup.afterAck at h
  split at h
  · cases h
    exact ⟨rfl, rfl⟩
  · cases h

theorem afterRequest_ne_serving (d : List UInt8) (sv : Server) (st : ServerState) :
    (S.afterRequest d).1 ≠ .serving sv st := by
  unfold Setup.afterRequest
  split
  · split
    · split <;> simp
    · simp
  · simp

/-- **One step** of either party keeps the invariant. -/
theorem Safe.step {s t : Session} (h : S.Safe s) (hstep : S.Step s t) : S.Safe t := by
  cases hstep with
  | request =>
    refine Safe.client h (by simp) fun d hd => ?_
    rcases hd with rfl | hd
    · exact Or.inr (Or.inl (harmless_text S.args))
    · exact Or.inl hd
  | size stack hd =>
    refine Safe.client h (by simp) fun d hd => ?_
    rcases hd with rfl | hd
    · exact Or.inr (Or.inl harmless_ackText)
    · exact Or.inl hd
  | turn hfrom hturn =>
    -- the receive loop: a final message comes with the completion
    refine Safe.client h (by simp) fun d hd => ?_
    rcases hd with hd | hd
    · exact Or.inl hd
    · rcases clientStep_sends hturn hd with hharmless | ⟨hfinal, hdone⟩
      · exact Or.inr (Or.inl hharmless)
      · exact Or.inr (Or.inr ⟨hfinal, if_pos hdone⟩)
  | crash hfrom hcrash => exact Safe.client h (by simp) fun d hd => Or.inl hd
  | accept hd =>
    -- a server in its handshake is not serving
    exact ⟨h.sent, fun sv st hserver => absurd hserver (afterRequest_ne_serving _ sv st),
      fun sv st hserver => absurd hserver (afterRequest_ne_serving _ sv st)⟩
  | ack hd =>
    refine ⟨h.sent, fun sv st hserver => (blocksize_of_afterAck hserver).1, ?_⟩
    intro sv st hserver hpc
    rw [(blocksize_of_afterAck hserver).2] at hpc
    cases hpc
  | @serve client sv st toServer toClient i st' evs hfrom hserve =>
    have hB : sv.BLOCKSIZE = S.BLOCKSIZE := h.blocksize sv st rfl
    refine ⟨h.sent, ?_, ?_⟩
    · rintro _ _ ⟨⟩
      exact hB
    · rintro _ _ ⟨⟩ hpc
      -- the server has just read a final message, which a completed client has sent
      obtain ⟨stack, d, rfl, hfinal⟩ := finished_of_step hserve hpc
      rcases h.sent d hfrom with hharmless | ⟨-, hdone⟩
      · exact absurd hfinal (hharmless _ sv.blocksize_pos stack)
      · exact hdone

/-- **Termination is safe.** In every reachable state: a server that has finished serves a client
that has completed, and the only datagram under way that `nackhandle` would take for the final
message is the final message of a client that has completed. -/
theorem termination_safe (S : Setup) {s : Session} (hs : Reachable Setup.Init S.Step s) :
    (∀ sv st, s.server = .serving sv st → st.pc = .finished → s.client = .completed) ∧
      ∀ d ∈ s.toServer, ∀ stack, nackDecode S.BLOCKSIZE stack d = none →
        d = finalMessage ∧ s.client = .completed := by
  have hinit : ∀ s, Setup.Init s → S.Safe s := fun s => Safe.init
  have hstep : ∀ s t, S.Safe s → S.Step s t → S.Safe t := fun s t => Safe.step
  have hsafe : S.Safe s := hs.invariant hinit hstep
  refine ⟨hsafe.finished, ?_⟩
  intro d hd stack hnone
  exact (hsafe.sent d hd).resolve_left fun h => h _ S.blocksize_pos stack hnone

/-- A file of one byte, asked for with the right key. -/
def oneByte : Setup where
  BLOCKSIZE := 1
  blocksize_pos := le_rfl
  args :=
    { key := emptyName.key
      filename := [97]
      key_noNul := emptyName.key_noNul
      filename_noNul := by decide
      key_valid := emptyName.key_valid
      filename_valid := by decide }
  secretKeyGiven := emptyName.key
  files := fun _ => some [7]
  past := fun _ => 0
  LOSS_NUM := 5

/-- The server and the download of that session. -/
def oneByteServer : Server := ⟨⟨[7], 1, le_rfl, le_rfl⟩, fun _ => 0, 5⟩

def oneByteDownload : Download := ⟨1, 1, le_rfl, le_rfl⟩

/-- A whole session: handshake, one block, the final message. -/
theorem oneByte_termination_safe : ∃ s, Reachable Setup.Init oneByte.Step s ∧
    (∃ sv st, s.server = .serving sv st ∧ st.pc = .finished) ∧ s.client = .completed := by
  have hstart : Reachable Setup.Init oneByte.Step ⟨.start, .awaitingRequest, ∅, ∅⟩ := .init rfl
  have hsize : sizeText 1 ∈ (∅ ∪ {d | d ∈ [sizeText 1]} : Set (List UInt8)) :=
    Or.inr (List.mem_singleton_self _)
  have haccept := (hstart.step .request).step (.accept (Set.mem_insert _ _))
  have hready := (haccept.step (.size (fun _ => 0) hsize)).step (.ack (Set.mem_insert _ _))
  have hserving : Reachable Setup.Init oneByte.Step
      ⟨.receiving oneByteDownload ClientState.init,
        .serving oneByteServer ServerState.init, _, _⟩ := hready
  have hfirst := hserving.step (.serve (i := .tick) trivial rfl)
  have hblock : header 0 ++ [7] ∈ {d | ∃ pkt, some pkt ∈
      (oneByteServer.sendIteration 0).map Event.handed ∧ Resolves pkt d} :=
    ⟨oneByteServer.stamped 0 1 none, by decide, by decide⟩
  have hdone := hfirst.step (.turn (i := .datagram (header 0 ++ [7])) (Or.inr hblock) rfl)
  -- the first pass goes on to its end, unread
  have hcompleted : Reachable Setup.Init oneByte.Step
      ⟨.completed, .serving oneByteServer ⟨.sending 1, 1, false⟩, _, _⟩ := hdone
  have hlast := (((hcompleted.step (.serve (i := .tick) trivial rfl)).step
    (.serve (i := .tick) trivial rfl)).step (.serve (i := .tick) trivial rfl)).step
    (.serve (i := .tick) trivial rfl)
  have hfinal := hlast.step (.serve (i := .nack (fun _ => 0) finalMessage)
    (Or.inr (List.mem_cons_self)) rfl)
  exact ⟨_, hfinal, ⟨_, _, rfl, rfl⟩, (termination_safe oneByte hfinal).1 _ _ rfl rfl⟩

end NetworkLabs.Turbo

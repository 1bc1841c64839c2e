import NetworkLabs.Audio.Server
import NetworkLabs.Foundation.Pipeline

/-!
# From the file to the device

Server and client run side by side, and the datagrams between them stay in order. The server reads a
block of the file whenever its timer lets it and sends what the block and the memory behind it hold
up to the first null byte; here that is the byte behind the block. The client takes datagrams and
plays, each at its own pace, whatever the rate control makes of it. Its two handlers do not run into
each other: what a datagram inside `play_it_back` does is the matter of the module on signals, and
what lies behind the allocated buffer that of `always_fits_iff`.

On a network that loses datagrams the device gets some of the blocks, in the order of the file; on
one that does not it gets the file.

## Main definitions

* `blocksOf`: the blocks of a file
* `Stream`, `StreamStep`: the server, the client and the datagrams between them
* `Stream.Sound`: the invariant

## Main results

* `received_of_sublist`: what the client takes of some of the datagrams
* `Stream.Sound.step`: one step of any party
* `stream_plays`: what the device gets
-/

namespace NetworkLabs.Audio

open CRuntime Transition Pipelines

/-! ## The blocks of a file -/

/-- The first `k` blocks of a file. -/
def blocksOf (pySz : ℕ) (content : List UInt8) (k : ℕ) : List (List UInt8) :=
  (List.range k).map fun i => (content.drop (i * pySz)).take pySz

theorem blocksOf_succ (pySz : ℕ) (content : List UInt8) (k : ℕ) :
    blocksOf pySz content (k + 1) =
      blocksOf pySz content k ++ [(content.drop (k * pySz)).take pySz] := by
  rw [blocksOf, List.range_succ, List.map_append]
  rfl

/-- The blocks, and what is behind them. -/
theorem flatten_blocksOf_append (pySz : ℕ) (content : List UInt8) (k : ℕ) :
    (blocksOf pySz content k).flatten ++ content.drop (k * pySz) = content := by
  induction k with
  | zero =>
    rw [Nat.zero_mul]
    rfl
  | succ k ih =>
    rw [blocksOf_succ, List.flatten_concat, List.append_assoc, Nat.succ_mul, ← List.drop_drop,
      List.take_append_drop, ih]

/-- A block is short enough for the client, and is not the end of the transmission. -/
structure Plain (pyld_sz : ℕ) (d : List UInt8) : Prop where
  length_le : d.length ≤ pyld_sz
  ne_god : d ≠ god

theorem plain_of_mem_blocksOf {pySz pyld_sz k : ℕ} {content d : List UInt8} (hle : pySz ≤ pyld_sz)
    (hgod : ∀ i, (content.drop (i * pySz)).take pySz ≠ god) (h : d ∈ blocksOf pySz content k) :
    Plain pyld_sz d := by
  obtain ⟨i, -, rfl⟩ := List.mem_map.mp h
  exact ⟨(List.length_take_le ..).trans hle, hgod i⟩

/-! ## What the client takes -/

section Received

variable {pyld_sz : ℕ} {blocks : List (List UInt8)}

/-- **The client takes plain blocks whole**, up to the end of the transmission. -/
theorem received_blocks (hplain : ∀ d ∈ blocks, Plain pyld_sz d) (hsz : 3 ≤ pyld_sz) (j : ℕ) :
    received pyld_sz ((blocks ++ List.replicate j god).map .packet) = blocks.flatten := by
  induction blocks with
  | nil =>
    cases j with
    | zero => rfl
    | succ j =>
      rw [List.replicate_succ, List.nil_append, List.map_cons, received,
        if_pos (List.take_of_length_le hsz)]
      rfl
  | cons d blocks ih =>
    have hd := hplain d List.mem_cons_self
    rw [List.cons_append, List.map_cons, received, List.take_of_length_le hd.length_le,
      if_neg hd.ne_god, ih fun e he => hplain e (List.mem_cons_of_mem d he), List.flatten_cons]

/-- A datagram more: it is taken unless the transmission was over. -/
theorem received_concat (got : List (List UInt8)) (d : List UInt8) :
    received pyld_sz ((got ++ [d]).map .packet) = received pyld_sz (got.map .packet) ++
      if (∀ e ∈ got, e.take pyld_sz ≠ god) ∧ d.take pyld_sz ≠ god then d.take pyld_sz else [] := by
  induction got with
  | nil => by_cases hd : d.take pyld_sz = god <;> simp [received, hd]
  | cons e got ih =>
    rw [List.cons_append, List.map_cons, List.map_cons, received, received]
    by_cases he : e.take pyld_sz = god
    · rw [if_pos he, if_pos he, if_neg fun h => h.1 e List.mem_cons_self he]
      rfl
    · rw [if_neg he, if_neg he, ih, List.append_assoc]
      simp only [List.forall_mem_cons, ne_eq, he, not_false_eq_true, true_and]

/-- The client is transmitting as long as no datagram was the end. -/
theorem transmitting_packetHandler (L : Listener) (s : Player) (d : List UInt8) :
    (packetHandler L s d).1.transmitting = true ↔
      s.transmitting = true ∧ d.take L.pyld_sz ≠ god := by
  cases htr : s.transmitting with
  | false =>
    rw [packetHandler_of_not_transmitting L htr, htr]
    exact iff_of_false Bool.false_ne_true fun h => Bool.false_ne_true h.1
  | true =>
    rw [transmitting_packetHandler_iff htr]
    exact ⟨fun h => ⟨rfl, h⟩, fun h => h.2⟩

end Received

/-! ## Server, client and network -/

/-- The server, the client, the datagrams between them, and what the device got. -/
structure Stream where
  server : Streamer
  client : Client
  line : Line (List UInt8)
  device : List UInt8

/-- The server has opened the file, and the client has its buffer. -/
def Stream.start (content : List UInt8) (buffer : Mem UInt8) : Stream where
  server := .start content
  client := .start buffer
  line := .empty
  device := []

/-- The datagrams of a call. -/
def datagrams (o : List Sent) : List (List UInt8) :=
  o.map fun
    | .data d => d
    | .closing d => d

/-- A call of the server, the loss of a datagram, or a handler of the client from its start to its
end. The memory of a call of the server holds a null byte just behind the block. -/
inductive StreamStep (pySz : ℕ) (L : Listener) (lossy : Prop) : Stream → Stream → Prop
  | send {s server' o} (frame : List UInt8) :
      (∀ rest, s.server.file = some rest → frame[(rest.take pySz).length]? = some 0) →
      (audiostreamd pySz).step s.server frame = some (server', o) →
      StreamStep pySz L lossy s { s with
        server := server'
        line := ⟨s.line.sent ++ datagrams o, s.line.got, s.line.queue ++ datagrams o⟩ }
  | lose {s pre post d} : lossy → s.line.queue = pre ++ d :: post →
      StreamStep pySz L lossy s { s with line := { s.line with queue := pre ++ post } }
  | receive {s d rest client' o} : s.line.queue = d :: rest →
      (audiolisten L).step s.client (.packet d) = some (client', o) →
      StreamStep pySz L lossy s
        ⟨s.server, client', ⟨s.line.sent, s.line.got ++ [d], rest⟩, s.device ++ written o⟩
  | tick {s client' o} : (audiolisten L).step s.client .tick = some (client', o) →
      StreamStep pySz L lossy s { s with client := client', device := s.device ++ written o }

/-! ## The invariant -/

/-- The server has sent the first blocks, and the end of the transmission behind the last one. -/
def Stream.Reading (pySz : ℕ) (content : List UInt8) (s : Stream) (k : ℕ) : Prop :=
  (s.server.file = some (content.drop (k * pySz)) ∧ s.line.sent = blocksOf pySz content k) ∨
    s.server.file = none ∧ content.drop (k * pySz) = [] ∧
      s.line.sent = blocksOf pySz content k ++ List.replicate 3 god

/-- The line keeps the order; the client has taken what it got, and goes on until the end of the
transmission. -/
structure Stream.Sound (pySz : ℕ) (L : Listener) (lossy : Prop) (content : List UInt8)
    (s : Stream) : Prop where
  reading : ∃ k, s.Reading pySz content k
  ordered : s.line.Ordered lossy
  taken : s.device ++ s.client.contents = received L.pyld_sz (s.line.got.map .packet)
  transmitting : s.client.transmitting = true ↔ ∀ d ∈ s.line.got, d.take L.pyld_sz ≠ god
  settled : s.client.Settled

section Steps

variable {pySz : ℕ} {L : Listener} {lossy : Prop} {content : List UInt8} {buffer : Mem UInt8}
  {s t : Stream}

theorem Stream.Sound.start : (Stream.start content buffer).Sound pySz L lossy content where
  reading := by
    refine ⟨0, .inl ⟨?_, rfl⟩⟩
    rw [Nat.zero_mul]
    rfl
  ordered := .empty
  taken := rfl
  transmitting := ⟨fun _ _ h => absurd h List.not_mem_nil, fun _ => rfl⟩
  settled := settled_start buffer

/-- A call of the server sends the next block, or the end of the transmission. -/
theorem Stream.Reading.send {k : ℕ} (hp : 1 ≤ pySz) (hzero : 0 ∉ content)
    (h : s.Reading pySz content k) {frame : List UInt8} {server' : Streamer} {o : List Sent}
    (hframe : ∀ rest, s.server.file = some rest → frame[(rest.take pySz).length]? = some 0)
    (hstep : (audiostreamd pySz).step s.server frame = some (server', o)) :
    ∃ k, Stream.Reading pySz content { s with
        server := server'
        line := ⟨s.line.sent ++ datagrams o, s.line.got, s.line.queue ++ datagrams o⟩ } k := by
  obtain ⟨⟨file, state⟩, client, line, device⟩ := s
  rcases h with ⟨rfl, hsent⟩ | ⟨rfl, hdrop, hsent⟩
  · have hrest : 0 ∉ content.drop (k * pySz) := fun h => hzero (List.mem_of_mem_drop h)
    by_cases hempty : (content.drop (k * pySz)).take pySz = []
    -- the file is at its end
    · have hlast : (audiostreamd pySz).step ⟨some (content.drop (k * pySz)), state⟩ frame =
          some (⟨none, .READY⟩, List.replicate 3 (.closing lastThreeBytes)) := by
        simp [audiostreamd, packetTransfer, hempty]
      obtain ⟨rfl, rfl⟩ := Prod.mk.inj (Option.some.inj (hlast.symm.trans hstep))
      refine ⟨k, .inr ⟨rfl, (take_eq_nil_iff_of_pos hp).mp hempty, ?_⟩⟩
      rw [← hsent]
      rfl
    · have hblock := step_of_terminated hrest hempty (hframe _ rfl) state
      obtain ⟨rfl, rfl⟩ := Prod.mk.inj (Option.some.inj (hblock.symm.trans hstep))
      refine ⟨k + 1, .inl ⟨?_, ?_⟩⟩
      · rw [List.drop_drop, Nat.succ_mul]
      · rw [blocksOf_succ, ← hsent]
        rfl
  · obtain ⟨rfl, rfl⟩ := Prod.mk.inj (Option.some.inj hstep)
    refine ⟨k, .inr ⟨rfl, hdrop, ?_⟩⟩
    rw [← hsent]
    exact List.append_nil _

/-- **One step of the server, the network or the client.** -/
theorem Stream.Sound.step (hp : 1 ≤ pySz) (hzero : 0 ∉ content)
    (hs : s.Sound pySz L lossy content) (h : StreamStep pySz L lossy s t) :
    t.Sound pySz L lossy content := by
  obtain ⟨⟨k, hreading⟩, hordered, htaken, htransmitting, hsettled⟩ := hs
  cases h with
  | send frame hframe hstep =>
    exact ⟨hreading.send hp hzero hframe hstep, hordered.step (.send _ _), htaken, htransmitting,
      hsettled⟩
  | lose hlossy hqueue =>
    exact ⟨⟨k, hreading⟩, hordered.step (.lose hlossy hqueue), htaken, htransmitting, hsettled⟩
  | @receive d rest client' o hqueue hstep =>
    have hplayer : client'.toPlayer = (packetHandler L s.client.toPlayer d).1 ∧ written o = [] := by
      obtain ⟨-, ⟨d', hd, rfl, rfl⟩ | ⟨hd, -, -⟩⟩ := audiolisten_step_cases hstep
      · obtain rfl := Input.packet.inj hd
        exact ⟨rfl, written_packetHandler L _ d⟩
      · cases hd
    obtain ⟨hplayer, hwritten⟩ := hplayer
    refine ⟨⟨k, hreading⟩, hordered.step (.deliver hqueue), ?_, ?_, hsettled.step hstep⟩
    · have haccepted : accepted L s.client.toPlayer d =
          if (∀ e ∈ s.line.got, e.take L.pyld_sz ≠ god) ∧ d.take L.pyld_sz ≠ god
            then d.take L.pyld_sz else [] := by
        simp only [accepted, ← htransmitting]
      rw [hwritten, List.append_nil, received_concat, ← htaken, ← haccepted, List.append_assoc,
        ← contents_packetHandler, ← hplayer]
    · rw [hplayer, transmitting_packetHandler, htransmitting]
      simp only [List.forall_mem_append, List.forall_mem_singleton]
  | @tick client' o hstep =>
    refine ⟨⟨k, hreading⟩, hordered, ?_, ?_, hsettled.step hstep⟩
    · obtain ⟨-, ⟨d', hd, -, -⟩ | ⟨-, rfl, rfl⟩⟩ := audiolisten_step_cases hstep
      · cases hd
      · rw [List.append_assoc, written_append_contents_playbackHandler, htaken]
    · obtain ⟨-, ⟨d', hd, -, -⟩ | ⟨-, rfl, rfl⟩⟩ := audiolisten_step_cases hstep
      · cases hd
      · rw [transmitting_playbackHandler, htransmitting]

/-! ## What the device gets -/

/-- What the client got are blocks, and behind them the end of the transmission. -/
theorem Stream.Sound.exists_arrived (hs : s.Sound pySz L lossy content) :
    ∃ k arrived j, s.Reading pySz content k ∧ arrived.Sublist (blocksOf pySz content k) ∧
      s.line.got = arrived ++ List.replicate j god := by
  obtain ⟨k, hreading⟩ := hs.reading
  have hgot := hs.ordered.got_sublist
  rcases hreading with ⟨hfile, hsent⟩ | ⟨hnone, hdrop, hsent⟩
  · rw [hsent] at hgot
    exact ⟨k, s.line.got, 0, .inl ⟨hfile, hsent⟩, hgot, (List.append_nil _).symm⟩
  · rw [hsent] at hgot
    obtain ⟨arrived, gods, heq, harrived, hgods⟩ := List.sublist_append_iff.mp hgot
    obtain ⟨j, -, rfl⟩ := List.sublist_replicate_iff.mp hgods
    exact ⟨k, arrived, j, .inr ⟨hnone, hdrop, hsent⟩, harrived, heq⟩

/-- What the client got and what it still waits for are blocks in order. -/
theorem Stream.Sound.taken_eq (hs : s.Sound pySz L lossy content) (hle : pySz ≤ L.pyld_sz)
    (hsz : 3 ≤ L.pyld_sz) (hgod : ∀ i, (content.drop (i * pySz)).take pySz ≠ god) {k j : ℕ}
    {arrived : List (List UInt8)} (harrived : arrived.Sublist (blocksOf pySz content k))
    (hgot : s.line.got = arrived ++ List.replicate j god) :
    s.device ++ s.client.contents = arrived.flatten := by
  have hplain : ∀ d ∈ arrived, Plain L.pyld_sz d :=
    fun d hd => plain_of_mem_blocksOf hle hgod (harrived.subset hd)
  rw [hs.taken, hgot, received_blocks hplain hsz]

/-- Without losses the blocks that have arrived are the first ones. -/
theorem prefix_of_all {blocks arrived queue : List (List UInt8)} {j m : ℕ}
    (harrived : arrived.Sublist blocks)
    (hall : arrived ++ List.replicate j god ++ queue = blocks ++ List.replicate m god) :
    arrived <+: blocks := by
  have hleft : arrived <+: blocks ++ List.replicate m god := by
    rw [← hall, List.append_assoc]
    exact List.prefix_append ..
  exact List.prefix_of_prefix_length_le hleft (List.prefix_append ..) harrived.length_le

/-- Once the end of the transmission has arrived, so have all blocks. -/
theorem eq_of_all {blocks arrived queue : List (List UInt8)} {j m : ℕ}
    (hne : ∀ d ∈ blocks, d ≠ god) (harrived : arrived.Sublist blocks)
    (hall : arrived ++ List.replicate (j + 1) god ++ queue =
      blocks ++ List.replicate (m + 1) god) : arrived = blocks := by
  have hgod : decide (god ≠ god) = false := decide_eq_false fun h => h rfl
  have hkeep : ∀ l : List (List UInt8), (∀ d ∈ l, d ≠ god) → ∀ rest,
      (l ++ god :: rest).takeWhile (fun d => decide (d ≠ god)) = l :=
    fun l hl rest => takeWhile_append_cons (fun d hd => decide_eq_true (hl d hd)) hgod rest
  have hsame := congrArg (List.takeWhile fun d => decide (d ≠ god)) hall
  rw [List.replicate_succ, List.replicate_succ, List.append_assoc, List.cons_append,
    hkeep arrived fun d hd => hne d (harrived.subset hd), hkeep blocks hne] at hsame
  exact hsame

end Steps

/-- **The device gets blocks of the file, in order.** When a block of the server is no longer than a
payload of the client, what has been played and what waits in the buffer are whole blocks in the
order of the file, whatever is lost. When nothing is lost they are the beginning of the file, and
the whole file once the client has left its loops. -/
theorem stream_plays (pySz : ℕ) (hp : 1 ≤ pySz) (L : Listener) (hle : pySz ≤ L.pyld_sz)
    (hsz : 3 ≤ L.pyld_sz) (content : List UInt8) (hzero : 0 ∉ content)
    (hgod : ∀ i, (content.drop (i * pySz)).take pySz ≠ god) (buffer : Mem UInt8) (lossy : Prop)
    {s : Stream} (h : Reachable (· = .start content buffer) (StreamStep pySz L lossy) s) :
    (∃ k, ∃ arrived : List (List UInt8), arrived.Sublist (blocksOf pySz content k) ∧
      s.device ++ s.client.contents = arrived.flatten) ∧
    (¬ lossy → s.device ++ s.client.contents <+: content) ∧
    (¬ lossy → s.client.loop = .left → s.device = content) := by
  have hs : s.Sound pySz L lossy content := by
    refine h.invariant ?_ fun _ _ hs hst => hs.step hp hzero hst
    rintro s rfl
    exact .start
  obtain ⟨k, arrived, j, hreading, harrived, hgot⟩ := hs.exists_arrived
  have htaken := hs.taken_eq hle hsz hgod harrived hgot
  refine ⟨⟨k, arrived, harrived, htaken⟩, fun hno => ?_, fun hno hleft => ?_⟩
  · have hall := hs.ordered.all hno
    rw [hgot] at hall
    have hprefix : arrived <+: blocksOf pySz content k := by
      rcases hreading with ⟨-, hsent⟩ | ⟨-, -, hsent⟩
      · rw [hsent] at hall
        exact prefix_of_all (m := 0) harrived (hall.trans (List.append_nil _).symm)
      · exact prefix_of_all harrived (hall.trans hsent)
    rw [htaken]
    exact hprefix.flatten.trans ⟨_, flatten_blocksOf_append pySz content k⟩
  · -- the buffer is empty, and the end of the transmission has arrived
    obtain ⟨hend, hlevel⟩ := hs.settled.left hleft
    have hempty : s.client.contents = [] := by
      rw [Player.contents, hlevel]
      rfl
    have hone : j ≠ 0 := by
      rintro rfl
      have hgoing := hs.transmitting.mpr fun d hd => by
        rw [hgot, List.replicate_zero, List.append_nil] at hd
        have hplain := plain_of_mem_blocksOf hle hgod (harrived.subset hd)
        rw [List.take_of_length_le hplain.length_le]
        exact hplain.ne_god
      rw [hend] at hgoing
      cases hgoing
    obtain ⟨j, rfl⟩ := Nat.exists_eq_succ_of_ne_zero hone
    have hne : ∀ d ∈ blocksOf pySz content k, d ≠ god :=
      fun d hd => (plain_of_mem_blocksOf hle hgod hd).ne_god
    have hall := hs.ordered.all hno
    rw [hgot] at hall
    rcases hreading with ⟨-, hsent⟩ | ⟨-, hdrop, hsent⟩
    · rw [hsent] at hall
      exact absurd rfl (hne god (hall ▸ by simp))
    · rw [hempty, List.append_nil] at htaken
      rw [htaken, eq_of_all hne harrived (hall.trans hsent)]
      have hfile := flatten_blocksOf_append pySz content k
      rwa [hdrop, List.append_nil] at hfile

/-- A file of three bytes in blocks of two, each block played before the next one is read. -/
theorem stream_plays_threeBytes :
    ∃ s : Stream, s.client.loop = .left ∧ s.device = [1, 2, 3] := by
  have hgod : ∀ i, (([1, 2, 3] : List UInt8).drop (i * 2)).take 2 ≠ god := by
    intro i h
    have hlen := congrArg List.length h
    have hle := List.length_take_le 2 (([1, 2, 3] : List UInt8).drop (i * 2))
    rw [hlen] at hle
    exact absurd hle (by decide)
  have hframe : ∀ (st : Streamer) (file frame : List UInt8), st.file = some file →
      frame[(file.take 2).length]? = some 0 →
        ∀ rest, st.file = some rest → frame[(rest.take 2).length]? = some 0 := by
    intro st file frame hfile hzero rest hrest
    rwa [← Option.some.inj (hfile.symm.trans hrest)]
  have h₀ : Reachable (· = .start [1, 2, 3] fun _ => 0) (StreamStep 2 smallListener False)
      (.start [1, 2, 3] fun _ => 0) := .init rfl
  have h₁ := h₀.step (.send [9, 9, 0] (hframe _ [1, 2, 3] _ rfl rfl) rfl)
  have h₂ := h₁.step (.receive rfl rfl)
  have h₃ := h₂.step (.tick rfl)
  have h₄ := h₃.step (.send [9, 0] (hframe _ [3] _ rfl rfl) rfl)
  have h₅ := h₄.step (.receive rfl rfl)
  have h₆ := h₅.step (.tick rfl)
  have h₇ := h₆.step (.send [0] (hframe _ [] _ rfl rfl) rfl)
  have h₈ := h₇.step (.receive rfl rfl)
  have h₉ := h₈.step (.tick rfl)
  obtain ⟨-, -, hall⟩ := stream_plays 2 (by decide) smallListener (by decide) (by decide)
    [1, 2, 3] (by decide) hgod (fun _ => 0) False h₉
  exact ⟨_, rfl, hall id rfl⟩

end NetworkLabs.Audio

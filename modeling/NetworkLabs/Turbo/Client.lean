import NetworkLabs.Foundation.Machine
import NetworkLabs.Turbo.Packet

/-!
# The turbo client's receive loop

After the handshake the client waits for a datagram or a timeout. A datagram is stored at its
place in the mapped file; a timeout makes the client list the missing blocks in a NACK. When the
byte count reaches the file size the client sends its final message and leaves the loop.

A step is `none` where the source reads or writes outside an object: in the table, past the
receive buffer, or outside the mapped file. The receive buffer `recvData` is granted the
`BLOCKSIZE + 8` bytes that every turn clears and fills, eight more than it is declared with.

## Main definitions

* `Download`, `ClientState`: what the set-up fixes, and the variables of the loop
* `receiveData`, `timeout`: the two branches of the loop
* `clientMachine`: the loop

## Main results

* `receiveData_of_seen`, `receiveData_of_new`: what a well-formed datagram does
* `nackScan_eq`, `timeout_eq`: what a timeout sends
-/

namespace NetworkLabs.Turbo

open CRuntime Blocks Transition

/-- The length of `pktsRcvd`. -/
def tableSize : ℕ := 1000000

/-- What the set-up leaves to the receive loop: `lseek` has rejected a `fileSize` below one. -/
structure Download where
  BLOCKSIZE : ℕ
  fileSize : ℕ
  blocksize_pos : 1 ≤ BLOCKSIZE
  fileSize_pos : 1 ≤ fileSize

/-- `totPkts`. -/
def Download.totPkts (D : Download) : ℕ := (D.fileSize + D.BLOCKSIZE - 1) / D.BLOCKSIZE

/-- The variables of the receive loop; `received` tells that it was left. -/
structure ClientState where
  pktsRcvd : ℕ → Bool
  recvSize : ℤ
  map : Mem UInt8
  nackCounter : ℕ
  received : Bool

/-- The start of the loop: an empty table, and a file that `lseek` and `write` have extended. -/
def ClientState.init : ClientState where
  pktsRcvd := fun _ => false
  recvSize := 0
  map := fun _ => 0
  nackCounter := 0
  received := false

/-- The final message, `int final[1] = { -1 }`. -/
def finalMessage : List UInt8 := leBytes 4 (toUInt32 (-1))

/-! ## A datagram -/

/-- The copy of one block into the mapped file, with the byte count. -/
def storeBlock (D : Download) (c : ClientState) (seq : ℕ) (data : Mem UInt8) :
    Option ClientState :=
  let off := blockOffset D.BLOCKSIZE seq
  let len : ℤ := if (seq : ℤ) < D.totPkts - 1 then D.BLOCKSIZE else D.fileSize - off
  -- `memcpy` stays inside the mapped file
  if 0 ≤ len ∧ len ≤ D.BLOCKSIZE ∧ off + len ≤ D.fileSize then
    some { c with map := c.map.copy off data len.toNat, recvSize := c.recvSize + len }
  else none

/-- The completion test, with the final message sent three times. -/
def complete (D : Download) (c : ClientState) : ClientState × List (List UInt8) :=
  if D.fileSize ≤ c.recvSize then
    ({ c with received := true }, [finalMessage, finalMessage, finalMessage])
  else (c, [])

/-- The first time a sequence number arrives: the block is what follows the first bar. -/
def receiveNew (D : Download) (c : ClientState) (recvData : Mem UInt8) (seq : ℕ) :
    Option (ClientState × List (List UInt8)) :=
  match (recvData.read (D.BLOCKSIZE + 8)).findIdx? (· == bar) with
  | none => none
  | some pch =>
    -- the block is inside the receive buffer
    if pch + 1 + D.BLOCKSIZE ≤ D.BLOCKSIZE + 8 then
      let c := { c with pktsRcvd := Function.update c.pktsRcvd seq true }
      (storeBlock D c seq (recvData.shift (pch + 1))).map (complete D)
    else none

/-- The branch of the loop that reads a datagram. -/
def receiveData (D : Download) (c : ClientState) (d : List UInt8) :
    Option (ClientState × List (List UInt8)) :=
  let recvData := Mem.recv (fun _ => 0) d (D.BLOCKSIZE + 8)
  match atoi (recvData.read 8) with
  | none => none
  | some seq =>
    -- the index into `pktsRcvd`
    if 0 ≤ seq ∧ seq < tableSize then
      if c.pktsRcvd seq.toNat then some (c, []) else receiveNew D c recvData seq.toNat
    else none

/-! ## A timeout -/

/-- The variables of the loop that fills `control`; `full` tells that its `break` was taken. -/
structure NackScan where
  control : Mem UInt8
  num : ℕ
  reqs : ℕ
  j : ℕ
  full : Bool

/-- The loop over the table, for `k` further values of `j`. -/
def nackScan (BLOCKSIZE : ℕ) (pktsRcvd : ℕ → Bool) : ℕ → NackScan → Option NackScan
  | 0, s => some s
  | k + 1, s =>
    if s.j < tableSize then
      if pktsRcvd s.j then nackScan BLOCKSIZE pktsRcvd k { s with j := s.j + 1 }
      else
        let control := s.control.setInt32 s.num s.j
        -- the array is full: `num = 0` and `break`, before `j` is incremented
        if s.reqs + 1 = BLOCKSIZE then
          some { s with control := control, num := 0, reqs := s.reqs + 1, full := true }
        else
          nackScan BLOCKSIZE pktsRcvd k
            { s with control := control, num := s.num + 1, reqs := s.reqs + 1, j := s.j + 1 }
    else none

/-- The branch of the loop that a timeout takes, with the bytes `stack` that `control` happens to
hold: the list of missing blocks is sent twice. -/
def timeout (D : Download) (c : ClientState) (stack : Mem UInt8) :
    Option (ClientState × List (List UInt8)) :=
  -- `memset(control, -2, BLOCKSIZE)`: so many bytes, not so many `int`s
  let control := stack.fill D.BLOCKSIZE 0xFE
  match nackScan D.BLOCKSIZE c.pktsRcvd D.totPkts ⟨control, 0, 0, 0, false⟩ with
  | none => none
  | some s =>
    -- the NACK goes out at the `break`, or behind the last block when the list is not empty
    if s.full ∨ s.j = D.totPkts ∧ 0 < s.num then
      let nack := s.control.read (4 * D.BLOCKSIZE)
      some ({ c with nackCounter := c.nackCounter + 1 }, [nack, nack])
    else some (c, [])

/-! ## The loop -/

/-- What wakes the client up. -/
inductive ClientInput
  | datagram (d : List UInt8)
  | timeout (stack : Mem UInt8)

/-- One turn of the loop. Once the loop was left nothing is read any more. -/
def clientStep (D : Download) (c : ClientState) (i : ClientInput) :
    Option (ClientState × List (List UInt8)) :=
  if c.received then some (c, [])
  else
    match i with
    | .datagram d => receiveData D c d
    | .timeout stack => timeout D c stack

/-- The receive loop. -/
def clientMachine (D : Download) : Machine ClientState ClientInput (List UInt8) where
  step := clientStep D

/-! ## What a well-formed datagram does -/

section Datagram

variable {D : Download} {c : ClientState} {seq B : ℕ} {block : List UInt8}

theorem totPkts_eq (D : Download) : D.totPkts = numBlocks D.fileSize D.BLOCKSIZE := rfl

/-- The receive buffer after a stamped block of full length. -/
theorem read_recv_datagram (hseq : seq < 10 ^ 7) (hblock : block.length = B) (m : Mem UInt8) :
    (m.recv (header seq ++ block) (B + 8)).read (B + 8) = header seq ++ block := by
  have hlen : (header seq ++ block).length = B + 8 := by
    rw [List.length_append, length_header hseq, hblock, Nat.add_comm]
  have hread := Mem.read_recv (m := m) hlen.le
  rwa [hlen] at hread

theorem atoi_recv_datagram (hseq : seq < 10 ^ 7) (hblock : block.length = B) (m : Mem UInt8) :
    atoi ((m.recv (header seq ++ block) (B + 8)).read 8) = some (seq : ℤ) := by
  have hread := read_recv_datagram hseq hblock m
  -- the first eight bytes of the buffer are the header
  rw [Nat.add_comm, Mem.read_add] at hread
  have htake := congrArg (List.take 8) hread
  rw [List.take_left' (by simp), List.take_left' (length_header hseq)] at htake
  rw [Nat.add_comm, htake]
  exact atoi_header (by omega)

theorem recv_datagram_shift (hseq : seq < 10 ^ 7) (hblock : block.length = B) (m : Mem UInt8)
    {i : ℕ} (hi : i < B) : (m.recv (header seq ++ block) (B + 8)).shift 8 i = block[i] := by
  have h8 := length_header hseq
  rw [Mem.shift_apply, Mem.recv_of_lt (by simp [h8, hblock]; omega) (by omega),
    List.getElem_append_right (by omega)]
  simp [h8]

/-- A datagram of a block that was seen changes nothing. -/
theorem receiveData_of_seen (hseq : seq < tableSize) (hblock : block.length = D.BLOCKSIZE)
    (hseen : c.pktsRcvd seq = true) : receiveData D c (header seq ++ block) = some (c, []) := by
  have hseq' : seq < 10 ^ 7 := lt_of_lt_of_le hseq (by decide)
  have hrange : (0 : ℤ) ≤ seq ∧ (seq : ℤ) < tableSize := ⟨by omega, by exact_mod_cast hseq⟩
  simp only [receiveData, atoi_recv_datagram hseq' hblock, if_pos hrange, Int.toNat_natCast, hseen,
    if_true]

/-- The state after block `seq` was stored. -/
def ClientState.stored (D : Download) (c : ClientState) (seq : ℕ) (data : Mem UInt8) :
    ClientState :=
  { c with
    pktsRcvd := Function.update c.pktsRcvd seq true
    map := c.map.copy (seq * D.BLOCKSIZE) data (blockLen D.fileSize D.BLOCKSIZE seq)
    recvSize := c.recvSize + blockLen D.fileSize D.BLOCKSIZE seq }

/-- A block of the file is stored at its place and with its length. -/
theorem storeBlock_eq (hsize : D.fileSize < 2 ^ 32) (hseq : seq < D.totPkts) (data : Mem UInt8) :
    storeBlock D { c with pktsRcvd := Function.update c.pktsRcvd seq true } seq data =
      some (c.stored D seq data) := by
  have hB := D.blocksize_pos
  have hlt := (lt_numBlocks_iff hB).mp hseq
  have hoff : blockOffset D.BLOCKSIZE seq = seq * D.BLOCKSIZE := blockOffset_of_lt (by omega)
  have hfit := mul_add_blockLen_le hB hseq
  have hle := blockLen_le (N := D.fileSize) (B := D.BLOCKSIZE) (s := seq)
  have hlen : (if (seq : ℤ) < D.totPkts - 1 then (D.BLOCKSIZE : ℤ)
      else D.fileSize - (blockOffset D.BLOCKSIZE seq : ℕ)) =
        blockLen D.fileSize D.BLOCKSIZE seq := by
    split
    · rw [blockLen_of_succ_lt hB (by rw [← totPkts_eq]; omega)]
    -- the last block has the length of what is left
    · rw [blockLen_of_succ_eq hB (by rw [← totPkts_eq]; omega), hoff]
      omega
  simp only [storeBlock, hlen, Int.toNat_natCast]
  rw [if_pos ⟨by omega, by omega, by omega⟩, hoff]
  rfl

/-- A datagram of a new block stores the block, and the count is tested. -/
theorem receiveData_of_new (hsize : D.fileSize < 2 ^ 32) (hseq : seq < D.totPkts)
    (htable : seq < tableSize) (hblock : block.length = D.BLOCKSIZE)
    (hnew : c.pktsRcvd seq = false) :
    receiveData D c (header seq ++ block) =
      some (complete D (c.stored D seq
        ((Mem.recv (fun _ => 0) (header seq ++ block) (D.BLOCKSIZE + 8)).shift 8))) := by
  have hseq' : seq < 10 ^ 7 := lt_of_lt_of_le htable (by decide)
  have hrange : (0 : ℤ) ≤ seq ∧ (seq : ℤ) < tableSize := ⟨by omega, by exact_mod_cast htable⟩
  simp only [receiveData, atoi_recv_datagram hseq' hblock, if_pos hrange, Int.toNat_natCast, hnew,
    Bool.false_eq_true, if_false, receiveNew, read_recv_datagram hseq' hblock,
    findIdx_header hseq']
  rw [if_pos (by omega), storeBlock_eq hsize hseq]
  rfl

end Datagram

/-! ## What a timeout sends -/

section Timeout

/-- The blocks from `j` on that have not arrived, among `k`. -/
def missingFrom (pktsRcvd : ℕ → Bool) (j k : ℕ) : List ℕ :=
  (List.range' j k).filter fun s => !pktsRcvd s

/-- The blocks that have not arrived, in increasing order. -/
def missing (pktsRcvd : ℕ → Bool) (totPkts : ℕ) : List ℕ := missingFrom pktsRcvd 0 totPkts

theorem missingFrom_succ_of_rcvd {pktsRcvd : ℕ → Bool} {j : ℕ} (h : pktsRcvd j = true) (k : ℕ) :
    missingFrom pktsRcvd j (k + 1) = missingFrom pktsRcvd (j + 1) k := by
  simp [missingFrom, List.range'_succ, h]

theorem missingFrom_succ_of_not_rcvd {pktsRcvd : ℕ → Bool} {j : ℕ} (h : pktsRcvd j = false)
    (k : ℕ) : missingFrom pktsRcvd j (k + 1) = j :: missingFrom pktsRcvd (j + 1) k := by
  simp [missingFrom, List.range'_succ, h]

/-- The state of the scan after `k` more blocks: it stops at the one that fills `control`. -/
def NackScan.after (s : NackScan) (BLOCKSIZE k : ℕ) (l : List ℕ) (t : NackScan) : Prop :=
  if s.num + l.length < BLOCKSIZE then
    t.control = s.control.setInt32s s.num l ∧ t.num = s.num + l.length ∧ t.j = s.j + k ∧
      t.full = false
  else t.control = s.control.setInt32s s.num (l.take (BLOCKSIZE - s.num)) ∧ t.full = true

/-- The scan writes the missing blocks, up to `BLOCKSIZE` of them. The induction is on the blocks
that are left; `num` and `reqs` stay equal until the `break`. -/
theorem nackScan_eq (BLOCKSIZE : ℕ) (pktsRcvd : ℕ → Bool) (k : ℕ) (s : NackScan)
    (hnum : s.num < BLOCKSIZE) (hreqs : s.reqs = s.num) (hfull : s.full = false)
    (hj : s.j + k ≤ tableSize) :
    ∃ t, nackScan BLOCKSIZE pktsRcvd k s = some t ∧
      s.after BLOCKSIZE k (missingFrom pktsRcvd s.j k) t := by
  induction k generalizing s with
  | zero =>
    refine ⟨s, rfl, ?_⟩
    simp [NackScan.after, missingFrom, Mem.setInt32s, hnum, hfull]
  | succ k ih =>
    have hlt : s.j < tableSize := by omega
    cases hr : pktsRcvd s.j with
    | true =>
      -- a block that is there is passed over
      obtain ⟨t, ht, hafter⟩ :=
        ih { s with j := s.j + 1 } hnum hreqs hfull (by simp only; omega)
      refine ⟨t, by rw [nackScan, if_pos hlt, if_pos hr, ht], ?_⟩
      rw [missingFrom_succ_of_rcvd hr]
      unfold NackScan.after at hafter ⊢
      simp only at hafter
      split
      · rw [if_pos ‹_›] at hafter
        exact ⟨hafter.1, hafter.2.1, by rw [hafter.2.2.1]; omega, hafter.2.2.2⟩
      · rwa [if_neg ‹_›] at hafter
    | false =>
      rw [missingFrom_succ_of_not_rcvd hr]
      by_cases hlast : s.reqs + 1 = BLOCKSIZE
      -- the `break`: this block fills the last place
      · refine ⟨_, by rw [nackScan, if_pos hlt, if_neg (by simp [hr]), if_pos hlast], ?_⟩
        have hone : BLOCKSIZE - s.num = 1 := by omega
        unfold NackScan.after
        rw [if_neg (by simp only [List.length_cons]; omega), hone]
        exact ⟨rfl, rfl⟩
      -- the block is listed and there is room for more
      · obtain ⟨t, ht, hafter⟩ :=
          ih ⟨s.control.setInt32 s.num s.j, s.num + 1, s.reqs + 1, s.j + 1, s.full⟩
            (by simp only; omega) (by simp only; omega) hfull (by simp only; omega)
        refine ⟨t, by rw [nackScan, if_pos hlt, if_neg (by simp [hr]), if_neg hlast, ht], ?_⟩
        unfold NackScan.after at hafter ⊢
        simp only [List.length_cons] at hafter ⊢
        have hmove : BLOCKSIZE - s.num = BLOCKSIZE - (s.num + 1) + 1 := by omega
        split
        · rw [if_pos (by omega)] at hafter
          exact ⟨hafter.1, by rw [hafter.2.1]; omega, by rw [hafter.2.2.1]; omega, hafter.2.2.2⟩
        · rw [if_neg (by omega)] at hafter
          rw [hmove, List.take_succ_cons]
          exact hafter

variable {D : Download} {c : ClientState}

/-- The NACK a timeout sends: the first missing blocks over the bytes that were in `control`. -/
def nackOf (D : Download) (c : ClientState) (stack : Mem UInt8) : Mem UInt8 :=
  (stack.fill D.BLOCKSIZE 0xFE).setInt32s 0 ((missing c.pktsRcvd D.totPkts).take D.BLOCKSIZE)

/-- A timeout sends the NACK twice, unless nothing is missing. -/
theorem timeout_eq (htable : D.totPkts ≤ tableSize) (stack : Mem UInt8) :
    timeout D c stack =
      if missing c.pktsRcvd D.totPkts = [] then some (c, [])
      else some ({ c with nackCounter := c.nackCounter + 1 },
        [(nackOf D c stack).read (4 * D.BLOCKSIZE),
          (nackOf D c stack).read (4 * D.BLOCKSIZE)]) := by
  have hB := D.blocksize_pos
  obtain ⟨t, ht, hafter⟩ := nackScan_eq D.BLOCKSIZE c.pktsRcvd D.totPkts
    ⟨stack.fill D.BLOCKSIZE 0xFE, 0, 0, 0, false⟩ (by simp only; omega) rfl rfl
    (by simp only; omega)
  have hmiss : missingFrom c.pktsRcvd 0 D.totPkts = missing c.pktsRcvd D.totPkts := rfl
  simp only [NackScan.after, Nat.zero_add, Nat.sub_zero, hmiss] at hafter
  simp only [timeout, ht, nackOf]
  by_cases hnil : missing c.pktsRcvd D.totPkts = []
  -- the scan ends with `num = 0` and without the `break`
  · rw [hnil, if_pos (by simp only [List.length_nil]; omega)] at hafter
    rw [if_pos hnil, if_neg (by simp [hafter.2.1, hafter.2.2.2])]
  · have hpos := List.length_pos_iff.mpr hnil
    rw [if_neg hnil]
    split at hafter
    · rw [if_pos (Or.inr ⟨hafter.2.2.1, by omega⟩), hafter.1, List.take_of_length_le (by omega)]
    · rw [if_pos (Or.inl hafter.2), hafter.1]

end Timeout

end NetworkLabs.Turbo

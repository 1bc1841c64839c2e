import NetworkLabs.Turbo.Nack

/-!
# What a datagram can make the parties access

Both parties compute offsets from numbers that a datagram brings along. The server has a case for
numbers past the end of the file, and is deceived by a product that wraps around: such an offset is
inside the file with more than a block behind it. The client has no case at all: the number in the
stamp is an index into its table and the factor of an offset, and the block is searched for without
an end.

## Main definitions

* `Server.CopiesInBounds`: the copies of the NACK handler fit into its buffer and into the file
* `Server.comesTo`: the entries of a NACK that the handler comes to
* `Access`, `receiveAccesses`, `ReceivesInBounds`: what the client accesses for a datagram

## Main results

* `copiesInBounds_nackhandle_iff`: the NACKs that the server can handle
* `receivesInBounds_iff`: the datagrams that the client can handle
-/

namespace NetworkLabs.Turbo

open CRuntime Blocks

/-! ## The NACK handler -/

namespace Server

variable (sv : Server)

/-- Every copy fits into `data[BLOCKSIZE]` and reads inside the mapped file. -/
def CopiesInBounds (evs : List Event) : Prop :=
  ∀ off len, .copy off len ∈ evs → len ≤ sv.BLOCKSIZE ∧ off + len ≤ sv.size

/-- The stamp of an entry that is sent has more characters than `seqChar` has room for. -/
def stampOverruns (c : ℕ) : Prop := 10 ^ 7 ≤ c ∧ 0 < sv.remaining c

instance (c : ℕ) : Decidable (sv.stampOverruns c) := inferInstanceAs (Decidable (_ ∧ _))

/-- The entries that the handler comes to: nothing is known past a stamp that overruns `seqChar`. -/
def comesTo : List ℕ → List ℕ
  | [] => []
  | c :: cs => if sv.stampOverruns c then [c] else c :: comesTo cs

/-- The entry is taken for a full block that is not the last, or at most a block of the file lies
behind its offset. -/
def BlockAtMost (c : ℕ) : Prop :=
  (c : ℤ) < sv.numPackets - 1 ∨ sv.size ≤ blockOffset sv.BLOCKSIZE c + sv.BLOCKSIZE

end Server

section Handler

variable {sv : Server} {c : ℕ}

theorem toInt_le_self {n : ℕ} : toInt n ≤ n := by
  unfold toInt toUInt32
  split <;> omega

/-- A block that is counted and not the last has a full block of the file at its offset, even where
the offset wraps around. -/
theorem offset_add_le_of_lt (h : (c : ℤ) < sv.numPackets - 1) :
    blockOffset sv.BLOCKSIZE c + sv.BLOCKSIZE ≤ sv.size := by
  have hcount : sv.numPackets ≤ sv.blocks := toInt_le_self
  have hnext := (lt_numBlocks_iff sv.blocksize_pos).mp (show c + 1 < sv.blocks by omega)
  have hoff := blockOffset_le sv.BLOCKSIZE c
  rw [Nat.add_mul, Nat.one_mul] at hnext
  omega

/-- The one copy in front of a datagram that is sent on a condition. -/
theorem copy_mem_copy_ite_iff {off len off' len' : ℕ} {p : Prop} [Decidable p] {pkt : Packet}
    {t l : ℤ} :
    .copy off len ∈ .copy off' len' :: (if p then [.hand pkt t l] else [Event.fault]) ↔
      off = off' ∧ len = len' := by
  by_cases hp : p <;> simp [hp]

/-- The copies of one entry. -/
theorem copy_mem_retransmit_iff {off len : ℕ} :
    .copy off len ∈ sv.retransmit c ↔ off = blockOffset sv.BLOCKSIZE c ∧
      len = (if (c : ℤ) < sv.numPackets - 1 then sv.BLOCKSIZE else sv.remaining c) ∧ 0 < len := by
  have hB := sv.blocksize_pos
  simp only [Server.retransmit]
  by_cases hlt : (c : ℤ) < sv.numPackets - 1
  · rw [if_pos hlt, if_pos hlt, copy_mem_copy_ite_iff]
    constructor
    · rintro ⟨rfl, rfl⟩
      exact ⟨rfl, rfl, hB⟩
    · rintro ⟨rfl, rfl, -⟩
      exact ⟨rfl, rfl⟩
  · rw [if_neg hlt, if_neg hlt]
    by_cases hzero : sv.remaining c = 0
    · rw [if_pos hzero]
      constructor
      · intro h
        simp at h
      · rintro ⟨-, rfl, hpos⟩
        exact absurd hzero hpos.ne'
    · rw [if_neg hzero, copy_mem_copy_ite_iff]
      constructor
      · rintro ⟨rfl, rfl⟩
        exact ⟨rfl, rfl, Nat.pos_of_ne_zero hzero⟩
      · rintro ⟨rfl, rfl, -⟩
        exact ⟨rfl, rfl⟩

/-- One entry is handled in bounds exactly when no more than a block is copied for it. -/
theorem copiesInBounds_retransmit_iff :
    sv.CopiesInBounds (sv.retransmit c) ↔ sv.BlockAtMost c := by
  have hB := sv.blocksize_pos
  unfold Server.CopiesInBounds Server.BlockAtMost
  simp only [copy_mem_retransmit_iff]
  by_cases hlt : (c : ℤ) < sv.numPackets - 1
  · simp only [hlt, if_true, true_or, iff_true]
    rintro off len ⟨rfl, rfl, -⟩
    exact ⟨le_rfl, offset_add_le_of_lt hlt⟩
  · simp only [hlt, if_false, false_or]
    constructor
    · intro h
      by_contra hmore
      have hrem : sv.remaining c ≤ sv.BLOCKSIZE :=
        (h _ _ ⟨rfl, rfl, by unfold Server.remaining; omega⟩).1
      unfold Server.remaining at hrem
      omega
    · rintro h off len ⟨rfl, rfl, hpos⟩
      unfold Server.remaining at hpos ⊢
      omega

/-- A copy whose datagram is sent on a condition faults when the condition fails. -/
theorem fault_mem_copy_ite_iff {off len : ℕ} {p : Prop} [Decidable p] {pkt : Packet} {t l : ℤ} :
    .fault ∈ .copy off len :: (if p then [.hand pkt t l] else [Event.fault]) ↔ ¬ p := by
  by_cases hp : p <;> simp [hp]

/-- An entry that is handled in bounds can only fault on its stamp. -/
theorem fault_mem_retransmit_iff (hc : sv.BlockAtMost c) :
    .fault ∈ sv.retransmit c ↔ sv.stampOverruns c := by
  have hB := sv.blocksize_pos
  unfold Server.BlockAtMost at hc
  simp only [Server.retransmit, Server.stampOverruns]
  by_cases hlt : (c : ℤ) < sv.numPackets - 1
  · have hpos : 0 < sv.remaining c := by
      have := offset_add_le_of_lt hlt
      unfold Server.remaining
      omega
    rw [if_pos hlt, fault_mem_copy_ite_iff, length_header_le_iff, not_lt, and_iff_left hpos]
  · have hrem : sv.remaining c ≤ sv.BLOCKSIZE := by
      have := hc.resolve_left hlt
      unfold Server.remaining
      omega
    rw [if_neg hlt]
    by_cases hzero : sv.remaining c = 0
    · simp [hzero]
    · rw [if_neg hzero, fault_mem_copy_ite_iff, length_header_le_iff, and_iff_right hrem, not_lt,
        and_iff_left (Nat.pos_of_ne_zero hzero)]

/-- A list is handled in bounds exactly when every entry that the handler comes to is. -/
theorem copiesInBounds_retransmitAll_iff (cs : List ℕ) :
    sv.CopiesInBounds (sv.retransmitAll cs) ↔ ∀ c ∈ sv.comesTo cs, sv.BlockAtMost c := by
  induction cs with
  | nil => simp [Server.CopiesInBounds, Server.retransmitAll, Server.comesTo]
  | cons c cs ih =>
    by_cases hc : sv.BlockAtMost c
    · rw [Server.retransmitAll, Server.comesTo]
      by_cases hover : sv.stampOverruns c
      -- the handler does not come to the other entries
      · have hfault : (sv.retransmit c).any Event.isFault = true :=
          List.any_eq_true.mpr ⟨_, (fault_mem_retransmit_iff hc).mpr hover, rfl⟩
        rw [if_pos hfault, if_pos hover, copiesInBounds_retransmit_iff]
        simp only [List.mem_singleton, forall_eq]
      · have hfault := any_isFault_eq_false (mt (fault_mem_retransmit_iff hc).mp hover)
        rw [hfault, if_neg hover]
        simp only [Bool.false_eq_true, if_false, List.mem_cons, forall_eq_or_imp, hc, true_and]
        rw [← ih]
        have hhead := copiesInBounds_retransmit_iff.mpr hc
        constructor
        · intro h off len hmem
          exact h off len (List.mem_append_right _ hmem)
        · intro h off len hmem
          rcases List.mem_append.mp hmem with hmem | hmem
          · exact hhead off len hmem
          · exact h off len hmem
    -- the first entry is not in bounds
    · constructor
      · intro h
        exact absurd (copiesInBounds_retransmit_iff.mp fun off len hmem =>
          h off len (mem_retransmitAll_head hmem)) hc
      · intro h
        refine absurd (h c ?_) hc
        rw [Server.comesTo]
        split <;> exact List.mem_cons_self

/-- Five bytes in blocks of four. -/
def fiveBytesServer : Server where
  file := [1, 2, 3, 4, 5]
  BLOCKSIZE := 4
  file_pos := by decide
  blocksize_pos := fourBytes.fileSize_pos
  past := fun _ => 0
  LOSS_NUM := 0

end Handler

/-! ## The receive step -/

/-- An access of the client whose place a datagram decides. -/
inductive Access
  /-- `pktsRcvd[i]` is read or written. -/
  | table (i : ℤ)
  /-- The loop over `pch` finds its bar at an index of the received bytes, or in none of them. -/
  | search (pch : Option ℕ)
  /-- `len` bytes are copied to `&map[off]`. -/
  | copy (off : ℕ) (len : ℤ)

/-- The accesses of the receive step, in order, up to one that is outside; `none` when `atoi` reads
on behind `seqC`. -/
def receiveAccesses (D : Download) (c : ClientState) (d : List UInt8) : Option (List Access) :=
  match atoi ((Mem.recv (fun _ => 0) d (D.BLOCKSIZE + 8)).read 8) with
  | none => none
  | some seq =>
    if 0 ≤ seq ∧ seq < tableSize ∧ c.pktsRcvd seq.toNat = false then
      match (d.take (D.BLOCKSIZE + 8)).findIdx? (· == bar) with
      | none => some [.table seq, .search none]
      | some pch =>
        let off := blockOffset D.BLOCKSIZE seq.toNat
        let len : ℤ := if seq < D.totPkts - 1 then D.BLOCKSIZE else D.fileSize - off
        some [.table seq, .search (some pch), .copy off len]
    else some [.table seq]

/-- The access stays in the table, in the received bytes or in the mapped file. -/
def Access.InBounds (D : Download) : Access → Prop
  | .table i => 0 ≤ i ∧ i < tableSize
  | .search pch => pch.isSome
  | .copy off len => 0 ≤ len ∧ off + len ≤ D.fileSize

/-- Every access of the receive step is in bounds. -/
def ReceivesInBounds (D : Download) (c : ClientState) (d : List UInt8) : Prop :=
  ∃ accesses, receiveAccesses D c d = some accesses ∧ ∀ a ∈ accesses, a.InBounds D

section Receive

variable {D : Download} {c : ClientState} {d : List UInt8}

/-- The cleared buffer has its first bar where the datagram has it. -/
theorem findIdx_recv (d : List UInt8) (cap : ℕ) :
    ((Mem.recv (fun _ => 0) d cap).read cap).findIdx? (· == bar) =
      (d.take cap).findIdx? (· == bar) := by
  have hzeros : ∀ n, (List.replicate n (0 : UInt8)).findIdx? (· == bar) = none := by
    intro n
    rw [List.findIdx?_eq_none_iff]
    intro b hb
    rw [List.eq_of_mem_replicate hb]
    decide
  rw [Mem.read_recv_const 0 d le_rfl, List.take_append, List.take_replicate, List.findIdx?_append,
    hzeros, Option.map_none, Option.or_none]

theorem mem_of_findIdx_eq_some {s : List UInt8} {pch : ℕ}
    (h : s.findIdx? (· == bar) = some pch) : bar ∈ s := by
  obtain ⟨hlt, hbar, -⟩ := List.findIdx?_eq_some_iff_getElem.mp h
  rw [beq_iff_eq] at hbar
  exact hbar ▸ List.getElem_mem hlt

/-- A block of the file is copied into it, whether it is the last or not; another is when its offset
is not behind the end. -/
theorem copy_inBounds_iff (seq : ℕ) :
    (Access.copy (blockOffset D.BLOCKSIZE seq)
        (if (seq : ℤ) < D.totPkts - 1 then D.BLOCKSIZE
          else D.fileSize - (blockOffset D.BLOCKSIZE seq : ℕ))).InBounds D ↔
      seq < D.totPkts ∨ blockOffset D.BLOCKSIZE seq ≤ D.fileSize := by
  have hB := D.blocksize_pos
  have hoff := blockOffset_le D.BLOCKSIZE seq
  simp only [Access.InBounds]
  by_cases hlast : (seq : ℤ) < D.totPkts - 1
  -- a full block that is not the last
  · have hnext := (lt_numBlocks_iff hB).mp
      (show seq + 1 < numBlocks D.fileSize D.BLOCKSIZE by rw [← totPkts_eq]; omega)
    rw [Nat.add_mul, Nat.one_mul] at hnext
    rw [if_pos hlast]
    exact ⟨fun _ => Or.inl (by omega), fun _ => ⟨by omega, by omega⟩⟩
  · rw [if_neg hlast]
    constructor
    · rintro ⟨hlen, -⟩
      right
      omega
    · rintro (hseq | hle)
      -- the last block
      · have hlt := (lt_numBlocks_iff hB).mp (show seq < numBlocks D.fileSize D.BLOCKSIZE from hseq)
        exact ⟨by omega, by omega⟩
      · exact ⟨by omega, by omega⟩

/-- A number that is no new index of the table is only looked up. -/
theorem receivesInBounds_iff_of_not_new {seq : ℤ}
    (hstamp : atoi ((Mem.recv (fun _ => 0) d (D.BLOCKSIZE + 8)).read 8) = some seq)
    (hold : ¬ (0 ≤ seq ∧ seq < tableSize ∧ c.pktsRcvd seq.toNat = false)) :
    ReceivesInBounds D c d ↔ 0 ≤ seq ∧ seq < tableSize := by
  have haccesses : receiveAccesses D c d = some [.table seq] := by
    unfold receiveAccesses
    rw [hstamp]
    exact if_neg hold
  unfold ReceivesInBounds
  simp only [haccesses, Option.some_inj, exists_eq_left', List.mem_singleton, forall_eq,
    Access.InBounds]

/-- A new block needs a bar and a place in the file. -/
theorem receivesInBounds_iff_of_new {seq : ℕ}
    (hstamp : atoi ((Mem.recv (fun _ => 0) d (D.BLOCKSIZE + 8)).read 8) = some (seq : ℤ))
    (htable : seq < tableSize) (hnew : c.pktsRcvd seq = false) :
    ReceivesInBounds D c d ↔ bar ∈ d.take (D.BLOCKSIZE + 8) ∧
      (seq < D.totPkts ∨ blockOffset D.BLOCKSIZE seq ≤ D.fileSize) := by
  have hrange : (0 : ℤ) ≤ seq ∧ (seq : ℤ) < tableSize := ⟨by omega, by exact_mod_cast htable⟩
  have hindex : (0 : ℤ) ≤ seq ∧ (seq : ℤ) < tableSize ∧ c.pktsRcvd (seq : ℤ).toNat = false :=
    ⟨hrange.1, hrange.2, hnew⟩
  have htableIn : (Access.table seq).InBounds D := hrange
  unfold ReceivesInBounds receiveAccesses
  rw [hstamp]
  simp only [if_pos hindex]
  cases hfind : (d.take (D.BLOCKSIZE + 8)).findIdx? (· == bar) with
  | none =>
    have hnone : bar ∉ d.take (D.BLOCKSIZE + 8) := by
      intro hmem
      have hall := List.findIdx?_eq_none_iff.mp hfind bar hmem
      simp at hall
    have hsearch : ¬ (Access.search none).InBounds D := Bool.false_ne_true
    simp only [Option.some_inj, exists_eq_left', List.mem_cons, List.not_mem_nil, or_false,
      forall_eq_or_imp, forall_eq, hsearch, and_false, hnone, false_and]
  | some pch =>
    have hsearch : (Access.search (some pch)).InBounds D := rfl
    simp only [Option.some_inj, exists_eq_left', List.mem_cons, List.not_mem_nil, or_false,
      forall_eq_or_imp, forall_eq, hsearch, htableIn, true_and, mem_of_findIdx_eq_some hfind]
    exact copy_inBounds_iff seq

/-- A receive step of the model is in bounds: the model refuses what is not. -/
theorem receivesInBounds_of_receiveData {r : ClientState × List (List UInt8)}
    (h : receiveData D c d = some r) : ReceivesInBounds D c d := by
  simp only [receiveData] at h
  generalize hstamp : atoi ((Mem.recv (fun _ => 0) d (D.BLOCKSIZE + 8)).read 8) = stamp at h
  cases stamp with
  | none => cases h
  | some n =>
    simp only at h
    by_cases hrange : 0 ≤ n ∧ n < tableSize
    · obtain ⟨seq, rfl⟩ := Int.eq_ofNat_of_zero_le hrange.1
      rw [if_pos hrange, Int.toNat_natCast] at h
      cases hrcvd : c.pktsRcvd seq with
      | true => exact (receivesInBounds_iff_of_not_new hstamp (by simp [hrcvd])).mpr hrange
      | false =>
        rw [receivesInBounds_iff_of_new hstamp (by exact_mod_cast hrange.2) hrcvd]
        rw [hrcvd, if_neg Bool.false_ne_true, receiveNew, findIdx_recv] at h
        split at h
        · cases h
        · next pch hpch =>
          refine ⟨mem_of_findIdx_eq_some hpch, ?_⟩
          split at h
          -- the block is stored inside the file
          · obtain ⟨c', hstore, -⟩ := Option.map_eq_some_iff.mp h
            simp only [storeBlock, Option.ite_none_right_eq_some] at hstore
            obtain ⟨⟨hlen, -, hend⟩, -⟩ := hstore
            exact (copy_inBounds_iff seq).mp ⟨hlen, hend⟩
          · cases h
    · rw [if_neg hrange] at h
      cases h

/-- **A datagram is received in bounds exactly** when its stamp is a number below the length of the
table, and the block of that number has arrived before, or there is a bar and the offset is inside
the file. -/
theorem receivesInBounds_iff (D : Download) (c : ClientState) (d : List UInt8)
    (hd : d.length ≤ D.BLOCKSIZE + 8) :
    ReceivesInBounds D c d ↔
      ∃ seq : ℕ, atoi ((d ++ List.replicate 8 0).take 8) = some (seq : ℤ) ∧ seq < tableSize ∧
        (c.pktsRcvd seq = true ∨
          bar ∈ d ∧ (seq < D.totPkts ∨ blockOffset D.BLOCKSIZE seq ≤ D.fileSize)) := by
  rw [← Mem.read_recv_const 0 d (Nat.le_add_left 8 D.BLOCKSIZE)]
  generalize hstamp : atoi ((Mem.recv (fun _ => 0) d (D.BLOCKSIZE + 8)).read 8) = stamp
  cases stamp with
  | none =>
    constructor
    · rintro ⟨accesses, haccesses, -⟩
      unfold receiveAccesses at haccesses
      rw [hstamp] at haccesses
      cases haccesses
    · rintro ⟨seq, hseq, -⟩
      cases hseq
  | some n =>
    simp only [Option.some_inj]
    by_cases hnew : 0 ≤ n ∧ n < tableSize ∧ c.pktsRcvd n.toNat = false
    · obtain ⟨seq, rfl⟩ := Int.eq_ofNat_of_zero_le hnew.1
      have htable : seq < tableSize := by exact_mod_cast hnew.2.1
      have hrcvd : c.pktsRcvd seq = false := hnew.2.2
      rw [receivesInBounds_iff_of_new hstamp htable hrcvd, List.take_of_length_le hd]
      simp only [Nat.cast_inj, exists_eq_left', htable, true_and, hrcvd, Bool.false_eq_true,
        false_or]
    · rw [receivesInBounds_iff_of_not_new hstamp hnew]
      constructor
      · rintro ⟨hzero, hlt⟩
        -- an index that is not new has arrived before
        obtain ⟨seq, rfl⟩ := Int.eq_ofNat_of_zero_le hzero
        have hrcvd : c.pktsRcvd seq = true := by
          by_contra hfalse
          exact hnew ⟨hzero, hlt, by simpa using hfalse⟩
        exact ⟨seq, rfl, by exact_mod_cast hlt, Or.inl hrcvd⟩
      · rintro ⟨seq, rfl, hlt, -⟩
        exact ⟨by omega, by exact_mod_cast hlt⟩

/-- Block 0 of a file of four bytes. -/
theorem receivesInBounds_iff_first :
    ReceivesInBounds fourBytes ClientState.init (header 0 ++ [1, 2]) ↔
      ∃ seq : ℕ, atoi ((header 0 ++ [1, 2] ++ List.replicate 8 0).take 8) = some (seq : ℤ) ∧
        seq < tableSize ∧
        (ClientState.init.pktsRcvd seq = true ∨ bar ∈ header 0 ++ [1, 2] ∧
          (seq < fourBytes.totPkts ∨
            blockOffset fourBytes.BLOCKSIZE seq ≤ fourBytes.fileSize)) :=
  receivesInBounds_iff fourBytes ClientState.init (header 0 ++ [1, 2]) (by decide)

/-- An empty datagram is taken for block 0, and has no bar. -/
theorem empty_not_receivesInBounds :
    ([] : List UInt8).length ≤ fourBytes.BLOCKSIZE + 8 ∧
      ¬ ReceivesInBounds fourBytes ClientState.init [] := by
  refine ⟨by decide, ?_⟩
  rintro ⟨accesses, haccesses, hall⟩
  have hsearch : receiveAccesses fourBytes ClientState.init [] =
      some [.table 0, .search none] := by
    rfl
  obtain rfl := Option.some.inj (hsearch.symm.trans haccesses)
  exact absurd (hall (.search none) (by simp)) Bool.false_ne_true

end Receive

end NetworkLabs.Turbo

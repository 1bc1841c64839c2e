import NetworkLabs.Turbo.FirstPass
import NetworkLabs.Turbo.Reassembly

/-!
# The answer to a NACK

A timeout of the client is meant to bring the blocks it lists, each once, in their order, and
nothing else. The handler gives one datagram for every entry it comes to, or faults. It comes to
entries that the client did not write when the list has no end, and it faults on the last block
when the offset of that has wrapped around.

## Main definitions

* `Server.NackAgrees`: the server answers the list that the client means

## Main results

* `handed_retransmitAll`: one datagram for every entry
* `stamped_retransmitAll`: the datagrams carry the numbers of the entries
* `nackAgrees_iff`: the numbers of missing blocks for which the two programs agree
-/

namespace NetworkLabs.Turbo

open CRuntime Blocks

/-- The NACK that a timeout sends lists the first missing blocks, as many as fit, and the server
hands over one datagram for each of them, in their order and with their numbers, and no other,
whatever the two stacks held. -/
def Server.NackAgrees (sv : Server) (c : ClientState) : Prop :=
  ∀ stack sstack : Mem UInt8, ∃ c' nack evs,
    timeout sv.download c stack = some (c', [nack, nack]) ∧
      (∀ i (hi : i < (sv.download.listed c).length),
        (Mem.recv (fun _ => 0) nack (4 * sv.BLOCKSIZE)).int32 i = (sv.download.listed c)[i]) ∧
      sv.nackhandle sstack nack = (false, evs) ∧ .fault ∉ evs ∧
      List.Forall₂ Stamped (sv.download.listed c) (handed evs)

section Entries

variable {sv : Server} {seq : ℕ} {cs : List ℕ}

/-! ## One entry -/

/-- An entry that does not fault is answered by one datagram. -/
theorem handed_retransmit (hfault : .fault ∉ sv.retransmit seq) :
    (handed (sv.retransmit seq)).length = 1 := by
  simp only [Server.retransmit] at hfault ⊢
  by_cases hlt : (seq : ℤ) < sv.numPackets - 1
  · rw [if_pos hlt, fault_mem_copy_ite_iff, not_not] at hfault
    rw [if_pos hlt, if_pos hfault]
    rfl
  · rw [if_neg hlt] at hfault ⊢
    by_cases hzero : sv.remaining seq = 0
    · rw [if_pos hzero]
      rfl
    · rw [if_neg hzero, fault_mem_copy_ite_iff, not_not] at hfault
      rw [if_neg hzero, if_pos hfault]
      rfl

/-- A block of the file is answered by its stamp, when at most a block lies behind the offset of
the last one. -/
theorem retransmit_of_lt_blocks (htable : sv.blocks ≤ tableSize) (hseq : seq < sv.blocks)
    (hlast : seq = sv.blocks - 1 → sv.size ≤ blockOffset sv.BLOCKSIZE seq + sv.BLOCKSIZE) :
    ∃ len, sv.retransmit seq = [.copy (blockOffset sv.BLOCKSIZE seq) len,
      .hand (sv.stamped seq len (some 0)) 1000 sv.LOSS_NUM] := by
  have hsize : tableSize < 10 ^ 7 := by decide
  have hcount : sv.numPackets = sv.blocks := numPackets_of_lt (by omega)
  by_cases hnext : seq + 1 < sv.blocks
  · exact ⟨_, retransmit_of_lt (by omega) (by omega)⟩
  · have hle := hlast (by omega)
    have hbegins := (lt_numBlocks_iff sv.blocksize_pos).mp hseq
    have hoff := blockOffset_le sv.BLOCKSIZE seq
    have hpos : 0 < sv.remaining seq := by
      unfold Server.remaining
      omega
    have hrem : sv.remaining seq ≤ sv.BLOCKSIZE := by
      unfold Server.remaining
      omega
    exact ⟨_, retransmit_of_remaining (by omega) hpos hrem (by omega)⟩

/-! ## All entries -/

theorem retransmitAll_cons_of_notMem (hfault : .fault ∉ sv.retransmit seq) (cs : List ℕ) :
    sv.retransmitAll (seq :: cs) = sv.retransmit seq ++ sv.retransmitAll cs := by
  rw [Server.retransmitAll, any_isFault_eq_false hfault, if_neg Bool.false_ne_true]

/-- A list that is answered without a fault has no entry that faults. -/
theorem notMem_retransmit_of_retransmitAll (hfault : .fault ∉ sv.retransmitAll cs) :
    ∀ seq ∈ cs, .fault ∉ sv.retransmit seq := by
  induction cs with
  | nil => exact fun seq hseq => absurd hseq List.not_mem_nil
  | cons seq cs ih =>
    have hhead : .fault ∉ sv.retransmit seq := fun h => hfault (mem_retransmitAll_head h)
    rw [retransmitAll_cons_of_notMem hhead, List.mem_append, not_or] at hfault
    rw [List.forall_mem_cons]
    exact ⟨hhead, ih hfault.2⟩

/-- **One datagram for every entry**, of a list that is answered without a fault. -/
theorem handed_retransmitAll (hfault : ∀ seq ∈ cs, .fault ∉ sv.retransmit seq) :
    (handed (sv.retransmitAll cs)).length = cs.length := by
  induction cs with
  | nil => rfl
  | cons seq cs ih =>
    rw [List.forall_mem_cons] at hfault
    rw [retransmitAll_cons_of_notMem hfault.1, handed_append, List.length_append,
      handed_retransmit hfault.1, ih hfault.2, List.length_cons, Nat.add_comm]

/-- **Blocks of the file are answered in order**, each by a datagram with its number. -/
theorem stamped_retransmitAll (htable : sv.blocks ≤ tableSize) (hcs : ∀ seq ∈ cs, seq < sv.blocks)
    (hlast : sv.blocks - 1 ∈ cs →
      sv.size ≤ blockOffset sv.BLOCKSIZE (sv.blocks - 1) + sv.BLOCKSIZE) :
    .fault ∉ sv.retransmitAll cs ∧ List.Forall₂ Stamped cs (handed (sv.retransmitAll cs)) := by
  induction cs with
  | nil => exact ⟨List.not_mem_nil, .nil⟩
  | cons seq cs ih =>
    rw [List.forall_mem_cons] at hcs
    have hsize : tableSize < 10 ^ 7 := by decide
    obtain ⟨len, heq⟩ := retransmit_of_lt_blocks htable hcs.1 fun he => by
      rw [he]
      exact hlast (he ▸ List.mem_cons_self)
    have hfault : .fault ∉ sv.retransmit seq := by
      rw [heq]
      simp
    obtain ⟨hrest, hstamps⟩ := ih hcs.2 fun hmem => hlast (List.mem_cons_of_mem _ hmem)
    rw [retransmitAll_cons_of_notMem hfault, handed_append, heq]
    refine ⟨?_, .cons (stamped_header sv (by omega) _ _) hstamps⟩
    rw [List.mem_append, not_or]
    exact ⟨by simp, hrest⟩

end Entries

/-! ## The two programs -/

section Agreement

variable {sv : Server} {c : ClientState}

/-- What the server reads of a NACK is what it answers. -/
theorem nackhandle_nackOf (htable : sv.blocks ≤ tableSize)
    (hne : missing c.pktsRcvd sv.blocks ≠ []) (stack sstack : Mem UInt8) :
    ∃ tail, sv.nackhandle sstack ((nackOf sv.download c stack).read (4 * sv.BLOCKSIZE)) =
        (false, sv.retransmitAll (sv.download.listed c ++ tail)) ∧
      (tail = [] ↔ sv.BLOCKSIZE ≤ (sv.download.listed c).length ∨
        (stack.fill sv.BLOCKSIZE 0xFE).int32 (sv.download.listed c).length < 0) := by
  obtain ⟨tail, hdecode, htail⟩ :=
    nackDecode_nackOf (D := sv.download) htable hne stack sstack
  have hread : nackDecode sv.BLOCKSIZE sstack
      ((nackOf sv.download c stack).read (4 * sv.BLOCKSIZE)) =
        some (sv.download.listed c ++ tail) := hdecode
  refine ⟨tail, ?_, htail⟩
  rw [Server.nackhandle, hread]

/-- Where the programs agree, the answer is to the list alone. -/
theorem tail_eq_nil_of_nackAgrees (htable : sv.blocks ≤ tableSize)
    (hne : missing c.pktsRcvd sv.blocks ≠ []) (h : sv.NackAgrees c) (stack : Mem UInt8) :
    (sv.BLOCKSIZE ≤ (sv.download.listed c).length ∨
      (stack.fill sv.BLOCKSIZE 0xFE).int32 (sv.download.listed c).length < 0) ∧
    ∀ seq ∈ sv.download.listed c, .fault ∉ sv.retransmit seq := by
  obtain ⟨c', nack, evs, htimeout, -, hanswer, hfault, hstamps⟩ := h stack fun _ => 0
  rw [timeout_of_missing (D := sv.download) htable hne, Option.some_inj, Prod.mk.injEq]
    at htimeout
  obtain rfl := (List.cons.inj htimeout.2).1
  obtain ⟨tail, hread, htail⟩ := nackhandle_nackOf htable hne stack fun _ => 0
  obtain rfl : sv.retransmitAll (sv.download.listed c ++ tail) = evs :=
    congrArg Prod.snd (hread.symm.trans hanswer)
  have hentries := notMem_retransmit_of_retransmitAll hfault
  -- there are as many datagrams as entries, and as many as were listed
  have hcount := handed_retransmitAll hentries
  rw [← hstamps.length_eq, List.length_append] at hcount
  exact ⟨htail.mp (List.length_eq_zero_iff.mp (by omega)),
    fun seq hseq => hentries seq (List.mem_append_left tail hseq)⟩

/-- **Encoding and decoding of a NACK agree exactly** when the missing blocks fill the array, or
are fewer than a quarter of its length, and at most one block lies behind the offset of the last
block, if that is listed. -/
theorem nackAgrees_iff (sv : Server) (htable : sv.blocks ≤ tableSize) (c : ClientState)
    (hne : missing c.pktsRcvd sv.blocks ≠ []) :
    sv.NackAgrees c ↔ (sv.BLOCKSIZE ≤ (missing c.pktsRcvd sv.blocks).length ∨
        (missing c.pktsRcvd sv.blocks).length < sv.BLOCKSIZE / 4) ∧
      (sv.blocks - 1 ∈ sv.download.listed c →
        sv.size ≤ blockOffset sv.BLOCKSIZE (sv.blocks - 1) + sv.BLOCKSIZE) := by
  have hlen : (sv.download.listed c).length =
      min sv.BLOCKSIZE (missing c.pktsRcvd sv.blocks).length := List.length_take
  have hsize : tableSize < 2 ^ 31 := by decide
  have hcount : sv.numPackets = sv.blocks := numPackets_of_lt (by omega)
  constructor
  · intro h
    refine ⟨?_, fun hlisted => ?_⟩
    · by_cases hfull : sv.BLOCKSIZE ≤ (missing c.pktsRcvd sv.blocks).length
      · exact Or.inl hfull
      · right
        rw [← int32_fill_neg_iff]
        -- the list has an end for any stack
        intro stack
        have hend := (tail_eq_nil_of_nackAgrees htable hne h stack).1
        rw [hlen, Nat.min_eq_right (not_le.mp hfull).le] at hend
        exact hend.resolve_left hfull
    · by_contra hmore
      refine (tail_eq_nil_of_nackAgrees htable hne h fun _ => 0).2 _ hlisted ?_
      refine fault_mem_retransmit (by omega) ?_
      unfold Server.remaining
      omega
  · rintro ⟨hmany, hlast⟩ stack sstack
    obtain ⟨tail, hread, htail⟩ := nackhandle_nackOf htable hne stack sstack
    have hnil : tail = [] := by
      rw [htail, hlen]
      rcases hmany with hfull | hfew
      · left
        exact le_min le_rfl hfull
      · right
        rw [Nat.min_eq_right (by omega)]
        exact int32_fill_neg_iff.mpr hfew stack
    rw [hnil, List.append_nil] at hread
    obtain ⟨hfault, hstamps⟩ := stamped_retransmitAll htable
      (fun seq hseq => (mem_missing.mp (List.mem_of_mem_take hseq)).1) hlast
    refine ⟨_, _, _, timeout_of_missing (D := sv.download) htable hne stack, ?_, hread, hfault,
      hstamps⟩
    intro i hi
    have hle : (sv.download.listed c).length ≤ sv.BLOCKSIZE := hlen ▸ Nat.min_le_left ..
    exact (Mem.int32_recv_read _ _ (hi.trans_le hle)).trans
      (int32_nackOf_of_lt (D := sv.download) htable hi)

/-- Four bytes in blocks of two. -/
def fourBytesServer : Server where
  file := [1, 2, 3, 4]
  BLOCKSIZE := 2
  file_pos := fourBytes.fileSize_pos
  blocksize_pos := Nat.two_pos
  past := fun _ => 0
  LOSS_NUM := 0

/-- With nothing received the list of two blocks fills the array. -/
theorem nackAgrees_fourBytes : fourBytesServer.NackAgrees ClientState.init :=
  (nackAgrees_iff fourBytesServer (by decide) ClientState.init (by decide)).mpr
    ⟨Or.inl (by decide), by decide⟩

/-- The loop after block 0 alone was received. -/
def firstReceived : ClientState := { ClientState.init with pktsRcvd := fun s => s == 0 }

/-- With the first block received, a stack of zeros makes the server send that block again. -/
theorem fourBytes_not_nackAgrees :
    fourBytesServer.blocks ≤ tableSize ∧
      missing firstReceived.pktsRcvd fourBytesServer.blocks = [1] ∧
      ¬ fourBytesServer.NackAgrees firstReceived := by
  refine ⟨by decide, by decide, fun h => ?_⟩
  obtain ⟨c', nack, evs, htimeout, -, hanswer, -, hstamps⟩ := h (fun _ => 0) (fun _ => 0)
  rw [timeout_of_missing (D := fourBytesServer.download) (by decide) (by decide),
    Option.some_inj, Prod.mk.injEq] at htimeout
  obtain rfl := (List.cons.inj htimeout.2).1
  obtain rfl := congrArg Prod.snd hanswer
  -- one block is listed, and two datagrams are handed over
  have hcount := hstamps.length_eq
  exact absurd hcount (by decide)

end Agreement

end NetworkLabs.Turbo

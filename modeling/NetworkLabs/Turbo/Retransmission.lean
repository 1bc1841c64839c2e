import NetworkLabs.Turbo.Server

/-!
# The first pass against retransmission

The first pass copies `BLOCKSIZE` bytes for every block that it counts, the last one included; the
NACK handler copies what is left of the file. On a short last block the first pass therefore reads
past the end of the file and sends what it finds there, and the handler sends zeros.

## Main definitions

* `Server.SameDatagram`: both paths stay inside the file and hand over the same datagram

## Main results

* `sameDatagram_iff`: the blocks of which this is so
-/

namespace NetworkLabs.Turbo

open CRuntime Blocks

variable {sv : Server} {seq : ℕ}

/-- The datagrams handed to `dropsendto`. -/
def handed (evs : List Event) : List Packet := evs.filterMap Event.handed

namespace Server

variable (sv : Server)

/-- Every read of the mapped file is inside the file. -/
def ReadsInFile (evs : List Event) : Prop :=
  ∀ off len, .copy off len ∈ evs → off + len ≤ sv.size

/-- Both paths read inside the file, and hand over one datagram, which is the same. -/
def SameDatagram (seq : ℕ) : Prop :=
  sv.ReadsInFile (sv.sendIteration seq) ∧ sv.ReadsInFile (sv.retransmit seq) ∧
    ∃ pkt, handed (sv.sendIteration seq) = [pkt] ∧ handed (sv.retransmit seq) = [pkt]

end Server

theorem readsInFile_copy_hand {off len : ℕ} {pkt : Packet} {t l : ℤ} :
    sv.ReadsInFile [.copy off len, .hand pkt t l] ↔ off + len ≤ sv.size := by
  constructor
  · intro h
    exact h off len List.mem_cons_self
  · intro h off' len' hmem
    simp only [List.mem_cons, Event.copy.injEq, reduceCtorEq, List.not_mem_nil, or_self,
      or_false] at hmem
    rw [hmem.1, hmem.2]
    exact h

/-- A full block is stamped alike, whatever the unused rest of the buffer held. -/
theorem stamped_full (rest rest' : Option UInt8) :
    sv.stamped seq sv.BLOCKSIZE rest = sv.stamped seq sv.BLOCKSIZE rest' := by
  simp [Server.stamped]

/-- On a full block both paths hand over the same datagram. -/
theorem sameDatagram_of_full (hblocks : sv.blocks < 2 ^ 31) (hN : sv.size < 2 ^ 32)
    (hseq : seq < 10 ^ 7) (hfull : (seq + 1) * sv.BLOCKSIZE ≤ sv.size) : sv.SameDatagram seq := by
  have hB := sv.blocksize_pos
  rw [Nat.add_mul, Nat.one_mul] at hfull
  have hlt : seq < sv.blocks := (lt_numBlocks_iff hB).mpr (by omega)
  obtain ⟨hoff, hrem, hpos⟩ := remaining_of_lt_blocks hN hlt
  have hcount : sv.numPackets = sv.blocks := numPackets_of_lt hblocks
  have hfirst : sv.sendIteration seq = [.copy (blockOffset sv.BLOCKSIZE seq) sv.BLOCKSIZE,
      .hand (sv.stamped seq sv.BLOCKSIZE none) 1000 sv.LOSS_NUM] :=
    sendIteration_of_lt (by omega) hseq
  have hagain : sv.retransmit seq = [.copy (blockOffset sv.BLOCKSIZE seq) sv.BLOCKSIZE,
      .hand (sv.stamped seq sv.BLOCKSIZE (some 0)) 1000 sv.LOSS_NUM] := by
    by_cases hlast : seq + 1 < sv.blocks
    · exact retransmit_of_lt (by omega) hseq
    -- the last block is full, so what remains is one block
    · have hend : ¬ (seq + 1) * sv.BLOCKSIZE < sv.size := by
        rwa [← lt_numBlocks_iff hB]
      rw [Nat.add_mul, Nat.one_mul] at hend
      have hone : sv.remaining seq = sv.BLOCKSIZE := by omega
      have h := retransmit_of_remaining (by omega) hpos hone.le hseq
      rwa [hone] at h
  refine ⟨?_, ?_, sv.stamped seq sv.BLOCKSIZE none, ?_, ?_⟩
  · rw [hfirst, readsInFile_copy_hand, hoff]
    exact hfull
  · rw [hagain, readsInFile_copy_hand, hoff]
    exact hfull
  · rw [hfirst]
    rfl
  · rw [hagain, stamped_full none (some 0)]
    rfl

/-- A first pass that ends in a fault hands nothing over. -/
theorem handed_eq_nil_of_fault (h : .fault ∈ sv.sendIteration seq) :
    handed (sv.sendIteration seq) = [] := by
  -- the branches without a fault are refuted, the others have no `hand`
  simp only [Server.sendIteration] at h ⊢
  split at h <;> split at h
  · simp at h
  · rw [if_pos ‹_›, if_neg ‹_›]
    rfl
  · simp at h
  · rw [if_neg ‹_›, if_neg ‹_›]
    split at h
    · split at h
      · simp at h
      · rw [if_pos ‹_›, if_neg ‹_›]
        rfl
    · rw [if_neg ‹_›]
      rfl

/-- **The two paths agree exactly on the full blocks** of a file with fewer than `2 ^ 31` blocks,
as long as the sequence number has at most seven digits. -/
theorem sameDatagram_iff (sv : Server) (hN : sv.size < 2 ^ 32) (seq : ℕ) (hseq : seq < sv.blocks) :
    sv.SameDatagram seq ↔
      sv.blocks < 2 ^ 31 ∧ seq < 10 ^ 7 ∧ (seq + 1) * sv.BLOCKSIZE ≤ sv.size := by
  have hB := sv.blocksize_pos
  constructor
  -- the first pass alone gives the condition: it hands something over and reads in the file
  · rintro ⟨hreads, -, pkt, hpkt, -⟩
    have hnofault : .fault ∉ sv.sendIteration seq := by
      intro hf
      rw [handed_eq_nil_of_fault hf] at hpkt
      cases hpkt
    obtain ⟨hoff, hrem, hpos⟩ := remaining_of_lt_blocks hN hseq
    have hshort : seq < 10 ^ 7 := by
      by_contra hge
      exact hnofault (fault_mem_sendIteration_of_long (not_lt.mp hge) hpos)
    have hblocks : sv.blocks < 2 ^ 31 := by
      by_contra hge
      -- `numPackets` is negative: the first pass copies all that remains at once
      have hle : sv.blocks ≤ sv.size := numBlocks_le hB
      have hneg : sv.numPackets < 0 := toInt_neg (by omega) (by omega)
      have hnext := (lt_numBlocks_iff hB).mp (show seq + 1 < sv.blocks by omega)
      rw [Nat.add_mul, Nat.one_mul] at hnext
      exact hnofault (fault_mem_sendIteration (by omega) (by omega))
    have hcount : (seq : ℤ) < sv.numPackets := by
      rw [numPackets_of_lt hblocks]
      exact_mod_cast hseq
    refine ⟨hblocks, hshort, ?_⟩
    rw [sendIteration_of_lt hcount hshort, readsInFile_copy_hand, hoff] at hreads
    rw [Nat.add_mul, Nat.one_mul]
    exact hreads
  · rintro ⟨hblocks, hshort, hfull⟩
    exact sameDatagram_of_full hblocks hN hshort hfull

/-- Three bytes in blocks of two, with a nonzero byte behind them. -/
def threeBytesServer : Server where
  toServed := threeBytes
  past := fun _ => 1
  LOSS_NUM := 5

theorem sameDatagram_iff_threeBytes :
    threeBytesServer.SameDatagram 0 ↔
      threeBytesServer.blocks < 2 ^ 31 ∧ 0 < 10 ^ 7 ∧
        (0 + 1) * threeBytesServer.BLOCKSIZE ≤ threeBytesServer.size :=
  sameDatagram_iff threeBytesServer (by decide) 0 (by decide)

/-- The short last block of three bytes: the first pass reads the byte behind the file. -/
theorem threeBytes_not_sameDatagram :
    threeBytesServer.size < 2 ^ 32 ∧ 1 < threeBytesServer.blocks ∧
      ¬ threeBytesServer.SameDatagram 1 := by
  refine ⟨by decide, by decide, ?_⟩
  rintro ⟨hreads, -⟩
  exact absurd (hreads 2 2 (by decide)) (by decide)

end NetworkLabs.Turbo

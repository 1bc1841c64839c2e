import NetworkLabs.Turbo.Bounds
import NetworkLabs.Turbo.Session

/-!
# The size and the offsets of a session

The server tells the size of the file as the text of a `long long`, and the client reads that text
with `atoi`, which gives an `int`. Offsets are products modulo `2 ^ 32` on both sides. The size is
the narrower of the two: a file whose size the client has read right has no offset that wraps
around.

## Main definitions

* `Setup.serverOf`, `Setup.downloadOf`: the two ends of a session for one file
* `Setup.OffsetsExact`: the client has the size, and all offsets are what they are meant to be

## Main results

* `afterSize_sizeText_iff`: the sizes that the client reads right
* `offsetsExact_iff`: the files for which a session is exact
-/

namespace NetworkLabs.Turbo

open CRuntime Blocks

/-! ## The two ends of a session -/

/-- What the server serves after the acknowledgement. -/
def Setup.serverOf (S : Setup) (file : List UInt8) (h : 1 ≤ file.length) : Server :=
  ⟨⟨file, S.BLOCKSIZE, h, S.blocksize_pos⟩, S.past, S.LOSS_NUM⟩

/-- What the client should download. -/
def Setup.downloadOf (S : Setup) (file : List UInt8) (h : 1 ≤ file.length) : Download :=
  ⟨S.BLOCKSIZE, file.length, S.blocksize_pos, h⟩

theorem Setup.afterAck_eq (S : Setup) {file : List UInt8} (h : 1 ≤ file.length) :
    S.afterAck file = .serving (S.serverOf file h) ServerState.init := dif_pos h

/-- There is a copy among the events, and every copy is from the offset. -/
def CopiesFrom (evs : List Event) (off : ℕ) : Prop :=
  (∃ len, .copy off len ∈ evs) ∧ ∀ off' len, .copy off' len ∈ evs → off' = off

/-- The client has the size of the file, and the first pass, the NACK handler and the receive step
all take the bytes of block `seq` from or to `seq * BLOCKSIZE`. -/
def Setup.OffsetsExact (S : Setup) (file : List UInt8) (h : 1 ≤ file.length) : Prop :=
  (∀ stack, S.afterSize stack (sizeText file.length) =
    .receiving (S.downloadOf file h) ClientState.init) ∧
  ∀ seq < numBlocks file.length S.BLOCKSIZE,
    CopiesFrom ((S.serverOf file h).sendIteration seq) (seq * S.BLOCKSIZE) ∧
    CopiesFrom ((S.serverOf file h).retransmit seq) (seq * S.BLOCKSIZE) ∧
    ∀ c d accesses, atoi ((d ++ List.replicate 8 0).take 8) = some (seq : ℤ) →
      receiveAccesses (S.downloadOf file h) c d = some accesses →
      ∀ off len, .copy off len ∈ accesses → off = seq * S.BLOCKSIZE

/-! ## The size -/

/-- The text of the size with its terminator, and zeros. -/
theorem sizeText_eq {n k : ℕ} (hk : 256 = (decimal n).length + 1 + k) :
    sizeText n = decimal n ++ [0] ++ List.replicate k 0 := by
  have hmin : min (256 - (decimal n).length) 256 = k + 1 := by omega
  rw [sizeText, Mem.read_recv_const 0 _ le_rfl, List.take_append,
    List.take_of_length_le (by omega), List.take_replicate, hmin, List.replicate_succ,
    List.append_cons]

/-- The client reads back a size that is an `int`. -/
theorem atoi_sizeText {n : ℕ} (hn : n < 2 ^ 31) (stack : Mem UInt8) :
    atoi ((stack.recv (sizeText n) 255).read 256) = some (n : ℤ) := by
  have hshort : (decimal n).length ≤ 10 := (length_decimal_le (by omega)).mpr (by omega)
  obtain ⟨k, hk⟩ := Nat.exists_eq_add_of_le (show (decimal n).length + 1 ≤ 256 by omega)
  -- the text is terminated inside the bytes that are read
  have htext : (sizeText n).take ((decimal n).length + 1) = decimal n ++ [0] := by
    rw [sizeText_eq hk, List.take_left' (by rw [List.length_append, List.length_singleton])]
  have hread : (stack.recv (sizeText n) 255).read 256 = decimal n ++ 0 ::
      ((stack.recv (sizeText n) 255).shift ((decimal n).length + 1)).read k := by
    have hlen : (sizeText n).length = 256 := Mem.length_read ..
    rw [hk, Mem.read_add, Mem.read_recv_take _ (by omega) (by omega), htext, List.append_assoc,
      List.singleton_append]
  rw [hread]
  have h := atoi_sprintfD 0 hn (show isDigit 0 = false by decide)
    (((stack.recv (sizeText n) 255).shift ((decimal n).length + 1)).read k)
  rwa [sprintfD, Nat.zero_sub, List.replicate_zero, List.nil_append] at h

/-- **The client reads the size right exactly** when it is an `int`. -/
theorem afterSize_sizeText_iff (S : Setup) {file : List UInt8} (h : 1 ≤ file.length) :
    (∀ stack, S.afterSize stack (sizeText file.length) =
      .receiving (S.downloadOf file h) ClientState.init) ↔ file.length < 2 ^ 31 := by
  constructor
  · intro hsize
    have hzero := hsize fun _ => 0
    unfold Setup.afterSize at hzero
    split at hzero
    · cases hzero
    · next fileSize hatoi =>
      have hlt := atoi_lt hatoi
      split at hzero
      · have hD := (ClientPhase.receiving.inj hzero).1
        have hfile : fileSize.toNat = file.length := congrArg Download.fileSize hD
        omega
      · cases hzero
  · intro hlt stack
    have hpos : (1 : ℤ) ≤ file.length := by omega
    simp only [Setup.afterSize, atoi_sizeText hlt stack]
    rw [dif_pos hpos]
    rfl

/-! ## The offsets -/

section Offsets

variable {sv : Server} {seq : ℕ}

/-- Below `2 ^ 32` bytes both paths of the server copy a block from where it is. -/
theorem copiesFrom_of_lt (hN : sv.size < 2 ^ 32) (hblocks : sv.blocks ≤ tableSize)
    (hseq : seq < sv.blocks) :
    CopiesFrom (sv.sendIteration seq) (seq * sv.BLOCKSIZE) ∧
      CopiesFrom (sv.retransmit seq) (seq * sv.BLOCKSIZE) := by
  have hB := sv.blocksize_pos
  have htable : tableSize = 1000000 := rfl
  have hcount : sv.numPackets = sv.blocks := numPackets_of_lt (by omega)
  obtain ⟨hoff, hrem, hpos⟩ := remaining_of_lt_blocks hN hseq
  constructor
  · rw [sendIteration_of_lt (by omega) (by omega), hoff]
    refine ⟨⟨_, List.mem_cons_self⟩, fun off len hmem => ?_⟩
    simp only [List.mem_cons, Event.copy.injEq, reduceCtorEq, List.not_mem_nil, or_self,
      or_false] at hmem
    exact hmem.1
  · unfold CopiesFrom
    simp only [copy_mem_retransmit_iff, hoff]
    refine ⟨⟨_, True.intro, rfl, ?_⟩, fun off len hmem => hmem.1⟩
    split
    · exact hB
    · exact hpos

/-- The receive step copies to the offset of the number in the stamp. -/
theorem copy_mem_receiveAccesses {D : Download} {c : ClientState} {d : List UInt8}
    {accesses : List Access} {off : ℕ} {len : ℤ}
    (hstamp : atoi ((d ++ List.replicate 8 0).take 8) = some (seq : ℤ))
    (h : receiveAccesses D c d = some accesses) (hmem : .copy off len ∈ accesses) :
    off = blockOffset D.BLOCKSIZE seq := by
  unfold receiveAccesses at h
  rw [Mem.read_recv_const 0 d (Nat.le_add_left 8 _), hstamp] at h
  simp only at h
  split at h
  · split at h
    · obtain rfl := Option.some.inj h
      simp at hmem
    · obtain rfl := Option.some.inj h
      simp only [List.mem_cons, Access.copy.injEq, reduceCtorEq, List.not_mem_nil, or_false,
        false_or] at hmem
      rw [hmem.1, Int.toNat_natCast]
  · obtain rfl := Option.some.inj h
    simp at hmem

end Offsets

/-- **A session is exact exactly** for the files of fewer than `2 ^ 31` bytes. -/
theorem offsetsExact_iff (S : Setup) (file : List UInt8) (h : 1 ≤ file.length)
    (hblocks : numBlocks file.length S.BLOCKSIZE ≤ tableSize) :
    S.OffsetsExact file h ↔ file.length < 2 ^ 31 := by
  constructor
  · rintro ⟨hsize, -⟩
    exact (afterSize_sizeText_iff S h).mp hsize
  · intro hlt
    refine ⟨(afterSize_sizeText_iff S h).mpr hlt, fun seq hseq => ?_⟩
    have hN : (S.serverOf file h).size < 2 ^ 32 := lt_trans hlt (by norm_num)
    obtain ⟨hfirst, hagain⟩ := copiesFrom_of_lt hN hblocks hseq
    refine ⟨hfirst, hagain, ?_⟩
    intro c d accesses hstamp haccesses off len hmem
    rw [copy_mem_receiveAccesses hstamp haccesses hmem]
    exact (remaining_of_lt_blocks hN hseq).1

theorem offsetsExact_iff_oneByte :
    oneByte.OffsetsExact [7] le_rfl ↔ ([7] : List UInt8).length < 2 ^ 31 :=
  offsetsExact_iff oneByte [7] le_rfl (by decide)

/-- The session of one byte with blocks of a megabyte. -/
def megabyteBlocks : Setup := { oneByte with BLOCKSIZE := 2 ^ 20, blocksize_pos := by norm_num }

/-- A file of two gigabytes. -/
def hugeFile : List UInt8 := List.replicate (2 ^ 31) 0

theorem length_hugeFile : hugeFile.length = 2 ^ 31 := List.length_replicate

theorem hugeFile_pos : 1 ≤ hugeFile.length := by
  rw [length_hugeFile]
  norm_num

/-- In such blocks the table has room for two gigabytes, but the client does not get their number
from `atoi`. -/
theorem hugeFile_not_offsetsExact :
    numBlocks hugeFile.length megabyteBlocks.BLOCKSIZE ≤ tableSize ∧
      ¬ megabyteBlocks.OffsetsExact hugeFile hugeFile_pos := by
  constructor
  · rw [length_hugeFile]
    decide
  · rintro ⟨hsize, -⟩
    have hlt := (afterSize_sizeText_iff megabyteBlocks hugeFile_pos).mp hsize
    rw [length_hugeFile] at hlt
    exact absurd hlt (lt_irrefl _)

end NetworkLabs.Turbo

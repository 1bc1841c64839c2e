import NetworkLabs.Runtime.Text
import NetworkLabs.Foundation.Blocks

/-!
# Data datagrams of the turbo transfer

A block travels as the text `"%7d|"` of its sequence number followed by `BLOCKSIZE` bytes, of which
those past the end of the file mean nothing. Offsets into the file are products of an `int` and
the `uint32_t BLOCKSIZE`, taken modulo `2 ^ 32`.

## Main definitions

* `Served`: a file and the block size it is served with
* `header`: the stamp of a sequence number
* `Served.IsDatagram`: the datagrams that carry a block

## Main results

* `atoi_header`: the sequence number is read back from the stamp
* `findIdx_header`: the stamp's bar is the first bar of the datagram
-/

namespace NetworkLabs.Turbo

open CRuntime Blocks

/-- The character `'|'`. -/
def bar : UInt8 := 124

/-- The text of `sprintf(seqChar, "%7d|", seq)`. -/
def header (seq : ℕ) : List UInt8 := sprintfD 7 seq ++ [bar]

/-- `seq*BLOCKSIZE`, an `int` times a `uint32_t`. -/
def blockOffset (BLOCKSIZE seq : ℕ) : ℕ := toUInt32 (seq * BLOCKSIZE)

/-- A file and the block size it is served with. -/
structure Served where
  file : List UInt8
  BLOCKSIZE : ℕ
  file_pos : 1 ≤ file.length
  blocksize_pos : 1 ≤ BLOCKSIZE

namespace Served

variable (T : Served)

/-- `finfo.st_size`. -/
abbrev size : ℕ := T.file.length

/-- The number of blocks, `ceil(st_size / BLOCKSIZE)`. -/
abbrev blocks : ℕ := numBlocks T.size T.BLOCKSIZE

/-- The number of bytes of block `seq`. -/
abbrev lenOf (seq : ℕ) : ℕ := blockLen T.size T.BLOCKSIZE seq

/-- A row of `BLOCKSIZE` bytes that starts with the bytes of block `seq`. -/
def StartsWithBlock (seq : ℕ) (block : List UInt8) : Prop :=
  block.length = T.BLOCKSIZE ∧ ∀ i < T.lenOf seq, block[i]? = T.file[seq * T.BLOCKSIZE + i]?

instance (seq : ℕ) (block : List UInt8) : Decidable (T.StartsWithBlock seq block) :=
  inferInstanceAs (Decidable (_ ∧ _))

/-- The datagrams that carry block `seq`: what follows the end of the file is arbitrary. -/
def IsDatagram (seq : ℕ) (d : List UInt8) : Prop :=
  ∃ block, T.StartsWithBlock seq block ∧ d = header seq ++ block

end Served

/-- A file of three bytes in blocks of two. -/
def threeBytes : Served where
  file := [7, 8, 9]
  BLOCKSIZE := 2
  file_pos := by decide
  blocksize_pos := by decide

theorem isDigit_bar : isDigit bar = false := by decide

theorem length_header {seq : ℕ} (h : seq < 10 ^ 7) : (header seq).length = 8 := by
  rw [header, List.length_append, length_sprintfD (by omega) h, List.length_singleton]

/-- From eight digits on, the stamp is longer than the eight bytes that are copied of it. -/
theorem lt_length_header {seq : ℕ} (h : 10 ^ 7 ≤ seq) : 8 < (header seq).length := by
  have := length_sprintfD_lt (by omega) h
  simp only [header, List.length_append, List.length_singleton]
  omega

/-- The sequence number is read back from the stamp. -/
theorem atoi_header {seq : ℕ} (h : seq < 2 ^ 31) : atoi (header seq) = some (seq : ℤ) :=
  atoi_sprintfD 7 h isDigit_bar []

theorem header_injective {s t : ℕ} (hs : s < 2 ^ 31) (ht : t < 2 ^ 31)
    (h : header s = header t) : s = t := by
  have := (atoi_header hs).symm.trans (h ▸ atoi_header ht)
  simpa using this

theorem bar_notMem_sprintfD (w n : ℕ) : bar ∉ sprintfD w n := by
  intro h
  -- the text consists of blanks and digits
  rcases List.mem_append.mp h with h | h
  · exact absurd (List.mem_replicate.mp h).2 (by decide)
  · exact absurd (isDigit_of_mem_decimal h) (by decide)

/-- The stamp's bar is the first bar of the datagram, whatever bytes the block holds. -/
theorem findIdx_header {seq : ℕ} (h : seq < 10 ^ 7) (block : List UInt8) :
    (header seq ++ block).findIdx? (· == bar) = some 7 := by
  have hnone : (sprintfD 7 seq).findIdx? (· == bar) = none := by
    rw [List.findIdx?_eq_none_iff]
    intro b hb
    simpa using fun he : b = bar => bar_notMem_sprintfD 7 seq (he ▸ hb)
  rw [header, List.append_assoc, List.findIdx?_append, hnone, length_sprintfD (by omega) h]
  simp [List.findIdx?_cons]

theorem blockOffset_of_lt {B seq : ℕ} (h : seq * B < 2 ^ 32) : blockOffset B seq = seq * B := by
  unfold blockOffset
  exact_mod_cast toUInt32_of_lt h

theorem blockOffset_lt (B seq : ℕ) : blockOffset B seq < 2 ^ 32 := by
  unfold blockOffset toUInt32
  omega

theorem blockOffset_le (B seq : ℕ) : blockOffset B seq ≤ seq * B := by
  unfold blockOffset toUInt32
  rw [← Nat.cast_mul]
  omega

end NetworkLabs.Turbo

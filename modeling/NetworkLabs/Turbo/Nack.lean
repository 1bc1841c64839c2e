import NetworkLabs.Turbo.Client
import NetworkLabs.Turbo.Server

/-!
# The list in a NACK

The client writes the missing blocks at the start of an array of `BLOCKSIZE` `int`s and leaves it
to `memset` to mark the end of the list with a negative one. `memset` counts bytes: it reaches the
first quarter of the array only. A list that ends in that quarter, or that fills the array, is
read back as it was written; behind any other list the server reads what the stack of the client
held.

## Main definitions

* `Download.listed`: the blocks that a NACK can list

## Main results

* `nackSeqs_eq_append`: the entries that were written are read, and where the reading stops
* `missing_pairwise_lt`: the order of the list
* `nackDecode_nackOf`: what the server reads of a NACK
* `int32_fill_neg_iff`: when the list has an end
-/

namespace NetworkLabs.Turbo

open CRuntime

/-! ## The missing blocks -/

theorem mem_missing {pktsRcvd : ℕ → Bool} {n s : ℕ} :
    s ∈ missing pktsRcvd n ↔ s < n ∧ pktsRcvd s = false := by
  simp [missing, missingFrom]

/-- The missing blocks are listed in increasing order. -/
theorem missing_pairwise_lt (pktsRcvd : ℕ → Bool) (n : ℕ) :
    (missing pktsRcvd n).Pairwise (· < ·) :=
  (List.pairwise_lt_range' ..).filter _

/-! ## Reading a list -/

/-- The entries that were written are read in order; the reading stops behind them when the array
is full or the next entry is negative. -/
theorem nackSeqs_eq_append {B : ℕ} {control : Mem UInt8} {l : List ℕ} (hlen : l.length ≤ B)
    (hl : ∀ i (hi : i < l.length), control.int32 i = l[i]) :
    ∃ tail, nackSeqs B control = l ++ tail ∧
      (tail = [] ↔ B ≤ l.length ∨ control.int32 l.length < 0) := by
  unfold nackSeqs
  generalize control.int32 = f at hl ⊢
  obtain ⟨k, rfl⟩ := Nat.exists_eq_add_of_le hlen
  -- the array is the list and `k` further entries
  let rest := (List.range k).map fun i => f (l.length + i)
  refine ⟨(rest.takeWhile fun c => 0 ≤ c).map Int.toNat, ?_, ?_⟩
  · have hfirst : (List.range l.length).map f = l.map Int.ofNat := by
      apply List.ext_getElem (by simp)
      intro i hi hi'
      have hil : i < l.length := by simpa using hi'
      simpa using hl i hil
    have hsplit : (List.range (l.length + k)).map f = l.map Int.ofNat ++ rest := by
      rw [List.range_add, List.map_append, hfirst, List.map_map]
      rfl
    have hall : ∀ c ∈ l.map Int.ofNat, decide (0 ≤ c) = true := by
      intro c hc
      obtain ⟨n, -, rfl⟩ := List.mem_map.mp hc
      simp
    have hback : (l.map Int.ofNat).map Int.toNat = l := by
      rw [List.map_map]
      exact List.map_id l
    rw [hsplit, List.takeWhile_append_of_pos hall, List.map_append, hback]
  -- nothing more is read when nothing follows, or when a negative entry does
  · rw [List.map_eq_nil_iff]
    cases k with
    | zero => simp [rest]
    | succ k =>
      have hcons : rest = f l.length :: (List.range k).map fun i => f (l.length + (i + 1)) := by
        simp [rest, List.range_succ_eq_map, Function.comp_def]
      rw [hcons, List.takeWhile_cons]
      by_cases hneg : f l.length < 0
      · simp [hneg, not_le.mpr hneg]
      · simp [hneg, not_lt.mp hneg]

/-! ## Writing a list -/

section Written

variable {D : Download} {c : ClientState} {stack : Mem UInt8}

/-- The blocks that a NACK can list. -/
abbrev Download.listed (D : Download) (c : ClientState) : List ℕ :=
  (missing c.pktsRcvd D.totPkts).take D.BLOCKSIZE

theorem lt_of_mem_listed (htable : D.totPkts ≤ tableSize) {s : ℕ} (hs : s ∈ D.listed c) :
    s < 2 ^ 31 := by
  have hlt := (mem_missing.mp (List.mem_of_mem_take hs)).1
  have hsize : tableSize < 2 ^ 31 := by decide
  omega

/-- The NACK holds the list. -/
theorem int32_nackOf_of_lt (htable : D.totPkts ≤ tableSize) {i : ℕ}
    (hi : i < (D.listed c).length) : (nackOf D c stack).int32 i = (D.listed c)[i] := by
  rw [nackOf, Mem.int32_setInt32s _ _ fun s => lt_of_mem_listed htable]
  rw [dif_pos (by omega)]
  rfl

/-- Behind the list the NACK holds what `memset` left. -/
theorem int32_nackOf_of_le (htable : D.totPkts ≤ tableSize) {i : ℕ}
    (hi : (D.listed c).length ≤ i) :
    (nackOf D c stack).int32 i = (stack.fill D.BLOCKSIZE 0xFE).int32 i := by
  rw [nackOf, Mem.int32_setInt32s _ _ fun s => lt_of_mem_listed htable]
  rw [dif_neg (by omega)]

/-- A timeout with a block missing sends the NACK. -/
theorem timeout_of_missing (htable : D.totPkts ≤ tableSize)
    (hne : missing c.pktsRcvd D.totPkts ≠ []) (stack : Mem UInt8) :
    timeout D c stack = some ({ c with nackCounter := c.nackCounter + 1 },
      [(nackOf D c stack).read (4 * D.BLOCKSIZE), (nackOf D c stack).read (4 * D.BLOCKSIZE)]) := by
  rw [timeout_eq htable, if_neg hne]

/-- What the server reads of a NACK: the list, and perhaps more. -/
theorem nackDecode_nackOf (htable : D.totPkts ≤ tableSize)
    (hne : missing c.pktsRcvd D.totPkts ≠ []) (stack sstack : Mem UInt8) :
    ∃ tail, nackDecode D.BLOCKSIZE sstack ((nackOf D c stack).read (4 * D.BLOCKSIZE)) =
        some (D.listed c ++ tail) ∧
      (tail = [] ↔ D.BLOCKSIZE ≤ (D.listed c).length ∨
        (stack.fill D.BLOCKSIZE 0xFE).int32 (D.listed c).length < 0) := by
  have hB := D.blocksize_pos
  let control := (sstack.fill D.BLOCKSIZE 0).recv
    ((nackOf D c stack).read (4 * D.BLOCKSIZE)) (4 * D.BLOCKSIZE)
  have hlen : (D.listed c).length ≤ D.BLOCKSIZE := by
    rw [List.length_take]
    exact Nat.min_le_left ..
  -- the array arrives as it was sent
  have hrecv : ∀ i < D.BLOCKSIZE, control.int32 i = (nackOf D c stack).int32 i :=
    fun i hi => Mem.int32_recv_read _ _ hi
  have hlist : ∀ i (hi : i < (D.listed c).length), control.int32 i = (D.listed c)[i] := by
    intro i hi
    rw [hrecv i (by omega), int32_nackOf_of_lt htable hi]
  obtain ⟨tail, hseqs, htail⟩ := nackSeqs_eq_append hlen hlist
  refine ⟨tail, ?_, ?_⟩
  -- the first entry is a block, so this is not the final message
  · have hpos : 0 < (D.listed c).length := by
      rw [List.length_take, lt_min_iff]
      exact ⟨hB, List.length_pos_iff.mpr hne⟩
    have hfirst : ¬ control.int32 0 = -1 := by
      rw [hlist 0 hpos]
      omega
    show (if control.int32 0 = -1 then none else some (nackSeqs D.BLOCKSIZE control)) = _
    rw [if_neg hfirst, hseqs]
  · rw [htail]
    by_cases hfull : D.BLOCKSIZE ≤ (D.listed c).length
    · simp only [hfull, true_or]
    · rw [hrecv _ (not_le.mp hfull), int32_nackOf_of_le htable le_rfl]

end Written

/-! ## When the list has an end -/

/-- The bytes that `memset` leaves behind `n` entries end the list whatever the stack held exactly
when they are all among the bytes it has cleared. -/
theorem int32_fill_neg_iff {B n : ℕ} :
    (∀ stack : Mem UInt8, (stack.fill B 0xFE).int32 n < 0) ↔ n < B / 4 := by
  constructor
  · intro h
    by_contra hge
    -- the last byte of the entry is the stack's, and a stack of zeros makes it no end
    have hneg := h fun _ => 0
    rw [← not_le, Mem.int32_nonneg_iff, Mem.fill_of_le (by omega)] at hneg
    exact hneg (by decide)
  · intro hlt stack
    exact Mem.int32_fill_neg _ (by omega)

/-- A download of four bytes in blocks of two. -/
def fourBytes : Download where
  BLOCKSIZE := 2
  fileSize := 4
  blocksize_pos := Nat.two_pos
  fileSize_pos := by decide

end NetworkLabs.Turbo

import Mathlib.Data.BitVec
import NetworkLabs.Foundation.TrailerSum
import NetworkLabs.Runtime.Memory

/-!
# The checksum of a transferred file

The bytes of a file are summed as signed characters modulo `2 ^ 64`, and the sum follows the file
in big-endian order. The C programs get that order with `htobe64` on a little-endian machine, the
Java programs with shifts. Both verifiers sum the whole file and take the last eight bytes off.

## Main definitions

* `signedChar`, `bigEndian`: the weight of a byte, and the code of a sum
* `validateCheckSum`, `Java.validateCheckSum`: the two verifiers

## Main results

* `validateCheckSum_iff`, `Java.validateCheckSum_eq`: both accept exactly the files with their sum
  behind them
-/

namespace NetworkLabs.FileTransfer

open CRuntime TrailerSum

/-! ## Sums and their bytes -/

/-- A `char`, signed, in 64 bits. -/
def signedChar (c : UInt8) : BitVec 64 := c.toBitVec.signExtend 64

/-- The bytes of a 64 bit number in memory. -/
def bytes64 (x : BitVec 64) : List UInt8 := leBytes 8 x.toNat

/-- The 64 bit number in eight bytes of memory. -/
def value64 (bs : List UInt8) : BitVec 64 := BitVec.ofNat 64 (leValue bs)

/-- `htobe64` on a little-endian machine; `be64toh` is the same function. -/
def htobe64 (x : BitVec 64) : BitVec 64 := value64 (bytes64 x).reverse

def be64toh (x : BitVec 64) : BitVec 64 := value64 (bytes64 x).reverse

theorem length_bytes64 (x : BitVec 64) : (bytes64 x).length = 8 := length_leBytes ..

theorem value64_bytes64 (x : BitVec 64) : value64 (bytes64 x) = x := by
  have hlt : x.toNat < 256 ^ 8 := x.isLt
  rw [value64, bytes64, leValue_leBytes, Nat.mod_eq_of_lt hlt, BitVec.ofNat_toNat,
    BitVec.setWidth_eq]

theorem bytes64_value64 {bs : List UInt8} (h : bs.length = 8) : bytes64 (value64 bs) = bs := by
  have hlt : leValue bs < 2 ^ 64 := by
    have := leValue_lt bs
    rw [h] at this
    omega
  rw [bytes64, value64, BitVec.toNat_ofNat, Nat.mod_eq_of_lt hlt, ← h, leBytes_leValue]

/-- Eight bytes, the highest first, as the code of a sum. -/
def bigEndian : Code UInt8 (BitVec 64) where
  width := 8
  enc g := (bytes64 g).reverse
  dec t := value64 t.reverse
  length_enc g := by rw [List.length_reverse, length_bytes64]
  dec_enc g := by rw [List.reverse_reverse, value64_bytes64]
  enc_dec t ht := by rw [bytes64_value64 (by rw [List.length_reverse, ht]), List.reverse_reverse]

/-- The file as it travels: the payload, and the sum of its bytes. -/
def withCheckSum (p : List UInt8) : List UInt8 := bigEndian.encode signedChar p

theorem length_withCheckSum (p : List UInt8) : (withCheckSum p).length = p.length + 8 :=
  Code.length_encode p

theorem length_last8 {file : List UInt8} (hlen : 8 ≤ file.length) :
    (file.drop (file.length - 8)).length = 8 := by
  rw [List.length_drop, Nat.sub_sub_self hlen]

/-- The memory of `htobe64(check_sum)` is the big-endian code of the sum. -/
theorem bytes64_htobe64 (x : BitVec 64) : bytes64 (htobe64 x) = bigEndian.enc x :=
  bytes64_value64 (by rw [List.length_reverse, length_bytes64])

theorem be64toh_value64 {t : List UInt8} (ht : t.length = 8) :
    be64toh (value64 t) = bigEndian.dec t := by
  rw [be64toh, bytes64_value64 ht]
  rfl

/-! ## The C verifier -/

/-- `validateCheckSum` of the C client on a file that it has opened. On a file of fewer than eight
bytes `lseek` fails, the last `read` gives nothing, and `last8` keeps the bytes `stack`. -/
def validateCheckSum (stack : Mem UInt8) (file : List UInt8) : Bool :=
  let check_sum := file.foldl (fun s c => s + signedChar c) 0
  let last8 := if 8 ≤ file.length then file.drop (file.length - 8) else stack.read 8
  -- the last bytes were summed with the others and are taken off again
  let rhs := last8.foldl (fun s c => s - signedChar c) check_sum
  let lhs := be64toh (value64 last8)
  lhs == rhs

/-- **The C verifier accepts exactly the files with their sum behind them.** -/
theorem validateCheckSum_iff (stack : Mem UInt8) {file : List UInt8} (hlen : 8 ≤ file.length) :
    validateCheckSum stack file = true ↔ ∃ p, file = withCheckSum p := by
  have hwidth : bigEndian.width ≤ file.length := hlen
  rw [show (∃ p, file = withCheckSum p) ↔ bigEndian.Accepts signedChar file from
    (Code.accepts_iff hwidth).symm]
  simp only [validateCheckSum, if_pos hlen, foldl_add_eq, foldl_sub_eq, zero_add, beq_iff_eq,
    be64toh_value64 (length_last8 hlen)]
  rfl

/-! ## The Java verifier -/

namespace Java

/-- `getUnsigned`. -/
def getUnsigned (b : UInt8) : BitVec 64 :=
  if (signedChar b).toInt < 0 then signedChar b + 256 else signedChar b

/-- `longToBytes`: `ByteBuffer.putLong` writes the highest byte first. -/
def longToBytes (x : BitVec 64) : List UInt8 := (bytes64 x).reverse

/-- The loop that shifts the last bytes into `value`. -/
def valueOf (read_byte : List UInt8) : BitVec 64 :=
  read_byte.foldl (fun value b => value <<< 8 ||| getUnsigned b) 0

/-- `validateCheckSum` of the Java client; `none` is an exception that it does not catch. `read`
fills the array, whose length is the file's as an `int`; `seek` rejects a negative position. -/
def validateCheckSum (file : List UInt8) : Option Bool :=
  let size := toInt file.length
  if size < 0 then none
  else
    let bFile := file.take size.toNat
    let check_sum := bFile.foldl (fun s b => s + signedChar b) 0
    if (file.length : ℤ) - 8 < 0 then some false
    else
      let read_byte := (file.drop (file.length - 8)).take 8
      let last8 := read_byte.foldl (fun s b => s + signedChar b) 0
      some (valueOf read_byte == check_sum - last8)

/-- The sign extension of a byte is taken back. -/
theorem getUnsigned_eq (b : UInt8) : getUnsigned b = BitVec.ofNat 64 b.toNat := by
  have hwide : (signedChar b).toInt = b.toBitVec.toInt :=
    BitVec.toInt_signExtend_of_le (by omega)
  have hvalue : b.toBitVec.toInt = if 2 * b.toNat < 2 ^ 8 then (b.toNat : ℤ) else b.toNat - 2 ^ 8 :=
    BitVec.toInt_eq_toNat_cond _
  have hofInt : signedChar b = BitVec.ofInt 64 b.toBitVec.toInt := rfl
  unfold getUnsigned
  rw [hwide, hofInt, hvalue]
  by_cases hsmall : 2 * b.toNat < 2 ^ 8
  -- a byte below 128 is its own sign extension
  · rw [if_pos hsmall, if_neg (by omega), BitVec.ofInt_natCast]
  · have hneg : (b.toNat : ℤ) - 2 ^ 8 < 0 := by
      have hb : b.toNat < 256 := b.toNat_lt
      omega
    have hback : BitVec.ofInt 64 ((b.toNat : ℤ) - 2 ^ 8) + BitVec.ofInt 64 256 =
        BitVec.ofInt 64 b.toNat := by
      rw [← BitVec.ofInt_add, show (b.toNat : ℤ) - 2 ^ 8 + 256 = b.toNat by omega]
    rw [if_neg hsmall, if_pos hneg, ← BitVec.ofInt_natCast, ← hback]
    rfl

/-- One shift makes room for exactly one byte. -/
theorem shift_or_eq (v : BitVec 64) (b : UInt8) :
    v <<< 8 ||| getUnsigned b = v * 256 + BitVec.ofNat 64 b.toNat := by
  have hmul : v <<< 8 = v * 256 := by
    have h := BitVec.mul_twoPow_eq_shiftLeft v 8
    exact h.symm
  have hb : b.toNat < 2 ^ 8 := b.toNat_lt
  rw [getUnsigned_eq, ← hmul]
  -- the shifted value and the byte have no bit in common
  refine (BitVec.add_eq_or_of_and_eq_zero _ _ ?_).symm
  apply BitVec.eq_of_getLsbD_eq
  intro i hi
  rw [BitVec.getLsbD_and, BitVec.getLsbD_shiftLeft, BitVec.getLsbD_ofNat]
  by_cases hlow : i < 8
  · simp [hlow]
  · have hbit : b.toNat.testBit i = false :=
      Nat.testBit_lt_two_pow (lt_of_lt_of_le hb (Nat.pow_le_pow_right (by omega) (by omega)))
    simp [hbit]

/-- The loop reads its bytes as a big-endian number. -/
theorem valueOf_eq (bs : List UInt8) : valueOf bs = value64 bs.reverse := by
  induction bs using List.reverseRecOn with
  | nil => rfl
  | append_singleton bs b ih =>
    have hlast : valueOf (bs ++ [b]) = valueOf bs <<< 8 ||| getUnsigned b := by
      simp [valueOf]
    rw [hlast, shift_or_eq, ih, List.reverse_append, List.reverse_singleton, List.singleton_append]
    unfold value64
    rw [leValue, BitVec.ofNat_add, BitVec.ofNat_mul, BitVec.add_comm, BitVec.mul_comm]
    rfl

/-- **The Java verifier accepts exactly the files with their sum behind them**, as long as the
length is an `int`. -/
theorem validateCheckSum_eq {file : List UInt8} (hlen : 8 ≤ file.length)
    (hint : file.length < 2 ^ 31) :
    ∃ verdict, validateCheckSum file = some verdict ∧
      (verdict = true ↔ ∃ p, file = withCheckSum p) := by
  have hwidth : bigEndian.width ≤ file.length := hlen
  have hsize : toInt file.length = file.length := toInt_eq_self (by omega) (by exact_mod_cast hint)
  have haccepts := Code.accepts_iff (C := bigEndian) (w := signedChar) hwidth
  simp only [validateCheckSum, hsize, Int.toNat_natCast, List.take_length]
  rw [if_neg (by omega), if_neg (by omega), List.take_of_length_le (length_last8 hlen).le,
    foldl_add_eq, foldl_add_eq, zero_add, zero_add, valueOf_eq]
  refine ⟨_, rfl, ?_⟩
  rw [beq_iff_eq]
  exact haccepts

/-- A file that is too short for a sum is no file with its sum, and is not accepted. -/
theorem validateCheckSum_of_lt {file : List UInt8} (hint : file.length < 2 ^ 31) :
    ∃ verdict, validateCheckSum file = some verdict ∧
      (verdict = true ↔ ∃ p, file = withCheckSum p) := by
  rcases Nat.lt_or_ge file.length 8 with hlt | hlen
  · have hsize : toInt file.length = file.length :=
      toInt_eq_self (by omega) (by exact_mod_cast hint)
    have hneg : (file.length : ℤ) - 8 < 0 := by omega
    refine ⟨false, ?_, iff_of_false Bool.false_ne_true ?_⟩
    · simp only [validateCheckSum, hsize]
      rw [if_neg (by omega), if_pos hneg]
    · rintro ⟨p, rfl⟩
      rw [length_withCheckSum] at hlt
      omega
  · exact validateCheckSum_eq hlen hint

end Java

end NetworkLabs.FileTransfer

import NetworkLabs.FileTransfer.Programs

/-!
# What the checksum detects

A checksum program writes a file with its sum behind it, and three verifiers look for that sum: the
checker of the same pair, the client that was copied from it, and the client in Java. A verifier
has nothing but the file. It finds every change of a single byte; a file that was cut off it
rejects unless what is left happens to end in its own sum.

## Main definitions

* `mychecksum`, `myunchecksum`: the writer and the checker
* `VerifiersAgree`: the three verifiers accept what the writer writes, and nothing else

## Main results

* `verifiersAgree_iff`: the files on which the verifiers agree
* `validateCheckSum_set`: every change of one byte is detected
* `fileclient_take`: the cut-off downloads that the client accepts
-/

namespace NetworkLabs.FileTransfer

open CRuntime TrailerSum Streams

/-! ## The writer and the checker -/

/-- What `mychecksum` writes: every byte as it is read, and the sum behind them. -/
def mychecksum (file : List UInt8) : List UInt8 :=
  let st := file.foldl (fun (st : BitVec 64 × List UInt8) c => (st.1 + signedChar c, st.2 ++ [c]))
    (0, [])
  st.2 ++ bytes64 (htobe64 st.1)

/-- `myunchecksum`: the verdict, and the copy that it makes of a file that does not match. The
check is the one that the client has copied. -/
def myunchecksum (stack : Mem UInt8) (file : List UInt8) : Bool × Option (List UInt8) :=
  if validateCheckSum stack file then (true, none)
  else
    -- `fseek` to eight bytes before the end tells how much is copied
    let sizeToRead := file.length - 8
    -- the result of `fread` goes into an `int`, which has to be the same for the copy to be made
    if toInt sizeToRead ≠ sizeToRead then (false, none)
    else (false, some (file.take sizeToRead))

theorem foldl_mychecksum (file : List UInt8) (x : BitVec 64) (out : List UInt8) :
    file.foldl (fun (st : BitVec 64 × List UInt8) c => (st.1 + signedChar c, st.2 ++ [c]))
      (x, out) = (x + weigh signedChar file, out ++ file) := by
  induction file generalizing x out with
  | nil => simp [weigh]
  | cons c file ih =>
    rw [List.foldl_cons, ih, weigh, weigh, List.map_cons, List.sum_cons, add_assoc,
      List.append_assoc, List.singleton_append]

/-- The writer writes the file with its sum behind it. -/
theorem mychecksum_eq (file : List UInt8) : mychecksum file = withCheckSum file := by
  simp only [mychecksum, foldl_mychecksum, zero_add, List.nil_append, bytes64_htobe64]
  rfl

theorem myunchecksum_fst (stack : Mem UInt8) (file : List UInt8) :
    (myunchecksum stack file).1 = validateCheckSum stack file := by
  unfold myunchecksum
  cases validateCheckSum stack file with
  | true => rfl
  | false =>
    simp only [Bool.false_eq_true, if_false]
    split <;> rfl

/-- What it copies of a file that does not match, as long as an `int` counts it. -/
theorem myunchecksum_of_lt {stack : Mem UInt8} {file : List UInt8}
    (hrejected : validateCheckSum stack file = false) (hsize : file.length - 8 < 2 ^ 31) :
    myunchecksum stack file = (false, some (file.take (file.length - 8))) := by
  have hint : toInt (file.length - 8 : ℕ) = (file.length - 8 : ℕ) :=
    toInt_eq_self (by omega) (by exact_mod_cast hsize)
  simp only [myunchecksum, hrejected, Bool.false_eq_true, if_false]
  rw [if_neg (not_not_intro hint)]

/-! ## Agreement of the verifiers -/

/-- The number that the last eight bytes of a file code. -/
def signature (file : List UInt8) : BitVec 64 := bigEndian.dec (bigEndian.trailer file)

/-- The sum of some bytes of a file without its last eight. -/
def sumWithout (summed file : List UInt8) : BitVec 64 :=
  weigh signedChar summed - weigh signedChar (bigEndian.trailer file)

/-- The Java verifier sums the bytes that its array has room for. -/
theorem Java.validateCheckSum_of_nonneg {file : List UInt8} (hlen : 8 ≤ file.length)
    (hsize : 0 ≤ toInt file.length) :
    validateCheckSum file =
      some (signature file == sumWithout (file.take (toInt file.length).toNat) file) := by
  simp only [validateCheckSum]
  rw [if_neg (not_lt.mpr hsize), if_neg (by omega), List.take_of_length_le (length_last8 hlen).le,
    foldl_add_eq, foldl_add_eq, zero_add, zero_add, valueOf_eq]
  rfl

/-- The C verifier sums all bytes. -/
theorem validateCheckSum_eq_beq (stack : Mem UInt8) {file : List UInt8} (hlen : 8 ≤ file.length) :
    validateCheckSum stack file = (signature file == sumWithout file file) := by
  simp only [validateCheckSum, if_pos hlen, foldl_add_eq, foldl_sub_eq, zero_add,
    be64toh_value64 (length_last8 hlen)]
  rfl

/-- The three verifiers come to one verdict, which is a match exactly on what the writer writes. -/
def VerifiersAgree (stack : Mem UInt8) (file : List UInt8) : Prop :=
  ∃ verdict, validateCheckSum stack file = verdict ∧ (myunchecksum stack file).1 = verdict ∧
    Java.validateCheckSum file = some verdict ∧
    (verdict = true ↔ ∃ p, file = mychecksum p) ∧
    (verdict = true ↔ ∃ p, file = p ++ bigEndian.enc (weigh signedChar p))

/-- The C verifiers are right on every file, so it is the Java verifier that decides. -/
theorem verifiersAgree_iff_java (stack : Mem UInt8) {file : List UInt8} (hlen : 8 ≤ file.length) :
    VerifiersAgree stack file ↔
      Java.validateCheckSum file = some (validateCheckSum stack file) := by
  constructor
  · rintro ⟨verdict, rfl, -, hjava, -⟩
    exact hjava
  · intro hjava
    have hright := validateCheckSum_iff stack hlen
    refine ⟨_, rfl, myunchecksum_fst stack file, hjava, ?_, hright⟩
    simp only [mychecksum_eq]
    exact hright

/-- **The verifiers agree exactly** when the length is not negative as an `int`, and the bytes past
that length sum to zero or the signature is neither the sum of all bytes nor of the others. -/
theorem verifiersAgree_iff (stack : Mem UInt8) (file : List UInt8) (hlen : 8 ≤ file.length) :
    VerifiersAgree stack file ↔
      0 ≤ toInt file.length ∧
        (weigh signedChar (file.drop (toInt file.length).toNat) = 0 ∨
          signature file ≠ sumWithout file file ∧
            signature file ≠ sumWithout (file.take (toInt file.length).toNat) file) := by
  have hsplit := weigh_append signedChar (file.take (toInt file.length).toNat)
    (file.drop (toInt file.length).toNat)
  rw [List.take_append_drop] at hsplit
  rw [verifiersAgree_iff_java stack hlen, validateCheckSum_eq_beq stack hlen]
  rcases lt_or_ge (toInt file.length) 0 with hneg | hsize
  -- an array of negative length: the Java verifier throws
  · have hthrow : Java.validateCheckSum file = none := by
      simp only [Java.validateCheckSum]
      rw [if_pos hneg]
    rw [hthrow]
    constructor
    · intro h
      cases h
    · rintro ⟨hsize, -⟩
      exact absurd hneg (not_lt.mpr hsize)
  · rw [Java.validateCheckSum_of_nonneg hlen hsize, Option.some_inj]
    -- the two sums differ by the bytes that the array has no room for
    have hsums : sumWithout file file = sumWithout (file.take (toInt file.length).toNat) file +
        weigh signedChar (file.drop (toInt file.length).toNat) := by
      rw [sumWithout, sumWithout, hsplit, add_sub_right_comm]
    rw [hsums, Bool.eq_iff_iff, beq_iff_eq, beq_iff_eq, and_iff_right hsize]
    constructor
    · intro h
      by_cases hsig : signature file = sumWithout (file.take (toInt file.length).toNat) file
      · left
        exact left_eq_add.mp (hsig.symm.trans (h.mp hsig))
      · right
        exact ⟨fun hall => hsig (h.mpr hall), hsig⟩
    · rintro (hzero | ⟨hall, hsig⟩)
      · rw [hzero, add_zero]
      · exact ⟨fun h => absurd h hsig, fun h => absurd h hall⟩

/-- Three bytes with their sum behind them. -/
def summedThree : List UInt8 := mychecksum [1, 2, 0xFF]

theorem verifiersAgree_iff_summedThree :
    VerifiersAgree (fun _ => 0) summedThree ↔
      0 ≤ toInt summedThree.length ∧
        (weigh signedChar (summedThree.drop (toInt summedThree.length).toNat) = 0 ∨
          signature summedThree ≠ sumWithout summedThree summedThree ∧
            signature summedThree ≠
              sumWithout (summedThree.take (toInt summedThree.length).toNat) summedThree) :=
  verifiersAgree_iff (fun _ => 0) summedThree (by decide)

/-- A file of two gigabytes: its length is negative as an `int`. -/
def twoGigabytes : List UInt8 := List.replicate (2 ^ 31) 0

/-- The Java verifier throws where the C verifiers come to a verdict. -/
theorem twoGigabytes_not_verifiersAgree :
    8 ≤ twoGigabytes.length ∧ ¬ VerifiersAgree (fun _ => 0) twoGigabytes := by
  have hlen : twoGigabytes.length = 2 ^ 31 := List.length_replicate
  have hneg : toInt twoGigabytes.length < 0 := by
    rw [hlen]
    exact toInt_neg (by norm_num) (by norm_num)
  refine ⟨by rw [hlen]; norm_num, ?_⟩
  rintro ⟨verdict, -, -, hjava, -⟩
  simp only [Java.validateCheckSum] at hjava
  rw [if_pos hneg] at hjava
  cases hjava

/-! ## A change of one byte -/

theorem signedChar_injective : Function.Injective signedChar := by
  intro a b h
  have hint := congrArg BitVec.toInt h
  unfold signedChar at hint
  rw [BitVec.toInt_signExtend_of_le (by omega), BitVec.toInt_signExtend_of_le (by omega)] at hint
  exact UInt8.toBitVec_inj.mp (BitVec.eq_of_toInt_eq hint)

/-- **Every change of one byte is detected**, in the payload and in the sum. -/
theorem validateCheckSum_set (stack : Mem UInt8) (p : List UInt8) (i : ℕ)
    (hi : i < (withCheckSum p).length) (b : UInt8) (hb : b ≠ (withCheckSum p)[i]) :
    validateCheckSum stack ((withCheckSum p).set i b) = false := by
  have hlen : 8 ≤ ((withCheckSum p).set i b).length := by
    rw [List.length_set, length_withCheckSum]
    omega
  have hwidth : bigEndian.width ≤ ((withCheckSum p).set i b).length := hlen
  rw [← Bool.not_eq_true, validateCheckSum_iff stack hlen]
  intro h
  exact Code.not_accepts_set signedChar_injective hi hb ((Code.accepts_iff hwidth).mpr h)

/-- The first byte of a file of one byte is replaced. -/
theorem validateCheckSum_set_first :
    validateCheckSum (fun _ => 0) ((withCheckSum [1]).set 0 2) = false :=
  validateCheckSum_set (fun _ => 0) [1] 0 (by decide) 2 (by decide)

/-! ## A download that is cut off -/

/-- **A download that is cut off behind its first bytes** is accepted exactly when these bytes are
themselves a file with its sum behind it. -/
theorem fileclient_take (stack : Mem UInt8) (p : List UInt8) (k : ℕ) (hk : 8 ≤ k)
    {B B' : ℕ} (reads : Segmentation B p) :
    ∃ stream, fileserver (results reads .eof) = some stream ∧
      ∀ received : Segmentation B' (stream.take k), ∃ accepted,
        fileclient stack (results received .eof) =
          some (.verdict (stream.take k) accepted (stream.take k).length) ∧
        (accepted = true ↔ ∃ q, stream.take k = withCheckSum q) := by
  refine ⟨withCheckSum p, fileserver_eq reads le_rfl, fun received => ?_⟩
  have hlen : 8 ≤ ((withCheckSum p).take k).length := by
    rw [List.length_take, length_withCheckSum]
    omega
  have hne : (withCheckSum p).take k ≠ [] := List.ne_nil_of_length_pos (by omega)
  exact ⟨_, fileclient_eq stack received hne, validateCheckSum_iff stack hlen⟩

/-- A file of eight zeros. -/
def zeros : List UInt8 := List.replicate 8 0

theorem zeros_ne_nil : zeros ≠ [] := by decide

theorem fileclient_take_zeros :
    ∃ stream, fileserver (results (Segmentation.whole zeros_ne_nil) .eof) = some stream ∧
      ∀ received : Segmentation 8 (stream.take 8), ∃ accepted,
        fileclient (fun _ => 0) (results received .eof) =
          some (.verdict (stream.take 8) accepted (stream.take 8).length) ∧
        (accepted = true ↔ ∃ q, stream.take 8 = withCheckSum q) :=
  fileclient_take (fun _ => 0) zeros 8 le_rfl (Segmentation.whole zeros_ne_nil)

/-- Eight zeros are the sum of nothing: without the sum that follows them they are accepted. -/
theorem zeros_cut_accepted :
    fileserver [.bytes zeros, .eof] = some (withCheckSum zeros) ∧ 8 < zeros.length + 8 ∧
      fileclient (fun _ => 0) [.bytes ((withCheckSum zeros).take 8), .eof] =
        some (.verdict ((withCheckSum zeros).take 8) true 8) := by
  refine ⟨rfl, by decide, ?_⟩
  rfl

end NetworkLabs.FileTransfer

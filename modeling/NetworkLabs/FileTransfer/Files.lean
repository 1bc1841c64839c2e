import NetworkLabs.FileTransfer.Detection
import NetworkLabs.Runtime.Files
import Mathlib.Logic.Function.Basic

/-!
# The checksum programs and their files

`mychecksum` reads one file byte by byte and writes another; the two may be one file. It opens its
output without cutting it off, so that the end of a longer file stays behind the checksum. So does
`myunchecksum`, which copies what it has found not to match.

## Main definitions

* `Copying`, `mychecksumLoop`: the loop of `mychecksum` with the files it works on
* `checkSumInto`, `unCheckSumInto`: the two programs

## Main results

* `mychecksumLoop_eq`: the loop copies, also when it reads what it writes
* `checked_files`: what the two programs do with their files, one after the other
-/

namespace NetworkLabs.FileTransfer

open CRuntime TrailerSum

variable {Name : Type*} [DecidableEq Name]

/-! ## The programs -/

/-- `open` with `O_CREAT`. -/
def create (disk : Disk Name) (b : Name) : Disk Name :=
  Function.update disk b (some ((disk b).getD []))

/-- `write` to a descriptor of `b` at the offset `i`. -/
def writeTo (disk : Disk Name) (b : Name) (i : ℕ) (s : List UInt8) : Disk Name :=
  Function.update disk b (some (pwrite ((disk b).getD []) i s))

/-- The variables of `mychecksum`, with the offsets of its descriptors and the files. -/
structure Copying (Name : Type*) where
  disk : Disk Name
  fd : ℕ
  fdw : ℕ
  check_sum : BitVec 64

/-- The byte that the next `read` gives, `none` at the end. -/
def Copying.next (st : Copying Name) (a : Name) : Option UInt8 :=
  (st.disk a).bind fun f => f[st.fd]?

/-- The body of the loop. -/
def Copying.copy (st : Copying Name) (b : Name) (c : UInt8) : Copying Name where
  disk := writeTo st.disk b st.fdw [c]
  fd := st.fd + 1
  fdw := st.fdw + 1
  check_sum := st.check_sum + signedChar c

/-- The loop of `mychecksum` up to `n` calls of `read`. -/
def mychecksumLoop (a b : Name) : ℕ → Copying Name → Option (Copying Name)
  | 0, _ => none
  | n + 1, st =>
    match st.next a with
    | none => some st
    | some c => mychecksumLoop a b n (st.copy b c)

/-- `mychecksum a b` on a file `a` that can be read, up to `n` calls of `read`. -/
def checkSumInto (n : ℕ) (a b : Name) (disk : Disk Name) : Option (Disk Name) :=
  (mychecksumLoop a b n ⟨create disk b, 0, 0, 0⟩).map fun st =>
    writeTo st.disk b st.fdw (bytes64 (htobe64 st.check_sum))

/-- `myunchecksum b c`: the verdict and the files; `none` when `b` cannot be opened. -/
def unCheckSumInto (stack : Mem UInt8) (b c : Name) (disk : Disk Name) :
    Option (Bool × Disk Name) :=
  (disk b).map fun file =>
    match myunchecksum stack file with
    | (verdict, none) => (verdict, disk)
    -- one call of `write`, whose result is not looked at
    | (verdict, some buffer) =>
      (verdict, writeTo (create disk c) c 0 (buffer.take MAX_RW_COUNT))

/-! ## Writing -/

section Write

variable {disk : Disk Name} {a b : Name} {s : List UInt8} {i : ℕ}

theorem writeTo_self : writeTo disk b i s b = some (pwrite ((disk b).getD []) i s) :=
  Function.update_self ..

theorem writeTo_of_ne (h : a ≠ b) : writeTo disk b i s a = disk a := Function.update_of_ne h ..

/-- What is created is a file with nothing written. -/
theorem create_eq : create disk b = writeTo disk b 0 [] := by
  rw [create, writeTo, pwrite_zero, List.nil_append, List.length_nil, List.drop_zero]

/-- One write behind another. -/
theorem writeTo_writeTo (disk : Disk Name) (b : Name) (i : ℕ) (s t : List UInt8) :
    writeTo (writeTo disk b i s) b (i + s.length) t = writeTo disk b i (s ++ t) := by
  rw [writeTo, writeTo_self, Option.getD_some, pwrite_pwrite]
  exact Function.update_idem ..

end Write

/-! ## The loop -/

section Loop

variable {disk : Disk Name} {a b : Name} {f : List UInt8}

/-- The file that is read stays as it is, also when its beginning is written over it. -/
theorem writeTo_take (ha : disk a = some f) (k : ℕ) :
    writeTo disk b 0 (f.take k) a = some f := by
  by_cases hab : a = b
  · obtain rfl := hab
    rw [writeTo_self, ha, Option.getD_some, pwrite_zero, List.length_take]
    rcases Nat.le_total k f.length with hle | hle
    · rw [Nat.min_eq_left hle, List.take_append_drop]
    · rw [List.take_of_length_le hle, Nat.min_eq_right hle, List.drop_length, List.append_nil]
  · rw [writeTo_of_ne hab, ha]

/-- The state of the loop behind the first `k` bytes. -/
def copied (disk : Disk Name) (b : Name) (f : List UInt8) (k : ℕ) : Copying Name where
  disk := writeTo disk b 0 (f.take k)
  fd := k
  fdw := k
  check_sum := weigh signedChar (f.take k)

theorem next_copied (ha : disk a = some f) (k : ℕ) : (copied disk b f k).next a = f[k]? := by
  have hdisk : (copied disk b f k).disk a = some f := writeTo_take ha k
  rw [Copying.next, hdisk, Option.bind_some]
  rfl

/-- One byte more. -/
theorem copy_copied {k : ℕ} (hk : k < f.length) :
    (copied disk b f k).copy b f[k] = copied disk b f (k + 1) := by
  have htake : f.take (k + 1) = f.take k ++ [f[k]] := (List.take_append_getElem hk).symm
  have hlen : (f.take k).length = k := List.length_take_of_le hk.le
  have hwrite := writeTo_writeTo disk b 0 (f.take k) [f[k]]
  rw [hlen, Nat.zero_add] at hwrite
  have hweigh : weigh signedChar [f[k]] = signedChar f[k] := by simp [weigh]
  simp only [copied, Copying.copy, htake, hwrite, weigh_append, hweigh]

/-- **The loop copies**, also when it reads what it writes. -/
theorem mychecksumLoop_eq (ha : disk a = some f) {n k : ℕ} (hk : k ≤ f.length)
    (hn : f.length < k + n) :
    mychecksumLoop a b n (copied disk b f k) = some (copied disk b f f.length) := by
  induction n generalizing k with
  | zero => omega
  | succ n ih =>
    rw [mychecksumLoop, next_copied ha]
    rcases hk.eq_or_lt with rfl | hlt
    · rw [List.getElem?_eq_none le_rfl]
    · rw [List.getElem?_eq_getElem hlt]
      dsimp only
      rw [copy_copied hlt]
      exact ih hlt (by omega)

/-- **The file with its sum**, over what was there. -/
theorem checkSumInto_eq (ha : disk a = some f) {n : ℕ} (hn : f.length < n) :
    checkSumInto n a b disk = some (writeTo disk b 0 (withCheckSum f)) := by
  have hstart : (⟨create disk b, 0, 0, 0⟩ : Copying Name) = copied disk b f 0 := by
    rw [copied, create_eq, List.take_zero]
    rfl
  have hloop := mychecksumLoop_eq (b := b) ha (Nat.zero_le f.length) (n := n) (by omega)
  have hwrite := writeTo_writeTo disk b 0 f (bigEndian.enc (weigh signedChar f))
  rw [Nat.zero_add] at hwrite
  rw [checkSumInto, hstart, hloop, Option.map_some]
  simp only [copied, List.take_length, bytes64_htobe64, hwrite]
  rfl

end Loop

/-! ## One program after the other -/

section Check

variable {disk : Disk Name} {b : Name} {g : List UInt8}

/-- The checker leaves the file that it checks as it is, and all others but its output. -/
theorem unCheckSumInto_eq (stack : Mem UInt8) (c : Name) (hb : disk b = some g)
    (hsize : g.length ≤ MAX_RW_COUNT) :
    ∃ disk', unCheckSumInto stack b c disk = some (validateCheckSum stack g, disk') ∧
      disk' b = some g ∧ (∀ x, x ≠ c → disk' x = disk x) ∧
      (validateCheckSum stack g = true → disk' = disk) ∧
      (validateCheckSum stack g = false → disk' c =
        some (g.take (g.length - 8) ++ ((disk c).getD []).drop (g.length - 8))) := by
  rw [unCheckSumInto, hb, Option.map_some]
  cases hverdict : validateCheckSum stack g with
  | true =>
    refine ⟨disk, ?_, hb, fun x _ => rfl, fun _ => rfl, fun h => ?_⟩
    · simp only [myunchecksum, hverdict, if_true]
    · cases h
  | false =>
    have hlen : (g.take (g.length - 8)).length = g.length - 8 :=
      List.length_take_of_le (Nat.sub_le _ _)
    have hint : g.length - 8 < 2 ^ 31 := by
      unfold MAX_RW_COUNT at hsize
      omega
    have hall : (g.take (g.length - 8)).take MAX_RW_COUNT = g.take (g.length - 8) :=
      List.take_of_length_le (by omega)
    have hcreate : writeTo (create disk c) c 0 (g.take (g.length - 8)) =
        writeTo disk c 0 (g.take (g.length - 8)) := by
      have hwrite := writeTo_writeTo disk c 0 [] (g.take (g.length - 8))
      rwa [List.length_nil, Nat.zero_add, List.nil_append, ← create_eq] at hwrite
    refine ⟨writeTo disk c 0 (g.take (g.length - 8)), ?_, writeTo_take hb _,
      fun x hx => writeTo_of_ne hx, fun h => ?_, fun _ => ?_⟩
    · simp only [myunchecksum_of_lt hverdict hint, hall, hcreate]
    · cases h
    · rw [writeTo_self, pwrite_zero, hlen]

end Check

/-- **The two programs and their files**, when one `write` is enough for them. `mychecksum` writes
the file with its sum over the old output, of which the end is left, and touches no other file; so
the output is what it should be exactly when the old one was no longer, and always when the two
files are one. `myunchecksum` then accepts it exactly when it is the output for some file, and
leaves it as it is in any case; when it does not accept it, all but the last eight bytes go over the
beginning of its own output. -/
theorem checked_files (stack : Mem UInt8) (disk : Disk Name) {a : Name} (b c : Name)
    {f : List UInt8} (ha : disk a = some f) {n : ℕ} (hn : f.length < n)
    (hsize : f.length + 8 ≤ MAX_RW_COUNT) (hold : ((disk b).getD []).length ≤ MAX_RW_COUNT) :
    ∃ disk' g disk'', checkSumInto n a b disk = some disk' ∧ disk' b = some g ∧
      g = mychecksum f ++ ((disk b).getD []).drop (f.length + 8) ∧
      (∀ x, x ≠ b → disk' x = disk x) ∧
      (g = mychecksum f ↔ ((disk b).getD []).length ≤ f.length + 8) ∧
      ∃ verdict, unCheckSumInto stack b c disk' = some (verdict, disk'') ∧
        (verdict = true ↔ ∃ q, g = mychecksum q) ∧ disk'' b = some g ∧
        (∀ x, x ≠ c → disk'' x = disk' x) ∧ (verdict = true → disk'' = disk') ∧
        (verdict = false → disk'' c =
          some (g.take (g.length - 8) ++ ((disk' c).getD []).drop (g.length - 8))) := by
  have hb : writeTo disk b 0 (withCheckSum f) b =
      some (mychecksum f ++ ((disk b).getD []).drop (f.length + 8)) := by
    rw [writeTo_self, pwrite_zero, length_withCheckSum, mychecksum_eq]
  have hlen : (mychecksum f ++ ((disk b).getD []).drop (f.length + 8)).length ≤ MAX_RW_COUNT := by
    rw [List.length_append, mychecksum_eq, length_withCheckSum, List.length_drop]
    omega
  obtain ⟨disk'', hcheck, hkept, hothers, haccepted, hrejected⟩ :=
    unCheckSumInto_eq stack c hb hlen
  refine ⟨_, _, disk'', checkSumInto_eq ha hn, hb, rfl, fun x hx => writeTo_of_ne hx, ?_, _, hcheck,
    ?_, hkept, hothers, haccepted, hrejected⟩
  · rw [List.append_right_eq_self, List.drop_eq_nil_iff]
  · have hlen : 8 ≤ (mychecksum f ++ ((disk b).getD []).drop (f.length + 8)).length := by
      rw [List.length_append, mychecksum_eq, length_withCheckSum]
      omega
    have hright := validateCheckSum_iff stack hlen
    simp only [mychecksum_eq] at hright ⊢
    exact hright

/-- A file of one byte, and one of ten. -/
def oneAndTen : Disk Bool
  | false => some [1]
  | true => some (List.replicate 10 0)

/-- The sum of one byte takes nine bytes, so that one is left of the old output. -/
theorem checked_files_oneAndTen : ∃ disk' g, checkSumInto 2 false true oneAndTen = some disk' ∧
    disk' true = some g ∧ g ≠ mychecksum [1] := by
  obtain ⟨disk', g, disk'', hrun, hg, -, -, hexact, -⟩ :=
    checked_files (fun _ => 0) oneAndTen true true (a := false) (f := [1]) rfl
      (Nat.lt_succ_self 1) (by decide) (by decide)
  refine ⟨disk', g, hrun, hg, fun heq => ?_⟩
  have hle : 10 ≤ 9 := hexact.mp heq
  omega

end NetworkLabs.FileTransfer

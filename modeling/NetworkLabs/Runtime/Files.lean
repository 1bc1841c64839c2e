import Mathlib.Data.List.TakeDrop

/-!
# Writing into files

A descriptor has an offset of its own into its file. What is written replaces the bytes that lie
there and leaves those behind them, so that a file that is opened without being cut off keeps the
end of its old contents.

## Main definitions

* `Disk`: the files of a directory by their names
* `pwrite file i s`: the file after a write at the offset `i`

## Main results

* `pwrite_pwrite`: one write behind another is one write of both
* `pwrite_pieces`: a piece of a text, written in its place over a beginning of that text
-/

namespace CRuntime

/-- The files of a directory. -/
abbrev Disk (Name : Type*) := Name → Option (List UInt8)

/-- The most that one call of `write` transfers. -/
def MAX_RW_COUNT : ℕ := 0x7ffff000

/-- The file after `s` is written at the offset `i`; a hole is filled with zeros. -/
def pwrite (file : List UInt8) (i : ℕ) (s : List UInt8) : List UInt8 :=
  file.takeD i 0 ++ s ++ file.drop (i + s.length)

section Write

variable {file s t : List UInt8} {i k : ℕ}

theorem pwrite_of_le (h : i ≤ file.length) :
    pwrite file i s = file.take i ++ s ++ file.drop (i + s.length) := by
  rw [pwrite, List.takeD_eq_take 0 h]

/-- A write at the start. -/
theorem pwrite_zero : pwrite file 0 s = s ++ file.drop s.length := by
  rw [pwrite_of_le (Nat.zero_le _), List.take_zero, List.nil_append, Nat.zero_add]

/-- **One write behind another** is one write of both. -/
theorem pwrite_pwrite : pwrite (pwrite file i s) (i + s.length) t = pwrite file i (s ++ t) := by
  have hlen : (file.takeD i 0 ++ s).length = i + s.length := by
    rw [List.length_append, List.takeD_length]
  have htake : (file.takeD i 0 ++ s ++ file.drop (i + s.length)).takeD (i + s.length) 0 =
      file.takeD i 0 ++ s := by
    rw [← hlen, List.takeD_left]
  have hdrop : (file.takeD i 0 ++ s ++ file.drop (i + s.length)).drop
      (i + s.length + t.length) = file.drop (i + (s ++ t).length) := by
    rw [← hlen, List.drop_length_add_append, List.drop_drop, hlen, List.length_append,
      Nat.add_assoc]
  rw [pwrite, pwrite, htake, hdrop, pwrite, List.append_assoc (file.takeD i 0)]

/-- **A piece of a text**, written in its place over a beginning of that text. -/
theorem pwrite_pieces {m : ℕ} (hi : i ≤ m) (hm : m ≤ s.length) (hk : i + k ≤ s.length) :
    pwrite (s.take m) i ((s.drop i).take k) = s.take (max m (i + k)) := by
  have hlen : ((s.drop i).take k).length = k := by
    rw [List.length_take, List.length_drop]
    omega
  have hpiece : s.take i ++ (s.drop i).take k = s.take (i + k) := List.take_add.symm
  rw [pwrite_of_le (by rw [List.length_take]; omega), hlen, List.take_take,
    Nat.min_eq_left hi, hpiece, List.drop_take]
  rcases Nat.le_total m (i + k) with hle | hle
  · rw [Nat.sub_eq_zero_of_le hle, List.take_zero, List.append_nil, Nat.max_eq_right hle]
  · rw [Nat.max_eq_left hle, ← List.take_add, Nat.add_sub_cancel' hle]

end Write

end CRuntime

import NetworkLabs.Runtime.Text

/-!
# Reading lines

`fgets` reads up to a newline, which it keeps, or up to one byte less than its buffer holds. At the
end of the stream it leaves the buffer alone.

## Main definitions

* `piece n s`: what a call takes from the stream `s` when there is room for `n` bytes
* `fgets m n s`: the buffer and the stream after the call
* `Holds m n t`: the string `t` stands in a buffer of `n` bytes

## Main results

* `piece_line`: a line that fits is taken whole
* `holds_fgets`: the string after a call
-/

namespace CRuntime

/-- The character `'\\n'`. -/
def newline : UInt8 := 10

/-- What is taken from a stream when there is room for `n` bytes. -/
def piece : ℕ → List UInt8 → List UInt8
  | 0, _ => []
  | _, [] => []
  | n + 1, b :: s => if b = newline then [b] else b :: piece n s

/-- `fgets(m, n, stdin)`, for `n` at least two: the buffer and the rest of the stream. -/
def fgets (m : Mem UInt8) (n : ℕ) (s : List UInt8) : Mem UInt8 × List UInt8 :=
  -- at the end of the stream the call fails
  if s = [] then (m, [])
  else (m.store 0 (piece (n - 1) s ++ [0]), s.drop (piece (n - 1) s).length)

/-- A buffer of `n` bytes starts with the string `t` and its terminator. -/
def Holds (m : Mem UInt8) (n : ℕ) (t : List UInt8) : Prop :=
  0 ∉ t ∧ ∃ rest, m.read n = t ++ 0 :: rest

@[simp] theorem fgets_nil (m : Mem UInt8) (n : ℕ) : fgets m n [] = (m, []) := if_pos rfl

theorem fgets_snd {s : List UInt8} (hs : s ≠ []) (m : Mem UInt8) (n : ℕ) :
    (fgets m n s).2 = s.drop (piece (n - 1) s).length := by
  rw [fgets, if_neg hs]

/-! ## Pieces of a stream -/

section Piece

variable {n : ℕ} {s w : List UInt8}

theorem piece_isPrefix (n : ℕ) (s : List UInt8) : piece n s <+: s := by
  fun_induction piece n s with
  | case1 => exact List.nil_prefix
  | case2 => exact List.nil_prefix
  | case3 n s => exact ⟨s, rfl⟩
  | case4 n b s hb ih => exact List.cons_prefix_cons.mpr ⟨rfl, ih⟩

theorem length_piece_le (n : ℕ) (s : List UInt8) : (piece n s).length ≤ n := by
  fun_induction piece n s with
  | case1 => exact le_rfl
  | case2 => exact Nat.zero_le _
  | case3 n s => exact Nat.le_add_left 1 n
  | case4 n b s hb ih => exact Nat.succ_le_succ ih

theorem piece_ne_nil (hn : 0 < n) (hs : s ≠ []) : piece n s ≠ [] := by
  fun_cases piece n s with
  | case1 => exact absurd hn (lt_irrefl 0)
  | case2 => exact absurd rfl hs
  | case3 n s => exact List.cons_ne_nil _ _
  | case4 n b s hb => exact List.cons_ne_nil _ _

theorem piece_cons_newline (n : ℕ) (s : List UInt8) :
    piece (n + 1) (newline :: s) = [newline] :=
  if_pos rfl

theorem piece_cons {b : UInt8} (hb : b ≠ newline) (n : ℕ) (s : List UInt8) :
    piece (n + 1) (b :: s) = b :: piece n s :=
  if_neg hb

/-- A line that fits is taken whole. -/
theorem piece_line (hw : newline ∉ w) (hn : w.length < n) (r : List UInt8) :
    piece n (w ++ newline :: r) = w ++ [newline] := by
  induction w generalizing n with
  | nil =>
    obtain ⟨k, rfl⟩ := Nat.exists_eq_add_of_le' (Nat.one_le_of_lt hn)
    exact piece_cons_newline k r
  | cons b w ih =>
    obtain ⟨hb, hw⟩ := List.ne_and_not_mem_of_not_mem_cons hw
    obtain ⟨k, rfl⟩ := Nat.exists_eq_add_of_le' (Nat.one_le_of_lt hn)
    rw [List.cons_append, piece_cons hb.symm, ih hw (Nat.lt_of_succ_lt_succ hn), List.cons_append]

/-- So is a last line without a newline. -/
theorem piece_last (hw : newline ∉ w) (hn : w.length ≤ n) : piece n w = w := by
  induction w generalizing n with
  | nil => cases n <;> rfl
  | cons b w ih =>
    obtain ⟨hb, hw⟩ := List.ne_and_not_mem_of_not_mem_cons hw
    obtain ⟨k, rfl⟩ := Nat.exists_eq_add_of_le' (Nat.one_le_of_lt hn)
    rw [piece_cons hb.symm, ih hw (Nat.le_of_succ_le_succ hn)]

end Piece

/-! ## Strings in a buffer -/

section Holds

variable {m : Mem UInt8} {n : ℕ} {t : List UInt8}

theorem Holds.zero_mem (h : Holds m n t) : 0 ∈ m.read n := by
  obtain ⟨-, rest, hread⟩ := h
  rw [hread]
  exact List.mem_append_right _ List.mem_cons_self

theorem Holds.cstring_eq (h : Holds m n t) : cstring (m.read n) = t := by
  obtain ⟨h0, rest, hread⟩ := h
  rw [hread, cstring_append_zero h0]

/-- A terminator in the buffer makes a string of what stands before it. -/
theorem holds_cstring (h : 0 ∈ m.read n) : Holds m n (cstring (m.read n)) :=
  ⟨zero_notMem_cstring _, exists_eq_cstring_append h⟩

theorem holds_of_read {k : ℕ} (h0 : 0 ∉ t) (hk : k ≤ n) (h : m.read k = t ++ [0]) :
    Holds m n t := by
  refine ⟨h0, (m.read n).drop k, ?_⟩
  rw [← List.singleton_append, ← List.append_assoc, ← h, Mem.read_append_drop m hk]

/-- A string and its terminator, stored at the start. -/
theorem holds_store (h0 : 0 ∉ t) (hlen : t.length < n) (m : Mem UInt8) :
    Holds (m.store 0 (t ++ [0])) n t := by
  have hle : 0 + (t ++ [0]).length ≤ n := by simpa using hlen
  exact holds_of_read h0 hle (m.read_store 0 (t ++ [0]))

/-- A terminator in place of the last character. -/
theorem Holds.store_zero {b : UInt8} (h : Holds m n (t ++ [b])) :
    Holds (m.store t.length [0]) n t := by
  obtain ⟨h0, rest, hread⟩ := h
  have hlen : t.length + 1 ≤ n := by
    have := congrArg List.length hread
    simp at this
    omega
  -- the characters before it stay
  have hfront : m.read t.length = t := by
    rw [← Mem.take_read m (Nat.le_of_succ_le hlen), hread, List.append_assoc, List.take_left' rfl]
  have hstore := m.read_store t.length [0]
  rw [List.length_singleton, hfront] at hstore
  exact holds_of_read (fun hmem => h0 (List.mem_append_left _ hmem)) hlen hstore

/-- **The string after a call** is the piece that was taken. -/
theorem holds_fgets {s : List UInt8} (hs : s ≠ []) (h0 : 0 ∉ s) (hn : 0 < n) (m : Mem UInt8) :
    Holds (fgets m n s).1 n (piece (n - 1) s) := by
  have hlen := length_piece_le (n - 1) s
  rw [fgets, if_neg hs]
  exact holds_store (fun hmem => h0 ((piece_isPrefix _ _).subset hmem)) (by omega) m

end Holds

end CRuntime

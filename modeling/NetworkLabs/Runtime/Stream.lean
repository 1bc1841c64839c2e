import NetworkLabs.Runtime.Stdio
import Mathlib.Data.PNat.Basic

/-!
# A standard input that programs share

An open file has one offset, which a program shares with every program that it starts. `stdio` reads
ahead of what it hands out, so the offset is not where the program is in its input. A program that
calls `exit` gives back what it did not use: the offset is set back, where there is a file to set it
back in; of a pipe or a terminal nothing is given back.

## Main definitions

* `OpenFile`: what a file holds and how far it was read; `left`, `back`
* `Stream`: an open file, what was read ahead of it, and the mark of its end
* `Stream.getc`, `Stream.getLine`, `Stream.fgets`: reading from it
* `Stream.rest`: what the stream still has to give
* `Stream.Synced`: what was read ahead stands before the offset

## Main results

* `Stream.fgets_eq`: a stream is read like the list of what it has to give
* `Stream.Synced.fgets`: what was read ahead stays before the offset
* `Stream.rest_back`: once it is given back it is read again
-/

namespace CRuntime

/-! ## An open file -/

/-- What a file holds, and how much of it was read. -/
structure OpenFile where
  content : List UInt8
  offset : ℕ

namespace OpenFile

/-- What was not read. -/
def left (f : OpenFile) : List UInt8 := f.content.drop f.offset

/-- `lseek(fd, -n, SEEK_CUR)`, which refuses an offset before the start. -/
def back (f : OpenFile) (n : ℕ) : OpenFile :=
  if n ≤ f.offset then { f with offset := f.offset - n } else f

end OpenFile

/-! ## A stream -/

/-- A `FILE` that is read: its open file, what was read ahead, and whether the end was met. -/
structure Stream where
  file : OpenFile
  ahead : List UInt8
  eof : Bool

namespace Stream

/-- The stream at the start of its input. -/
def start (input : List UInt8) : Stream := ⟨⟨input, 0⟩, [], false⟩

/-- Where nothing was read ahead a `read` fetches more: of what is left, `amount` says how much it
gives. At the end of the file the stream is marked, and not read any more. -/
def underflow (amount : ℕ → ℕ+) (s : Stream) : Stream :=
  if s.ahead ≠ [] ∨ s.eof then s
  else
    let got := s.file.left.take (amount s.file.left.length)
    if got = [] then { s with eof := true }
    else { s with file := { s.file with offset := s.file.offset + got.length }, ahead := got }

/-- The next character; none at the end. -/
def getc (amount : ℕ → ℕ+) (s : Stream) : Option UInt8 × Stream :=
  let s := s.underflow amount
  (s.ahead.head?, { s with ahead := s.ahead.tail })

/-- A line, or as much of it as there is room for. -/
def getLine (amount : ℕ → ℕ+) : ℕ → Stream → List UInt8 × Stream
  | 0, s => ([], s)
  | n + 1, s =>
    match s.getc amount with
    | (none, s) => ([], s)
    | (some b, s) =>
      if b = newline then ([b], s)
      else
        let line := getLine amount n s
        (b :: line.1, line.2)

/-- `fgets(m, n, stdin)`. -/
def fgets (amount : ℕ → ℕ+) (m : Mem UInt8) (n : ℕ) (s : Stream) : Mem UInt8 × Stream :=
  let line := s.getLine amount (n - 1)
  -- at the end of the stream the call fails
  (if line.1 = [] then m else m.store 0 (line.1 ++ [0]), line.2)

/-- What the stream still has to give. -/
def rest (s : Stream) : List UInt8 := s.ahead ++ if s.eof then [] else s.file.left

/-- What was read ahead stands before the offset; at the end there is nothing of it. -/
structure Synced (s : Stream) : Prop where
  length_le : s.ahead.length ≤ s.file.offset
  drop_eq : s.file.content.drop (s.file.offset - s.ahead.length) = s.ahead ++ s.file.left
  ahead_eq : s.eof = true → s.ahead = []

/-! ## A stream is read like a list -/

section Read

variable {amount : ℕ → ℕ+} {s : Stream}

theorem synced_start (input : List UInt8) : (start input).Synced :=
  ⟨Nat.le_refl 0, rfl, fun h => absurd h Bool.false_ne_true⟩

/-- What a `read` gives and what it leaves are what was left. -/
theorem take_append_left (f : OpenFile) (n : ℕ) :
    f.left.take n ++ f.content.drop (f.offset + (f.left.take n).length) = f.left := by
  unfold OpenFile.left
  rw [← List.drop_drop]
  exact List.prefix_iff_eq_append.mp (List.take_prefix n _)

/-- **What `underflow` can do**: nothing, to find the end, or to read ahead. -/
theorem underflow_cases (amount : ℕ → ℕ+) (s : Stream) :
    (s.ahead ≠ [] ∨ s.eof = true) ∧ s.underflow amount = s ∨
      s.ahead = [] ∧ s.eof = false ∧
        (s.file.left = [] ∧ s.underflow amount = { s with eof := true } ∨
          ∃ got, got ≠ [] ∧
            got ++ s.file.content.drop (s.file.offset + got.length) = s.file.left ∧
            s.underflow amount =
              ⟨{ s.file with offset := s.file.offset + got.length }, got, s.eof⟩) := by
  by_cases hskip : s.ahead ≠ [] ∨ s.eof = true
  · exact .inl ⟨hskip, if_pos hskip⟩
  · obtain ⟨hnil, heof⟩ := not_or.mp hskip
    refine .inr ⟨not_not.mp hnil, eq_false_of_ne_true heof, ?_⟩
    by_cases hgot : s.file.left.take (amount s.file.left.length) = []
    · exact .inl ⟨(List.take_eq_nil_iff.mp hgot).resolve_left (PNat.ne_zero _),
        (if_neg hskip).trans (if_pos hgot)⟩
    · exact .inr ⟨_, hgot, take_append_left s.file _, (if_neg hskip).trans (if_neg hgot)⟩

theorem rest_underflow (amount : ℕ → ℕ+) (s : Stream) : (s.underflow amount).rest = s.rest := by
  obtain ⟨-, h⟩ | ⟨hnil, heof, ⟨hleft, h⟩ | ⟨got, -, hgot, h⟩⟩ := s.underflow_cases amount
  · rw [h]
  · rw [h]
    simp only [rest, hleft, ite_self]
  · rw [h]
    simp only [rest, heof, hnil]
    exact hgot

/-- After it something is read ahead, or the stream has nothing to give. -/
theorem head?_ahead_underflow (amount : ℕ → ℕ+) (s : Stream) :
    (s.underflow amount).ahead.head? = s.rest.head? := by
  obtain ⟨hskip, h⟩ | ⟨hnil, heof, ⟨hleft, h⟩ | ⟨got, hne, hgot, h⟩⟩ := s.underflow_cases amount
  · rw [h, rest, List.head?_append]
    rcases hskip with hahead | heof
    · obtain ⟨b, a, hcons⟩ := List.exists_cons_of_ne_nil hahead
      rw [hcons]
      rfl
    · rw [if_pos heof]
      exact (Option.or_none).symm
  · rw [h]
    simp only [rest, hleft, ite_self, List.append_nil]
  · rw [h]
    simp only [rest, hnil, heof]
    rw [List.nil_append, if_neg Bool.false_ne_true, ← hgot, List.head?_append_of_ne_nil got hne]

theorem getc_fst (amount : ℕ → ℕ+) (s : Stream) : (s.getc amount).1 = s.rest.head? :=
  head?_ahead_underflow amount s

theorem rest_getc (amount : ℕ → ℕ+) (s : Stream) : (s.getc amount).2.rest = s.rest.tail := by
  have hhead := head?_ahead_underflow amount s
  rw [← rest_underflow amount s]
  cases hahead : (s.underflow amount).ahead with
  | cons b a => simp only [getc, rest, hahead, List.tail_cons, List.cons_append]
  -- nothing is to be given, before or after
  | nil =>
    rw [hahead, ← rest_underflow amount s] at hhead
    have hrest := List.head?_eq_none_iff.mp hhead.symm
    have htail : (s.underflow amount).ahead.tail = (s.underflow amount).ahead := by
      rw [hahead]
      rfl
    simp only [getc, htail]
    rw [hrest]
    rfl

/-- **A line of a stream is a piece of what it has to give.** -/
theorem getLine_eq (amount : ℕ → ℕ+) (n : ℕ) (s : Stream) :
    (s.getLine amount n).1 = piece n s.rest ∧
      (s.getLine amount n).2.rest = s.rest.drop (piece n s.rest).length := by
  induction n generalizing s with
  | zero => exact ⟨rfl, rfl⟩
  | succ n ih =>
    have hfst := getc_fst amount s
    have hrest := rest_getc amount s
    obtain ⟨c, s', hgetc⟩ : ∃ c s', s.getc amount = (c, s') := ⟨_, _, rfl⟩
    rw [hgetc] at hfst hrest
    cases hs : s.rest with
    | nil =>
      rw [hs] at hfst hrest
      cases hfst
      simp only [getLine, hgetc]
      exact ⟨rfl, hrest⟩
    | cons b r =>
      rw [hs] at hfst hrest
      cases hfst
      have hrest : s'.rest = r := hrest
      obtain ⟨hline, hleft⟩ := ih s'
      rw [hrest] at hline hleft
      by_cases hb : b = newline
      · rw [hb] at hgetc ⊢
        rw [piece_cons_newline, getLine, hgetc]
        exact ⟨rfl, hrest⟩
      · rw [piece_cons hb, getLine, hgetc, ← hline]
        simp only [if_neg hb, List.length_cons, List.drop_succ_cons, true_and]
        rw [hleft, hline]

/-- **A stream is read like the list of what it has to give.** -/
theorem fgets_eq (amount : ℕ → ℕ+) (m : Mem UInt8) {n : ℕ} (hn : 1 < n) (s : Stream) :
    (s.fgets amount m n).1 = (CRuntime.fgets m n s.rest).1 ∧
      (s.fgets amount m n).2.rest = (CRuntime.fgets m n s.rest).2 := by
  obtain ⟨hline, hrest⟩ := getLine_eq amount (n - 1) s
  simp only [fgets, hline, hrest]
  by_cases hs : s.rest = []
  · rw [hs, fgets_nil]
    have hpiece : piece (n - 1) [] = [] := by cases n - 1 <;> rfl
    rw [hpiece]
    exact ⟨rfl, rfl⟩
  · rw [if_neg (piece_ne_nil (Nat.sub_pos_of_lt hn) hs), CRuntime.fgets, if_neg hs]
    exact ⟨rfl, rfl⟩

end Read

/-! ## What was read ahead -/

section Ahead

variable {amount : ℕ → ℕ+} {s : Stream}

theorem Synced.underflow (h : s.Synced) : (s.underflow amount).Synced := by
  obtain ⟨-, heq⟩ | ⟨hnil, heof, ⟨-, heq⟩ | ⟨got, -, hgot, heq⟩⟩ := s.underflow_cases amount
  · rwa [heq]
  · rw [heq]
    exact ⟨h.length_le, h.drop_eq, fun _ => hnil⟩
  · rw [heq, heof]
    refine ⟨Nat.le_add_left _ _, ?_, fun h => absurd h Bool.false_ne_true⟩
    rw [Nat.add_sub_cancel]
    exact hgot.symm

theorem Synced.tail (h : s.Synced) : ({ s with ahead := s.ahead.tail } : Stream).Synced := by
  obtain ⟨file, ahead, eof⟩ := s
  cases ahead with
  | nil => exact h
  | cons b a =>
    obtain ⟨hle, hdrop, heof⟩ := h
    have hlt : a.length < file.offset := hle
    have hnext : file.offset - a.length = file.offset - (b :: a).length + 1 := by
      rw [List.length_cons]
      omega
    refine ⟨hlt.le, ?_, fun h => absurd (heof h) (List.cons_ne_nil b a)⟩
    exact (congrArg (file.content.drop ·) hnext).trans
      (List.tail_drop.symm.trans (congrArg List.tail hdrop))

theorem Synced.getc (h : s.Synced) : (s.getc amount).2.Synced := h.underflow.tail

theorem Synced.getLine (h : s.Synced) (n : ℕ) : (s.getLine amount n).2.Synced := by
  induction n generalizing s with
  | zero => exact h
  | succ n ih =>
    have hgetc : (s.getc amount).2.Synced := h.getc
    rcases heq : s.getc amount with ⟨c, s'⟩
    rw [heq] at hgetc
    cases c with
    | none => simpa only [Stream.getLine, heq] using hgetc
    | some b =>
      simp only [Stream.getLine, heq]
      split
      · exact hgetc
      · exact ih hgetc

/-- **What was read ahead stays before the offset.** -/
theorem Synced.fgets (h : s.Synced) (m : Mem UInt8) (n : ℕ) : (s.fgets amount m n).2.Synced :=
  h.getLine (n - 1)

/-- **What is given back is read again**, after what the program goes on to use of it. -/
theorem rest_back (h : s.Synced) :
    ({ s with file := s.file.back s.ahead.length } : Stream).rest = s.ahead ++ s.rest := by
  by_cases heof : s.eof = true
  · simp only [rest, h.ahead_eq heof, List.nil_append, if_pos heof]
  · simp only [rest, if_neg heof, OpenFile.back, if_pos h.length_le, OpenFile.left]
    rw [h.drop_eq]
    rfl

end Ahead

/-! ## A file that is read at once -/

section Whole

variable {amount : ℕ → ℕ+} {s : Stream} {input : List UInt8}

/-- Of a file that was read to its end nothing more is read. -/
theorem left_getc (h : s.file.left = []) : (s.getc amount).2.file.left = [] := by
  have hunder : (s.underflow amount).file.left = [] := by
    obtain ⟨-, heq⟩ | ⟨-, -, ⟨-, heq⟩ | ⟨got, hne, hgot, -⟩⟩ := s.underflow_cases amount
    · rwa [heq]
    · rwa [heq]
    · rw [h] at hgot
      exact absurd (List.append_eq_nil_iff.mp hgot).1 hne
  exact hunder

theorem left_getLine (h : s.file.left = []) (n : ℕ) : (s.getLine amount n).2.file.left = [] := by
  induction n generalizing s with
  | zero => exact h
  | succ n ih =>
    have hgetc : (s.getc amount).2.file.left = [] := left_getc h
    rcases heq : s.getc amount with ⟨c, s'⟩
    rw [heq] at hgetc
    cases c with
    | none => simpa only [getLine, heq] using hgetc
    | some b =>
      simp only [getLine, heq]
      split
      · exact hgetc
      · exact ih hgetc

theorem left_getc_start (h : input.length ≤ amount input.length) :
    ((start input).getc amount).2.file.left = [] := by
  have hgot : (start input).file.left.take (amount (start input).file.left.length) = input :=
    List.take_of_length_le h
  have hunder : ((start input).underflow amount).file.left = [] := by
    unfold underflow
    rw [hgot, if_neg (by simp [start])]
    by_cases hin : input = []
    · rw [if_pos hin, hin]
      rfl
    · rw [if_neg hin]
      exact List.drop_of_length_le (Nat.le_add_left _ _)
  exact hunder

/-- **After the first line of a file that one `read` gives whole**, all the rest was read ahead. -/
theorem ahead_fgets_start (h : input.length ≤ amount input.length) (m : Mem UInt8) (n : ℕ) :
    ((start input).fgets amount m (n + 2)).2.ahead =
      ((start input).fgets amount m (n + 2)).2.rest := by
  have hleft : ((start input).getLine amount (n + 1)).2.file.left = [] := by
    have hgetc := left_getc_start h
    rcases heq : (start input).getc amount with ⟨c, s'⟩
    rw [heq] at hgetc
    cases c with
    | none => simpa only [getLine, heq] using hgetc
    | some b =>
      simp only [getLine, heq]
      split
      · exact hgetc
      · exact left_getLine hgetc n
  simp only [fgets, rest, Nat.add_succ_sub_one, hleft, ite_self, List.append_nil]

end Whole

end Stream

end CRuntime

import NetworkLabs.Foundation.Machine
import NetworkLabs.Runtime.Stream

/-!
# The simple shell

`simsh` reads a line with `fgets`, strips its last character and runs what is left. It looks neither
at the result of `fgets` nor at the character that it strips: a long line comes in pieces, the last
line may have no newline, and after the end of the input the buffer is stripped again and again.

The children share the input of the shell. Where there is no program of that name the child calls
`exit(1)`, which gives back what `stdio` had read ahead in the shell; a program that is found may do
to the input what it likes.

## Main definitions

* `World`, `World.child`: what the shell meets, and what a child leaves of the input
* `ShellState`, `handle`, `simsh`: the buffer and the input, and the loop of `main`
* `Gives text s σ`: the input still gives `s`; at its end the string `text` is in the buffer

## Main results

* `exists_step`: what a round does
-/

namespace NetworkLabs.Shell

open CRuntime Transition

/-! ## The program -/

/-- What is around the shell: how much of the input a `read` gives, whether the input is a file, and
what each program does to it, `none` where `execlp` finds no program. -/
structure World where
  amount : ℕ → ℕ+
  seekable : Bool
  program : List UInt8 → Option (OpenFile → OpenFile)

/-- What the child leaves of the input. -/
def World.child (w : World) (cmd : List UInt8) (s : Stream) : OpenFile :=
  match w.program cmd with
  | some run => run s.file
  -- execution failed: `exit(1)` gives back what was read ahead before the `fork`
  | none => if w.seekable then s.file.back s.ahead.length else s.file

/-- The stream of the shell after its child, if there was one. -/
def World.after (w : World) (cmd : Option (List UInt8)) (s : Stream) : Stream :=
  match cmd with
  | none => s
  | some cmd => { s with file := w.child cmd s }

section World

variable {w : World} {cmd : List UInt8}

theorem World.child_of_some {run : OpenFile → OpenFile} (h : w.program cmd = some run)
    (s : Stream) : w.child cmd s = run s.file := by
  rw [World.child, h]

theorem World.child_of_none (h : w.program cmd = none) (s : Stream) :
    w.child cmd s = if w.seekable then s.file.back s.ahead.length else s.file := by
  rw [World.child, h]

end World

/-- `buf` and `stdin`. -/
structure ShellState where
  buf : Mem UInt8
  stdin : Stream

/-- A round after its `fgets`: the buffer, and what `execlp` is called with. `none` where `strlen`
runs past `buf`, or a byte before `buf` is written. -/
def handle (buf : Mem UInt8) : Option (Mem UInt8 × Option (List UInt8)) :=
  if 0 ∈ buf.read 100 then
    let len := (cstring (buf.read 100)).length
    -- only return key pressed
    if len = 1 then some (buf, none)
    else if len = 0 then none
    else
      let buf := buf.store (len - 1) [0]
      some (buf, some (cstring (buf.read 100)))
  else none

/-- The loop of `main`. An output is what `execlp` is called with. -/
def simsh (w : World) : Machine ShellState Unit (List UInt8) where
  step s _ :=
    let line := s.stdin.fgets w.amount s.buf 100
    (handle line.1).map fun p => (⟨p.1, w.after p.2 line.2⟩, p.2.toList)

/-! ## A string in the buffer -/

/-- What a round runs of the string in the buffer. -/
def runText (t : List UInt8) : Option (List UInt8) :=
  if t.length = 1 then none else some t.dropLast

/-- What it leaves of the string. -/
def leftText (t : List UInt8) : List UInt8 := if t.length = 1 then t else t.dropLast

section Text

variable {buf : Mem UInt8} {t u : List UInt8} {b : UInt8}

theorem one_lt_length_append (hu : u ≠ []) (b : UInt8) : 1 < (u ++ [b]).length := by
  rw [List.length_append, List.length_singleton]
  exact Nat.succ_lt_succ (List.length_pos_iff.mpr hu)

theorem runText_append (hu : u ≠ []) (b : UInt8) : runText (u ++ [b]) = some u := by
  rw [runText, if_neg (one_lt_length_append hu b).ne', List.dropLast_concat]

theorem leftText_append (hu : u ≠ []) (b : UInt8) : leftText (u ++ [b]) = u := by
  rw [leftText, if_neg (one_lt_length_append hu b).ne', List.dropLast_concat]

theorem leftText_ne_nil (ht : t ≠ []) : leftText t ≠ [] := by
  rcases t.eq_nil_or_concat' with rfl | ⟨u, b, rfl⟩
  · exact absurd rfl ht
  · by_cases hu : u = []
    -- a string of one character stays
    · rw [hu]
      exact List.cons_ne_nil b []
    · rwa [leftText_append hu]

theorem length_leftText_le (t : List UInt8) : (leftText t).length ≤ t.length := by
  unfold leftText
  split
  · exact le_rfl
  · rw [List.length_dropLast]
    exact Nat.sub_le _ 1

theorem length_leftText_lt (h : 1 < t.length) : (leftText t).length < t.length := by
  rw [leftText, if_neg h.ne', List.length_dropLast]
  omega

/-- A string of one character is left alone. -/
theorem handle_of_length_one (h : Holds buf 100 t) (ht : t.length = 1) :
    handle buf = some (buf, none) := by
  simp only [handle, if_pos h.zero_mem, h.cstring_eq, if_pos ht]

/-- A longer one is run without its last character. -/
theorem handle_of_append (h : Holds buf 100 (u ++ [b])) (hu : u ≠ []) :
    handle buf = some (buf.store u.length [0], some u) := by
  have hlong := one_lt_length_append hu b
  have hlen : (u ++ [b]).length - 1 = u.length := by
    rw [List.length_append, List.length_singleton, Nat.add_sub_cancel]
  simp only [handle, if_pos h.zero_mem, h.cstring_eq, hlen]
  rw [if_neg hlong.ne', if_neg (by omega), h.store_zero.cstring_eq]

theorem exists_handle (h : Holds buf 100 t) (ht : t ≠ []) :
    ∃ buf', handle buf = some (buf', runText t) ∧ Holds buf' 100 (leftText t) := by
  by_cases hone : t.length = 1
  · rw [runText, if_pos hone, leftText, if_pos hone]
    exact ⟨buf, handle_of_length_one h hone, h⟩
  · rcases t.eq_nil_or_concat' with rfl | ⟨u, b, rfl⟩
    · exact absurd rfl ht
    -- the terminator goes where the last character was
    · have hu : u ≠ [] := fun hu => hone (by rw [hu]; rfl)
      rw [runText_append hu, leftText_append hu]
      exact ⟨_, handle_of_append h hu, h.store_zero⟩

/-- Without a string of a character at least, the shell fails. -/
theorem handle_eq_none (h : 0 ∉ buf.read 100 ∨ cstring (buf.read 100) = []) :
    handle buf = none := by
  unfold handle
  by_cases hmem : 0 ∈ buf.read 100
  -- the string is empty, and the byte before `buf` would be written
  · rw [if_pos hmem, h.resolve_left (not_not.mpr hmem)]
    rfl
  · exact if_neg hmem

end Text

/-! ## One round -/

/-- The string that a round finds in the buffer: a piece of what the input gives, or what the buffer
held. -/
def seen (text s : List UInt8) : List UInt8 := if s = [] then text else piece 99 s

/-- The input still gives `s`; at its end the string `text` is in the buffer. -/
structure Gives (text s : List UInt8) (σ : ShellState) : Prop where
  rest_eq : σ.stdin.rest = s
  zero_notMem : 0 ∉ s
  holds : s = [] → Holds σ.buf 100 text
  ne_nil : s = [] → text ≠ []

section Round

variable {w : World} {text s : List UInt8} {σ : ShellState}

theorem seen_ne_nil (h : s = [] → text ≠ []) : seen text s ≠ [] := by
  unfold seen
  split_ifs with hs
  · exact h hs
  · exact piece_ne_nil (Nat.succ_pos 98) hs

/-- After `fgets` the buffer holds what the round sees. -/
theorem Gives.holds_seen (w : World) (h : Gives text s σ) :
    Holds (σ.stdin.fgets w.amount σ.buf 100).1 100 (seen text s) := by
  rw [(Stream.fgets_eq w.amount σ.buf (by decide) σ.stdin).1, h.rest_eq, seen]
  split_ifs with hs
  · rw [hs, fgets_nil]
    exact h.holds hs
  · exact holds_fgets hs h.zero_notMem (by decide) σ.buf

theorem Gives.rest_fgets (w : World) (h : Gives text s σ) :
    (σ.stdin.fgets w.amount σ.buf 100).2.rest = s.drop (piece 99 s).length := by
  rw [(Stream.fgets_eq w.amount σ.buf (by decide) σ.stdin).2, h.rest_eq]
  by_cases hs : s = []
  · rw [hs, fgets_nil, List.drop_nil]
  · exact fgets_snd hs σ.buf 100

/-- **What a round does**: it runs what it sees without its last character, and its child gets the
stream as `fgets` left it. -/
theorem exists_step (w : World) (h : Gives text s σ) : ∃ buf next,
    (simsh w).step σ () =
      some (⟨buf, w.after (runText (seen text s)) next⟩, (runText (seen text s)).toList) ∧
    Gives (leftText (seen text s)) (s.drop (piece 99 s).length) ⟨buf, next⟩ ∧
    next = (σ.stdin.fgets w.amount σ.buf 100).2 := by
  have hseen := seen_ne_nil h.ne_nil
  obtain ⟨buf, hhandle, hholds⟩ := exists_handle (h.holds_seen w) hseen
  refine ⟨buf, (σ.stdin.fgets w.amount σ.buf 100).2, ?_, ⟨h.rest_fgets w, ?_, fun _ => hholds,
    fun _ => leftText_ne_nil hseen⟩, rfl⟩
  · simp only [simsh, hhandle, Option.map_some]
  · exact fun h0 => h.zero_notMem (List.mem_of_mem_drop h0)

/-- What a child gives back is read again. -/
theorem Gives.back {buf : Mem UInt8} {next : Stream} (h : Gives text s ⟨buf, next⟩)
    (hsync : next.Synced) :
    Gives text (next.ahead ++ s) ⟨buf, { next with file := next.file.back next.ahead.length }⟩ := by
  have hrest : next.rest = s := h.rest_eq
  refine ⟨by rw [Stream.rest_back hsync, hrest], fun h0 => h.zero_notMem ?_,
    fun hs => h.holds (List.append_eq_nil_iff.mp hs).2,
    fun hs => h.ne_nil (List.append_eq_nil_iff.mp hs).2⟩
  rcases List.mem_append.mp h0 with h0 | h0
  · rw [← hrest]
    exact List.mem_append_left _ h0
  · exact h0

theorem step_eq_none (hs : σ.stdin.rest = [])
    (h : 0 ∉ σ.buf.read 100 ∨ cstring (σ.buf.read 100) = []) : (simsh w).step σ () = none := by
  have hbuf : (σ.stdin.fgets w.amount σ.buf 100).1 = σ.buf := by
    rw [(Stream.fgets_eq w.amount σ.buf (by decide) σ.stdin).1, hs, fgets_nil]
  simp only [simsh, hbuf, handle_eq_none h, Option.map_none]

end Round

end NetworkLabs.Shell

import NetworkLabs.WeTalk.Endpoint

/-!
# The line editor of wetalk

The editor reads keystrokes up to a newline into `term_buf`, of 51 bytes. Its loop goes on while
`num_chars_read` is at most 50, so that it stores 51 characters before it stops, and then puts the
terminator behind the array.

## Main definitions

* `Editor`, `Editor.key`, `Editor.loop`: the editing loop, with the indexes that it writes
* `toProcess`: the line that is processed
* `edited`: what the keystrokes spell
* `LineExact`: the editor stays in its array and processes what was spelled

## Main results

* `lineExact_iff`: the keystrokes for which it does
* `weChatServer_toProcess`: what the endpoint then does with the line
* `weChatServer_toProcess_of_isPrint`: up to 50 printable characters are typed as they are
-/

namespace NetworkLabs.WeTalk

open CRuntime

/-! ## The loop -/

/-- The variables of the editor, and the indexes of `term_buf` that were written. -/
structure Editor where
  term_buf : Mem UInt8
  num_chars_read : ℕ
  writes : List ℕ

/-- `memset(term_buf, 0, sizeof term_buf)`. -/
def Editor.clear (e : Editor) : Editor :=
  { e with term_buf := e.term_buf.fill 51 0, writes := e.writes ++ List.range 51 }

/-- `term_buf[i] = b`. -/
def Editor.write (e : Editor) (i : ℕ) (b : UInt8) : Editor :=
  { e with term_buf := e.term_buf.store i [b], writes := e.writes ++ [i] }

/-- The editor before the first keystroke; `stack` is what `term_buf` held. -/
def Editor.start (stack : Mem UInt8) : Editor := Editor.clear ⟨stack, 0, []⟩

/-- The two keys that delete. -/
def isBackspace (r : UInt8) : Bool := r == 127 || r == 8

/-- The body of the loop. -/
def Editor.key (e : Editor) (r : UInt8) : Editor :=
  let e :=
    if isBackspace r ∧ 0 < e.num_chars_read then
      { e.write (e.num_chars_read - 1) 0 with num_chars_read := e.num_chars_read - 1 }
    else if isPrint r ∧ ¬ isBackspace r then
      { e.write e.num_chars_read r with num_chars_read := e.num_chars_read + 1 }
    else e
  if e.num_chars_read = 0 then e.clear else e

/-- The loop on the keystrokes in front of the newline. A keystroke that finds the count above 50
ends it too. -/
def Editor.loop (e : Editor) : List UInt8 → Editor
  | [] => e
  | r :: keys => if r ≠ 10 ∧ e.num_chars_read ≤ 50 then (e.key r).loop keys else e

/-- The editor on the keystrokes of a line, with the terminator. -/
def editLine (stack : Mem UInt8) (keys : List UInt8) : Editor :=
  let e := (Editor.start stack).loop keys
  e.write e.num_chars_read 0

/-- `strncpy` of `n` bytes. -/
def strncpy (src : Mem UInt8) (n : ℕ) : List UInt8 :=
  cstring (src.read n) ++ List.replicate (n - (cstring (src.read n)).length) 0

/-- The array `toProcess`. -/
def toProcess (stack : Mem UInt8) (keys : List UInt8) : List UInt8 :=
  strncpy (editLine stack keys).term_buf 51

/-! ## What the keystrokes spell -/

/-- A keystroke on a line: a backspace deletes the last character, a printable one is appended. -/
def typeKey (s : List UInt8) (r : UInt8) : List UInt8 :=
  if isBackspace r then s.dropLast else if isPrint r then s ++ [r] else s

/-- The line that the keystrokes spell. -/
def edited (keys : List UInt8) : List UInt8 := keys.foldl typeKey []

/-- The editor writes to indexes of `term_buf` only, and the line that is processed is terminated
and what the keystrokes spell, cut at the capacity. -/
def LineExact (stack : Mem UInt8) (keys : List UInt8) : Prop :=
  (∀ i ∈ (editLine stack keys).writes, i ≤ 50) ∧ 0 ∈ toProcess stack keys ∧
    cstring (toProcess stack keys) = (edited keys).take 50

/-! ## Within the capacity -/

/-- The buffer holds the line, and all writes were inside. -/
structure Editor.Holds (e : Editor) (s : List UInt8) : Prop where
  num_chars_read : e.num_chars_read = s.length
  text : e.term_buf.read s.length = s
  writes : ∀ i ∈ e.writes, i ≤ 50

section Capacity

variable {e : Editor} {s keys : List UInt8} {r : UInt8}

theorem isPrint_of_mem_typeKey (hs : ∀ b ∈ s, isPrint b = true) :
    ∀ b ∈ typeKey s r, isPrint b = true := by
  intro b hb
  unfold typeKey at hb
  split_ifs at hb with hback hprint
  · exact hs b (List.mem_of_mem_dropLast hb)
  · rcases List.mem_append.mp hb with hb | hb
    · exact hs b hb
    · rwa [List.mem_singleton.mp hb]
  · exact hs b hb

/-- A spelled line is printable. -/
theorem isPrint_of_mem_foldl (hs : ∀ b ∈ s, isPrint b = true) (keys : List UInt8) :
    ∀ b ∈ keys.foldl typeKey s, isPrint b = true := by
  induction keys generalizing s with
  | nil => exact hs
  | cons r keys ih => exact ih (isPrint_of_mem_typeKey hs)

theorem isPrint_of_mem_edited : ∀ b ∈ edited keys, isPrint b = true :=
  isPrint_of_mem_foldl (by simp) keys

theorem zero_notMem_edited : 0 ∉ edited keys := fun h =>
  absurd (isPrint_of_mem_edited 0 h) (by decide)

theorem length_typeKey_le (s : List UInt8) (r : UInt8) :
    (typeKey s r).length ≤ s.length + 1 := by
  unfold typeKey
  split_ifs
  · rw [List.length_dropLast]
    omega
  · rw [List.length_append, List.length_singleton]
  · exact Nat.le_succ _

/-- Clearing the buffer keeps an empty line. -/
theorem Editor.Holds.clear (h : e.Holds []) : e.clear.Holds [] where
  num_chars_read := h.num_chars_read
  text := rfl
  writes := by
    intro i hi
    rcases List.mem_append.mp hi with hi | hi
    · exact h.writes i hi
    · exact Nat.lt_succ_iff.mp (List.mem_range.mp hi)

theorem holds_start (stack : Mem UInt8) : (Editor.start stack).Holds [] :=
  Editor.Holds.clear ⟨rfl, rfl, by simp⟩

/-- An empty line is cleared once more at the end of the loop's body. -/
theorem Editor.Holds.clear_if (h : e.Holds s) :
    (if e.num_chars_read = 0 then e.clear else e).Holds s := by
  split
  · next hzero =>
    obtain rfl := List.length_eq_zero_iff.mp (h.num_chars_read.symm.trans hzero)
    exact h.clear
  · exact h

theorem Editor.Holds.delete (h : e.Holds s) (hs : s.length ≤ 50) :
    Editor.Holds { e.write (e.num_chars_read - 1) 0 with
      num_chars_read := e.num_chars_read - 1 } s.dropLast where
  num_chars_read := by rw [List.length_dropLast, h.num_chars_read]
  text := by
    -- the characters in front of the last one stay
    have hkeep : (e.term_buf.store (s.length - 1) [0]).read (s.length - 1) =
        e.term_buf.read (s.length - 1) := Mem.read_congr fun k hk => if_neg (by omega)
    have htake : s.dropLast = e.term_buf.read (s.length - 1) :=
      calc s.dropLast = s.take (s.length - 1) := List.dropLast_eq_take
        _ = (e.term_buf.read s.length).take (s.length - 1) := by rw [h.text]
        _ = e.term_buf.read (s.length - 1) := Mem.take_read e.term_buf (Nat.sub_le ..)
    rw [List.length_dropLast, Editor.write, h.num_chars_read, hkeep, htake]
  writes := by
    intro i hi
    rcases List.mem_append.mp hi with hi | hi
    · exact h.writes i hi
    · rw [List.mem_singleton.mp hi, h.num_chars_read]
      omega

theorem Editor.Holds.insert (h : e.Holds s) (hs : s.length ≤ 50) (r : UInt8) :
    Editor.Holds { e.write e.num_chars_read r with num_chars_read := e.num_chars_read + 1 }
      (s ++ [r]) where
  num_chars_read := by rw [List.length_append, List.length_singleton, h.num_chars_read]
  text := by
    have hread := e.term_buf.read_store s.length [r]
    rw [h.text] at hread
    rw [List.length_append, Editor.write, h.num_chars_read]
    exact hread
  writes := by
    intro i hi
    rcases List.mem_append.mp hi with hi | hi
    · exact h.writes i hi
    · rw [List.mem_singleton.mp hi, h.num_chars_read]
      exact hs

/-- **One keystroke** on a line of at most 50 characters. -/
theorem Editor.Holds.key (h : e.Holds s) (hs : s.length ≤ 50) (r : UInt8) :
    (e.key r).Holds (typeKey s r) := by
  apply Editor.Holds.clear_if
  unfold typeKey
  -- the two tests of the loop's body, in its order
  by_cases hback : isBackspace r = true
  · rw [if_pos hback]
    by_cases hpos : 0 < e.num_chars_read
    · rw [if_pos ⟨hback, hpos⟩]
      exact h.delete hs
    -- there is nothing to delete
    · have hnil : s = [] := by
        rw [h.num_chars_read] at hpos
        exact List.length_eq_zero_iff.mp (Nat.eq_zero_of_not_pos hpos)
      subst hnil
      rw [if_neg fun hboth => hpos hboth.2, if_neg fun hboth => hboth.2 hback]
      exact h
  · rw [if_neg hback, if_neg fun hboth => hback hboth.1]
    by_cases hprint : isPrint r = true
    · rw [if_pos hprint, if_pos ⟨hprint, hback⟩]
      exact h.insert hs r
    · rw [if_neg hprint, if_neg fun hboth => hprint hboth.1]
      exact h

/-- **The loop** holds what the keystrokes spell, as long as that fits. -/
theorem Editor.Holds.loop (h : e.Holds s) (hkeys : 10 ∉ keys)
    (hfit : ∀ pre, pre <+: keys → (pre.foldl typeKey s).length ≤ 50) :
    (e.loop keys).Holds (keys.foldl typeKey s) := by
  induction keys generalizing e s with
  | nil => exact h
  | cons r keys ih =>
    obtain ⟨hr, hrest⟩ := List.ne_and_not_mem_of_not_mem_cons hkeys
    have hs : s.length ≤ 50 := hfit [] List.nil_prefix
    rw [Editor.loop, if_pos ⟨hr.symm, h.num_chars_read.trans_le hs⟩]
    refine ih (h.key hs r) hrest fun pre hpre => ?_
    exact hfit (r :: pre) (List.cons_prefix_cons.mpr ⟨rfl, hpre⟩)

theorem Editor.loop_of_full (h : 50 < e.num_chars_read) (keys : List UInt8) : e.loop keys = e := by
  cases keys with
  | nil => rfl
  | cons r keys => exact if_neg fun hgo => absurd hgo.2 (not_le.mpr h)

/-- **A line that is too long at any time** leaves the loop with 51 characters. -/
theorem Editor.Holds.num_chars_read_loop (h : e.Holds s) (hs : s.length ≤ 50) (hkeys : 10 ∉ keys)
    {pre : List UInt8} (hpre : pre <+: keys) (hlong : 50 < (pre.foldl typeKey s).length) :
    (e.loop keys).num_chars_read = 51 := by
  induction keys generalizing e s pre with
  | nil =>
    obtain rfl := List.prefix_nil.mp hpre
    exact absurd hs (not_le.mpr hlong)
  | cons r keys ih =>
    obtain ⟨hr, hrest⟩ := List.ne_and_not_mem_of_not_mem_cons hkeys
    have hnext := h.key hs r
    rw [Editor.loop, if_pos ⟨hr.symm, h.num_chars_read.trans_le hs⟩]
    rcases Nat.lt_or_ge 50 (typeKey s r).length with hfull | hfit
    -- this keystroke has filled the array
    · have hle := length_typeKey_le s r
      have hnum := hnext.num_chars_read
      rw [Editor.loop_of_full (by omega), hnum]
      omega
    · cases pre with
      | nil => exact absurd hs (not_le.mpr hlong)
      | cons b pre =>
        obtain ⟨rfl, htail⟩ := List.cons_prefix_cons.mp hpre
        exact ih hnext hfit hrest htail hlong

/-- A line that fits is terminated in the array, and copied with its terminator. -/
theorem Editor.Holds.cstring_write (h : e.Holds s) (hs : s.length ≤ 50) (hzero : 0 ∉ s) :
    cstring ((e.write e.num_chars_read 0).term_buf.read 51) = s := by
  have hread : (e.term_buf.store s.length [0]).read (s.length + 1) = s ++ [0] := by
    have hstore := e.term_buf.read_store s.length [0]
    rwa [h.text] at hstore
  rw [Editor.write, h.num_chars_read, ← Mem.read_append_drop _ (show s.length + 1 ≤ 51 by omega),
    hread, List.append_assoc, List.singleton_append, cstring_append_zero hzero]

end Capacity

/-- The characters that are spelled at every time fit the array with the terminator. -/
def SpellsWithin (keys : List UInt8) : Prop := ∀ pre, pre <+: keys → (edited pre).length ≤ 50

/-- What is processed when the line fits at every time. -/
theorem toProcess_eq (stack : Mem UInt8) {keys : List UInt8} (hkeys : 10 ∉ keys)
    (h : SpellsWithin keys) :
    ∃ n, toProcess stack keys = edited keys ++ 0 :: List.replicate n 0 := by
  have hholds := (holds_start stack).loop hkeys h
  have hfit := h keys List.prefix_rfl
  have hline := hholds.cstring_write hfit zero_notMem_edited
  obtain ⟨n, hn⟩ : ∃ n, 51 - (edited keys).length = n + 1 := ⟨50 - (edited keys).length, by omega⟩
  refine ⟨n, ?_⟩
  rw [toProcess, strncpy, editLine, hline, ← List.replicate_succ, ← hn]
  rfl

/-- **The editor is exact and stays in its array, exactly when** the line that is spelled never has
more than 50 characters: the 51st is stored too, and the terminator goes behind the array. -/
theorem lineExact_iff (stack : Mem UInt8) (keys : List UInt8) (hkeys : 10 ∉ keys) :
    LineExact stack keys ↔ SpellsWithin keys := by
  constructor
  -- the terminator of a line of 51 characters goes to index 51
  · rintro ⟨hwrites, -⟩ pre hpre
    by_contra hlong
    have hnum := (holds_start stack).num_chars_read_loop (Nat.zero_le _) hkeys hpre
      (not_le.mp hlong)
    have hlast := hwrites 51 (by
      rw [editLine, Editor.write, hnum]
      exact List.mem_append_right _ (List.mem_singleton_self 51))
    exact absurd hlast (by decide)
  · intro h
    have hfit := h keys List.prefix_rfl
    have hholds := (holds_start stack).loop hkeys h
    obtain ⟨n, hline⟩ := toProcess_eq stack hkeys h
    refine ⟨fun i hi => ?_, ?_, ?_⟩
    · rcases List.mem_append.mp hi with hi | hi
      · exact hholds.writes i hi
      · rw [List.mem_singleton.mp hi, hholds.num_chars_read]
        exact hfit
    · rw [hline]
      simp
    · rw [hline, cstring_append_zero zero_notMem_edited, List.take_of_length_le hfit]

/-- `hx`, a backspace, and an `i`. -/
def hxi : List UInt8 := [104, 120, 127, 105]

theorem lineExact_hxi : LineExact (fun _ => 7) hxi := by
  rw [lineExact_iff (fun _ => 7) hxi (by decide)]
  have hall : ∀ pre ∈ hxi.inits, (edited pre).length ≤ 50 := by decide
  exact fun pre hpre => hall pre ((List.mem_inits pre hxi).mpr hpre)

/-- 51 letters put the terminator at index 51. -/
theorem letters_not_lineExact : ¬ LineExact (fun _ => 7) (List.replicate 51 97) := by
  rintro ⟨hwrites, -⟩
  exact absurd (hwrites 51 (by decide)) (by decide)

example : edited hxi = [104, 105] := by decide

/-! ## The endpoint on the line -/

/-- **A line that fits is the line of the endpoint**: it does with the array what it does with the
characters that were spelled. -/
theorem weChatServer_toProcess (gethostbyname : List UInt8 → Option UInt32) (s : Endpoint)
    (stack : Mem UInt8) {keys : List UInt8} (hkeys : 10 ∉ keys) (h : SpellsWithin keys) :
    weChatServer gethostbyname s (toProcess stack keys) =
      weChatServer gethostbyname s (edited keys) := by
  have hline : cstring (toProcess stack keys) = cstring (edited keys) := by
    obtain ⟨n, hn⟩ := toProcess_eq stack hkeys h
    rw [hn, cstring_append_zero zero_notMem_edited, cstring_eq_self zero_notMem_edited]
  simp only [weChatServer, hline]

/-- A line grows by one character a keystroke at most. -/
theorem length_foldl_typeKey_le (s keys : List UInt8) :
    (keys.foldl typeKey s).length ≤ s.length + keys.length := by
  induction keys generalizing s with
  | nil => exact le_rfl
  | cons r keys ih =>
    have hrest := ih (typeKey s r)
    have hone := length_typeKey_le s r
    rw [List.foldl_cons, List.length_cons]
    omega

theorem spellsWithin_of_length_le {keys : List UInt8} (h : keys.length ≤ 50) :
    SpellsWithin keys := by
  intro pre hpre
  have hle := length_foldl_typeKey_le [] pre
  rw [List.length_nil, Nat.zero_add] at hle
  exact hle.trans (hpre.length_le.trans h)

/-- Neither of the keys that delete is printable. -/
theorem isBackspace_of_isPrint {r : UInt8} (h : isPrint r = true) : isBackspace r = false := by
  unfold isBackspace
  rw [Bool.or_eq_false_iff, beq_eq_false_iff_ne, beq_eq_false_iff_ne]
  constructor
  · rintro rfl
    exact absurd h (by decide)
  · rintro rfl
    exact absurd h (by decide)

theorem foldl_typeKey_of_isPrint (s : List UInt8) {keys : List UInt8}
    (h : ∀ b ∈ keys, isPrint b = true) : keys.foldl typeKey s = s ++ keys := by
  induction keys generalizing s with
  | nil => simp
  | cons r keys ih =>
    obtain ⟨hr, hrest⟩ := List.forall_mem_cons.mp h
    rw [List.foldl_cons, typeKey, if_neg (by simp [isBackspace_of_isPrint hr]), if_pos hr,
      ih _ hrest, List.append_assoc, List.singleton_append]

/-- Printable keystrokes spell themselves. -/
theorem edited_of_isPrint {keys : List UInt8} (h : ∀ b ∈ keys, isPrint b = true) :
    edited keys = keys :=
  foldl_typeKey_of_isPrint [] h

/-- **Up to 50 printable characters are typed as they are.** -/
theorem weChatServer_toProcess_of_isPrint (gethostbyname : List UInt8 → Option UInt32)
    (s : Endpoint) (stack : Mem UInt8) {line : List UInt8} (hlen : line.length ≤ 50)
    (h : ∀ b ∈ line, isPrint b = true) :
    weChatServer gethostbyname s (toProcess stack line) = weChatServer gethostbyname s line := by
  have hnewline : 10 ∉ line := fun hmem => absurd (h 10 hmem) (by decide)
  rw [weChatServer_toProcess gethostbyname s stack hnewline (spellsWithin_of_length_le hlen),
    edited_of_isPrint h]

end NetworkLabs.WeTalk

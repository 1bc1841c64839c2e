import NetworkLabs.Shell.Simsh
import Mathlib.Data.List.Induction

/-!
# The commands of an input

What the simple shell runs of its input, and what it should run.

## Main definitions

* `ran text s`: what is run when the string `text` is in the buffer and the input is `s`
* `commands`: the non-empty lines of an input
* `ShortLines`: the inputs whose lines the buffer holds

## Main results

* `round_induction`: induction on the rounds of the shell
* `ran_eq_commands_iff`: the inputs of which the commands are run
-/

namespace NetworkLabs.Shell

open CRuntime

/-! ## What is run -/

/-- What is run after the end of the input: the string is stripped until one character is left. -/
def shrink (text : List UInt8) : List (List UInt8) :=
  if text.length ≤ 1 then [] else text.dropLast :: shrink text.dropLast
termination_by text.length
decreasing_by
  rw [List.length_dropLast]
  omega

theorem length_drop_piece_lt {s : List UInt8} (hs : s ≠ []) :
    (s.drop (piece 99 s).length).length < s.length := by
  have hpiece := List.length_pos_iff.mpr (piece_ne_nil (n := 99) (by decide) hs)
  have hpos := List.length_pos_iff.mpr hs
  rw [List.length_drop]
  omega

/-- What is run when the string `text` is in the buffer and the input is `s`. -/
def ran (text s : List UInt8) : List (List UInt8) :=
  if s = [] then shrink text
  else (runText (piece 99 s)).toList ++
    ran (leftText (piece 99 s)) (s.drop (piece 99 s).length)
termination_by s.length
decreasing_by exact length_drop_piece_lt ‹_›

section Ran

variable {text s : List UInt8}

theorem shrink_of_length_le (h : text.length ≤ 1) : shrink text = [] := by
  rw [shrink, if_pos h]

theorem shrink_append {u : List UInt8} (hu : u ≠ []) (b : UInt8) :
    shrink (u ++ [b]) = u :: shrink u := by
  rw [shrink, if_neg (not_le.mpr (one_lt_length_append hu b)), List.dropLast_concat]

theorem ran_nil (text : List UInt8) : ran text [] = shrink text := by
  rw [ran, if_pos rfl]

theorem ran_of_ne_nil (text : List UInt8) (hs : s ≠ []) : ran text s =
    (runText (piece 99 s)).toList ++
      ran (leftText (piece 99 s)) (s.drop (piece 99 s).length) := by
  rw [ran, if_neg hs]

/-- Round by round, with or without input. -/
theorem ran_eq (h : s = [] → text ≠ []) : ran text s = (runText (seen text s)).toList ++
    ran (leftText (seen text s)) (s.drop (piece 99 s).length) := by
  by_cases hs : s = []
  · rw [hs, List.drop_nil, ran_nil, ran_nil, seen, if_pos rfl]
    obtain rfl | ⟨u, b, rfl⟩ := text.eq_nil_or_concat'
    · exact absurd rfl (h hs)
    · by_cases hu : u = []
      -- a string of one character is left as it is
      · rw [hu, shrink_of_length_le le_rfl]
        exact (shrink_of_length_le le_rfl).symm
      · rw [shrink_append hu, runText_append hu, leftText_append hu]
        rfl
  · rw [ran_of_ne_nil text hs, seen, if_neg hs]

/-- **Induction on the rounds**: from any string and input the shell comes to a string of one
character and no input. -/
theorem round_induction {P : List UInt8 → List UInt8 → Prop}
    (idle : ∀ text, text.length = 1 → P text [])
    (round : ∀ text s, (s = [] → text ≠ []) →
      P (leftText (seen text s)) (s.drop (piece 99 s).length) → P text s)
    (text s : List UInt8) (h : s = [] → text ≠ []) : P text s :=
  if hidle : s = [] ∧ text.length = 1 then hidle.1 ▸ idle text hidle.2
  else round text s h
    (round_induction idle round _ _ fun _ => leftText_ne_nil (seen_ne_nil h))
termination_by (s.length, text.length)
decreasing_by
  by_cases hs : s = []
  -- without input the string gets shorter
  · have hpos := List.length_pos_iff.mpr (h hs)
    have hone : text.length ≠ 1 := fun hone => hidle ⟨hs, hone⟩
    have hlt := length_leftText_lt (t := text) (by omega)
    rw [hs, List.drop_nil, seen, if_pos rfl]
    exact Prod.Lex.right _ hlt
  · exact Prod.Lex.left _ _ (length_drop_piece_lt hs)

/-- Nothing is run of an input of newlines, whatever its last character is. -/
theorem ran_eq_nil_iff (text : List UInt8) (hs : s ≠ []) :
    ran text s = [] ↔ ∀ b ∈ s.dropLast, b = newline := by
  induction s generalizing text with
  | nil => exact absurd rfl hs
  | cons b r ih =>
    have hrun := ran_of_ne_nil text hs
    cases r with
    -- a last character alone is left in the buffer
    | nil =>
      have hpiece : piece 99 [b] = [b] := by
        unfold piece
        split <;> rfl
      have hleft : ran (leftText [b]) [] = [] := (ran_nil _).trans (shrink_of_length_le le_rfl)
      rw [hpiece] at hrun
      exact iff_of_true (hrun.trans hleft) (List.forall_mem_nil _)
    | cons c r =>
      rw [List.dropLast_cons_cons, List.forall_mem_cons]
      by_cases hb : b = newline
      · rw [hb, piece_cons_newline] at hrun
        rw [hb, hrun, and_iff_right rfl]
        exact ih [newline] (List.cons_ne_nil c r)
      -- a piece of two characters at least is run
      · have hlong : piece 98 (c :: r) ≠ [] := piece_ne_nil (Nat.succ_pos 97) (List.cons_ne_nil c r)
        have htwo : (b :: piece 98 (c :: r)).length ≠ 1 := fun h =>
          hlong (List.length_eq_zero_iff.mp (Nat.succ.inj h))
        rw [piece_cons hb, runText, if_neg htwo] at hrun
        rw [hrun]
        exact iff_of_false (List.cons_ne_nil _ _) fun h => hb h.1

end Ran

/-! ## What is to be run -/

/-- The non-empty lines of an input. -/
def commands (input : List UInt8) : List (List UInt8) := (input.splitOn newline).filter (· ≠ [])

/-- Every line ends with a newline and has at most 98 characters, the last one at most one. -/
structure ShortLines (input : List UInt8) : Prop where
  terminated : input.getLast? = some newline
  short : ∀ l ∈ input.splitOn newline, l.length ≤ 98
  last : ∀ l ∈ (input.dropLast.splitOn newline).getLast?, l.length ≤ 1

section Lines

variable {w r : List UInt8}

theorem commands_line (hw : newline ∉ w) (r : List UInt8) :
    commands (w ++ newline :: r) = (runText (w ++ [newline])).toList ++ commands r := by
  have hsplit : (w ++ newline :: r).splitOn newline = w :: r.splitOn newline :=
    List.splitOn_append_cons_self_of_not_mem hw r
  unfold commands
  rw [hsplit]
  by_cases hne : w = []
  · rw [hne]
    rfl
  · rw [List.filter_cons_of_pos (by simpa using hne), runText_append hne]
    rfl

theorem commands_last (hw : newline ∉ w) (hne : w ≠ []) : commands w = [w] := by
  unfold commands
  rw [List.splitOn_eq_singleton hw, List.filter_cons_of_pos (by simpa using hne)]
  rfl

theorem shortLines_line (hw : newline ∉ w) (hr : r ≠ []) :
    ShortLines (w ++ newline :: r) ↔ w.length ≤ 98 ∧ ShortLines r := by
  have hend : (w ++ newline :: r).getLast? = r.getLast? := by
    rw [List.append_cons, List.getLast?_append_of_ne_nil _ hr]
  have hsplit : (w ++ newline :: r).splitOn newline = w :: r.splitOn newline :=
    List.splitOn_append_cons_self_of_not_mem hw r
  -- the last line is that of the rest
  have hlast : ((w ++ newline :: r).dropLast.splitOn newline).getLast? =
      (r.dropLast.splitOn newline).getLast? := by
    rw [List.dropLast_append_of_ne_nil (List.cons_ne_nil _ _), List.dropLast_cons_of_ne_nil hr,
      List.splitOn_append_cons_self_of_not_mem hw, ← List.singleton_append,
      List.getLast?_append_of_ne_nil _ (List.splitOn_ne_nil _ _)]
  constructor
  · rintro ⟨hterm, hshort, hone⟩
    rw [hsplit] at hshort
    obtain ⟨hlen, hshort⟩ := List.forall_mem_cons.mp hshort
    exact ⟨hlen, hend ▸ hterm, hshort, hlast ▸ hone⟩
  · rintro ⟨hlen, hterm, hshort, hone⟩
    refine ⟨hend.trans hterm, ?_, hlast.symm ▸ hone⟩
    rw [hsplit]
    exact List.forall_mem_cons.mpr ⟨hlen, hshort⟩

theorem shortLines_line_nil (hw : newline ∉ w) :
    ShortLines (w ++ [newline]) ↔ w.length ≤ 1 := by
  have hsplit : (w ++ [newline]).splitOn newline = [w, []] :=
    List.splitOn_append_cons_self_of_not_mem hw []
  have hlast : ((w ++ [newline]).dropLast.splitOn newline).getLast? = some w := by
    rw [List.dropLast_concat, List.splitOn_eq_singleton hw]
    rfl
  constructor
  · intro h
    exact h.last w hlast
  · intro h
    refine ⟨List.getLast?_concat .., ?_, ?_⟩
    · rw [hsplit]
      simp only [List.forall_mem_cons, List.not_mem_nil, false_imp_iff, implies_true, and_true]
      exact ⟨h.trans (by decide), Nat.zero_le _⟩
    · rw [hlast]
      rintro l ⟨⟩
      exact h

/-- The inputs of two texts with whole lines, one after the other. -/
theorem commands_append (h : w.getLast? = some newline) (r : List UInt8) :
    commands (w ++ r) = commands w ++ commands r := by
  induction hn : w.length using Nat.strong_induction_on generalizing w with
  | _ n ih =>
    obtain ⟨v, u, rfl, hv⟩ := List.eq_append_cons_of_mem (List.mem_of_getLast? h)
    rw [List.append_assoc, List.cons_append, commands_line hv, commands_line hv,
      List.append_assoc]
    by_cases hu : u = []
    · rw [hu]
      rfl
    · have hend : u.getLast? = some newline := by
        rwa [List.append_cons, List.getLast?_append_of_ne_nil _ hu] at h
      have hlt : u.length < n := by
        rw [← hn, List.length_append, List.length_cons]
        omega
      rw [ih _ hlt hend rfl]

theorem ShortLines.append (h : ShortLines w) (hr : ShortLines r) : ShortLines (w ++ r) := by
  induction hn : w.length using Nat.strong_induction_on generalizing w with
  | _ n ih =>
    have hne : r ≠ [] := by
      rintro rfl
      cases hr.terminated
    obtain ⟨v, u, rfl, hv⟩ := List.eq_append_cons_of_mem (List.mem_of_getLast? h.terminated)
    rw [List.append_assoc, List.cons_append]
    by_cases hu : u = []
    · rw [hu, shortLines_line_nil hv] at h
      rw [hu, List.nil_append, shortLines_line hv hne]
      exact ⟨h.trans (by decide), hr⟩
    · rw [shortLines_line hv hu] at h
      have hlt : u.length < n := by
        rw [← hn, List.length_append, List.length_cons]
        omega
      rw [shortLines_line hv (List.append_ne_nil_of_left_ne_nil hu r)]
      exact ⟨h.1, ih _ hlt h.2 rfl⟩

theorem not_shortLines_last (hw : newline ∉ w) : ¬ ShortLines w :=
  fun h => hw (List.mem_of_getLast? h.terminated)

end Lines

/-! ## The two compared -/

section Compare

variable {text s w r c : List UInt8}

theorem shrink_eq_nil_iff : shrink text = [] ↔ text.length ≤ 1 := by
  constructor
  · intro h
    by_contra hlong
    rw [shrink, if_neg hlong] at h
    cases h
  · exact shrink_of_length_le

theorem length_lt_of_mem_shrink (h : c ∈ shrink text) : c.length < text.length := by
  induction text using List.reverseRecOn with
  | nil =>
    have hnil : shrink [] = [] := shrink_of_length_le (Nat.zero_le 1)
    rw [hnil] at h
    cases h
  | append_singleton u b ih =>
    rw [List.length_append, List.length_singleton]
    by_cases hu : u = []
    · rw [hu, shrink_of_length_le le_rfl] at h
      cases h
    · rw [shrink_append hu] at h
      rcases List.mem_cons.mp h with rfl | h
      · exact Nat.lt_succ_self _
      · exact (ih h).trans (Nat.lt_succ_self _)

theorem length_lt_of_mem_runText (ht : text ≠ []) (h : c ∈ runText text) :
    c.length < text.length := by
  have hpos := List.length_pos_iff.mpr ht
  unfold runText at h
  split at h
  · cases h
  · rw [← Option.mem_some.mp h, List.length_dropLast]
    omega

/-- No command is longer than the buffer lets it be. -/
theorem length_le_of_mem_ran (h : c ∈ ran text s) (ht : text.length ≤ 99) : c.length ≤ 98 := by
  induction hn : s.length using Nat.strong_induction_on generalizing s text with
  | _ n ih =>
    by_cases hs : s = []
    · rw [hs, ran_nil] at h
      have := length_lt_of_mem_shrink h
      omega
    · have hpiece := length_piece_le 99 s
      rw [ran_of_ne_nil text hs] at h
      rcases List.mem_append.mp h with h | h
      · have := length_lt_of_mem_runText (piece_ne_nil (by decide) hs) (Option.mem_toList.mp h)
        omega
      · exact ih _ (hn ▸ length_drop_piece_lt hs) h
          ((length_leftText_le _).trans hpiece) rfl

/-- A line that fits is run whole. -/
theorem ran_line (hw : newline ∉ w) (hlen : w.length ≤ 98) (text r : List UInt8) :
    ran text (w ++ newline :: r) =
      (runText (w ++ [newline])).toList ++ ran (leftText (w ++ [newline])) r := by
  have hpiece : piece 99 (w ++ newline :: r) = w ++ [newline] := piece_line hw (by omega) r
  have hdrop : (w ++ newline :: r).drop (w ++ [newline]).length = r := by
    rw [List.append_cons w newline r]
    exact List.drop_left' rfl
  have hne : w ++ newline :: r ≠ [] := by simp
  rw [ran_of_ne_nil text hne, hpiece, hdrop]

/-- After a line that fits nothing more is run of it when it has at most one character. -/
theorem shrink_leftText_line (w : List UInt8) :
    shrink (leftText (w ++ [newline])) = [] ↔ w.length ≤ 1 := by
  by_cases hw : w = []
  · rw [hw]
    exact iff_of_true (shrink_of_length_le le_rfl) (Nat.zero_le 1)
  · rw [leftText_append hw, shrink_eq_nil_iff]

/-- A last line without a newline is not run. -/
theorem notMem_ran_last (hw : newline ∉ w) (hne : w ≠ []) (hlen : w.length ≤ 98)
    (text : List UInt8) : w ∉ ran text w := by
  have hpiece : piece 99 w = w := piece_last hw (by omega)
  intro hmem
  rw [ran_of_ne_nil text hne, hpiece, List.drop_length, ran_nil] at hmem
  rcases List.mem_append.mp hmem with h | h
  · exact lt_irrefl _ (length_lt_of_mem_runText hne (Option.mem_toList.mp h))
  · exact not_lt.mpr (length_leftText_le w) (length_lt_of_mem_shrink h)

/-- **What is run are the commands exactly when the lines are short.** -/
theorem ran_eq_commands_iff (text : List UInt8) (hs : s ≠ []) (ht : text.length ≤ 99) :
    ran text s = commands s ↔ ShortLines s := by
  induction hn : s.length using Nat.strong_induction_on generalizing s text with
  | _ n ih =>
    by_cases hnl : newline ∈ s
    · obtain ⟨w, r, rfl, hw⟩ := List.eq_append_cons_of_mem hnl
      rw [commands_line hw]
      by_cases hlen : w.length ≤ 98
      · rw [ran_line hw hlen, List.append_cancel_left_eq]
        by_cases hr : r = []
        · rw [hr, ran_nil, shortLines_line_nil hw]
          exact shrink_leftText_line w
        · have hleft : (leftText (w ++ [newline])).length ≤ 99 := by
            apply (length_leftText_le _).trans
            rw [List.length_append, List.length_singleton]
            omega
          rw [shortLines_line hw hr, and_iff_right hlen]
          exact ih r.length (by rw [← hn]; simp; omega) _ hr hleft rfl
      -- the line is a command, and too long to be run
      · have hwne : w ≠ [] := by
          rintro rfl
          exact hlen (Nat.zero_le 98)
        refine iff_of_false (fun heq => hlen ?_) fun hshort => hlen ?_
        · have hmem : w ∈ ran text (w ++ newline :: r) := by
            rw [heq, runText_append hwne]
            exact List.mem_cons_self
          exact length_le_of_mem_ran hmem ht
        · apply hshort.short
          rw [List.splitOn_append_cons_self_of_not_mem hw]
          exact List.mem_cons_self
    · refine iff_of_false (fun heq => ?_) (not_shortLines_last hnl)
      have hmem : s ∈ ran text s := by
        rw [heq, commands_last hnl hs]
        exact List.mem_singleton_self s
      exact notMem_ran_last hnl hs (length_le_of_mem_ran hmem ht) text hmem

end Compare

end NetworkLabs.Shell

import NetworkLabs.Shell.Commands

/-!
# When the shell runs the commands of its input

The shell reads its input as a list of characters as long as its children leave the input alone. A
child for whose command there is no program gives back what was read ahead of a file: the lines
after it are then read, and run, once more. Nothing comes of this after the last command.

## Main definitions

* `RunsExactly`: the shell runs the commands of its input and nothing else
* `World.Safe`: the commands that leave the input alone
* `Handles`: the inputs that the shell handles

## Main results

* `ran_eq_of_settles`, `settles_ran`: with such commands the shell runs what `ran` says
* `runsExactly_iff`: the inputs whose commands are run exactly
* `settles_twice`: the lines after a command that is not found, run twice
-/

namespace NetworkLabs.Shell

open CRuntime Transition

/-- With `stack` in its buffer at the start, the shell goes on for ever, and it runs the commands of
its input and no other. -/
def RunsExactly (w : World) (stack : Mem UInt8) (input : List UInt8) : Prop :=
  (simsh w).Settles () ⟨stack, .start input⟩ (commands input)

/-- The programs leave the input as they find it, and of a file every command but the last has a
program. -/
structure World.Safe (w : World) (cmds : List (List UInt8)) : Prop where
  keeps : ∀ c ∈ cmds, ∀ run, w.program c = some run → ∀ f, run f = f
  found : w.seekable = true → ∀ c ∈ cmds.dropLast, w.program c ≠ none

section Safe

variable {w : World} {c : List UInt8} {cmds : List (List UInt8)} {s : Stream}

theorem World.Safe.nil (w : World) : w.Safe [] :=
  ⟨fun _ h => absurd h List.not_mem_nil, fun _ _ h => absurd h List.not_mem_nil⟩

theorem World.Safe.tail (h : w.Safe (c :: cmds)) : w.Safe cmds := by
  refine ⟨fun d hd => h.keeps d (List.mem_cons_of_mem c hd), fun hseek d hd => h.found hseek d ?_⟩
  rw [List.dropLast_cons_of_ne_nil (List.ne_nil_of_mem (List.mem_of_mem_dropLast hd))]
  exact List.mem_cons_of_mem c hd

theorem World.safe_of_found
    (h : ∀ d ∈ cmds, ∃ run, w.program d = some run ∧ ∀ f, run f = f) : w.Safe cmds := by
  refine ⟨fun d hd run hprog f => ?_, fun _ d hd hprog => ?_⟩
  · obtain ⟨run', hprog', hid⟩ := h d hd
    cases hprog.symm.trans hprog'
    exact hid f
  · obtain ⟨run', hprog', -⟩ := h d (List.mem_of_mem_dropLast hd)
    cases hprog.symm.trans hprog'

/-- A child leaves the input alone, or there is no program: then it gives back what was read ahead,
and its command was the last one. -/
theorem World.Safe.after (h : w.Safe (c :: cmds)) (s : Stream) : w.after (some c) s = s ∨
    w.program c = none ∧ w.after (some c) s = { s with file := s.file.back s.ahead.length } ∧
      cmds = [] := by
  cases hprog : w.program c with
  | some run =>
    have hchild := World.child_of_some hprog s
    rw [h.keeps c List.mem_cons_self run hprog] at hchild
    exact .inl (congrArg (Stream.mk · s.ahead s.eof) hchild)
  | none =>
    have hchild := World.child_of_none hprog s
    by_cases hseek : w.seekable = true
    · rw [if_pos hseek] at hchild
      refine .inr ⟨rfl, congrArg (Stream.mk · s.ahead s.eof) hchild, ?_⟩
      by_contra hne
      refine h.found hseek c ?_ hprog
      rw [List.dropLast_cons_of_ne_nil hne]
      exact List.mem_cons_self
    · rw [if_neg hseek] at hchild
      exact .inl (congrArg (Stream.mk · s.ahead s.eof) hchild)

end Safe

/-! ## The runs -/

section Runs

variable {w : World} {text s : List UInt8} {σ : ShellState} {out : List (List UInt8)}

/-- **Without commands**: the shell runs nothing exactly when there is nothing to run. -/
theorem settles_nil_iff (h : Gives text s σ) :
    (simsh w).Settles () σ [] ↔ ran text s = [] := by
  refine round_induction (P := fun text s => ∀ σ, Gives text s σ →
    ((simsh w).Settles () σ [] ↔ ran text s = [])) ?_ ?_ text s h.ne_nil σ h
  -- a string of one character stays for ever
  · intro text hone σ h
    refine iff_of_true ?_ ((ran_nil text).trans (shrink_of_length_le hone.le))
    refine .of_silent (Gives text []) (fun σ h => ?_) h
    obtain ⟨buf, next, hstep, hnext, -⟩ := exists_step w h
    have hrun : runText (seen text []) = none := if_pos hone
    have hleft : leftText (seen text []) = text := if_pos hone
    rw [hrun] at hstep
    rw [hleft] at hnext
    exact ⟨_, hstep, hnext⟩
  · intro text s hne ih σ h
    obtain ⟨buf, next, hstep, hnext, -⟩ := exists_step w h
    rw [ran_eq hne]
    cases hrun : runText (seen text s) with
    | none =>
      rw [hrun] at hstep
      have hiff := ih _ hnext
      constructor
      · intro hset
        obtain ⟨out', hout, hset⟩ := hset.exists_of_step hstep
        cases hout
        exact hiff.mp hset
      · exact fun hran => .of_step hstep (hiff.mpr hran)
    | some c =>
      rw [hrun] at hstep
      refine iff_of_false (fun hset => ?_) (List.cons_ne_nil c _)
      obtain ⟨out', hout, -⟩ := hset.exists_of_step hstep
      cases hout

/-- Where nothing is run of an input some of which is read twice, nothing is run of the input. -/
theorem ran_eq_nil_of_append {a : List UInt8} (ha : a <+: s) (h : ran text (a ++ s) = []) :
    ran text s = [] := by
  by_cases hs : s = []
  · rw [hs] at ha h ⊢
    rwa [List.prefix_nil.mp ha] at h
  · rw [ran_eq_nil_iff text hs]
    rw [ran_eq_nil_iff text (List.append_ne_nil_of_right_ne_nil a hs),
      List.dropLast_append_of_ne_nil hs] at h
    exact fun b hb => h b (List.mem_append_right a hb)

/-- Where the input ends with a newline, the converse. -/
theorem ran_append_eq_nil {a : List UInt8} (ha : a <+: s)
    (hend : s ≠ [] → s.getLast? = some newline) (h : ran text s = []) :
    ran text (a ++ s) = [] := by
  by_cases hs : s = []
  · rw [hs] at ha h ⊢
    rwa [List.prefix_nil.mp ha]
  · have hall : ∀ b ∈ s, b = newline := by
      obtain ⟨u, rfl⟩ := List.getLast?_eq_some_iff.mp (hend hs)
      rw [ran_eq_nil_iff text hs, List.dropLast_concat] at h
      exact List.forall_mem_append.mpr ⟨h, List.forall_mem_singleton.mpr rfl⟩
    rw [ran_eq_nil_iff text (List.append_ne_nil_of_right_ne_nil a hs),
      List.dropLast_append_of_ne_nil hs]
    intro b hb
    rcases List.mem_append.mp hb with hb | hb
    · exact hall b (ha.subset hb)
    · exact hall b (List.mem_of_mem_dropLast hb)

theorem Gives.isPrefix {buf : Mem UInt8} {next : Stream} (h : Gives text s ⟨buf, next⟩) :
    next.ahead <+: s := ⟨_, h.rest_eq⟩

/-- **What the shell runs is what `ran` says**, where it runs safe commands only. -/
theorem ran_eq_of_settles (h : Gives text s σ) (hsync : σ.stdin.Synced) (hsafe : w.Safe out)
    (hset : (simsh w).Settles () σ out) : ran text s = out := by
  refine round_induction (P := fun text s => ∀ σ out, Gives text s σ → σ.stdin.Synced →
    w.Safe out → (simsh w).Settles () σ out → ran text s = out) ?_ ?_
    text s h.ne_nil σ out h hsync hsafe hset
  · rintro text hone σ out h - - hset
    have hnil : ran text [] = [] := (ran_nil text).trans (shrink_of_length_le hone.le)
    rw [hnil]
    exact ((settles_nil_iff h).mpr hnil).unique hset
  · intro text s hne ih σ out h hsync hsafe hset
    obtain ⟨buf, next, hstep, hnext, hfgets⟩ := exists_step w h
    have hnsync : next.Synced := hfgets ▸ hsync.fgets σ.buf 100
    rw [ran_eq hne]
    cases hrun : runText (seen text s) with
    | none =>
      rw [hrun] at hstep
      obtain ⟨out', rfl, hset'⟩ := hset.exists_of_step hstep
      exact ih _ _ hnext hnsync hsafe hset'
    | some c =>
      rw [hrun] at hstep
      obtain ⟨out', rfl, hset'⟩ := hset.exists_of_step hstep
      have hsafe : w.Safe (c :: out') := hsafe
      have htail : ran (leftText (seen text s)) (s.drop (piece 99 s).length) = out' := by
        obtain hafter | ⟨-, hafter, rfl⟩ := hsafe.after next
        · rw [hafter] at hset'
          exact ih _ out' hnext hnsync hsafe.tail hset'
        -- the last command: nothing is run of what is read twice
        · rw [hafter] at hset'
          exact ran_eq_nil_of_append hnext.isPrefix
            ((settles_nil_iff (hnext.back hnsync)).mp hset')
      rw [htail]

/-- **It does run what `ran` says** where that is safe and the input ends with a newline. -/
theorem settles_ran (h : Gives text s σ)
    (hsync : (∃ c ∈ ran text s, w.program c = none) → σ.stdin.Synced)
    (hend : s ≠ [] → s.getLast? = some newline) (hsafe : w.Safe (ran text s)) :
    (simsh w).Settles () σ (ran text s) := by
  refine round_induction (P := fun text s => ∀ σ, Gives text s σ →
    ((∃ c ∈ ran text s, w.program c = none) → σ.stdin.Synced) →
    (s ≠ [] → s.getLast? = some newline) → w.Safe (ran text s) →
    (simsh w).Settles () σ (ran text s)) ?_ ?_ text s h.ne_nil σ h hsync hend hsafe
  · rintro text hone σ h - - -
    have hnil : ran text [] = [] := (ran_nil text).trans (shrink_of_length_le hone.le)
    rw [hnil]
    exact (settles_nil_iff h).mpr hnil
  · intro text s hne ih σ h hsync hend hsafe
    obtain ⟨buf, next, hstep, hnext, hfgets⟩ := exists_step w h
    have hend' : s.drop (piece 99 s).length ≠ [] →
        (s.drop (piece 99 s).length).getLast? = some newline := by
      intro hne'
      rw [List.getLast?_drop, if_neg (fun hle => hne' (List.drop_eq_nil_iff.mpr hle))]
      exact hend fun hs => hne' (by rw [hs, List.drop_nil])
    have hnsync : σ.stdin.Synced → next.Synced := fun hsync => hfgets ▸ hsync.fgets σ.buf 100
    rw [ran_eq hne] at hsync hsafe ⊢
    cases hrun : runText (seen text s) with
    | none =>
      rw [hrun] at hstep hsync hsafe
      exact .of_step hstep (ih _ hnext (hnsync ∘ hsync) hend' hsafe)
    | some c =>
      rw [hrun] at hstep hsync hsafe
      have hsafe : w.Safe (c :: ran _ _) := hsafe
      refine .of_step hstep ?_
      obtain hafter | ⟨hnone, hafter, hnil⟩ := hsafe.after next
      · rw [hafter]
        have hlater : (∃ d ∈ ran (leftText (seen text s)) (s.drop (piece 99 s).length),
            w.program d = none) → next.Synced := by
          rintro ⟨d, hd, hnone⟩
          exact hnsync (hsync ⟨d, List.mem_cons_of_mem c hd, hnone⟩)
        exact ih _ hnext hlater hend' hsafe.tail
      -- the last command: what is read twice are newlines
      · have hsync := hnsync (hsync ⟨c, List.mem_cons_self, hnone⟩)
        rw [hafter, hnil]
        exact (settles_nil_iff (hnext.back hsync)).mpr
          (ran_append_eq_nil hnext.isPrefix hend' hnil)

end Runs

/-! ## The inputs whose commands are run -/

/-- The inputs that the shell handles: with short lines, or empty while the buffer happens to hold a
string of one character. -/
def Handles (stack : Mem UInt8) (input : List UInt8) : Prop :=
  (input = [] ∧ 0 ∈ stack.read 100 ∧ (cstring (stack.read 100)).length = 1) ∨
    (input ≠ [] ∧ ShortLines input)

section Main

variable {w : World}

theorem runsExactly_nil_iff (stack : Mem UInt8) : RunsExactly w stack [] ↔
    0 ∈ stack.read 100 ∧ (cstring (stack.read 100)).length = 1 := by
  have hnil : commands [] = [] := rfl
  unfold RunsExactly
  rw [hnil]
  by_cases hstep : 0 ∉ stack.read 100 ∨ cstring (stack.read 100) = []
  · apply iff_of_false (Machine.not_settles (step_eq_none rfl hstep) [])
    rintro ⟨hmem, hone⟩
    rw [hstep.resolve_left (not_not.mpr hmem)] at hone
    cases hone
  · obtain ⟨hmem, hne⟩ := not_or.mp hstep
    have hpos := List.length_pos_iff.mpr hne
    have hgives : Gives (cstring (stack.read 100)) [] ⟨stack, .start []⟩ :=
      ⟨rfl, List.not_mem_nil, fun _ => holds_cstring (not_not.mp hmem), fun _ => hne⟩
    rw [settles_nil_iff hgives, ran_nil, shrink_eq_nil_iff, and_iff_right (not_not.mp hmem)]
    omega

/-- An input that is not empty, at the start. -/
theorem gives_start {input : List UInt8} (hne : input ≠ []) (h0 : 0 ∉ input)
    (stack : Mem UInt8) : Gives [] input ⟨stack, .start input⟩ :=
  ⟨rfl, h0, fun h => absurd h hne, fun h => absurd h hne⟩

theorem settles_commands {input : List UInt8} {σ : ShellState} {text : List UInt8}
    (h : Gives text input σ)
    (hsync : (∃ c ∈ commands input, w.program c = none) → σ.stdin.Synced) (hne : input ≠ [])
    (hshort : ShortLines input) (ht : text.length ≤ 99) (hsafe : w.Safe (commands input)) :
    (simsh w).Settles () σ (commands input) := by
  have hran := (ran_eq_commands_iff text hne ht).mpr hshort
  rw [← hran] at hsafe hsync ⊢
  exact settles_ran h hsync (fun _ => hshort.terminated) hsafe

/-- **The shell runs exactly the commands of its input when every line is short, ends with a
newline and the last one has at most one character**, and in no other case with any input, as long
as its children leave the input alone. -/
theorem runsExactly_iff (w : World) (stack : Mem UInt8) (input : List UInt8) (h0 : 0 ∉ input)
    (hsafe : w.Safe (commands input)) : RunsExactly w stack input ↔ Handles stack input := by
  by_cases hne : input = []
  · rw [hne, runsExactly_nil_iff]
    exact ⟨fun h => .inl ⟨rfl, h⟩, fun h => (h.resolve_right fun h => h.1 rfl).2⟩
  · have hstart := gives_start hne h0 stack
    have hsync := Stream.synced_start input
    constructor
    · intro h
      refine .inr ⟨hne, (ran_eq_commands_iff [] hne (Nat.zero_le 99)).mp ?_⟩
      exact ran_eq_of_settles hstart hsync hsafe h
    · rintro (⟨h, -⟩ | ⟨-, hshort⟩)
      · exact absurd h hne
      · exact settles_commands hstart (fun _ => hsync) hne hshort (Nat.zero_le 99) hsafe

/-- The file `"ls\nw\n"`, of which both lines are run, the last one in vain. -/
theorem runsExactly_short : RunsExactly
    ⟨Nat.succPNat, true, fun c => if c = [119] then none else some id⟩ (fun _ => 255)
    [108, 115, 10, 119, 10] := by
  have hshort : ShortLines [108, 115, 10, 119, 10] := ⟨rfl, by decide, by decide⟩
  have hcommands : commands [108, 115, 10, 119, 10] = [[108, 115], [119]] := by decide
  have hsafe : World.Safe ⟨Nat.succPNat, true, fun c => if c = [119] then none else some id⟩
      (commands [108, 115, 10, 119, 10]) := by
    rw [hcommands]
    refine ⟨fun c _ run hrun f => ?_, fun _ c hc => ?_⟩
    · dsimp only at hrun
      split_ifs at hrun
      cases hrun
      rfl
    · rw [List.mem_singleton.mp hc]
      exact Option.some_ne_none id
  exact (runsExactly_iff _ _ [108, 115, 10, 119, 10] (by decide) hsafe).mpr
    (.inr ⟨List.cons_ne_nil _ _, hshort⟩)

/-- The input `"ls\n"` from a terminal: after its end `l` is run. -/
theorem not_runsExactly_ls :
    (simsh ⟨Nat.succPNat, false, fun _ => some id⟩).Settles ()
        ⟨fun _ => 255, .start [108, 115, 10]⟩ [[108, 115], [108]] ∧
      commands [108, 115, 10] = [[108, 115]] ∧
      ¬ RunsExactly ⟨Nat.succPNat, false, fun _ => some id⟩ (fun _ => 255) [108, 115, 10] := by
  have hran : ran [] [108, 115, 10] = [[108, 115], [108]] := by
    have hline := ran_line (w := [108, 115]) (by decide) (by decide) [] []
    have hone : shrink [108] = [] := shrink_of_length_le le_rfl
    have hshrink : shrink [108, 115] = [[108]] :=
      (shrink_append (u := [108]) (by decide) 115).trans (congrArg ([108] :: ·) hone)
    rw [ran_nil] at hline
    exact hline.trans (congrArg ([108, 115] :: ·) hshrink)
  have hsafe : World.Safe ⟨Nat.succPNat, false, fun _ => some id⟩ (ran [] [108, 115, 10]) := by
    refine ⟨fun c _ run hrun f => ?_, fun h => absurd h Bool.false_ne_true⟩
    cases hrun
    rfl
  have hsettles := settles_ran (gives_start (by decide) (by decide) fun _ => 255)
    (fun _ => Stream.synced_start [108, 115, 10]) (fun _ => rfl) hsafe
  rw [hran] at hsettles
  exact ⟨hsettles, by decide, fun h => absurd (hsettles.unique h) (by decide)⟩

/-- **The lines after a command without a program are run twice** when the input is a file that one
`read` gives whole and the other commands have programs. -/
theorem settles_twice {c r : List UInt8} (hseek : w.seekable = true) (hc : newline ∉ c)
    (hcne : c ≠ []) (hlen : c.length ≤ 98) (h0 : 0 ∉ c ++ newline :: r) (hshort : ShortLines r)
    (hwhole : (c ++ newline :: r).length ≤ w.amount (c ++ newline :: r).length)
    (hnone : w.program c = none)
    (hrun : ∀ d ∈ commands r, ∃ run, w.program d = some run ∧ ∀ f, run f = f)
    (stack : Mem UInt8) :
    (simsh w).Settles () ⟨stack, .start (c ++ newline :: r)⟩
      (c :: (commands r ++ commands r)) := by
  have hne : c ++ newline :: r ≠ [] := List.append_ne_nil_of_left_ne_nil hcne _
  have hpiece : piece 99 (c ++ newline :: r) = c ++ [newline] :=
    piece_line hc (Nat.lt_succ_of_le hlen) r
  have hdrop : (c ++ newline :: r).drop (c ++ [newline]).length = r := by
    rw [List.append_cons c newline r]
    exact List.drop_left' rfl
  have hrne : r ≠ [] := by
    rintro rfl
    cases hshort.terminated
  obtain ⟨buf, next, hstep, hnext, hfgets⟩ := exists_step w (gives_start hne h0 stack)
  rw [seen, if_neg hne, hpiece, runText_append hcne] at hstep
  rw [seen, if_neg hne, hpiece, leftText_append hcne, hdrop] at hnext
  -- all of `r` was read ahead, and is given back
  have hsync : next.Synced := hfgets ▸ (Stream.synced_start _).fgets stack 100
  have hahead : next.ahead = r := by
    have hwholeread := Stream.ahead_fgets_start hwhole stack 98
    rw [← hfgets] at hwholeread
    exact hwholeread.trans hnext.rest_eq
  have hback := hnext.back hsync
  have hafter : w.after (some c) next = { next with file := next.file.back next.ahead.length } := by
    have hchild := World.child_of_none hnone next
    rw [if_pos hseek] at hchild
    exact congrArg (Stream.mk · next.ahead next.eof) hchild
  rw [← hafter, hahead] at hback
  have hrun : ∀ d ∈ commands (r ++ r), ∃ run, w.program d = some run ∧ ∀ f, run f = f := by
    rw [commands_append hshort.terminated]
    exact List.forall_mem_append.mpr ⟨hrun, hrun⟩
  have hfound : (∃ d ∈ commands (r ++ r), w.program d = none) →
      (w.after (some c) next).Synced := by
    rintro ⟨d, hd, hprog⟩
    obtain ⟨run', hprog', -⟩ := hrun d hd
    cases hprog.symm.trans hprog'
  rw [← commands_append hshort.terminated]
  exact .of_step hstep (settles_commands hback hfound (List.append_ne_nil_of_left_ne_nil hrne r)
    (hshort.append hshort) (hlen.trans (by decide)) (World.safe_of_found hrun))

end Main

end NetworkLabs.Shell

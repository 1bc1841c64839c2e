import Mathlib.Data.List.Nodup
import Mathlib.Logic.Function.Basic
import NetworkLabs.Foundation.Machine

/-!
# Records of one size in a shared stream

Several writers put one record each into a stream, and a reader takes pieces off its front. A writer
may need any number of moves for its record, and other writers may move in between. Nothing in the
stream marks where a record ends.

The reader gets records when it takes pieces of their size and every writer has the stream to itself
until its record is complete.

## Main definitions

* `Writers ι α`: the records, all of one size
* `Channel`, `Writers.machine`: the stream with what is left to write, and its moves
* `Writers.Whole`: a writer moves while no other is inside its record; a read takes a whole piece
* `Writers.Aligned`: the stream holds records, and the start of at most one more

## Main results

* `Writers.Aligned.of_step`: what a move of that kind does to an aligned stream
* `Writers.reads_records`: the pieces read are records, each writer's at most once
-/

namespace Records

open Transition

variable {ι α : Type*}

/-- The records of the writers. -/
structure Writers (ι α : Type*) where
  size : ℕ
  record : ι → List α
  size_pos : 0 < size
  length_record : ∀ i, (record i).length = size

/-- What each writer has left to write, and what has not been read. -/
structure Channel (ι α : Type*) where
  left : ι → List α
  pipe : List α

/-- Writer `i` writes `n` cells of what it has left. -/
def Channel.write [DecidableEq ι] (s : Channel ι α) (i : ι) (n : ℕ) : Channel ι α where
  left := Function.update s.left i ((s.left i).drop n)
  pipe := s.pipe ++ (s.left i).take n

@[simp] theorem Channel.write_left_self [DecidableEq ι] (s : Channel ι α) (i : ι) (n : ℕ) :
    (s.write i n).left i = (s.left i).drop n :=
  Function.update_self ..

theorem Channel.write_left_of_ne [DecidableEq ι] (s : Channel ι α) {i j : ι} (h : j ≠ i) (n : ℕ) :
    (s.write i n).left j = s.left j :=
  Function.update_of_ne h ..

@[simp] theorem Channel.write_pipe [DecidableEq ι] (s : Channel ι α) (i : ι) (n : ℕ) :
    (s.write i n).pipe = s.pipe ++ (s.left i).take n := rfl

/-- A writer writes `n` cells, or the reader gets `n` cells. -/
inductive Move (ι : Type*)
  | write (i : ι) (n : ℕ)
  | read (n : ℕ)

namespace Writers

variable (W : Writers ι α)

/-- The stream before the first move. -/
def start : Channel ι α where
  left := W.record
  pipe := []

/-- The stream as a machine; its outputs are the pieces read. A read may be given less than a record
and less than there is, but something. -/
def machine [DecidableEq ι] : Machine (Channel ι α) (Move ι) (List α) where
  step s
    | .write i n =>
      if 1 ≤ n ∧ n ≤ (s.left i).length then some (s.write i n, []) else none
    | .read n =>
      if 1 ≤ n ∧ n ≤ W.size ∧ n ≤ s.pipe.length then
        some ({ s with pipe := s.pipe.drop n }, [s.pipe.take n])
      else none

theorem machine_write [DecidableEq ι] {s : Channel ι α} {i : ι} {n : ℕ} (hpos : 1 ≤ n)
    (hn : n ≤ (s.left i).length) : W.machine.step s (.write i n) = some (s.write i n, []) :=
  if_pos ⟨hpos, hn⟩

theorem machine_read [DecidableEq ι] {s : Channel ι α} {n : ℕ} (hpos : 1 ≤ n) (hsize : n ≤ W.size)
    (hn : n ≤ s.pipe.length) :
    W.machine.step s (.read n) = some ({ s with pipe := s.pipe.drop n }, [s.pipe.take n]) :=
  if_pos ⟨hpos, hsize, hn⟩

/-- No other writer is inside its record; and a read is given a piece of the size of a record. -/
def Whole (s : Channel ι α) : Move ι → Prop
  | .write i _ => ∀ j, j ≠ i → s.left j = [] ∨ s.left j = W.record j
  | .read n => n = W.size

/-- What writer `i` has left to write when those in `done` are done and no other has begun. -/
def rest [DecidableEq ι] (done : List ι) (i : ι) : List α := if i ∈ done then [] else W.record i

/-- The stream holds the records of `queued`, behind those of `taken` that have been read. -/
structure Between [DecidableEq ι] (s : Channel ι α) (taken queued : List ι) : Prop where
  nodup : (taken ++ queued).Nodup
  pipe : s.pipe = queued.flatMap W.record
  left : ∀ i, s.left i = W.rest (taken ++ queued) i

/-- Behind the records of `queued` the stream holds the part of its record that `j` has written. -/
structure Inside [DecidableEq ι] (s : Channel ι α) (taken queued : List ι) (j : ι) (part : List α) :
    Prop where
  nodup : (taken ++ queued).Nodup
  notMem : j ∉ taken ++ queued
  pipe : s.pipe = queued.flatMap W.record ++ part
  own : part ++ s.left j = W.record j
  left : ∀ i, i ≠ j → s.left i = W.rest (taken ++ queued) i

/-- The records of `taken` have been read, and at most one writer is inside its record. -/
def Aligned [DecidableEq ι] (s : Channel ι α) (taken : List ι) : Prop :=
  ∃ queued, W.Between s taken queued ∨
    ∃ j part, part ≠ [] ∧ s.left j ≠ [] ∧ W.Inside s taken queued j part

section Alignment

variable {W} [DecidableEq ι] {s t : Channel ι α} {taken queued : List ι} {j : ι} {part : List α}

theorem aligned_start (W : Writers ι α) : W.Aligned W.start [] :=
  ⟨[], .inl ⟨List.nodup_nil, rfl, fun _ => (if_neg List.not_mem_nil).symm⟩⟩

theorem rest_of_mem {done : List ι} (h : j ∈ done) : W.rest done j = [] := if_pos h

theorem rest_of_notMem {done : List ι} (h : j ∉ done) : W.rest done j = W.record j := if_neg h

theorem rest_concat_of_ne {done : List ι} {i : ι} (h : i ≠ j) :
    W.rest (done ++ [j]) i = W.rest done i := by
  simp [Writers.rest, h]

/-- A writer that is not done may begin. -/
theorem Between.inside (h : W.Between s taken queued) (hj : s.left j ≠ []) :
    W.Inside s taken queued j [] := by
  have hnotMem : j ∉ taken ++ queued := fun hmem => hj (by rw [h.left, rest_of_mem hmem])
  exact ⟨h.nodup, hnotMem, by rw [h.pipe, List.append_nil],
    by rw [h.left, rest_of_notMem hnotMem, List.nil_append], fun i _ => h.left i⟩

/-- The writer that is inside its record goes on, or completes it. -/
theorem Inside.write (h : W.Inside s taken queued j part) {n : ℕ} (hpos : 1 ≤ n)
    (hn : n ≤ (s.left j).length) :
    W.Aligned (s.write j n) taken := by
  rcases Nat.lt_or_eq_of_le hn with hlt | rfl
  -- a part of the record is still missing
  · refine ⟨queued, .inr ⟨j, part ++ (s.left j).take n, ?_, ?_, h.nodup, h.notMem, ?_, ?_, ?_⟩⟩
    · apply List.append_ne_nil_of_right_ne_nil
      exact List.ne_nil_of_length_pos (by rw [List.length_take]; omega)
    · rw [Channel.write_left_self]
      exact List.ne_nil_of_length_pos (by rw [List.length_drop]; omega)
    · rw [Channel.write_pipe, h.pipe, List.append_assoc]
    · rw [Channel.write_left_self, List.append_assoc, List.take_append_drop, h.own]
    · intro i hi
      rw [s.write_left_of_ne hi, h.left i hi]
  -- the record is complete and joins the queue
  · refine ⟨queued ++ [j], .inl ⟨?_, ?_, fun i => ?_⟩⟩
    · rw [← List.append_assoc]
      exact List.nodup_append_comm.mpr (List.nodup_cons.mpr ⟨h.notMem, h.nodup⟩)
    · rw [Channel.write_pipe, h.pipe, List.take_length, List.append_assoc, h.own,
        List.flatMap_append, List.flatMap_singleton]
    · rw [← List.append_assoc]
      by_cases hi : i = j
      · subst hi
        rw [Channel.write_left_self, List.drop_length, rest_of_mem (by simp)]
      · rw [s.write_left_of_ne hi, rest_concat_of_ne hi, h.left i hi]

omit [DecidableEq ι] in
/-- A stream that holds the size of a record, and less than that behind its records, begins with a
record. -/
theorem exists_eq_cons (h : s.pipe = queued.flatMap W.record ++ part)
    (hpart : part.length < W.size) (hsize : W.size ≤ s.pipe.length) :
    ∃ i queued', queued = i :: queued' ∧ s.pipe.take W.size = W.record i ∧
      s.pipe.drop W.size = queued'.flatMap W.record ++ part := by
  cases queued with
  | nil =>
    -- a part alone would be too short for the read
    rw [h, List.flatMap_nil, List.nil_append] at hsize
    omega
  | cons i queued' =>
    rw [List.flatMap_cons, List.append_assoc] at h
    refine ⟨i, queued', rfl, ?_, ?_⟩
    · rw [h, List.take_left' (W.length_record i)]
    · rw [h, List.drop_left' (W.length_record i)]

/-- A read of the size of a record takes the first record that is queued. -/
theorem Aligned.read (h : W.Aligned s taken) (hsize : W.size ≤ s.pipe.length) :
    ∃ i, s.pipe.take W.size = W.record i ∧
      W.Aligned { s with pipe := s.pipe.drop W.size } (taken ++ [i]) := by
  obtain ⟨queued, hbetween | ⟨j, part, hne, hleft, hinside⟩⟩ := h
  · have hpipe : s.pipe = queued.flatMap W.record ++ [] := by rw [hbetween.pipe, List.append_nil]
    obtain ⟨i, queued', rfl, htake, hdrop⟩ := exists_eq_cons hpipe W.size_pos hsize
    have hlist : taken ++ [i] ++ queued' = taken ++ i :: queued' := List.append_cons .. |>.symm
    rw [List.append_nil] at hdrop
    refine ⟨i, htake, queued', .inl ⟨?_, hdrop, ?_⟩⟩
    · rw [hlist]
      exact hbetween.nodup
    · rw [hlist]
      exact hbetween.left
  -- what is left of the record of `j` makes its part too short
  · have hpart : part.length < W.size := by
      have hlength := congrArg List.length hinside.own
      rw [List.length_append, W.length_record] at hlength
      have hpos := List.length_pos_of_ne_nil hleft
      omega
    obtain ⟨i, queued', rfl, htake, hdrop⟩ := exists_eq_cons hinside.pipe hpart hsize
    have hlist : taken ++ [i] ++ queued' = taken ++ i :: queued' := List.append_cons .. |>.symm
    refine ⟨i, htake, queued', .inr ⟨j, part, hne, hleft, ?_, ?_, hdrop, hinside.own, ?_⟩⟩
    · rw [hlist]
      exact hinside.nodup
    · rw [hlist]
      exact hinside.notMem
    · rw [hlist]
      exact hinside.left

/-- **What a whole move does to an aligned stream**: a read takes the record of a writer. -/
theorem Aligned.of_step {m : Move ι} {o : List (List α)} (h : W.Aligned s taken)
    (hstep : W.machine.step s m = some (t, o)) (hwhole : W.Whole s m) :
    ∃ order : List ι, o = order.map W.record ∧ W.Aligned t (taken ++ order) := by
  cases m with
  | write i n =>
    simp only [Writers.machine, Option.ite_none_right_eq_some] at hstep
    obtain ⟨⟨hpos, hn⟩, hstep⟩ := hstep
    obtain ⟨rfl, rfl⟩ := Prod.mk.inj (Option.some.inj hstep)
    refine ⟨[], rfl, ?_⟩
    rw [List.append_nil]
    have hi : s.left i ≠ [] := List.ne_nil_of_length_pos (by omega)
    obtain ⟨queued, hbetween | ⟨j, part, hne, hleft, hinside⟩⟩ := h
    -- the writer begins its record
    · exact (Between.inside hbetween hi).write hpos hn
    -- the writer inside its record is the one that moves
    · obtain rfl : i = j := by
        by_contra hij
        rcases hwhole j (Ne.symm hij) with hnil | hrecord
        · exact hleft hnil
        -- with all of its record left it would not be inside
        · have hown := hinside.own
          rw [hrecord] at hown
          exact hne (List.append_left_eq_self.mp hown)
      exact hinside.write hpos hn
  | read n =>
    obtain rfl : n = W.size := hwhole
    simp only [Writers.machine, Option.ite_none_right_eq_some] at hstep
    obtain ⟨⟨-, -, hsize⟩, hstep⟩ := hstep
    obtain ⟨rfl, rfl⟩ := Prod.mk.inj (Option.some.inj hstep)
    obtain ⟨i, htake, haligned⟩ := h.read hsize
    exact ⟨[i], by rw [htake, List.map_singleton], haligned⟩

theorem Aligned.of_run {is : List (Move ι)} {o : List (List α)} (h : W.Aligned s taken)
    (hrun : W.machine.run s is = some (t, o))
    (hwhole : W.machine.Always (fun s m _ _ => W.Whole s m) s is) :
    ∃ order : List ι, o = order.map W.record ∧ W.Aligned t (taken ++ order) := by
  induction is generalizing s taken o with
  | nil =>
    obtain ⟨rfl, rfl⟩ := by simpa using hrun
    exact ⟨[], rfl, by rwa [List.append_nil]⟩
  | cons m is ih =>
    obtain ⟨u, o₁, o₂, hstep, hrest, rfl⟩ := Machine.run_cons_eq_some_iff.mp hrun
    obtain ⟨hm, hall⟩ := hwhole u o₁ hstep
    obtain ⟨order₁, rfl, hu⟩ := h.of_step hstep hm
    obtain ⟨order₂, rfl, ht⟩ := ih hu hrest hall
    exact ⟨order₁ ++ order₂, List.map_append.symm, by rwa [← List.append_assoc]⟩

/-- In an empty stream every writer that is done has been read. -/
theorem Aligned.mem_of_left_eq_nil (h : W.Aligned s taken) (hpipe : s.pipe = [])
    (hj : s.left j = []) : j ∈ taken := by
  have hne : ∀ i, W.record i ≠ [] := fun i =>
    List.ne_nil_of_length_pos ((W.length_record i).symm ▸ W.size_pos)
  obtain ⟨queued, hbetween | ⟨i, part, hpart, -, hinside⟩⟩ := h
  · by_contra hmem
    have hrecord := hbetween.left j
    rw [hj] at hrecord
    by_cases hqueued : j ∈ queued
    -- its record would still be in the stream
    · have hnil := hbetween.pipe.symm.trans hpipe
      exact hne j (List.flatMap_eq_nil_iff.mp hnil j hqueued)
    -- it would not have begun
    · rw [rest_of_notMem (by simp [hmem, hqueued])] at hrecord
      exact hne j hrecord.symm
  -- the stream would hold a part of a record
  · have hnil := hinside.pipe.symm.trans hpipe
    exact absurd (List.append_eq_nil_iff.mp hnil).2 hpart

/-- **Whole moves deliver records**: the pieces read are the records of different writers, and when
the stream is empty no finished writer is missing. -/
theorem reads_records {is : List (Move ι)} {o : List (List α)}
    (hrun : W.machine.run W.start is = some (t, o))
    (hwhole : W.machine.Always (fun s m _ _ => W.Whole s m) W.start is) :
    ∃ order : List ι, order.Nodup ∧ o = order.map W.record ∧
      (t.pipe = [] → ∀ i, t.left i = [] → i ∈ order) := by
  obtain ⟨order, ho, haligned⟩ := (aligned_start W).of_run hrun hwhole
  rw [List.nil_append] at haligned
  have hnodup : order.Nodup := by
    obtain ⟨queued, hbetween | ⟨j, part, -, -, hinside⟩⟩ := haligned
    · exact hbetween.nodup.of_append_left
    · exact hinside.nodup.of_append_left
  exact ⟨order, hnodup, ho, fun hpipe i hi => haligned.mem_of_left_eq_nil hpipe hi⟩

end Alignment

end Writers

end Records

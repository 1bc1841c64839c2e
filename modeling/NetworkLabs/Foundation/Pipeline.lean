import Mathlib.Data.List.Infix

/-!
# Rows of queues

A pipeline hands what a source sends from queue to queue to a sink. Each of its steps moves one
item at most, so what the sink got, followed by what the queues hold from the last to the first, is
what the source sent.

## Main definitions

* `Pipeline`: what was sent, what was got, and the queues on the way
* `row queue n`: what the first `n` queues hold, the oldest item first
* `Step n p q`: a step of a pipeline of `n` queues
* `Line`, `Line.Step`: one queue that may lose items

## Main results

* `Conserved.step`: nothing is lost, duplicated or reordered
* `Conserved.delivers`: what was got is a prefix of what was sent
* `Line.Ordered.step`: a line that loses keeps the order
-/

namespace Pipelines

variable {α : Type*}

/-- A row of queues between a source and a sink, the queue `0` at the source. -/
structure Pipeline (α : Type*) where
  sent : List α
  got : List α
  queue : ℕ → List α

/-- What the first `n` queues hold, the oldest item first. -/
def row (queue : ℕ → List α) : ℕ → List α
  | 0 => []
  | n + 1 => queue n ++ row queue n

/-- A step of a pipeline of `n` queues, given by what it changes. -/
inductive Step (n : ℕ) (p q : Pipeline α) : Prop
  | idle (sent : q.sent = p.sent) (got : q.got = p.got) (rest : ∀ i < n, q.queue i = p.queue i)
  | push (d : α) (sent : q.sent = p.sent ++ [d]) (got : q.got = p.got)
      (first : q.queue 0 = p.queue 0 ++ [d]) (rest : ∀ i < n, i ≠ 0 → q.queue i = p.queue i)
  | move (d : α) (j : ℕ) (sent : q.sent = p.sent) (got : q.got = p.got) (lt : j + 1 < n)
      (head : p.queue j = d :: q.queue j) (next : q.queue (j + 1) = p.queue (j + 1) ++ [d])
      (rest : ∀ i < n, i ≠ j → i ≠ j + 1 → q.queue i = p.queue i)
  | pop (d : α) (j : ℕ) (sent : q.sent = p.sent) (got : q.got = p.got ++ [d]) (eq : j + 1 = n)
      (last : p.queue j = d :: q.queue j) (rest : ∀ i < j, q.queue i = p.queue i)

/-- What was got, followed by what is on the way, is what was sent. -/
def Conserved (n : ℕ) (p : Pipeline α) : Prop := p.got ++ row p.queue n = p.sent

/-! ## The row -/

theorem row_congr {q q' : ℕ → List α} {n : ℕ} (h : ∀ i < n, q' i = q i) : row q' n = row q n := by
  induction n with
  | zero => rfl
  | succ n ih => rw [row, row, h n (Nat.lt_succ_self n), ih fun i hi => h i (by omega)]

theorem row_eq_nil {q : ℕ → List α} {n : ℕ} (h : ∀ i < n, q i = []) : row q n = [] := by
  induction n with
  | zero => rfl
  | succ n ih => rw [row, h n (Nat.lt_succ_self n), ih fun i hi => h i (by omega), List.append_nil]

theorem queue_eq_nil_of_row {q : ℕ → List α} {n : ℕ} (h : row q n = []) : ∀ i < n, q i = [] := by
  induction n with
  | zero => exact fun i hi => absurd hi (Nat.not_lt_zero i)
  | succ n ih =>
    obtain ⟨hlast, hrest⟩ := List.append_eq_nil_iff.mp h
    intro i hi
    rcases Nat.lt_succ_iff_lt_or_eq.mp hi with hlt | rfl
    · exact ih hrest i hlt
    · exact hlast

/-- An item that enters the first queue is the last of the row. -/
theorem row_push {q q' : ℕ → List α} {n : ℕ} {d : α} (first : q' 0 = q 0 ++ [d])
    (rest : ∀ i < n + 1, i ≠ 0 → q' i = q i) : row q' (n + 1) = row q (n + 1) ++ [d] := by
  induction n with
  | zero => simp [row, first]
  | succ n ih =>
    calc row q' (n + 2)
        = q (n + 1) ++ (row q (n + 1) ++ [d]) := by
          rw [row, rest (n + 1) (by omega) (by omega), ih fun i hi => rest i (by omega)]
      _ = row q (n + 2) ++ [d] := (List.append_assoc ..).symm

/-- An item that leaves the last queue is the first of the row. -/
theorem row_pop {q q' : ℕ → List α} {n : ℕ} {d : α} (last : q n = d :: q' n)
    (rest : ∀ i < n, q' i = q i) : row q (n + 1) = d :: row q' (n + 1) := by
  rw [row, row, last, row_congr rest, List.cons_append]

/-- An item that goes from one queue to the next keeps its place in the row. -/
theorem row_move {q q' : ℕ → List α} {n j : ℕ} {d : α} (lt : j + 1 < n)
    (head : q j = d :: q' j) (next : q' (j + 1) = q (j + 1) ++ [d])
    (rest : ∀ i < n, i ≠ j → i ≠ j + 1 → q' i = q i) : row q' n = row q n := by
  induction n with
  | zero => omega
  | succ n ih =>
    rcases Nat.lt_or_ge (j + 1) n with hlt | hge
    -- both queues lie below the last one
    · rw [row, row, rest n (Nat.lt_succ_self n) (by omega) (by omega),
        ih hlt fun i hi => rest i (by omega)]
    · obtain rfl : n = j + 1 := by omega
      have hbelow : row q' j = row q j :=
        row_congr fun i hi => rest i (by omega) (by omega) (by omega)
      rw [row, row, next, row, row, head, hbelow, List.append_assoc, List.singleton_append,
        List.cons_append]

/-! ## Conservation -/

/-- **Nothing is lost, duplicated or reordered**: every step keeps the balance. -/
theorem Conserved.step {n : ℕ} {p q : Pipeline α} (hp : Conserved n p) (hn : 0 < n)
    (h : Step n p q) : Conserved n q := by
  obtain ⟨n, rfl⟩ := Nat.exists_eq_succ_of_ne_zero hn.ne'
  unfold Conserved at hp ⊢
  -- what a step takes from one end of the row it adds to what was sent or got
  cases h with
  | idle sent got rest => rw [sent, got, row_congr rest, hp]
  | push d sent got first rest => rw [sent, got, row_push first rest, ← hp, List.append_assoc]
  | move d j sent got lt head next rest => rw [sent, got, row_move lt head next rest, hp]
  | pop d j sent got eq last rest =>
    obtain rfl := Nat.succ_injective eq
    rw [sent, got, ← hp, row_pop last rest, List.append_assoc, List.singleton_append]

/-- **What was got is a prefix of what was sent.** -/
theorem Conserved.delivers {n : ℕ} {p : Pipeline α} (h : Conserved n p) : p.got <+: p.sent :=
  ⟨_, h⟩

/-! ## A line that loses -/

/-- One queue between a source and a sink. -/
structure Line (α : Type*) where
  sent : List α
  got : List α
  queue : List α

namespace Line

/-- Nothing has been sent. -/
def empty : Line α := ⟨[], [], []⟩

/-- A step of a line; only one that is `lossy` loses items. -/
inductive Step (lossy : Prop) : Line α → Line α → Prop
  | send (l : Line α) (ds : List α) : Step lossy l ⟨l.sent ++ ds, l.got, l.queue ++ ds⟩
  | lose {l : Line α} {pre post : List α} {d : α} : lossy → l.queue = pre ++ d :: post →
      Step lossy l { l with queue := pre ++ post }
  | deliver {l : Line α} {d : α} {rest : List α} : l.queue = d :: rest →
      Step lossy l ⟨l.sent, l.got ++ [d], rest⟩

/-- What was got and what is on the way was sent in this order; all of it, if nothing is lost. -/
structure Ordered (lossy : Prop) (l : Line α) : Prop where
  sublist : (l.got ++ l.queue).Sublist l.sent
  all : ¬ lossy → l.got ++ l.queue = l.sent

variable {lossy : Prop} {l m : Line α}

theorem Ordered.empty : Ordered lossy (Line.empty : Line α) :=
  ⟨List.Sublist.refl _, fun _ => rfl⟩

/-- **A line keeps the order**, whatever it loses. -/
theorem Ordered.step (h : l.Ordered lossy) (hstep : Step lossy l m) : m.Ordered lossy := by
  cases hstep with
  | send ds =>
    constructor
    · rw [← List.append_assoc]
      exact h.sublist.append (List.Sublist.refl ds)
    · intro hno
      rw [← List.append_assoc, h.all hno]
  | @lose pre post d hlossy hqueue =>
    refine ⟨?_, fun hno => absurd hlossy hno⟩
    have hsub : (pre ++ post).Sublist l.queue := by
      rw [hqueue]
      exact (List.Sublist.refl pre).append (List.sublist_cons_self d post)
    exact ((List.Sublist.refl l.got).append hsub).trans h.sublist
  | @deliver d rest hqueue =>
    have hsame : l.got ++ [d] ++ rest = l.got ++ l.queue := by
      rw [hqueue, List.append_assoc, List.singleton_append]
    exact ⟨hsame ▸ h.sublist, fun hno => hsame.trans (h.all hno)⟩

theorem Ordered.got_sublist (h : l.Ordered lossy) : l.got.Sublist l.sent :=
  (List.sublist_append_left ..).trans h.sublist

end Line

end Pipelines

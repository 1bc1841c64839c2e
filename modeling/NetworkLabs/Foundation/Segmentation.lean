import Mathlib.Data.List.Basic

/-!
# Streams read in pieces

A stream keeps the order of its items and forgets where the writer put the boundaries: a reader
gets it in non-empty pieces of any lengths up to its buffer, until the end.

## Main definitions

* `Segmentation B s`: a way to cut the stream `s` into the results of reads into a buffer of `B`
* `Segmentation.single`, `Segmentation.atOnce`: item by item, and all at once

## Main results

* `Segmentation.exists_append`: the first read is a prefix of the stream
* `Segmentation.loop_eq`: what a loop accumulates piece by piece, when the pieces add up
-/

namespace Streams

variable {α : Type*}

/-- The results of the reads of a stream, up to its end. -/
structure Segmentation (B : ℕ) (s : List α) where
  pieces : List (List α)
  flatten_eq : pieces.flatten = s
  ne_nil : ∀ p ∈ pieces, p ≠ []
  length_le : ∀ p ∈ pieces, p.length ≤ B

namespace Segmentation

variable {B : ℕ} {s : List α}

/-- The first read; at the end of the stream it gives nothing. -/
def first (seg : Segmentation B s) : List α := seg.pieces.headD []

/-- The first read is a prefix of the stream. -/
theorem exists_append (seg : Segmentation B s) : ∃ u, s = seg.first ++ u := by
  obtain ⟨pieces, rfl, -, -⟩ := seg
  cases pieces with
  | nil => exact ⟨[], rfl⟩
  | cons p ps => exact ⟨ps.flatten, rfl⟩

/-- The first read is what it says of the stream. -/
theorem take_length_first (seg : Segmentation B s) : s.take seg.first.length = seg.first := by
  obtain ⟨u, hu⟩ := seg.exists_append
  exact (List.prefix_iff_eq_take.mp ⟨u, hu.symm⟩).symm

theorem length_first_le (seg : Segmentation B s) : seg.first.length ≤ s.length := by
  obtain ⟨u, hu⟩ := seg.exists_append
  exact List.IsPrefix.length_le ⟨u, hu.symm⟩

/-- Only the empty stream is read in no pieces. -/
theorem pieces_eq_nil_iff (seg : Segmentation B s) : seg.pieces = [] ↔ s = [] := by
  obtain ⟨pieces, rfl, hne, -⟩ := seg
  constructor
  -- no pieces, no items
  · intro h
    show pieces.flatten = []
    rw [show pieces = [] from h]
    rfl
  · intro h
    cases pieces with
    | nil => rfl
    | cons p ps =>
      have hp := hne p List.mem_cons_self
      exact absurd (List.append_eq_nil_iff.mp h).1 hp

/-- A stream that is not empty has a first read, which gives something. -/
theorem exists_cons (seg : Segmentation B s) (hs : s ≠ []) :
    ∃ p ps, seg.pieces = p :: ps ∧ p ≠ [] := by
  cases hpieces : seg.pieces with
  | nil => exact absurd (seg.pieces_eq_nil_iff.mp hpieces) hs
  | cons p ps => exact ⟨p, ps, rfl, seg.ne_nil p (hpieces ▸ List.mem_cons_self)⟩

end Segmentation

/-- A loop whose step on a piece adds what the piece adds to its variables. -/
theorem loop_flatten {σ ρ β : Type*} {loop : σ → List ρ → β} {item : List α → ρ}
    {f : σ → List α → σ} (hstep : ∀ x p rs, p ≠ [] → loop x (item p :: rs) = loop (f x p) rs)
    (hnil : ∀ x, f x [] = x) (happend : ∀ x a b, f x (a ++ b) = f (f x a) b)
    {pieces : List (List α)} (hne : ∀ p ∈ pieces, p ≠ []) (x : σ) (rs : List ρ) :
    loop x (pieces.map item ++ rs) = loop (f x pieces.flatten) rs := by
  induction pieces generalizing x with
  | nil => rw [List.flatten_nil, hnil, List.map_nil, List.nil_append]
  | cons p ps ih =>
    have hp : p ≠ [] := hne p List.mem_cons_self
    have hps : ∀ q ∈ ps, q ≠ [] := fun q hq => hne q (List.mem_cons_of_mem _ hq)
    rw [List.map_cons, List.cons_append, hstep x p _ hp, ih hps, List.flatten_cons, happend]

/-- **A loop over the pieces**: when the pieces of a concatenation add up, the loop passes over any
segmentation of a stream as over the stream. -/
theorem Segmentation.loop_eq {σ ρ β : Type*} {loop : σ → List ρ → β} {item : List α → ρ}
    {f : σ → List α → σ} (hstep : ∀ x p rs, p ≠ [] → loop x (item p :: rs) = loop (f x p) rs)
    (hnil : ∀ x, f x [] = x) (happend : ∀ x a b, f x (a ++ b) = f (f x a) b)
    {B : ℕ} {s : List α} (seg : Segmentation B s) (x : σ) (rs : List ρ) :
    loop x (seg.pieces.map item ++ rs) = loop (f x s) rs := by
  rw [loop_flatten hstep hnil happend seg.ne_nil, seg.flatten_eq]

/-- A stream read item by item. -/
def Segmentation.single {B : ℕ} (hB : 1 ≤ B) (s : List α) : Segmentation B s where
  pieces := s.map fun c => [c]
  flatten_eq := by
    induction s with
    | nil => rfl
    | cons c s ih => rw [List.map_cons, List.flatten_cons, ih, List.singleton_append]
  ne_nil p hp := by
    obtain ⟨c, -, rfl⟩ := List.mem_map.mp hp
    exact List.cons_ne_nil c []
  length_le p hp := by
    obtain ⟨c, -, rfl⟩ := List.mem_map.mp hp
    exact hB

/-- A stream read at once, if it fits. -/
def Segmentation.atOnce {B : ℕ} (hB : 1 ≤ B) (s : List α) : Segmentation B s :=
  if h : s ≠ [] ∧ s.length ≤ B then
    { pieces := [s]
      flatten_eq := List.flatten_singleton
      ne_nil p hp := by rw [List.mem_singleton.mp hp]; exact h.1
      length_le p hp := by rw [List.mem_singleton.mp hp]; exact h.2 }
  else .single hB s

/-- A stream that is not empty, read whole. -/
def Segmentation.whole {s : List α} (hs : s ≠ []) : Segmentation s.length s where
  pieces := [s]
  flatten_eq := List.flatten_singleton
  ne_nil p hp := by rwa [List.mem_singleton.mp hp]
  length_le _ hp := Nat.le_of_eq (congrArg List.length (List.mem_singleton.mp hp))

end Streams

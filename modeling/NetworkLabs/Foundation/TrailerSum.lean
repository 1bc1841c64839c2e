import Mathlib.Algebra.BigOperators.Group.List.Basic

/-!
# A sum behind a sequence

The items of a sequence are weighed in a commutative group, and a code of the total is appended to
the sequence. The verifier has only the whole: it weighs everything, takes off the weight of the
last items and compares with what these items code.

## Main definitions

* `Code α G`: a code of the group elements by a fixed number of items
* `Code.encode`, `Code.Accepts`: the writer and the verifier

## Main results

* `Code.accepts_iff`: the verifier accepts exactly what the writer writes
* `Code.not_accepts_set`: a change of one item is found, when no two items weigh the same
-/

namespace TrailerSum

variable {α G : Type*} [AddCommGroup G]

/-- The weight of a sequence. -/
def weigh (w : α → G) (s : List α) : G := (s.map w).sum

theorem weigh_append (w : α → G) (s t : List α) : weigh w (s ++ t) = weigh w s + weigh w t := by
  simp [weigh]

/-- One item is replaced by another. -/
theorem weigh_set (w : α → G) (s : List α) {i : ℕ} (hi : i < s.length) (b : α) :
    weigh w (s.set i b) = weigh w s + (w b - w s[i]) := by
  rw [weigh, weigh, List.map_set, List.sum_set', dif_pos (by simpa using hi), List.getElem_map,
    neg_add_eq_sub]

/-- A loop that adds the weights up. -/
theorem foldl_add_eq (w : α → G) (s : List α) (g : G) :
    s.foldl (fun x a => x + w a) g = g + weigh w s := by
  induction s generalizing g with
  | nil => simp [weigh]
  | cons a s ih => rw [List.foldl_cons, ih, weigh, weigh, List.map_cons, List.sum_cons, add_assoc]

/-- A loop that takes the weights off. -/
theorem foldl_sub_eq (w : α → G) (s : List α) (g : G) :
    s.foldl (fun x a => x - w a) g = g - weigh w s := by
  induction s generalizing g with
  | nil => simp [weigh]
  | cons a s ih => rw [List.foldl_cons, ih, weigh, weigh, List.map_cons, List.sum_cons, sub_sub]

/-- A code of the group elements by `width` items. -/
structure Code (α G : Type*) where
  width : ℕ
  enc : G → List α
  dec : List α → G
  length_enc : ∀ g, (enc g).length = width
  dec_enc : ∀ g, dec (enc g) = g
  enc_dec : ∀ t, t.length = width → enc (dec t) = t

namespace Code

variable (C : Code α G) (w : α → G)

/-- A sequence followed by the code of its weight. -/
def encode (s : List α) : List α := s ++ C.enc (weigh w s)

/-- The last items of a sequence. -/
def trailer (f : List α) : List α := f.drop (f.length - C.width)

/-- The verifier's comparison. -/
def Accepts (f : List α) : Prop := C.dec (C.trailer f) = weigh w f - weigh w (C.trailer f)

variable {C w}

theorem length_encode (s : List α) : (C.encode w s).length = s.length + C.width := by
  rw [encode, List.length_append, C.length_enc]

omit [AddCommGroup G] in
/-- The trailer of a payload with a code behind it. -/
theorem trailer_append {p t : List α} (ht : t.length = C.width) : C.trailer (p ++ t) = t := by
  rw [trailer, List.length_append, ht, Nat.add_sub_cancel, List.drop_left]

/-- Behind a payload only the code of its weight is accepted. -/
theorem accepts_append_iff {p t : List α} (ht : t.length = C.width) :
    C.Accepts w (p ++ t) ↔ t = C.enc (weigh w p) := by
  -- the weight of the whole without the trailer is the weight of the payload
  rw [Accepts, trailer_append ht, weigh_append, add_sub_cancel_right]
  constructor
  · intro h
    rw [← h, C.enc_dec t ht]
  · rintro rfl
    rw [C.dec_enc]

/-- **The verifier accepts exactly what the writer writes.** -/
theorem accepts_iff {f : List α} (hf : C.width ≤ f.length) :
    C.Accepts w f ↔ ∃ p, f = C.encode w p := by
  constructor
  · intro h
    have hsplit : f.take (f.length - C.width) ++ C.trailer f = f := List.take_append_drop ..
    have hlen : (C.trailer f).length = C.width := by
      rw [trailer, List.length_drop]
      omega
    refine ⟨f.take (f.length - C.width), ?_⟩
    rw [← hsplit, accepts_append_iff hlen] at h
    rw [encode, ← h, hsplit]
  · rintro ⟨p, rfl⟩
    rw [encode, accepts_append_iff (C.length_enc _)]

/-- **A change of one item is found**, in the payload and in the trailer, when no two items weigh
the same. -/
theorem not_accepts_set (hw : Function.Injective w) {p : List α} {i : ℕ}
    (hi : i < (C.encode w p).length) {b : α} (hb : b ≠ (C.encode w p)[i]) :
    ¬ C.Accepts w ((C.encode w p).set i b) := by
  have hlen := C.length_enc (weigh w p)
  unfold encode at hi hb ⊢
  rcases Nat.lt_or_ge i p.length with hlt | hge
  -- another weight of the payload has another code
  · rw [List.getElem_append_left hlt] at hb
    rw [List.set_append_left _ _ hlt, accepts_append_iff hlen]
    intro h
    have hweigh := (C.dec_enc _).symm.trans ((congrArg C.dec h).trans (C.dec_enc _))
    rw [weigh_set w p hlt, left_eq_add, sub_eq_zero] at hweigh
    exact hb (hw hweigh)
  -- the payload has only one code
  · rw [List.getElem_append_right hge] at hb
    rw [List.set_append_right _ _ hge, accepts_append_iff (by rw [List.length_set, hlen])]
    intro h
    have hget := List.getElem_set_self (l := C.enc (weigh w p)) (i := i - p.length) (a := b)
      (by rw [List.length_set]; rw [List.length_append] at hi; omega)
    simp only [h] at hget
    exact hb hget.symm

end Code

end TrailerSum

import NetworkLabs.Runtime.Bases

/-!
# Printed numbers

A number that `sprintf("%d")` prints has no leading zero, unless it is zero itself. So base zero
takes it for a decimal number and leaves nothing over, and `atoi` reads it back. The programs send
such a number in an array that is longer than its text; what the array holds behind the terminator
was never written.

## Main definitions

* `printed w z`: an array of `w` bytes with the text of `z`
* `SentAs buf d`: the datagram `d` is what goes out for `buf`

## Main results

* `isnumber_sprintfInt`: a printed number is accepted
* `atoi_sprintfInt`: it is read back
* `SentAs.exists_eq`: a sent number is its text, a terminator, and whatever was behind it
-/

namespace CRuntime

/-! ## What is behind the terminator -/

section Terminator

variable {p : UInt8 → Bool} (hp : p 0 = false) (s t : List UInt8)

include hp

theorem dropWhile_append_zero : (s ++ 0 :: t).dropWhile p = s.dropWhile p ++ 0 :: t := by
  rw [List.dropWhile_append]
  split
  · next hnil =>
    rw [List.isEmpty_iff.mp hnil, List.dropWhile_cons_of_neg (by simp [hp])]
    rfl
  · rfl

theorem takeWhile_append_zero : (s ++ 0 :: t).takeWhile p = s.takeWhile p := by
  rw [List.takeWhile_append]
  split
  · next hall =>
    rw [List.takeWhile_cons_of_neg (by simp [hp]), List.append_nil]
    exact ((List.takeWhile_prefix p).eq_of_length hall).symm
  · rfl

end Terminator

theorem signAndBody_append_terminator (s t : List UInt8) :
    signAndBody (s ++ 0 :: t) = ((signAndBody s).1, (signAndBody s).2 ++ 0 :: t) := by
  rcases s with - | ⟨b, u⟩
  · rfl
  · by_cases h45 : b = 45
    · rw [h45]
      rfl
    · by_cases h43 : b = 43
      · rw [h43]
        rfl
      · rw [signAndBody, signAndBody, List.cons_append, readSign_of_ne _ h45 h43,
          readSign_of_ne _ h45 h43]
        rfl

theorem numberIn_append_terminator (s t : List UInt8) :
    numberIn (s ++ 0 :: t) = ((numberIn s).1, (numberIn s).2 ++ 0 :: t) := by
  rw [numberIn, dropWhile_append_zero (by decide), signAndBody_append_terminator]

/-- `atoi` stops at the terminator. -/
theorem atoi_append_terminator (s t : List UInt8) : atoi (s ++ 0 :: t) = atoi (s ++ [0]) := by
  have hstop : isDigit 0 = false := rfl
  rw [atoi_eq, atoi_eq, numberIn_append_terminator, numberIn_append_terminator, atoiDigits,
    atoiDigits]
  simp only [dropWhile_append_zero hstop, takeWhile_append_zero hstop, List.append_eq_nil_iff,
    List.cons_ne_nil, and_false, if_false]

/-! ## The first digit -/

theorem head?_decimal_ne {n : ℕ} (h : n ≠ 0) : (decimal n).head? ≠ some 48 := by
  have hne : Nat.digits 10 n ≠ [] := Nat.digits_ne_nil_iff_ne_zero.mpr h
  have hlast := Nat.getLast_digit_ne_zero 10 h
  have hlt : (Nat.digits 10 n).getLast hne < 10 :=
    Nat.digits_lt_base (by decide) (List.getLast_mem hne)
  rw [decimal, if_neg h, List.head?_map, List.head?_reverse, List.getLast?_eq_some_getLast hne,
    Option.map_some]
  intro heq
  have htoNat := congrArg UInt8.toNat (Option.some.inj heq)
  rw [digitChar_toNat hlt] at htoNat
  apply hlast
  simpa using htoNat

theorem isSpace_of_isDigit {b : UInt8} (h : isDigit b = true) : isSpace b = false := by
  have hb := (isDigit_iff b).mp h
  simp only [isSpace, Bool.or_eq_false_iff, beq_eq_false_iff_ne, Bool.and_eq_false_iff,
    decide_eq_false_iff_not, UInt8.le_iff_toNat_le, ne_eq, ← UInt8.toNat_inj, UInt8.toNat_ofNat]
  omega

section Digits

variable {ds : List UInt8} (hdigits : ∀ d ∈ ds, isDigit d = true)

include hdigits

/-- A row of digits has no sign. -/
theorem numberIn_of_digits (hne : ds ≠ []) (t : List UInt8) :
    numberIn (ds ++ t) = (false, ds ++ t) := by
  obtain ⟨c, cs, rfl⟩ := List.exists_cons_of_ne_nil hne
  have hc := hdigits c List.mem_cons_self
  have hrange := (isDigit_iff c).mp hc
  rw [numberIn, List.cons_append, List.dropWhile_cons_of_neg (by simp [isSpace_of_isDigit hc])]
  apply readSign_of_ne
  · rintro rfl
    simp at hrange
  · rintro rfl
    simp at hrange

theorem digitsIn_of_isDigit : DigitsIn 10 ds := by
  intro d hd
  have hrange := (isDigit_iff d).mp (hdigits d hd)
  rw [digitIn_of_isDigit (hdigits d hd), if_pos (by omega)]
  rfl

/-- Base ten leaves over what is behind the digits. -/
theorem strtolDigits_append_zero (neg : Bool) (t : List UInt8) :
    ∃ v, strtolDigits neg 10 (ds ++ 0 :: t) = some (v, 0 :: t) := by
  have hstop : (digitIn 10 0).isSome = false := digitIn_zero (by decide)
  have hrest := dropWhile_append_cons (p := fun b => (digitIn 10 b).isSome)
    (digitsIn_of_isDigit hdigits) hstop t
  rw [strtolDigits, hrest, if_neg (List.cons_ne_nil _ _)]
  exact ⟨_, rfl⟩

/-- Without a leading zero the base is ten. -/
theorem strtolUnsigned_append_zero (hne : ds ≠ []) (hfirst : ds.head? ≠ some 48) (s : List UInt8)
    (neg : Bool) (t : List UInt8) :
    ∃ v, strtolUnsigned s neg (ds ++ 0 :: t) = some (v, 0 :: t) := by
  obtain ⟨v, hv⟩ := strtolDigits_append_zero hdigits neg t
  obtain ⟨c, cs, rfl⟩ := List.exists_cons_of_ne_nil hne
  have hc : c ≠ 48 := fun h => hfirst (by rw [List.head?_cons, h])
  refine ⟨v, ?_⟩
  rw [← hv, List.cons_append, strtolUnsigned_of_ne hc, if_pos (hdigits c List.mem_cons_self)]

end Digits

/-! ## What is accepted and read back -/

theorem zero_notMem_decimal (n : ℕ) : 0 ∉ decimal n := by
  intro h
  exact absurd (isDigit_of_mem_decimal h) (by decide)

theorem zero_notMem_sprintfInt (z : ℤ) : 0 ∉ sprintfInt z := by
  unfold sprintfInt
  split
  · intro h
    exact zero_notMem_decimal _ ((List.mem_cons.mp h).resolve_left (by decide))
  · exact zero_notMem_decimal _

theorem length_sprintfInt_le {z : ℤ} (hz : FitsInt z) : (sprintfInt z).length ≤ 11 := by
  have hlen : (decimal z.natAbs).length ≤ 10 := (length_decimal_le (by decide)).mpr (by
    have hlow := hz.1
    have hhigh := hz.2
    omega)
  unfold sprintfInt
  split
  · exact Nat.succ_le_succ hlen
  · exact hlen.trans (by decide)

theorem sprintfInt_negSucc (n : ℕ) : sprintfInt (Int.negSucc n) = 45 :: decimal (n + 1) :=
  if_pos (Int.negSucc_lt_zero n)

/-- **A printed number is accepted**, whatever is behind its terminator. -/
theorem isnumber_sprintfInt (z : ℤ) (t : List UInt8) :
    isnumber (sprintfInt z ++ 0 :: t) = some true := by
  have haccept : ∀ {s v}, strtol s = some (v, 0 :: t) → isnumber s = some true := by
    intro s v h
    rw [isnumber, h]
    rfl
  rcases z with n | n
  · have hdigits : ∀ d ∈ decimal n, isDigit d = true := fun _ => isDigit_of_mem_decimal
    rw [Int.ofNat_eq_natCast, sprintfInt_natCast]
    rcases eq_or_ne n 0 with rfl | hn
    -- the text `0` is octal
    · exact haccept (v := 0) rfl
    · obtain ⟨v, hv⟩ := strtolUnsigned_append_zero hdigits (decimal_ne_nil n) (head?_decimal_ne hn)
        (decimal n ++ 0 :: t) false t
      apply haccept (v := v)
      rw [strtol_eq, numberIn_of_digits hdigits (decimal_ne_nil n), hv]
  · obtain ⟨v, hv⟩ := strtolUnsigned_append_zero (fun _ => isDigit_of_mem_decimal)
      (decimal_ne_nil (n + 1)) (head?_decimal_ne n.succ_ne_zero)
      (sprintfInt (Int.negSucc n) ++ 0 :: t) true t
    apply haccept (v := v)
    rw [strtol_eq, ← hv, sprintfInt_negSucc]
    rfl

/-- **A printed number is read back.** -/
theorem atoi_sprintfInt {z : ℤ} (hz : FitsInt z) (t : List UInt8) :
    atoi (sprintfInt z ++ 0 :: t) = some z := by
  have hlow := hz.1
  have hhigh := hz.2
  rcases z with n | n
  · rw [Int.ofNat_eq_natCast, sprintfInt_natCast]
    have hread := atoi_sprintfD 0 (n := n) (by simpa using hhigh) (b := 0) rfl t
    rwa [sprintfD, Nat.zero_sub, List.replicate_zero, List.nil_append] at hread
  · have hread : atoiDigits true (decimal (n + 1) ++ 0 :: t) = _ :=
      atoiDigits_append true (fun _ => isDigit_of_mem_decimal) rfl
    have hvalue : -((n + 1 : ℕ) : ℤ) = Int.negSucc n := rfl
    rw [digitsValue_decimal, if_pos rfl, hvalue, clampLong_of_fitsInt hz,
      toInt_eq_self hlow hhigh] at hread
    rw [atoi_eq, sprintfInt_negSucc]
    exact hread

/-! ## Numbers in an array -/

/-- An array of `w` bytes behind `sprintf("%d")`; what follows the terminator was never written. -/
def printed (w : ℕ) (z : ℤ) : List (Option UInt8) :=
  (sprintfInt z ++ [0]).map some ++ List.replicate (w - (sprintfInt z ++ [0]).length) none

/-- The datagram that goes out for an array: a byte that was never written can be any byte. -/
def SentAs (buf : List (Option UInt8)) (d : List UInt8) : Prop :=
  List.Forall₂ (fun cell b => cell = none ∨ cell = some b) buf d

instance (buf : List (Option UInt8)) (d : List UInt8) : Decidable (SentAs buf d) :=
  inferInstanceAs (Decidable (List.Forall₂ _ _ _))

theorem SentAs.length_eq {buf : List (Option UInt8)} {d : List UInt8} (h : SentAs buf d) :
    d.length = buf.length :=
  (List.Forall₂.length_eq h).symm

/-- Bytes that were written go out as they are. -/
theorem SentAs.exists_append {s : List UInt8} {rest : List (Option UInt8)} {d : List UInt8}
    (h : SentAs (s.map some ++ rest) d) : ∃ t, d = s ++ t := by
  induction s generalizing d with
  | nil => exact ⟨d, rfl⟩
  | cons b s ih =>
    cases h with
    | cons hcell hrest =>
      obtain ⟨t, rfl⟩ := ih hrest
      obtain rfl := Option.some.inj (hcell.resolve_left (Option.some_ne_none _))
      exact ⟨t, rfl⟩

/-- **A sent number is its text, a terminator, and whatever was behind it.** -/
theorem SentAs.exists_eq {w : ℕ} {z : ℤ} {d : List UInt8} (h : SentAs (printed w z) d) :
    ∃ t, d = sprintfInt z ++ 0 :: t := by
  obtain ⟨t, rfl⟩ := h.exists_append
  exact ⟨t, by simp⟩

theorem length_printed {w : ℕ} {z : ℤ} (h : (sprintfInt z).length < w) :
    (printed w z).length = w := by
  simp only [printed, List.length_append, List.length_map, List.length_replicate,
    List.length_singleton]
  omega

end CRuntime

import NetworkLabs.Runtime.Strtol
import Mathlib.Data.List.Induction

/-!
# A number accepted in one base and read in another

`isnumber` parses with base zero and accepts when nothing is left over. Its callers read the value
with `atoi`, which takes base ten whatever the text looks like. ISO C leaves `atoi` undefined when
the value is not an `int`; that of glibc, `CRuntime.atoi`, is one of those it allows.

## Main definitions

* `isoAtoi s`: `atoi` as far as ISO C defines it
* `Vouches s`: what acceptance of `s` is to promise
* `valueIn base ds`: the value of a row of digits
* `ReadAlike s`: the texts that both bases read alike

## Main results

* `atoi_of_isoAtoi`: the two functions agree where both are defined
* `valueIn_eight_eq_iff`: the octal numbers that are read alike
* `vouches_iff`: the accepted strings for which acceptance keeps its promise
-/

namespace CRuntime

/-! ## The sign -/

section Sign

variable {α : Type*}

/-- Reads the sign in front of a number, and leaves the rest to `f`. -/
def readSign (f : Bool → List UInt8 → α) : List UInt8 → α
  | 45 :: t => f true t
  | 43 :: t => f false t
  | t => f false t

theorem readSign_of_ne (f : Bool → List UInt8 → α) {b : UInt8} (h45 : b ≠ 45) (h43 : b ≠ 43)
    (t : List UInt8) : readSign f (b :: t) = f false (b :: t) := by
  unfold readSign
  split
  · next h => exact absurd (List.cons.inj h).1 h45
  · next h => exact absurd (List.cons.inj h).1 h43
  · rfl

/-- Whether a number is negative, and its text behind the sign. -/
abbrev signAndBody (u : List UInt8) : Bool × List UInt8 := readSign Prod.mk u

theorem readSign_eq (f : Bool → List UInt8 → α) (u : List UInt8) :
    readSign f u = f (signAndBody u).1 (signAndBody u).2 := by
  unfold signAndBody readSign
  split <;> rfl

/-- The terminator is behind the text. -/
theorem signAndBody_append_zero (u : List UInt8) :
    signAndBody (u ++ [0]) = ((signAndBody u).1, (signAndBody u).2 ++ [0]) := by
  rcases u with - | ⟨b, t⟩
  · rfl
  · by_cases h45 : b = 45
    · rw [h45]
      rfl
    · by_cases h43 : b = 43
      · rw [h43]
        rfl
      · rw [signAndBody, signAndBody, List.cons_append, readSign_of_ne _ h45 h43,
          readSign_of_ne _ h45 h43]
        rfl

theorem signAndBody_suffix (u : List UInt8) : (signAndBody u).2 <:+ u := by
  unfold signAndBody readSign
  split
  · exact List.suffix_cons ..
  · exact List.suffix_cons ..
  · exact List.suffix_rfl

end Sign

theorem dropWhile_isSpace_append_zero (s : List UInt8) :
    (s ++ [0]).dropWhile isSpace = s.dropWhile isSpace ++ [0] := by
  induction s with
  | nil => rfl
  | cons b s ih =>
    by_cases hb : isSpace b = true
    · rw [List.cons_append, List.dropWhile_cons_of_pos hb, List.dropWhile_cons_of_pos hb, ih]
    · rw [List.cons_append, List.dropWhile_cons_of_neg hb, List.dropWhile_cons_of_neg hb,
        List.cons_append]

/-- The number in a string, behind its blanks. -/
abbrev numberIn (s : List UInt8) : Bool × List UInt8 := signAndBody (s.dropWhile isSpace)

theorem numberIn_append_zero (s : List UInt8) :
    numberIn (s ++ [0]) = ((numberIn s).1, (numberIn s).2 ++ [0]) := by
  rw [numberIn, dropWhile_isSpace_append_zero, signAndBody_append_zero]

theorem numberIn_suffix (s : List UInt8) : (numberIn s).2 <:+ s :=
  (signAndBody_suffix _).trans (List.dropWhile_suffix _)

theorem strtol_eq (s : List UInt8) :
    strtol s = strtolUnsigned s (numberIn s).1 (numberIn s).2 :=
  readSign_eq (strtolUnsigned s) _

theorem atoi_eq (s : List UInt8) : atoi s = atoiDigits (numberIn s).1 (numberIn s).2 :=
  readSign_eq atoiDigits _

/-! ## Reading in base ten -/

/-- The range of `int`. -/
def FitsInt (z : ℤ) : Prop := -2 ^ 31 ≤ z ∧ z < 2 ^ 31

instance (z : ℤ) : Decidable (FitsInt z) := inferInstanceAs (Decidable (_ ∧ _))

/-- A number with its sign. -/
def signed (neg : Bool) (n : ℕ) : ℤ := if neg then -n else n

/-- `isoAtoi` after the blanks and the sign. -/
def isoAtoiDigits (neg : Bool) (s : List UInt8) : Option ℤ :=
  if s.dropWhile isDigit = [] then none
  else
    let v := signed neg (digitsValue (s.takeWhile isDigit))
    if FitsInt v then some v else none

/-- `atoi` as ISO C defines it; `none` when the object ends before the number does, or when its
value is not an `int`. -/
def isoAtoi (s : List UInt8) : Option ℤ := readSign isoAtoiDigits (s.dropWhile isSpace)

theorem isoAtoi_eq (s : List UInt8) : isoAtoi s = isoAtoiDigits (numberIn s).1 (numberIn s).2 :=
  readSign_eq isoAtoiDigits _

/-- A number that fits an `int` is not changed on its way through `long`. -/
theorem clampLong_of_fitsInt {z : ℤ} (h : FitsInt z) : clampLong z = z :=
  clampLong_eq_self (by have := h.1; omega) (by have := h.2; omega)

/-- A number that does not fit an `int` does not fit it as a `long` either. -/
theorem fitsInt_clampLong_iff {z : ℤ} : FitsInt (clampLong z) ↔ FitsInt z := by
  unfold FitsInt clampLong
  omega

theorem atoiDigits_of_isoAtoiDigits {neg : Bool} {s : List UInt8} {z : ℤ}
    (h : isoAtoiDigits neg s = some z) : atoiDigits neg s = some z := by
  simp only [isoAtoiDigits, Option.ite_none_left_eq_some, Option.ite_none_right_eq_some,
    Option.some.injEq] at h
  obtain ⟨hend, hfits, rfl⟩ := h
  have hlong := clampLong_of_fitsInt hfits
  have hint := toInt_eq_self hfits.1 hfits.2
  rw [atoiDigits, if_neg hend]
  exact congrArg some ((congrArg toInt hlong).trans hint)

/-- The two functions agree where both are defined. -/
theorem atoi_of_isoAtoi {s : List UInt8} {z : ℤ} (h : isoAtoi s = some z) : atoi s = some z := by
  rw [isoAtoi_eq] at h
  rw [atoi_eq]
  exact atoiDigits_of_isoAtoiDigits h

/-! ## Digits of a base -/

/-- The value of a row of digits. -/
def valueIn (base : ℕ) (ds : List UInt8) : ℕ :=
  ds.foldl (fun acc b => base * acc + (digitIn base b).getD 0) 0

/-- All characters are digits of a base. -/
def DigitsIn (base : ℕ) (ds : List UInt8) : Prop := ∀ d ∈ ds, (digitIn base d).isSome = true

section Digits

variable {base : ℕ} {d : UInt8} {ds : List UInt8}

theorem valueIn_append (base : ℕ) (ds : List UInt8) (d : UInt8) :
    valueIn base (ds ++ [d]) = base * valueIn base ds + (digitIn base d).getD 0 := by
  rw [valueIn, List.foldl_append]
  rfl

/-- `strtol` adds the digits up as a `long`. -/
theorem foldl_eq_valueIn (base : ℕ) (ds : List UInt8) :
    ds.foldl (fun acc b => (base : ℤ) * acc + ((digitIn base b).getD 0 : ℕ)) ((0 : ℕ) : ℤ) =
      (valueIn base ds : ℤ) :=
  List.foldl_hom Nat.cast fun _ _ => by push_cast; rfl

theorem DigitsIn.init (h : DigitsIn base (ds ++ [d])) : DigitsIn base ds :=
  fun b hb => h b (List.mem_append_left _ hb)

theorem DigitsIn.last (h : DigitsIn base (ds ++ [d])) : (digitIn base d).isSome = true :=
  h d (List.mem_append_right _ (List.mem_singleton_self d))

/-- The terminator is no digit. -/
theorem digitIn_zero (h : base ≤ 16) : (digitIn base 0).isSome = false := by
  have hvalue : digitIn base 0 = if 16 < base then some 16 else none := rfl
  rw [hvalue, if_neg (not_lt.mpr h)]
  rfl

theorem digitIn_of_isDigit (hd : isDigit d = true) :
    digitIn base d = if d.toNat - 48 < base then some (d.toNat - 48) else none := by
  simp only [digitIn, hd, if_true]

/-- The value of a letter is at least ten. -/
theorem digitIn_of_not_isDigit (h : base ≤ 10) (hd : isDigit d = false) :
    digitIn base d = none := by
  simp only [digitIn, hd, Bool.false_eq_true, if_false, Bool.and_eq_true, decide_eq_true_eq,
    UInt8.le_iff_toNat_le]
  apply if_neg
  have h97 : (97 : UInt8).toNat = 97 := rfl
  have h65 : (65 : UInt8).toNat = 65 := rfl
  split_ifs <;> omega

/-- In a base of at most ten the digits are decimal ones. -/
theorem digit_of_isSome (h : base ≤ 10) (hd : (digitIn base d).isSome = true) :
    isDigit d = true ∧ d.toNat - 48 < base ∧ (digitIn base d).getD 0 = d.toNat - 48 := by
  have hdigit : isDigit d = true := by
    by_contra hno
    rw [digitIn_of_not_isDigit h (Bool.eq_false_iff.mpr hno)] at hd
    cases hd
  rw [digitIn_of_isDigit hdigit] at hd ⊢
  by_cases hlt : d.toNat - 48 < base
  · rw [if_pos hlt]
    exact ⟨hdigit, hlt, rfl⟩
  · rw [if_neg hlt] at hd
    cases hd

/-- A leading zero counts for nothing. -/
theorem valueIn_zero_cons (h : 0 < base) (ds : List UInt8) :
    valueIn base (48 :: ds) = valueIn base ds := by
  have hzero : (digitIn base 48).getD 0 = 0 := by
    rw [digitIn_of_isDigit rfl]
    exact congrArg (Option.getD · 0) (if_pos h)
  rw [valueIn, List.foldl_cons, hzero, Nat.mul_zero]
  rfl

/-- In base ten the two readers agree. -/
theorem valueIn_ten (h : DigitsIn 10 ds) : valueIn 10 ds = digitsValue ds := by
  induction ds using List.reverseRecOn with
  | nil => rfl
  | append_singleton ds d ih =>
    rw [valueIn_append, digitsValue_append, ih h.init, (digit_of_isSome le_rfl h.last).2.2]

/-- **A row of octal digits is read alike when only its last digit counts.** -/
theorem valueIn_eight (h : DigitsIn 8 ds) :
    valueIn 8 ds ≤ digitsValue ds ∧ (digitsValue ds = valueIn 8 ds ↔ valueIn 8 ds ≤ 7) := by
  induction ds using List.reverseRecOn with
  | nil => decide
  | append_singleton ds d ih =>
    obtain ⟨hle, hiff⟩ := ih h.init
    obtain ⟨-, hlt, hd⟩ := digit_of_isSome (by decide) h.last
    rw [valueIn_append, digitsValue_append, hd]
    -- a digit in front that counts makes the two values differ for good
    omega

end Digits

/-! ## What is accepted -/

/-- The texts behind the sign that `isnumber` accepts, with their values. -/
inductive Parsed (neg : Bool) : List UInt8 → ℤ → Prop
  | hex {x : UInt8} {ds : List UInt8} : x = 120 ∨ x = 88 → DigitsIn 16 ds →
    Parsed neg (48 :: x :: ds) (clampLong (signed neg (valueIn 16 ds)))
  | octal {ds : List UInt8} : DigitsIn 8 (48 :: ds) →
    Parsed neg (48 :: ds) (clampLong (signed neg (valueIn 8 (48 :: ds))))
  | decimal {c : UInt8} {ds : List UInt8} : c ≠ 48 → DigitsIn 10 (c :: ds) →
    Parsed neg (c :: ds) (clampLong (signed neg (valueIn 10 (c :: ds))))

section Accepted

variable {neg : Bool} {base : ℕ} {s r ds : List UInt8} {v : ℤ}

/-- Nothing is left over when all characters are digits. -/
theorem strtolDigits_accepts (hbase : base ≤ 16) (h0 : 0 ∉ ds)
    (h : strtolDigits neg base (ds ++ [0]) = some (v, r)) (hr : r.head? = some 0) :
    DigitsIn base ds ∧ v = clampLong (signed neg (valueIn base ds)) := by
  simp only [strtolDigits, Option.ite_none_left_eq_some, Option.some.injEq, Prod.mk.injEq] at h
  obtain ⟨-, rfl, rfl⟩ := h
  have hzero := digitIn_zero hbase
  by_cases hall : DigitsIn base ds
  · refine ⟨hall, ?_⟩
    rw [takeWhile_append_cons hall hzero, foldl_eq_valueIn]
    rfl
  -- the end pointer is at a character of the string
  · have hne : ds.dropWhile (fun b => (digitIn base b).isSome) ≠ [] := by
      rw [ne_eq, List.dropWhile_eq_nil_iff]
      exact hall
    obtain ⟨b, t, ht⟩ := List.exists_cons_of_ne_nil hne
    rw [List.dropWhile_append, ht] at hr
    obtain rfl : b = 0 := Option.some.inj hr
    have hmem : 0 ∈ ds := (List.dropWhile_suffix _).subset (ht ▸ List.mem_cons_self)
    exact absurd hmem h0

theorem strtolUnsigned_of_ne {c : UInt8} (hc : c ≠ 48) (s t : List UInt8) (neg : Bool) :
    strtolUnsigned s neg (c :: t) =
      if isDigit c then strtolDigits neg 10 (c :: t) else some (0, s) := by
  unfold strtolUnsigned
  split
  · next h => cases h
  · next h => exact absurd (List.cons.inj h).1 hc
  · next h => rw [(List.cons.inj h).1]

theorem strtolUnsigned_octal {x : UInt8} (hx : ¬ (x = 120 ∨ x = 88)) (s t : List UInt8)
    (neg : Bool) : strtolUnsigned s neg (48 :: x :: t) = strtolDigits neg 8 (48 :: x :: t) := by
  have hx' : ¬ (decide (x = 120) || decide (x = 88)) = true := by simpa using hx
  exact if_neg hx'

theorem strtolUnsigned_hex {x : UInt8} (hx : x = 120 ∨ x = 88) (d : UInt8) (s t : List UInt8)
    (neg : Bool) : strtolUnsigned s neg (48 :: x :: d :: t) =
      if (digitIn 16 d).isSome then strtolDigits neg 16 (d :: t)
      else strtolDigits neg 8 (48 :: x :: d :: t) := by
  have hx' : (decide (x = 120) || decide (x = 88)) = true := by simpa using hx
  exact if_pos hx'

/-- Behind a leading zero the base is eight or sixteen. -/
theorem parsed_of_zero (h0 : 0 ∉ 48 :: ds)
    (h : strtolUnsigned (s ++ [0]) neg (48 :: ds ++ [0]) = some (v, r)) (hr : r.head? = some 0) :
    Parsed neg (48 :: ds) v := by
  rcases ds with - | ⟨x, t⟩
  -- the terminator is behind the zero, and no letter
  · have hend : ¬ ((0 : UInt8) = 120 ∨ (0 : UInt8) = 88) := by decide
    rw [List.cons_append, List.nil_append, strtolUnsigned_octal hend] at h
    obtain ⟨hdigits, rfl⟩ := strtolDigits_accepts (by decide) h0 h hr
    exact .octal hdigits
  · by_cases hx : x = 120 ∨ x = 88
    · obtain ⟨d, u, hu⟩ := List.exists_cons_of_ne_nil (List.append_ne_nil_of_right_ne_nil t
        (List.cons_ne_nil (0 : UInt8) []))
      rw [List.cons_append, List.cons_append, hu, strtolUnsigned_hex hx, ← hu] at h
      split at h
      · have ht : 0 ∉ t := fun hmem => h0 (List.mem_cons_of_mem _ (List.mem_cons_of_mem _ hmem))
        obtain ⟨hdigits, rfl⟩ := strtolDigits_accepts le_rfl ht h hr
        exact .hex hx hdigits
      -- the letter itself would have to be octal
      · have hdigit := (strtolDigits_accepts (by decide) h0 h hr).1 x (by simp)
        rcases hx with rfl | rfl <;> cases hdigit
    · rw [List.cons_append, List.cons_append, strtolUnsigned_octal hx] at h
      obtain ⟨hdigits, rfl⟩ := strtolDigits_accepts (by decide) h0 h hr
      exact .octal hdigits

/-- **What is accepted is empty, or a number to its end.** -/
theorem parsed_of_strtolUnsigned (hs : 0 ∉ s) (h0 : 0 ∉ ds)
    (h : strtolUnsigned (s ++ [0]) neg (ds ++ [0]) = some (v, r)) (hr : r.head? = some 0) :
    s = [] ∨ Parsed neg ds v := by
  -- without a digit the end pointer is at the start of the string
  have hempty : r = s ++ [0] → s = [] := by
    rintro rfl
    rcases s with - | ⟨b, u⟩
    · rfl
    · obtain rfl : b = 0 := Option.some.inj hr
      exact absurd List.mem_cons_self hs
  rcases ds with - | ⟨c, t⟩
  · obtain ⟨-, rfl⟩ := Prod.mk.inj (Option.some.inj h)
    exact .inl (hempty rfl)
  · by_cases hc : c = 48
    · rw [hc] at h h0 ⊢
      exact .inr (parsed_of_zero h0 h hr)
    · rw [List.cons_append, strtolUnsigned_of_ne hc] at h
      split at h
      · obtain ⟨hdigits, rfl⟩ := strtolDigits_accepts (by decide) h0 h hr
        exact .inr (.decimal hc hdigits)
      · obtain ⟨-, rfl⟩ := Prod.mk.inj (Option.some.inj h)
        exact .inl (hempty rfl)

end Accepted

/-! ## What acceptance promises -/

/-- What acceptance of a string is to promise: there is a digit, and the value that was parsed, if
it is an `int`, is the one that `atoi` reads. -/
def Vouches (s : List UInt8) : Prop :=
  (∃ b ∈ s, isDigit b = true) ∧
    ∀ v r, strtol (s ++ [0]) = some (v, r) → FitsInt v → isoAtoi (s ++ [0]) = some v

/-- The texts behind the sign that both bases read alike: those without a leading zero, octal
numbers below eight and hexadecimal zeros. Numbers that are no `int` are left out. -/
def ReadAlike (neg : Bool) : List UInt8 → Prop
  | 48 :: x :: ds =>
    if x = 120 ∨ x = 88 then valueIn 16 ds = 0 ∨ ¬ FitsInt (signed neg (valueIn 16 ds))
    else valueIn 8 (x :: ds) ≤ 7 ∨ ¬ FitsInt (signed neg (valueIn 8 (x :: ds)))
  | _ => True

section Promise

variable {neg : Bool} {ds : List UInt8} {v : ℤ}

theorem signed_inj {m n : ℕ} : signed neg m = signed neg n ↔ m = n := by
  unfold signed
  split <;> omega

theorem readAlike_octal (h : DigitsIn 8 (48 :: ds)) : ReadAlike neg (48 :: ds) ↔
    valueIn 8 (48 :: ds) ≤ 7 ∨ ¬ FitsInt (signed neg (valueIn 8 (48 :: ds))) := by
  rw [valueIn_zero_cons (by decide)]
  rcases ds with - | ⟨x, t⟩
  · exact iff_of_true trivial (.inl (Nat.zero_le 7))
  · have hx : ¬ (x = 120 ∨ x = 88) := by
      have hdigit := h x (by simp)
      rintro (rfl | rfl) <;> cases hdigit
    exact iff_of_eq (if_neg hx)

theorem readAlike_of_ne {c : UInt8} (hc : c ≠ 48) (t : List UInt8) : ReadAlike neg (c :: t) := by
  unfold ReadAlike
  split
  · next h => exact absurd (List.cons.inj h).1 hc
  · trivial

/-- What ISO C has `atoi` read of digits, with anything but a digit behind them. -/
theorem isoAtoiDigits_append (neg : Bool) {b : UInt8} (hds : ∀ d ∈ ds, isDigit d = true)
    (hb : isDigit b = false) (rest : List UInt8) : isoAtoiDigits neg (ds ++ b :: rest) =
      if FitsInt (signed neg (digitsValue ds)) then some (signed neg (digitsValue ds))
      else none := by
  rw [isoAtoiDigits, takeWhile_append_cons hds hb, dropWhile_append_cons hds hb, if_neg (by simp)]

theorem DigitsIn.isDigit {base : ℕ} (hbase : base ≤ 10) (h : DigitsIn base ds) :
    ∀ d ∈ ds, CRuntime.isDigit d = true :=
  fun d hd => (digit_of_isSome hbase (h d hd)).1

theorem Parsed.exists_isDigit (h : Parsed neg ds v) : ∃ b ∈ ds, isDigit b = true := by
  cases h with
  | hex _ _ => exact ⟨48, List.mem_cons_self, rfl⟩
  | octal _ => exact ⟨48, List.mem_cons_self, rfl⟩
  | decimal _ hdigits => exact ⟨_, List.mem_cons_self, hdigits.isDigit le_rfl _ List.mem_cons_self⟩

/-- A value that fits an `int` is read as another exactly when the two differ. -/
theorem read_eq_parsed_iff {m n : ℕ} :
    (FitsInt (clampLong (signed neg n)) →
        (if FitsInt (signed neg m) then some (signed neg m) else none) =
          some (clampLong (signed neg n))) ↔
      m = n ∨ ¬ FitsInt (signed neg n) := by
  rw [fitsInt_clampLong_iff]
  -- a parsed value that is no `int` promises nothing
  by_cases hfits : FitsInt (signed neg n)
  · rw [clampLong_of_fitsInt hfits]
    constructor
    · intro h
      obtain ⟨-, heq⟩ := Option.ite_none_right_eq_some.mp (h hfits)
      exact .inl (signed_inj.mp (Option.some.inj heq))
    · rintro (rfl | hno) -
      · rw [if_pos hfits]
      · exact absurd hfits hno
  · exact iff_of_true (fun h => absurd h hfits) (.inr hfits)

/-- **The parsed value is read again exactly when both bases read the text alike.** -/
theorem Parsed.isoAtoi_iff (h : Parsed neg ds v) :
    (FitsInt v → isoAtoiDigits neg (ds ++ [0]) = some v) ↔ ReadAlike neg ds := by
  cases h with
  | @hex x t hx hdigits =>
    -- in base ten the number ends at the letter
    have hletter : isDigit x = false := by rcases hx with rfl | rfl <;> rfl
    have hzero : ∀ d ∈ [(48 : UInt8)], isDigit d = true := by simp [isDigit]
    have hread := isoAtoiDigits_append neg hzero hletter (t ++ [0])
    have halike : ReadAlike neg (48 :: x :: t) ↔
        valueIn 16 t = 0 ∨ ¬ FitsInt (signed neg (valueIn 16 t)) := iff_of_eq (if_pos hx)
    rw [List.cons_append, List.cons_append, ← List.singleton_append, hread, halike,
      read_eq_parsed_iff, eq_comm]
    rfl
  | @octal t hdigits =>
    have hread := isoAtoiDigits_append neg (hdigits.isDigit (by decide)) (b := 0) rfl []
    rw [hread, readAlike_octal hdigits, read_eq_parsed_iff, (valueIn_eight hdigits).2]
  | @decimal c t hc hdigits =>
    have hread := isoAtoiDigits_append neg (hdigits.isDigit le_rfl) (b := 0) rfl []
    rw [hread, valueIn_ten hdigits, read_eq_parsed_iff]
    exact iff_of_true (.inl rfl) (readAlike_of_ne hc t)

end Promise

/-- **Acceptance keeps its promise exactly for numbers that both bases read alike**, and not for
the empty string. -/
theorem vouches_iff (s : List UInt8) (h0 : 0 ∉ s) (h : isnumber (s ++ [0]) = some true) :
    Vouches s ↔ s ≠ [] ∧ ReadAlike (numberIn s).1 (numberIn s).2 := by
  obtain ⟨⟨v, r⟩, hparse, hend⟩ := Option.map_eq_some_iff.mp h
  have hr : r.head? = some 0 := beq_iff_eq.mp hend
  have h0' : 0 ∉ (numberIn s).2 := fun hmem => h0 ((numberIn_suffix s).subset hmem)
  have hbody := hparse
  rw [strtol_eq, numberIn_append_zero] at hbody
  rcases parsed_of_strtolUnsigned h0 h0' hbody hr with rfl | hparsed
  -- the empty string has no digit
  · refine iff_of_false ?_ fun hne => hne.1 rfl
    rintro ⟨⟨b, hb, -⟩, -⟩
    cases hb
  · obtain ⟨b, hb, hdigit⟩ := hparsed.exists_isDigit
    have hmem : b ∈ s := (numberIn_suffix s).subset hb
    unfold Vouches
    rw [isoAtoi_eq, numberIn_append_zero, hparse, ← hparsed.isoAtoi_iff]
    constructor
    · rintro ⟨-, hall⟩
      exact ⟨List.ne_nil_of_mem hmem, hall v r rfl⟩
    · rintro ⟨-, hread⟩
      refine ⟨⟨b, hmem, hdigit⟩, ?_⟩
      rintro v' r' heq hfits
      obtain ⟨rfl, rfl⟩ := Prod.mk.inj (Option.some.inj heq)
      exact hread hfits

/-- The port `80`. -/
theorem vouches_eighty : Vouches [56, 48] :=
  (vouches_iff [56, 48] (by decide) (by decide)).mpr ⟨by decide, trivial⟩

/-- The text `010` is accepted as eight and read as ten; the empty one is accepted without a
digit. -/
theorem not_vouches_octal : isnumber ([48, 49, 48] ++ [0]) = some true ∧
    strtol ([48, 49, 48] ++ [0]) = some (8, [0]) ∧ atoi ([48, 49, 48] ++ [0]) = some 10 ∧
    ¬ Vouches [48, 49, 48] ∧ isnumber ([] ++ [0]) = some true ∧ ¬ Vouches [] := by
  have hten : isoAtoi ([48, 49, 48] ++ [0]) = some 10 := by decide
  refine ⟨by decide, by decide, by decide, fun h => ?_, by decide, fun h => ?_⟩
  · have height := h.2 8 [0] (by decide) (by decide)
    rw [hten] at height
    exact absurd height (by decide)
  · obtain ⟨b, hb, -⟩ := h.1
    cases hb

end CRuntime

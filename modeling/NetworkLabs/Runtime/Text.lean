import NetworkLabs.Runtime.Memory
import NetworkLabs.Runtime.Tokens
import Mathlib.Data.List.TakeWhile
import Mathlib.Data.Nat.Digits.Lemmas

/-!
# Strings and decimal text

Strings end at their first null byte. The conversions of `sprintf("%d")` and `atoi` work on bytes.
`atoi` is `(int) strtol(s, 0, 10)`, as in glibc: blanks, a sign, digits, a result clamped to `long`
and then converted to `int`. It reads on until a byte that is no digit; on an object that holds
none its result is undefined.

## Main definitions

* `cstring buf`: the string at the start of a buffer
* `sprintfD w n`: the text of `"%wd"` for a non-negative number
* `sprintfInt z`: the text of `"%d"`
* `atoi s`: the value of the bytes `s`, `none` when they end before the number does

## Main results

* `atoi_sprintfD`: `atoi` reads back what `sprintf` wrote
* `length_sprintfD`: a number of at most `w` digits fills exactly `w` columns
-/

namespace CRuntime

/-- The character `'$'`. -/
def dollar : UInt8 := 36

/-- The string at the start of a buffer. -/
def cstring (buf : List UInt8) : List UInt8 := buf.takeWhile (· != 0)

theorem cstring_eq_self {s : List UInt8} (h : 0 ∉ s) : cstring s = s := by
  apply List.takeWhile_eq_self_iff.mpr
  intro b hb
  simpa using fun he : b = 0 => h (he ▸ hb)

theorem zero_notMem_cstring (buf : List UInt8) : 0 ∉ cstring buf := by
  intro h
  simpa using List.mem_takeWhile_imp h

theorem cstring_append_of_notMem {s : List UInt8} (h : 0 ∉ s) (t : List UInt8) :
    cstring (s ++ t) = s ++ cstring t := by
  apply List.takeWhile_append_of_pos
  intro b hb
  simpa using fun he : b = 0 => h (he ▸ hb)

/-- A terminator ends the string, whatever follows it. -/
theorem cstring_append_zero {s : List UInt8} (h : 0 ∉ s) (t : List UInt8) :
    cstring (s ++ 0 :: t) = s := by
  rw [cstring_append_of_notMem h, cstring, List.takeWhile_cons_of_neg (by simp), List.append_nil]

theorem cstring_append_of_mem {s : List UInt8} (h : 0 ∈ s) (t : List UInt8) :
    cstring (s ++ t) = cstring s := by
  obtain ⟨u, v, rfl⟩ := List.append_of_mem h
  induction u with
  | nil => rfl
  | cons b u ih =>
    by_cases hb : b = 0
    · simp [cstring, hb]
    · have hrest := ih (by simp)
      unfold cstring at hrest ⊢
      rw [List.cons_append, List.cons_append, List.takeWhile_cons_of_pos (by simpa using hb),
        List.takeWhile_cons_of_pos (by simpa using hb), hrest]

/-- A terminated string stands before its terminator. -/
theorem exists_eq_cstring_append {buf : List UInt8} (h : 0 ∈ buf) :
    ∃ t, buf = cstring buf ++ 0 :: t := by
  obtain ⟨s, t, rfl, hs⟩ := List.eq_append_cons_of_mem h
  exact ⟨t, by rw [cstring_append_zero hs]⟩

/-- A terminated string is empty when its terminator comes first. -/
theorem cstring_eq_nil_iff {buf : List UInt8} (h : 0 ∈ buf) :
    cstring buf = [] ↔ buf.head? = some 0 := by
  cases buf with
  | nil => cases h
  | cons b t =>
    by_cases hb : b = 0
    · simp [cstring, hb]
    · simp [cstring, hb]

/-! ## Characters -/

/-- The digit `d` as a character. -/
def digitChar (d : ℕ) : UInt8 := UInt8.ofNat (48 + d)

/-- `isdigit`. -/
def isDigit (b : UInt8) : Bool := 48 ≤ b && b ≤ 57

/-- `isprint` in the C locale. -/
def isPrint (b : UInt8) : Bool := 32 ≤ b && b ≤ 126

/-- `isspace` in the C locale. -/
def isSpace (b : UInt8) : Bool := b == 32 || (9 ≤ b && b ≤ 13)

/-- The text of `"%d"` for a non-negative number. -/
def decimal (n : ℕ) : List UInt8 :=
  if n = 0 then [digitChar 0] else (Nat.digits 10 n).reverse.map digitChar

/-- The text of `"%wd"` for a non-negative number: right-justified, padded with blanks. -/
def sprintfD (w n : ℕ) : List UInt8 :=
  List.replicate (w - (decimal n).length) 32 ++ decimal n

/-- The text of `"%d"`. -/
def sprintfInt (z : ℤ) : List UInt8 := if z < 0 then 45 :: decimal z.natAbs else decimal z.natAbs

/-- The value of a row of digits. -/
def digitsValue (ds : List UInt8) : ℕ := ds.foldl (fun acc d => 10 * acc + (d.toNat - 48)) 0

/-- The range of `long`. -/
def clampLong (z : ℤ) : ℤ := max (-2 ^ 63) (min z (2 ^ 63 - 1))

/-- `strtol` after the blanks and the sign. -/
def atoiDigits (neg : Bool) (s : List UInt8) : Option ℤ :=
  -- the digits go on to the end of the object
  if s.dropWhile isDigit = [] then none
  else
    let v : ℤ := digitsValue (s.takeWhile isDigit)
    some (toInt (clampLong (if neg then -v else v)))

/-- `atoi` on an object of the bytes `s`. -/
def atoi (s : List UInt8) : Option ℤ :=
  match s.dropWhile isSpace with
  | 45 :: t => atoiDigits true t
  | 43 :: t => atoiDigits false t
  | t => atoiDigits false t

/-! ## Digits -/

theorem digitChar_toNat {d : ℕ} (h : d < 10) : (digitChar d).toNat = 48 + d := by
  rw [digitChar, UInt8.toNat_ofNat', Nat.mod_eq_of_lt (by omega)]

theorem isDigit_iff (b : UInt8) : isDigit b = true ↔ 48 ≤ b.toNat ∧ b.toNat ≤ 57 := by
  simp [isDigit, UInt8.le_iff_toNat_le]

theorem isDigit_digitChar {d : ℕ} (h : d < 10) : isDigit (digitChar d) = true := by
  rw [isDigit_iff, digitChar_toNat h]
  omega

theorem isDigit_of_mem_decimal {n : ℕ} {b : UInt8} (h : b ∈ decimal n) : isDigit b = true := by
  unfold decimal at h
  split at h
  · rw [List.mem_singleton.mp h]
    exact isDigit_digitChar (by omega)
  · obtain ⟨d, hd, rfl⟩ := List.mem_map.mp h
    exact isDigit_digitChar (Nat.digits_lt_base (by omega) (List.mem_reverse.mp hd))

theorem decimal_ne_nil (n : ℕ) : decimal n ≠ [] := by
  unfold decimal
  split
  · simp
  · simpa using Nat.digits_ne_nil_iff_ne_zero.mpr ‹_›

theorem digitsValue_append (ds : List UInt8) (d : UInt8) :
    digitsValue (ds ++ [d]) = 10 * digitsValue ds + (d.toNat - 48) := by
  simp [digitsValue]

theorem digitsValue_map_reverse {ds : List ℕ} (h : ∀ d ∈ ds, d < 10) :
    digitsValue (ds.reverse.map digitChar) = Nat.ofDigits 10 ds := by
  induction ds with
  | nil => rfl
  | cons d ds ih =>
    have hd : d < 10 := h d (by simp)
    rw [List.reverse_cons, List.map_append, List.map_singleton, digitsValue_append,
      ih fun e he => h e (by simp [he]), digitChar_toNat hd, Nat.ofDigits_cons]
    omega

theorem digitsValue_decimal (n : ℕ) : digitsValue (decimal n) = n := by
  unfold decimal
  split
  · simp [digitsValue, digitChar_toNat, *]
  · rw [digitsValue_map_reverse fun d hd => Nat.digits_lt_base (by omega) hd,
      Nat.ofDigits_digits]

theorem length_decimal_le {n k : ℕ} (hk : 1 ≤ k) : (decimal n).length ≤ k ↔ n < 10 ^ k := by
  unfold decimal
  split
  · simp [*]
  · rw [List.length_map, List.length_reverse, Nat.digits_length_le_iff (by omega)]

@[simp] theorem sprintfInt_natCast (n : ℕ) : sprintfInt n = decimal n := by
  rw [sprintfInt, if_neg (by omega), Int.natAbs_natCast]

theorem length_sprintfD {w n : ℕ} (hw : 1 ≤ w) (h : n < 10 ^ w) : (sprintfD w n).length = w := by
  have hle := (length_decimal_le hw).mpr h
  simp [sprintfD]
  omega

theorem length_sprintfD_lt {w n : ℕ} (hw : 1 ≤ w) (h : 10 ^ w ≤ n) : w < (sprintfD w n).length := by
  have hlt : ¬ (decimal n).length ≤ w := fun hle => by
    have := (length_decimal_le hw).mp hle
    omega
  simp [sprintfD]
  omega

/-! ## Reading back -/

theorem atoiDigits_append {ds rest : List UInt8} {b : UInt8} (neg : Bool)
    (hds : ∀ d ∈ ds, isDigit d = true) (hb : isDigit b = false) :
    atoiDigits neg (ds ++ b :: rest) =
      some (toInt (clampLong (if neg then -(digitsValue ds : ℤ) else digitsValue ds))) := by
  rw [atoiDigits, takeWhile_append_cons hds hb, dropWhile_append_cons hds hb, if_neg (by simp)]

theorem clampLong_eq_self {z : ℤ} (h₁ : -2 ^ 63 ≤ z) (h₂ : z < 2 ^ 63) : clampLong z = z := by
  unfold clampLong
  omega

/-- `atoi` gives an `int`. -/
theorem atoi_lt {s : List UInt8} {z : ℤ} (h : atoi s = some z) : z < 2 ^ 31 := by
  have hdigits : ∀ {neg : Bool} {t : List UInt8}, atoiDigits neg t = some z → z < 2 ^ 31 := by
    intro neg t ht
    simp only [atoiDigits, Option.ite_none_left_eq_some, Option.some_inj] at ht
    rw [← ht.2]
    exact toInt_lt _
  unfold atoi at h
  split at h <;> exact hdigits h

/-- `atoi` reads back a number that `sprintf` printed in front of a byte that is no digit. -/
theorem atoi_sprintfD (w : ℕ) {n : ℕ} (hn : n < 2 ^ 31) {b : UInt8} (hb : isDigit b = false)
    (rest : List UInt8) : atoi (sprintfD w n ++ b :: rest) = some (n : ℤ) := by
  -- the first digit is neither a blank nor a sign
  obtain ⟨d, ds, hds⟩ := List.exists_cons_of_ne_nil (decimal_ne_nil n)
  have hd : isDigit d = true := isDigit_of_mem_decimal (n := n) (by simp [hds])
  have hd' := (isDigit_iff d).mp hd
  have hspace : isSpace d = false := by
    simp only [isSpace, Bool.or_eq_false_iff, beq_eq_false_iff_ne, Bool.and_eq_false_iff,
      decide_eq_false_iff_not, UInt8.le_iff_toNat_le, ne_eq, ← UInt8.toNat_inj]
    exact ⟨fun h => by simp at h; omega, .inr (by simp; omega)⟩
  have hskip : (sprintfD w n ++ b :: rest).dropWhile isSpace = d :: (ds ++ b :: rest) := by
    rw [sprintfD, List.append_assoc,
      List.dropWhile_append_of_pos fun c hc => by rw [(List.mem_replicate.mp hc).2]; decide,
      hds, List.cons_append, List.dropWhile_cons_of_neg (by simp [hspace])]
  have hsign : d ≠ 45 ∧ d ≠ 43 := by
    constructor <;> rintro rfl <;> simp at hd'
  have hread : atoi (sprintfD w n ++ b :: rest) = atoiDigits false (decimal n ++ b :: rest) := by
    unfold atoi
    rw [hskip, hds]
    split <;> simp_all
  rw [hread, atoiDigits_append false (fun _ => isDigit_of_mem_decimal) hb, digitsValue_decimal]
  simp only [Bool.false_eq_true, if_false]
  rw [clampLong_eq_self (by omega) (by omega), toInt_eq_self (by omega) (by omega)]

example : sprintfD 7 42 = [32, 32, 32, 32, 32, 52, 50] := by decide

end CRuntime

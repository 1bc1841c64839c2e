import NetworkLabs.Runtime.Text

/-!
# Numbers in any base

`strtol(s, &e, 0)` takes the base from the text: `0x` in front of a hexadecimal digit for sixteen, a
leading `0` for eight, and ten otherwise. The end pointer is behind the last digit; without digits
it is at the start of the string. Like `atoi`, the function reads on until a byte that is no digit.

## Main definitions

* `strtol s`: the value and the string at the end pointer, `none` when the object ends before
* `isnumber s`: whether the end pointer is at the terminator

## Main results

* `strtol_suffix`: the end pointer points into the string
* `atoi_isSome`: a terminated string has a value
-/

namespace CRuntime

/-- The value of a digit in a base of at most sixteen, `none` for any other character. -/
def digitIn (base : ℕ) (b : UInt8) : Option ℕ :=
  let value :=
    if isDigit b then b.toNat - 48
    else if 97 ≤ b && b ≤ 102 then b.toNat - 87
    else if 65 ≤ b && b ≤ 70 then b.toNat - 55
    else 16
  if value < base then some value else none

/-- `strtol` from the first digit on. -/
def strtolDigits (neg : Bool) (base : ℕ) (s : List UInt8) : Option (ℤ × List UInt8) :=
  let rest := s.dropWhile fun b => (digitIn base b).isSome
  -- the digits go on to the end of the object
  if rest = [] then none
  else
    let v : ℤ := (s.takeWhile fun b => (digitIn base b).isSome).foldl
      (fun acc b => base * acc + (digitIn base b).getD 0) (0 : ℕ)
    some (clampLong (if neg then -v else v), rest)

/-- `strtol` behind the sign, of the string `s`. -/
def strtolUnsigned (s : List UInt8) (neg : Bool) (u : List UInt8) : Option (ℤ × List UInt8) :=
  match u with
  | [] => none
  | 48 :: x :: t =>
    if x = 120 || x = 88 then
      match t with
      | [] => none
      | h :: _ => if (digitIn 16 h).isSome then strtolDigits neg 16 t else strtolDigits neg 8 u
    else strtolDigits neg 8 u
  | c :: _ => if isDigit c then strtolDigits neg 10 u else some (0, s)

/-- `strtol(s, &e, 0)` on an object of the bytes `s`. -/
def strtol (s : List UInt8) : Option (ℤ × List UInt8) :=
  match s.dropWhile isSpace with
  | 45 :: u => strtolUnsigned s true u
  | 43 :: u => strtolUnsigned s false u
  | u => strtolUnsigned s false u

/-- `isnumber`. -/
def isnumber (s : List UInt8) : Option Bool := (strtol s).map fun p => p.2.head? == some 0

/-! ## The end pointer -/

theorem strtolDigits_suffix {neg : Bool} {base : ℕ} {s r : List UInt8} {v : ℤ}
    (h : strtolDigits neg base s = some (v, r)) : r <:+ s := by
  unfold strtolDigits at h
  simp only [Option.ite_none_left_eq_some, Option.some.injEq, Prod.mk.injEq] at h
  obtain ⟨-, -, rfl⟩ := h
  exact List.dropWhile_suffix _

theorem strtolUnsigned_suffix {s u r : List UInt8} {neg : Bool} {v : ℤ} (hu : u <:+ s)
    (h : strtolUnsigned s neg u = some (v, r)) : r <:+ s := by
  unfold strtolUnsigned at h
  split at h
  · cases h
  · next x t =>
    split at h
    · split at h
      · cases h
      · split at h
        · exact (strtolDigits_suffix h).trans
            (((List.suffix_cons x _).trans (List.suffix_cons 48 _)).trans hu)
        · exact (strtolDigits_suffix h).trans hu
    · exact (strtolDigits_suffix h).trans hu
  · split at h
    · exact (strtolDigits_suffix h).trans hu
    · obtain ⟨-, rfl⟩ := by simpa using h
      exact List.suffix_rfl

/-- The end pointer points into the string. -/
theorem strtol_suffix {s r : List UInt8} {v : ℤ} (h : strtol s = some (v, r)) : r <:+ s := by
  have hskip := List.dropWhile_suffix (l := s) isSpace
  unfold strtol at h
  split at h
  · next u hu => exact strtolUnsigned_suffix ((List.suffix_cons 45 u).trans (hu ▸ hskip)) h
  · next u hu => exact strtolUnsigned_suffix ((List.suffix_cons 43 u).trans (hu ▸ hskip)) h
  · exact strtolUnsigned_suffix hskip h

/-- What `isnumber` accepts is terminated. -/
theorem zero_mem_of_isnumber {s : List UInt8} (h : isnumber s = some true) : 0 ∈ s := by
  obtain ⟨⟨v, r⟩, hr, hend⟩ := Option.map_eq_some_iff.mp h
  exact (strtol_suffix hr).subset (List.mem_of_head? (beq_iff_eq.mp hend))

/-! ## Terminated strings -/

theorem mem_dropWhile_of_false {α : Type*} {p : α → Bool} {a : α} {s : List α} (ha : p a = false)
    (h : a ∈ s) : a ∈ s.dropWhile p := by
  induction s with
  | nil => exact h
  | cons b s ih =>
    cases hb : p b with
    | true =>
      rw [List.dropWhile_cons_of_pos hb]
      apply ih
      rcases List.mem_cons.mp h with rfl | h
      · rw [ha] at hb
        cases hb
      · exact h
    | false => rwa [List.dropWhile_cons_of_neg (by simp [hb])]

theorem atoiDigits_isSome {neg : Bool} {s : List UInt8} (h : 0 ∈ s) :
    (atoiDigits neg s).isSome := by
  have hne : s.dropWhile isDigit ≠ [] := List.ne_nil_of_mem (mem_dropWhile_of_false (by decide) h)
  rw [atoiDigits, if_neg hne]
  rfl

/-- A terminated string has a value. -/
theorem atoi_isSome {s : List UInt8} (h : 0 ∈ s) : (atoi s).isSome := by
  have hmem : 0 ∈ s.dropWhile isSpace := mem_dropWhile_of_false (by decide) h
  unfold atoi
  split
  · next t ht =>
    rw [ht] at hmem
    exact atoiDigits_isSome ((List.mem_cons.mp hmem).resolve_left (by decide))
  · next t ht =>
    rw [ht] at hmem
    exact atoiDigits_isSome ((List.mem_cons.mp hmem).resolve_left (by decide))
  · exact atoiDigits_isSome hmem

end CRuntime

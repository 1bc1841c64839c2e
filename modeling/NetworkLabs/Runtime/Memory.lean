import Mathlib.Data.Int.DivMod
import Mathlib.Data.List.GetD
import Mathlib.Tactic.Linarith

/-!
# Objects in memory

A C object is a function from offsets to cells. The operations are those of `string.h` and of
the socket calls; their sizes are counted by the caller, which decides whether an access stays
inside the object. Integers of four bytes are stored little-endian, as on x86-64.

## Main definitions

* `Mem α`: an object with cells in `α`
* `Mem.fill`, `Mem.copy`, `Mem.store`, `Mem.recv`, `Mem.shift`: `memset`, `memcpy`, `recvfrom`,
  `p + off`
* `leBytes`, `leValue`: little-endian numbers
* `Mem.int32`, `Mem.setInt32`, `Mem.setInt32s`: an object read and written as an array of `int`

## Main results

* `leValue_leBytes`, `leBytes_leValue`: the little-endian code is a bijection
* `Mem.int32_setInt32s`: what an array of `int` holds after a row of stores
* `Mem.int32_recv_read`: an array of `int` survives being sent and received
-/

namespace CRuntime

variable {α : Type*}

/-- `BUFSIZ`. -/
def BUFSIZ : ℕ := 8192

/-- A C object with cells in `α`, addressed from its first cell. -/
abbrev Mem (α : Type*) := ℕ → α

namespace Mem

/-- `memset(m, a, n)`. -/
def fill (m : Mem α) (n : ℕ) (a : α) : Mem α := fun k => if k < n then a else m k

/-- `memcpy(m + off, src, n)`. -/
def copy (m : Mem α) (off : ℕ) (src : Mem α) (n : ℕ) : Mem α :=
  fun k => if off ≤ k ∧ k < off + n then src (k - off) else m k

/-- `memcpy(m + off, bs, n)` of `n` cells that are given as a list. -/
def store (m : Mem α) (off : ℕ) (bs : List α) : Mem α :=
  fun k => if off ≤ k then bs.getD (k - off) (m k) else m k

/-- The object `m + off` points to. -/
def shift (m : Mem α) (off : ℕ) : Mem α := fun k => m (off + k)

/-- The first `n` cells of an object. -/
def read (m : Mem α) (n : ℕ) : List α := (List.range n).map m

/-- `recvfrom(m, cap)` of the datagram `d`: what does not fit is discarded, and the cells past
the datagram keep their contents. -/
def recv (m : Mem α) (d : List α) (cap : ℕ) : Mem α :=
  fun k => if k < cap then d.getD k (m k) else m k

@[simp] theorem fill_of_lt {m : Mem α} {n k : ℕ} {a : α} (h : k < n) : m.fill n a k = a :=
  if_pos h

@[simp] theorem fill_of_le {m : Mem α} {n k : ℕ} {a : α} (h : n ≤ k) : m.fill n a k = m k :=
  if_neg (by omega)

theorem copy_inside (m src : Mem α) {off n k : ℕ} (h : k < n) :
    m.copy off src n (off + k) = src k := by
  simp [copy, h]

theorem copy_outside (m src : Mem α) {off n k : ℕ} (h : k < off ∨ off + n ≤ k) :
    m.copy off src n k = m k :=
  if_neg (by omega)

theorem copy_congr (m : Mem α) {src src' : Mem α} {off n : ℕ} (h : ∀ k < n, src k = src' k) :
    m.copy off src n = m.copy off src' n := by
  funext k
  unfold copy
  split
  · exact h _ (by omega)
  · rfl

@[simp] theorem shift_apply (m : Mem α) (off k : ℕ) : m.shift off k = m (off + k) := rfl

@[simp] theorem length_read (m : Mem α) (n : ℕ) : (m.read n).length = n := by simp [read]

@[simp] theorem getElem_read (m : Mem α) {n k : ℕ} (h : k < (m.read n).length) :
    (m.read n)[k] = m k := by
  simp [read]

theorem read_congr {m m' : Mem α} {n : ℕ} (h : ∀ k < n, m k = m' k) : m.read n = m'.read n :=
  List.map_congr_left fun k hk => h k (List.mem_range.mp hk)

theorem read_add (m : Mem α) (n k : ℕ) : m.read (n + k) = m.read n ++ (m.shift n).read k := by
  simp [read, List.range_add, shift, Function.comp_def]

/-- The first cells, and the ones behind them. -/
theorem read_append_drop (m : Mem α) {k n : ℕ} (h : k ≤ n) :
    m.read k ++ (m.read n).drop k = m.read n := by
  obtain ⟨j, rfl⟩ := Nat.exists_eq_add_of_le h
  rw [read_add, List.drop_left' (length_read m k)]

/-- A prefix of the first cells. -/
theorem take_read (m : Mem α) {k n : ℕ} (h : k ≤ n) : (m.read n).take k = m.read k := by
  obtain ⟨j, rfl⟩ := Nat.exists_eq_add_of_le h
  rw [read_add, List.take_left' (length_read m k)]

theorem recv_of_lt {m : Mem α} {d : List α} {cap k : ℕ} (hd : k < d.length) (hc : k < cap) :
    m.recv d cap k = d[k] := by
  rw [recv, if_pos hc, List.getD_eq_getElem _ _ hd]

theorem recv_of_length_le {m : Mem α} {d : List α} {cap k : ℕ} (h : d.length ≤ k) :
    m.recv d cap k = m k := by
  unfold recv
  split
  · exact List.getD_eq_default _ _ h
  · rfl

@[simp] theorem store_nil (m : Mem α) (off : ℕ) : m.store off [] = m := by
  funext k
  simp [store]

/-- What is stored behind the first cells follows them. -/
theorem read_store (m : Mem α) (off : ℕ) (bs : List α) :
    (m.store off bs).read (off + bs.length) = m.read off ++ bs := by
  rw [read_add]
  congr 1
  · exact read_congr fun k hk => if_neg (by omega)
  · apply List.ext_getElem (by simp)
    intro k hk hk'
    rw [getElem_read, shift_apply, store, if_pos (Nat.le_add_right ..), Nat.add_sub_cancel_left,
      List.getD_eq_getElem _ _ hk']

/-- `memmove(m, m + k, n)` moves the cells behind the first `k` to the front. -/
theorem read_copy_shift (m : Mem α) (k n : ℕ) :
    (m.copy 0 (m.shift k) n).read n = (m.read (k + n)).drop k := by
  rw [read_add, List.drop_left' (length_read m k)]
  apply read_congr
  intro j hj
  have hcopy : m.copy 0 (m.shift k) n (0 + j) = m.shift k j := m.copy_inside (m.shift k) hj
  rwa [Nat.zero_add] at hcopy

/-- In an object of equal cells a datagram is followed by as many of them as are read. -/
theorem read_recv_const (a : α) (d : List α) {n cap : ℕ} (h : n ≤ cap) :
    (recv (fun _ => a) d cap).read n = (d ++ List.replicate n a).take n := by
  apply List.ext_getElem (by simp)
  intro k hk hk'
  have hlt : k < n := by simpa using hk
  rw [getElem_read, List.getElem_take]
  rcases Nat.lt_or_ge k d.length with hd | hd
  · rw [recv_of_lt hd (by omega), List.getElem_append_left hd]
  · rw [recv_of_length_le hd, List.getElem_append_right hd, List.getElem_replicate]

/-- The first cells of a datagram are the first cells of the object. -/
theorem read_recv_take (m : Mem α) {d : List α} {n cap : ℕ} (hd : n ≤ d.length) (hc : n ≤ cap) :
    (m.recv d cap).read n = d.take n := by
  apply List.ext_getElem (by simp [hd])
  intro k hk hk'
  have hlt : k < n := by simpa using hk
  rw [getElem_read, recv_of_lt (by omega) (by omega), List.getElem_take]

/-- A datagram that fits is found at the start of the object. -/
theorem read_recv {m : Mem α} {d : List α} {cap : ℕ} (h : d.length ≤ cap) :
    (m.recv d cap).read d.length = d := by
  apply List.ext_getElem (by simp)
  intro k hk hd
  rw [getElem_read, recv_of_lt hd (by omega)]

/-- A datagram that fits is followed by what the object held behind it. -/
theorem read_recv_append (m : Mem α) {d : List α} {n cap : ℕ} (hn : d.length ≤ n)
    (hcap : d.length ≤ cap) :
    (m.recv d cap).read n = d ++ (m.shift d.length).read (n - d.length) := by
  obtain ⟨k, rfl⟩ := Nat.exists_eq_add_of_le hn
  rw [read_add, read_recv hcap, Nat.add_sub_cancel_left]
  exact congrArg _ (read_congr fun k _ => recv_of_length_le (Nat.le_add_right ..))

/-- A datagram that leaves room is followed by the byte the object held there. -/
theorem read_recv_eq_append {m : Mem α} {d : List α} {cap : ℕ} (h : d.length < cap) :
    ∃ t, (m.recv d cap).read cap = d ++ m d.length :: t := by
  obtain ⟨n, hn⟩ : ∃ n, cap - d.length = 1 + n := ⟨cap - d.length - 1, by omega⟩
  rw [read_recv_append m h.le h.le, hn, read_add]
  exact ⟨_, rfl⟩

/-- A datagram that fills the object leaves nothing of what it held. -/
theorem read_recv_of_le {m m' : Mem α} {d : List α} {cap : ℕ} (h : cap ≤ d.length) :
    (m.recv d cap).read cap = (m'.recv d cap).read cap :=
  read_congr fun k hk => by rw [recv_of_lt (by omega) hk, recv_of_lt (by omega) hk]

end Mem

/-! ## Little-endian numbers -/

/-- The low `k` bytes of `n`, the lowest first. -/
def leBytes : ℕ → ℕ → List UInt8
  | 0, _ => []
  | k + 1, n => UInt8.ofNat (n % 256) :: leBytes k (n / 256)

/-- The number whose bytes, the lowest first, are given. -/
def leValue : List UInt8 → ℕ
  | [] => 0
  | b :: bs => b.toNat + 256 * leValue bs

@[simp] theorem length_leBytes (k n : ℕ) : (leBytes k n).length = k := by
  induction k generalizing n with
  | zero => rfl
  | succ k ih => simp [leBytes, ih]

theorem leValue_lt (bs : List UInt8) : leValue bs < 256 ^ bs.length := by
  induction bs with
  | nil => simp [leValue]
  | cons b bs ih =>
    have hb : b.toNat < 256 := b.toNat_lt
    rw [leValue, List.length_cons, pow_succ]
    omega

theorem leValue_leBytes (k n : ℕ) : leValue (leBytes k n) = n % 256 ^ k := by
  induction k generalizing n with
  | zero => simp [leBytes, leValue, Nat.mod_one]
  | succ k ih =>
    have hb : (UInt8.ofNat (n % 256)).toNat = n % 256 := by simp
    rw [leBytes, leValue, ih, hb, pow_succ, Nat.mul_comm (256 ^ k) 256, Nat.mod_mul]

theorem leBytes_leValue (bs : List UInt8) : leBytes bs.length (leValue bs) = bs := by
  induction bs with
  | nil => rfl
  | cons b bs ih =>
    have hb : b.toNat < 256 := b.toNat_lt
    -- the first byte is the remainder, the rest is the quotient
    have hlow : (b.toNat + 256 * leValue bs) % 256 = b.toNat := by omega
    have hhigh : (b.toNat + 256 * leValue bs) / 256 = leValue bs := by omega
    rw [List.length_cons, leValue, leBytes, hlow, hhigh, ih, UInt8.ofNat_toNat]

/-! ## Machine integers -/

/-- The value of an integer converted to `uint32_t`. -/
def toUInt32 (z : ℤ) : ℕ := (z % 2 ^ 32).toNat

/-- The value of an integer converted to `size_t`. -/
def toSize (z : ℤ) : ℕ := (z % 2 ^ 64).toNat

/-- The value of an integer converted to `int`. -/
def toInt (z : ℤ) : ℤ := if toUInt32 z < 2 ^ 31 then toUInt32 z else toUInt32 z - 2 ^ 32

/-- A value of type `size_t` as a `long`. -/
def toLong (n : ℕ) : ℤ := if n < 2 ^ 63 then n else n - 2 ^ 64

/-- A `long` survives its way through a `size_t`. -/
theorem toLong_toSize {z : ℤ} (h₁ : -2 ^ 63 ≤ z) (h₂ : z < 2 ^ 63) : toLong (toSize z) = z := by
  unfold toLong toSize
  omega

theorem toLong_of_lt {n : ℕ} (h : n < 2 ^ 63) : toLong n = n := if_pos h

theorem toInt_eq_self {z : ℤ} (h₁ : -2 ^ 31 ≤ z) (h₂ : z < 2 ^ 31) : toInt z = z := by
  unfold toInt toUInt32
  split <;> omega

/-- From `2 ^ 31` on the conversion to `int` gives a negative number. -/
theorem toInt_neg {z : ℤ} (h₁ : 2 ^ 31 ≤ z) (h₂ : z < 2 ^ 32) : toInt z < 0 := by
  unfold toInt toUInt32
  split <;> omega

theorem toInt_lt (z : ℤ) : toInt z < 2 ^ 31 := by
  unfold toInt toUInt32
  split <;> omega

theorem toInt_toUInt32 (z : ℤ) : toInt (toUInt32 z) = toInt z := by
  have h : toUInt32 (toUInt32 z) = toUInt32 z := by
    unfold toUInt32
    omega
  rw [toInt, toInt, h]

theorem toSize_of_nonneg {z : ℤ} (h₁ : 0 ≤ z) (h₂ : z < 2 ^ 64) : toSize z = z.toNat := by
  rw [toSize, Int.emod_eq_of_lt h₁ h₂]

/-- A negative integer becomes a large one. -/
theorem toSize_of_neg {z : ℤ} (h₁ : -2 ^ 63 ≤ z) (h₂ : z < 0) : 2 ^ 63 ≤ toSize z := by
  unfold toSize
  omega

theorem toUInt32_of_lt {n : ℕ} (h : n < 2 ^ 32) : toUInt32 n = n := by
  unfold toUInt32
  omega

theorem toInt_eq_neg_one_iff {n : ℕ} (h : n < 2 ^ 32) : toInt n = -1 ↔ n = 2 ^ 32 - 1 := by
  unfold toInt
  rw [toUInt32_of_lt h]
  split <;> omega

theorem toInt_nonneg_iff {n : ℕ} (h : n < 2 ^ 32) : 0 ≤ toInt n ↔ n < 2 ^ 31 := by
  unfold toInt
  rw [toUInt32_of_lt h]
  split <;> omega

/-! ## Arrays of `int` -/

namespace Mem

/-- `((int *) m)[i]`. -/
def int32 (m : Mem UInt8) (i : ℕ) : ℤ := toInt (leValue ((m.shift (4 * i)).read 4))

/-- `((int *) m)[i] = v`. -/
def setInt32 (m : Mem UInt8) (i : ℕ) (v : ℤ) : Mem UInt8 :=
  m.copy (4 * i) (fun k => (leBytes 4 (toUInt32 v)).getD k 0) 4

/-- `((int *) m)[i] = v` for the values of a list, at successive indexes from `i`. -/
def setInt32s (m : Mem UInt8) : ℕ → List ℕ → Mem UInt8
  | _, [] => m
  | i, v :: vs => (m.setInt32 i v).setInt32s (i + 1) vs

theorem int32_congr {m m' : Mem UInt8} {i : ℕ} (h : ∀ k < 4, m (4 * i + k) = m' (4 * i + k)) :
    m.int32 i = m'.int32 i :=
  congrArg (fun bs => toInt (leValue bs)) (read_congr h)

theorem int32_setInt32_self (m : Mem UInt8) (i : ℕ) {v : ℤ} (h₁ : -2 ^ 31 ≤ v) (h₂ : v < 2 ^ 31) :
    (m.setInt32 i v).int32 i = v := by
  have hread : ((m.setInt32 i v).shift (4 * i)).read 4 = leBytes 4 (toUInt32 v) := by
    apply List.ext_getElem (by simp)
    intro k hk hk'
    rw [getElem_read, shift_apply, setInt32, copy_inside _ _ (by simpa using hk),
      List.getD_eq_getElem _ _ hk']
  have hlt : toUInt32 v < 256 ^ 4 := by unfold toUInt32; omega
  unfold int32
  rw [hread, leValue_leBytes, Nat.mod_eq_of_lt hlt, toInt_toUInt32, toInt_eq_self h₁ h₂]

theorem int32_setInt32_of_ne (m : Mem UInt8) {i j : ℕ} (v : ℤ) (h : i ≠ j) :
    (m.setInt32 j v).int32 i = m.int32 i :=
  int32_congr fun k hk => copy_outside _ _ (by omega)

/-- A row of stores changes the indexes it covers and no other. -/
theorem int32_setInt32s (m : Mem UInt8) (i : ℕ) {vs : List ℕ} (hvs : ∀ v ∈ vs, v < 2 ^ 31) (j : ℕ) :
    (m.setInt32s i vs).int32 j =
      if h : i ≤ j ∧ j < i + vs.length then (vs[j - i] : ℤ) else m.int32 j := by
  induction vs generalizing m i with
  | nil => simp [setInt32s]
  | cons v vs ih =>
    have hv : v < 2 ^ 31 := hvs v (by simp)
    rw [setInt32s, ih _ _ fun w hw => hvs w (by simp [hw])]
    rcases lt_trichotomy i j with hij | rfl | hij
    -- an index behind the first store is covered by the others or by none
    · obtain ⟨k, rfl⟩ := Nat.exists_eq_add_of_lt hij
      have hk : i + k + 1 - i = k + 1 := by omega
      have hk' : i + k + 1 - (i + 1) = k := by omega
      rw [int32_setInt32_of_ne _ _ (by omega)]
      simp only [List.length_cons, hk, hk', List.getElem_cons_succ]
      by_cases hlt : k < vs.length
      · rw [dif_pos (by omega), dif_pos (by omega)]
      · rw [dif_neg (by omega), dif_neg (by omega)]
    -- the first store itself, which the others do not reach
    · rw [dif_neg (by omega), dif_pos (by simp), int32_setInt32_self _ _ (by omega) (by omega)]
      simp
    · rw [dif_neg (by omega), dif_neg (by omega), int32_setInt32_of_ne _ _ (by omega)]

/-- An array of `int` that is sent whole and received whole holds the same values. -/
theorem int32_recv_read (m m' : Mem UInt8) {n i : ℕ} (h : i < n) :
    (m'.recv (m.read (4 * n)) (4 * n)).int32 i = m.int32 i :=
  int32_congr fun k hk => by rw [recv_of_lt (by simp; omega) (by omega), getElem_read]

/-- Four bytes of `0xFE`, as `memset(m, -2, n)` leaves them, are a negative `int`. -/
theorem int32_fill_neg (m : Mem UInt8) {n i : ℕ} (h : 4 * i + 4 ≤ n) :
    (m.fill n 0xFE).int32 i < 0 := by
  have hbytes : ((m.fill n 0xFE).shift (4 * i)).read 4 = Mem.read (fun _ => 0xFE) 4 :=
    read_congr fun k hk => fill_of_lt (by omega)
  unfold int32
  rw [hbytes]
  decide

/-- The bytes of an `int`, weighted. -/
theorem int32_eq (m : Mem UInt8) (i : ℕ) :
    ∃ n : ℕ, n = (m (4 * i)).toNat + 256 * ((m (4 * i + 1)).toNat +
        256 * ((m (4 * i + 2)).toNat + 256 * (m (4 * i + 3)).toNat)) ∧
      n < 2 ^ 32 ∧ m.int32 i = toInt n := by
  have h0 := (m (4 * i)).toNat_lt
  have h1 := (m (4 * i + 1)).toNat_lt
  have h2 := (m (4 * i + 2)).toNat_lt
  have h3 := (m (4 * i + 3)).toNat_lt
  exact ⟨_, rfl, by omega, rfl⟩

/-- The sign of an `int` is that of its last byte. -/
theorem int32_nonneg_iff (m : Mem UInt8) (i : ℕ) : 0 ≤ m.int32 i ↔ m (4 * i + 3) < 128 := by
  obtain ⟨n, hn, hlt, hint⟩ := m.int32_eq i
  have h0 := (m (4 * i)).toNat_lt
  have h1 := (m (4 * i + 1)).toNat_lt
  have h2 := (m (4 * i + 2)).toNat_lt
  have h3 := (m (4 * i + 3)).toNat_lt
  rw [hint, toInt_nonneg_iff hlt, UInt8.lt_iff_toNat_lt]
  simp only [UInt8.toNat_ofNat]
  omega

/-- All bytes of `-1` are `0xFF`, the first one included. -/
theorem first_of_int32_eq_neg_one {m : Mem UInt8} {i : ℕ} (h : m.int32 i = -1) :
    m (4 * i) = 0xFF := by
  obtain ⟨n, hn, hlt, hint⟩ := m.int32_eq i
  have h0 := (m (4 * i)).toNat_lt
  rw [hint, toInt_eq_neg_one_iff hlt] at h
  apply UInt8.toNat_inj.mp
  simp only [UInt8.toNat_ofNat]
  omega

end Mem

end CRuntime

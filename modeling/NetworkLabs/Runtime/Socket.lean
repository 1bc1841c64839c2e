import Mathlib.Data.List.Basic

/-!
# Socket addresses and their text

An address of the internet family is a host and a port, both in network byte order. `inet_ntoa`
writes the text of a host into one static buffer and returns a pointer to it, so that two texts are
never there at the same time.

## Main definitions

* `SockAddr`: `struct sockaddr_in`
* `ntohs`: the byte swap of `ntohs` and `htons`
* `Strings`, `inet_ntoa`, `strcmpEq`: strings in memory, reached through pointers

## Main results

* `ntohs_inj`: the byte swap keeps ports apart
* `strcmpEq_inet_ntoa`: two texts of `inet_ntoa` compare equal, whatever the hosts are
-/

namespace CRuntime

/-- `struct sockaddr_in`, in network byte order. -/
structure SockAddr where
  sin_addr : UInt32
  sin_port : UInt16
  deriving DecidableEq

/-- `ntohs` and `htons` on a little-endian machine: the two bytes change places. -/
def ntohs (port : UInt16) : UInt16 :=
  UInt16.ofNat (port.toNat % 256 * 256 + port.toNat / 256)

theorem toNat_ntohs (port : UInt16) :
    (ntohs port).toNat = port.toNat % 256 * 256 + port.toNat / 256 := by
  have hlt : port.toNat < 65536 := port.toNat_lt
  rw [ntohs, UInt16.toNat_ofNat', Nat.mod_eq_of_lt (by omega)]

theorem ntohs_ntohs (port : UInt16) : ntohs (ntohs port) = port := by
  have hlt : port.toNat < 65536 := port.toNat_lt
  apply UInt16.toNat_inj.mp
  rw [toNat_ntohs, toNat_ntohs]
  omega

@[simp] theorem ntohs_inj {a b : UInt16} : ntohs a = ntohs b ↔ a = b :=
  ⟨fun h => by rw [← ntohs_ntohs a, h, ntohs_ntohs], fun h => h ▸ rfl⟩

/-! ## Texts of hosts -/

/-- The strings in memory, by the pointer to their first character. -/
abbrev Strings := ℕ → List UInt8

/-- The static buffer of `inet_ntoa`. -/
def staticBuffer : ℕ := 0

/-- The text of a number below a thousand. -/
def octet (n : ℕ) : List UInt8 :=
  (if 100 ≤ n then [UInt8.ofNat (48 + n / 100)] else []) ++
    (if 10 ≤ n then [UInt8.ofNat (48 + n / 10 % 10)] else []) ++ [UInt8.ofNat (48 + n % 10)]

/-- The four bytes of a host with dots between them, the byte at the lowest address first. -/
def dottedQuad (host : UInt32) : List UInt8 :=
  let h := host.toNat
  octet (h % 256) ++ [46] ++ octet (h / 256 % 256) ++ [46] ++ octet (h / 65536 % 256) ++ [46] ++
    octet (h / 16777216)

/-- `inet_ntoa`: the memory with the text in the static buffer, and the pointer to it. -/
def inet_ntoa (mem : Strings) (host : UInt32) : Strings × ℕ :=
  (fun p => if p = staticBuffer then dottedQuad host else mem p, staticBuffer)

/-- `!strcmp(p, q)`. -/
def strcmpEq (mem : Strings) (p q : ℕ) : Bool := mem p == mem q

/-- **Two texts of `inet_ntoa` compare equal**, since the second call overwrites the first. -/
theorem strcmpEq_inet_ntoa (mem : Strings) (a b : UInt32) :
    strcmpEq (inet_ntoa (inet_ntoa mem a).1 b).1 (inet_ntoa mem a).2
      (inet_ntoa (inet_ntoa mem a).1 b).2 = true :=
  beq_self_eq_true _

end CRuntime

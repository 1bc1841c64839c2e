import NetworkLabs.Foundation.Machine
import NetworkLabs.Runtime.Memory
import NetworkLabs.Runtime.Text
import NetworkLabs.Runtime.Tokens

/-!
# The ping programs

A client sends its secret key between two `'$'` signs and pads the datagram to `MAX_BUF` bytes with
random letters and digits. The server answers when the first token of the datagram is its own key,
except that it drops every fourth datagram unseen.

The server receives `MAX_BUF` bytes into a buffer of `MAX_BUF` bytes. Nothing ends the string there,
so that `strtok_r` may read on behind the buffer; what it finds there is part of the input.

## Main definitions

* `Key`: the secret keys that fit into a ping
* `pingMessage`: the datagram that a client sends
* `Arrival`, `startServer`: what the server reads, and its loop

## Main results

* `length_pingMessage`, `firstToken_pingMessage`: every ping is full and begins with the key
-/

namespace NetworkLabs.Ping

open CRuntime Transition

/-- `MAX_BUF` of the client, and the size of the server's buffer. -/
def MAX_BUF : ℕ := 1000

/-- The answer, `"terve"`. -/
def terve : List UInt8 := [116, 101, 114, 118, 101]

/-- A secret key that fits into a ping with its two `'$'` signs and a terminator, and has no such
sign itself. The client does not check this of its argument. -/
structure Key where
  text : List UInt8
  pos : 1 ≤ text.length
  le : text.length ≤ 997
  noDollar : dollar ∉ text
  noNul : 0 ∉ text

namespace Key

variable (K : Key)

theorem text_ne_nil : K.text ≠ [] := List.ne_nil_of_length_pos K.pos

end Key

/-! ## The client -/

/-- `alphanum`, without its terminator. -/
def alphanum : List UInt8 :=
  (List.range' 48 10 ++ List.range' 65 26 ++ List.range' 97 26).map UInt8.ofNat

/-- `len` characters, chosen by the results of `rand()`. -/
def randomText (rand : ℕ → ℕ) (len : ℕ) : List UInt8 :=
  (List.range len).map fun i => alphanum.getD (rand i % alphanum.length) 0

/-- `make_alphanumeric_string(s + off, len)`: the terminator goes behind the `len` characters. -/
def make_alphanumeric_string (s : Mem UInt8) (off : ℕ) (rand : ℕ → ℕ) (len : ℕ) : Mem UInt8 :=
  (s.store off (randomText rand len)).store (off + len) [0]

/-- The datagram that `sendPingRequest` sends: the string in `fSendBuffer`, which has room here for
the terminator that is written behind it. -/
def pingMessage (secretKey : List UInt8) (rand : ℕ → ℕ) : List UInt8 :=
  let str := dollar :: secretKey ++ [dollar]
  let dlen := secretKey.length + 2
  let dpad := MAX_BUF - dlen
  let fSendBuffer := Mem.store (fun _ => 0) 0 str
  cstring ((make_alphanumeric_string fSendBuffer dlen rand dpad).read (MAX_BUF + 1))

/-! ## The server -/

/-- A datagram, with what lies behind `request` when the server reads it. There is a terminator
somewhere on the stack. -/
structure Arrival where
  datagram : List UInt8
  behind : List UInt8
  terminated : 0 ∈ behind

/-- The string at `request`: `recvfrom` takes at most `MAX_BUF` bytes, and nothing ends them. -/
def Arrival.request (x : Arrival) : List UInt8 :=
  cstring ((Mem.recv (fun _ => 0) x.datagram MAX_BUF).read MAX_BUF ++ x.behind)

/-- One turn of the loop of `startServer`, with the counter and the answers. The second call of
`strtok_r` comes after the token and its result is not used. -/
def serve (secretKey : List UInt8) (request_number : ℕ) (x : Arrival) :
    Option (ℕ × List (List UInt8)) :=
  if request_number = 4 then some (1, [])
  -- `numbytes`
  else if min x.datagram.length MAX_BUF = MAX_BUF then
    match (strtok dollar x.request).1 with
    | none => none  -- `strcmp` gets a null pointer
    | some secretKeyDecode =>
      some (request_number + 1, if secretKeyDecode = secretKey then [terve] else [])
  else some (request_number + 1, [])

/-- The loop of `startServer`. -/
def startServer (secretKey : List UInt8) : Machine ℕ Arrival (List UInt8) where
  step := serve secretKey

/-- The first token of the first `MAX_BUF` bytes of a datagram. -/
def firstToken (d : List UInt8) : Option (List UInt8) :=
  (strtok dollar (cstring (d.take MAX_BUF))).1

/-! ## What a client sends -/

section Message

variable (K : Key) (rand : ℕ → ℕ)

theorem length_randomText (len : ℕ) : (randomText rand len).length = len := by
  simp [randomText]

/-- Every character of `alphanum` is one that ends neither a string nor a token. -/
theorem of_mem_randomText {len : ℕ} {c : UInt8} (h : c ∈ randomText rand len) :
    c ≠ 0 ∧ c ≠ dollar := by
  obtain ⟨i, -, rfl⟩ := List.mem_map.mp h
  have hall : (alphanum.all fun a => a != 0 && a != dollar) = true := by decide
  have hlt : rand i % alphanum.length < alphanum.length := Nat.mod_lt _ (by decide)
  rw [List.getD_eq_getElem _ _ hlt]
  simpa using List.all_eq_true.mp hall _ (List.getElem_mem hlt)

/-- A ping is the key in its two signs, and the padding. -/
theorem pingMessage_eq : pingMessage K.text rand =
    dollar :: (K.text ++ dollar :: randomText rand (MAX_BUF - (K.text.length + 2))) := by
  have hle := K.le
  have hMAX : MAX_BUF = 1000 := rfl
  have hstr : (dollar :: K.text ++ [dollar]).length = K.text.length + 2 := by simp
  have hsum : MAX_BUF + 1 = K.text.length + 2 + (MAX_BUF - (K.text.length + 2)) + 1 := by omega
  -- the three stores follow one another
  have hkey := Mem.read_store (fun _ => 0) 0 (dollar :: K.text ++ [dollar])
  rw [Nat.zero_add, hstr] at hkey
  have hpad := Mem.read_store (Mem.store (fun _ => 0) 0 (dollar :: K.text ++ [dollar]))
    (K.text.length + 2) (randomText rand (MAX_BUF - (K.text.length + 2)))
  rw [length_randomText, hkey] at hpad
  have hend := Mem.read_store ((Mem.store (fun _ => 0) 0 (dollar :: K.text ++ [dollar])).store
    (K.text.length + 2) (randomText rand (MAX_BUF - (K.text.length + 2))))
    (K.text.length + 2 + (MAX_BUF - (K.text.length + 2))) [0]
  rw [List.length_singleton, hpad] at hend
  have hnul : 0 ∉ dollar :: K.text ++ [dollar] ++
      randomText rand (MAX_BUF - (K.text.length + 2)) := by
    simp only [List.cons_append, List.append_assoc, List.mem_cons, List.mem_append,
      List.not_mem_nil, false_or, not_or]
    exact ⟨by decide, K.noNul, by decide, fun h => (of_mem_randomText rand h).1 rfl⟩
  simp only [pingMessage, make_alphanumeric_string]
  rw [hsum, hend, show Mem.read (fun _ => (0 : UInt8)) 0 = [] from rfl, List.nil_append,
    cstring_append_zero hnul]
  simp only [List.cons_append, List.append_assoc, List.nil_append]

/-- Every ping fills the buffer of the server. -/
theorem length_pingMessage : (pingMessage K.text rand).length = MAX_BUF := by
  have hle := K.le
  have hMAX : MAX_BUF = 1000 := rfl
  rw [pingMessage_eq]
  simp only [List.length_cons, List.length_append, length_randomText]
  omega

theorem zero_notMem_pingMessage : 0 ∉ pingMessage K.text rand := zero_notMem_cstring _

theorem cstring_take_pingMessage :
    cstring ((pingMessage K.text rand).take MAX_BUF) = pingMessage K.text rand := by
  rw [List.take_of_length_le (length_pingMessage K rand).le,
    cstring_eq_self (zero_notMem_pingMessage K rand)]

/-- The first token of every ping is the key. -/
theorem firstToken_pingMessage : firstToken (pingMessage K.text rand) = some K.text := by
  rw [firstToken, cstring_take_pingMessage, pingMessage_eq, strtok_cons_self,
    strtok_append_cons K.text_ne_nil K.noDollar]

end Message

end NetworkLabs.Ping

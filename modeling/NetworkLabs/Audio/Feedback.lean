import NetworkLabs.Runtime.Text
import NetworkLabs.Runtime.Tokens

/-!
# The feedback of the audio client

After every packet the client reports its target, its buffer level and `gamma` to the server, as
decimal text between blanks. The server cuts the text with `strtok` out of a buffer that it has not
initialised: the datagram has no terminator, so only its last blank ends the last number.

## Main definitions

* `reportStatistics`: the message
* `Feedback.receive`: the tokens that `handle_sigpoll` takes from a datagram
* `Reads`: the datagrams that the handler reads as the command `Q` with three numbers

## Main results

* `receive_reportStatistics`: the server reads the numbers that the client reported
-/

namespace NetworkLabs.Audio

open CRuntime

/-- The character `' '`. -/
def blank : UInt8 := 32

/-- The message of `report_statistics`; `none` when a number does not fit its array of 11 bytes, or
the message its 50. -/
def reportStatistics (Q_star Q_t tau : ℤ) : Option (List UInt8) :=
  let first := sprintfInt Q_star
  let second := sprintfInt Q_t
  let third := sprintfInt tau
  -- `" "`, `"Q"`, `" "`, and then the numbers
  let statistic :=
    [blank, 81, blank] ++ first ++ [blank] ++ second ++ [blank] ++ third ++ [blank]
  if first.length < 11 ∧ second.length < 11 ∧ third.length < 11 ∧ statistic.length < 50 then
    some statistic
  else none

/-- The tokens of `handle_sigpoll`, `none` for `NULL`. -/
structure Feedback where
  client_command_r : Option (List UInt8)
  client_q_star_r : Option (List UInt8)
  client_q_r : Option (List UInt8)
  client_tau_r : Option (List UInt8)

/-- The four calls of `strtok` on `buffer`. -/
def Feedback.parse (buffer : List UInt8) : Option Feedback := do
  let (client_command_r, s) ← strtokIn blank 0 buffer
  let (client_q_star_r, s) ← strtokIn blank 0 s
  let (client_q_r, s) ← strtokIn blank 0 s
  let (client_tau_r, _) ← strtokIn blank 0 s
  return { client_command_r, client_q_star_r, client_q_r, client_tau_r }

/-- The tokens of a datagram in `char buffer[50]`, of which `recvfrom` may write `pySz` bytes; what
the stack held stays behind it. `none` when a write or a read leaves the buffer. -/
def Feedback.receive (pySz : ℕ) (stack : Mem UInt8) (d : List UInt8) : Option Feedback :=
  if 50 < min d.length pySz then none else parse ((stack.recv d pySz).read 50)

/-- `atoi` of a token, which `strtok` has terminated; undefined on `NULL`. -/
def atoiToken (token : Option (List UInt8)) : Option ℤ := token.bind fun t => atoi (t ++ [0])

/-- The numbers `q_star`, `qt` and `tau`. -/
def Feedback.numbers (f : Feedback) : Option (ℤ × ℤ × ℤ) := do
  let qt ← atoiToken f.client_q_r
  let q_star ← atoiToken f.client_q_star_r
  let tau ← atoiToken f.client_tau_r
  return (q_star, qt, tau)

/-- The handler reads the datagram as a command `Q` with these numbers. -/
def Reads (pySz : ℕ) (stack : Mem UInt8) (d : List UInt8) (q_star qt tau : ℤ) : Prop :=
  ∃ f command, Feedback.receive pySz stack d = some f ∧ f.client_command_r = some command ∧
    command.head? = some 81 ∧ f.numbers = some (q_star, qt, tau)

/-! ## Numbers between blanks -/

section Text

variable {q_star qt tau : ℕ}

theorem blank_notMem_decimal (n : ℕ) : blank ∉ decimal n := fun h =>
  absurd (isDigit_of_mem_decimal h) (by decide)

theorem zero_notMem_decimal (n : ℕ) : 0 ∉ decimal n := fun h =>
  absurd (isDigit_of_mem_decimal h) (by decide)

/-- A number in front of a blank is a token. -/
theorem strtokIn_decimal (n : ℕ) (r : List UInt8) :
    strtokIn blank 0 (decimal n ++ blank :: r) = some (some (decimal n), r) :=
  strtokIn_append_cons (by decide) (decimal_ne_nil n) (blank_notMem_decimal n)
    (zero_notMem_decimal n) r

/-- A token of digits is the number. -/
theorem atoiToken_decimal {n : ℕ} (h : n < 2 ^ 31) :
    atoiToken (some (decimal n)) = some (n : ℤ) := by
  have hread := atoi_sprintfD 0 h (b := 0) (by decide) []
  rwa [sprintfD, Nat.zero_sub, List.replicate_zero, List.nil_append] at hread

/-- The message as the calls of `strtok` take it apart. -/
def statistic (q_star qt tau : ℕ) (rest : List UInt8) : List UInt8 :=
  blank :: ([81] ++ blank :: (decimal q_star ++ blank :: (decimal qt ++ blank ::
    (decimal tau ++ blank :: rest))))

theorem statistic_append (q_star qt tau : ℕ) (rest : List UInt8) :
    statistic q_star qt tau [] ++ rest = statistic q_star qt tau rest := by
  simp [statistic]

theorem parse_statistic (q_star qt tau : ℕ) (rest : List UInt8) :
    Feedback.parse (statistic q_star qt tau rest) =
      some ⟨some [81], some (decimal q_star), some (decimal qt), some (decimal tau)⟩ := by
  have hcommand (r : List UInt8) : strtokIn blank 0 ([81] ++ blank :: r) = some (some [81], r) :=
    strtokIn_append_cons (by decide) (by simp) (by decide) (by decide) r
  simp only [Feedback.parse, statistic, strtokIn_cons_self, hcommand, strtokIn_decimal,
    Option.bind_eq_bind, Option.bind_some]
  rfl

theorem length_decimal_int {n : ℕ} (h : n < 2 ^ 31) : (decimal n).length ≤ 10 :=
  (length_decimal_le (by omega)).mpr (by omega)

/-- The message of three numbers fits its buffers. -/
theorem length_statistic_le (h₁ : q_star < 2 ^ 31) (h₂ : qt < 2 ^ 31) (h₃ : tau < 2 ^ 31) :
    (statistic q_star qt tau []).length ≤ 36 := by
  have hq := length_decimal_int h₁
  have ht := length_decimal_int h₂
  have htau := length_decimal_int h₃
  simp only [statistic, List.length_cons, List.length_append, List.length_nil]
  omega

theorem reportStatistics_eq (h₁ : q_star < 2 ^ 31) (h₂ : qt < 2 ^ 31) (h₃ : tau < 2 ^ 31) :
    reportStatistics q_star qt tau = some (statistic q_star qt tau []) := by
  have hq := length_decimal_int h₁
  have ht := length_decimal_int h₂
  have htau := length_decimal_int h₃
  have hlen := length_statistic_le h₁ h₂ h₃
  have htext : [blank, 81, blank] ++ decimal q_star ++ [blank] ++ decimal qt ++ [blank] ++
      decimal tau ++ [blank] = statistic q_star qt tau [] := by
    simp [statistic]
  simp only [reportStatistics, sprintfInt_natCast, htext]
  exact if_pos ⟨by omega, by omega, by omega, by omega⟩

/-- The last blank ends the last number, whatever lies behind it. -/
theorem receive_statistic {pySz : ℕ} (hlen : (statistic q_star qt tau []).length ≤ 50)
    (hfit : (statistic q_star qt tau []).length ≤ pySz) (stack : Mem UInt8) :
    Feedback.receive pySz stack (statistic q_star qt tau []) =
      some ⟨some [81], some (decimal q_star), some (decimal qt), some (decimal tau)⟩ := by
  rw [Feedback.receive, if_neg (by omega), Mem.read_recv_append stack hlen hfit,
    statistic_append, parse_statistic]

theorem numbers_decimal (command : Option (List UInt8)) (h₁ : q_star < 2 ^ 31) (h₂ : qt < 2 ^ 31)
    (h₃ : tau < 2 ^ 31) :
    Feedback.numbers ⟨command, some (decimal q_star), some (decimal qt), some (decimal tau)⟩ =
      some ((q_star : ℤ), (qt : ℤ), (tau : ℤ)) := by
  simp only [Feedback.numbers, atoiToken_decimal h₁, atoiToken_decimal h₂, atoiToken_decimal h₃]
  rfl

theorem zero_notMem_statistic (q_star qt tau : ℕ) : 0 ∉ statistic q_star qt tau [] := by
  have hblank : (0 : UInt8) ≠ blank := by decide
  have hQ : (0 : UInt8) ≠ 81 := by decide
  simp [statistic, zero_notMem_decimal, hblank, hQ]

end Text

/-! ## The round trip -/

theorem atoiToken_lt {token : Option (List UInt8)} {z : ℤ} (h : atoiToken token = some z) :
    z < 2 ^ 31 := by
  obtain ⟨t, -, ht⟩ := Option.bind_eq_some_iff.mp h
  exact atoi_lt ht

/-- The numbers of a command are of type `int`. -/
theorem Reads.lt {pySz : ℕ} {stack : Mem UInt8} {d : List UInt8} {q_star qt tau : ℤ}
    (h : Reads pySz stack d q_star qt tau) : q_star < 2 ^ 31 ∧ qt < 2 ^ 31 ∧ tau < 2 ^ 31 := by
  obtain ⟨f, -, -, -, -, hnumbers⟩ := h
  simp only [Feedback.numbers, Option.bind_eq_bind, Option.bind_eq_some_iff] at hnumbers
  obtain ⟨qt', hqt, q_star', hq_star, tau', htau, heq⟩ := hnumbers
  obtain ⟨rfl, rfl, rfl⟩ : q_star' = q_star ∧ qt' = qt ∧ tau' = tau := by simpa using heq
  exact ⟨atoiToken_lt hq_star, atoiToken_lt hqt, atoiToken_lt htau⟩

/-- The handler reads a report as a command with its numbers. -/
theorem reads_statistic {q_star qt tau : ℕ} (h₁ : q_star < 2 ^ 31) (h₂ : qt < 2 ^ 31)
    (h₃ : tau < 2 ^ 31) {pySz : ℕ} (hfit : 36 ≤ pySz) (stack : Mem UInt8) :
    Reads pySz stack (statistic q_star qt tau []) q_star qt tau := by
  have hlen := length_statistic_le h₁ h₂ h₃
  exact ⟨_, _, receive_statistic (by omega) (by omega) stack, rfl, rfl,
    numbers_decimal _ h₁ h₂ h₃⟩

/-- **The server reads the numbers that the client reported**, whatever its buffer held, when it
receives the whole message. -/
theorem receive_reportStatistics (q_star qt tau : ℕ) (hq_star : q_star < 2 ^ 31)
    (hqt : qt < 2 ^ 31) (htau : tau < 2 ^ 31) :
    ∃ message, reportStatistics q_star qt tau = some message ∧ 0 ∉ message ∧
      ∀ pySz stack, message.length ≤ pySz →
        ∃ f, Feedback.receive pySz stack message = some f ∧ f.client_command_r = some [81] ∧
          f.numbers = some ((q_star : ℤ), (qt : ℤ), (tau : ℤ)) := by
  have hlen := length_statistic_le hq_star hqt htau
  refine ⟨statistic q_star qt tau [], reportStatistics_eq hq_star hqt htau,
    zero_notMem_statistic q_star qt tau, fun pySz stack hfit => ?_⟩
  exact ⟨_, receive_statistic (by omega) hfit stack, rfl, numbers_decimal _ hq_star hqt htau⟩

theorem receive_reportStatistics_largest :
    ∃ message, reportStatistics (2147483647 : ℕ) (0 : ℕ) (5 : ℕ) = some message ∧ 0 ∉ message ∧
      ∀ pySz stack, message.length ≤ pySz →
        ∃ f, Feedback.receive pySz stack message = some f ∧ f.client_command_r = some [81] ∧
          f.numbers = some (((2147483647 : ℕ) : ℤ), ((0 : ℕ) : ℤ), ((5 : ℕ) : ℤ)) :=
  receive_reportStatistics 2147483647 0 5 (by decide) (by decide) (by decide)

end NetworkLabs.Audio

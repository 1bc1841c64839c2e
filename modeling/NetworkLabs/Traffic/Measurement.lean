import NetworkLabs.Runtime.Memory

/-!
# The traffic generator and its receiver

The sender sends a number of equal packets and then three packets of three bytes. The receiver stops
at the first packet of three bytes, and prints a packet rate and a bit rate. Its packet rate comes
from a counter that starts at 1, for the test whether the first packet has arrived.

The counters of the model are natural numbers: those of the programs are of type `int`, which the
total number of bits has to fit.

## Main definitions

* `sendTrafficGenerationRequest`: the datagrams and the number of bits of the sender
* `receiveLoop`: the loop of the receiver
* `Measures`: the receiver stops at the end and has counted what was sent

## Main results

* `request_number_of_receiveLoop`: the counter is one more than the packets
* `not_measures`: the packet rate is always wrong
* `measuresBits_iff`: when the bit rate is right
-/

namespace NetworkLabs.Traffic

open CRuntime

/-! ## The programs -/

/-- `"GOD"`, which ends the transmission. -/
def lastThreeBytes : List UInt8 := [71, 79, 68]

/-- The loop of the sender on its `packetCount` packets: the datagrams, and `total_bytes_sent`. -/
def sendLoop (payloadSize : ℕ) : ℕ → List (List UInt8) × ℕ
  | 0 => ([], 0)
  | packet_counter + 1 =>
    let s := sendLoop payloadSize packet_counter
    (s.1 ++ [List.replicate payloadSize 82], s.2 + payloadSize)

/-- `sendTrafficGenerationRequest`: all datagrams, and `total_num_bits`. -/
def sendTrafficGenerationRequest (payloadSize packetCount : ℕ) : List (List UInt8) × ℕ :=
  let s := sendLoop payloadSize packetCount
  (s.1 ++ List.replicate 3 lastThreeBytes, 8 * (s.2 + 46 * packetCount))

/-- The counters of the receiver, as long as they fit an `int`. -/
structure Receiver where
  request_number : ℕ
  total_num_bytes_recvd : ℕ

/-- The receiver before the first packet. -/
def Receiver.start : Receiver where
  request_number := 1
  total_num_bytes_recvd := 0

/-- `total_num_bits` of the receiver. -/
def Receiver.total_num_bits (r : Receiver) : ℕ := 8 * r.total_num_bytes_recvd

/-- The loop of `startServer` on the datagrams that arrive: the counters when it stops, and what is
left behind; `none` while it waits. -/
def receiveLoop (r : Receiver) : List (List UInt8) → Option (Receiver × List (List UInt8))
  | [] => none
  | d :: ds =>
    let numbytes := min d.length BUFSIZ
    if numbytes = 3 then some (r, ds)
    else
      receiveLoop
        { request_number := r.request_number + 1
          total_num_bytes_recvd := r.total_num_bytes_recvd + (numbytes + 46) } ds

/-- The receiver stops at the first closing packet, with the sender's number of bits. -/
def MeasuresBits (payloadSize packetCount : ℕ) : Prop :=
  ∃ r, receiveLoop .start (sendTrafficGenerationRequest payloadSize packetCount).1 =
      some (r, [lastThreeBytes, lastThreeBytes]) ∧
    r.total_num_bits = (sendTrafficGenerationRequest payloadSize packetCount).2

/-- The receiver stops at the first closing packet, with the sender's number of bits and of
packets. -/
def Measures (payloadSize packetCount : ℕ) : Prop :=
  ∃ r, receiveLoop .start (sendTrafficGenerationRequest payloadSize packetCount).1 =
      some (r, [lastThreeBytes, lastThreeBytes]) ∧
    r.total_num_bits = (sendTrafficGenerationRequest payloadSize packetCount).2 ∧
    r.request_number = packetCount

/-! ## What is sent -/

section Sender

variable (payloadSize packetCount : ℕ)

theorem sendLoop_eq : sendLoop payloadSize packetCount =
    (List.replicate packetCount (List.replicate payloadSize 82), packetCount * payloadSize) := by
  induction packetCount with
  | zero => simp [sendLoop]
  | succ n ih => simp only [sendLoop, ih, ← List.replicate_succ', Nat.succ_mul]

theorem sendTrafficGenerationRequest_eq :
    sendTrafficGenerationRequest payloadSize packetCount =
      (List.replicate packetCount (List.replicate payloadSize 82) ++
        List.replicate 3 lastThreeBytes, 8 * (packetCount * (payloadSize + 46))) := by
  simp only [sendTrafficGenerationRequest, sendLoop_eq, Nat.mul_add, Nat.mul_comm 46]

theorem length_sendTrafficGenerationRequest :
    (sendTrafficGenerationRequest payloadSize packetCount).1.length = packetCount + 3 := by
  simp [sendTrafficGenerationRequest_eq]

end Sender

/-! ## What is counted -/

/-- **The counter is one more than the packets** in front of the one that stops the loop. -/
theorem request_number_of_receiveLoop {r s : Receiver} {ds rest : List (List UInt8)}
    (h : receiveLoop r ds = some (s, rest)) :
    s.request_number + rest.length + 1 = r.request_number + ds.length := by
  induction ds generalizing r with
  | nil => cases h
  | cons d ds ih =>
    simp only [receiveLoop] at h
    split at h
    · obtain ⟨rfl, rfl⟩ := Prod.mk.inj (Option.some.inj h)
      rfl
    · have hrest := ih h
      dsimp only at hrest
      rw [List.length_cons]
      omega

/-- **The packet rate is always wrong**: a receiver that stops at the first closing packet has
counted one packet too many. -/
theorem not_measures (payloadSize packetCount : ℕ) : ¬ Measures payloadSize packetCount := by
  rintro ⟨r, hstop, -, hcount⟩
  -- of the `packetCount + 3` datagrams two are left, and one has ended the loop
  have hnumber := request_number_of_receiveLoop hstop
  rw [length_sendTrafficGenerationRequest] at hnumber
  have hlen : [lastThreeBytes, lastThreeBytes].length = 2 := rfl
  have hstart : Receiver.start.request_number = 1 := rfl
  omega

/-- Packets of another length than three are all counted. -/
theorem receiveLoop_replicate {d : List UInt8} (hd : min d.length BUFSIZ ≠ 3) (n : ℕ)
    (r : Receiver) (ds : List (List UInt8)) :
    receiveLoop r (List.replicate n d ++ ds) =
      receiveLoop
        { request_number := r.request_number + n
          total_num_bytes_recvd := r.total_num_bytes_recvd + n * (min d.length BUFSIZ + 46) }
        ds := by
  induction n generalizing r with
  | zero => simp
  | succ n ih =>
    rw [List.replicate_succ, List.cons_append, receiveLoop]
    simp only [if_neg hd, ih]
    congr 2
    · omega
    · rw [Nat.succ_mul]
      omega

/-- One datagram of one byte: the receiver counts two. -/
theorem one_packet_not_measures : ¬ Measures 1 1 := by
  rintro ⟨r, hstop, -, hcount⟩
  have hloop : receiveLoop .start (sendTrafficGenerationRequest 1 1).1 =
      some (⟨2, 47⟩, [lastThreeBytes, lastThreeBytes]) := rfl
  rw [hloop] at hstop
  obtain ⟨rfl, -⟩ := Prod.mk.inj (Option.some.inj hstop)
  exact absurd hcount (by decide)

/-- **The bit rate is right exactly when** no packet is taken for the end, and none is cut off. -/
theorem measuresBits_iff (payloadSize packetCount : ℕ) :
    MeasuresBits payloadSize packetCount ↔
      packetCount = 0 ∨ payloadSize ≠ 3 ∧ payloadSize ≤ BUFSIZ := by
  have hsize : BUFSIZ = 8192 := rfl
  have hstops (r : Receiver) : receiveLoop r (List.replicate 3 lastThreeBytes) =
      some (r, [lastThreeBytes, lastThreeBytes]) := rfl
  unfold MeasuresBits
  rw [sendTrafficGenerationRequest_eq]
  by_cases hthree : min payloadSize BUFSIZ = 3
  · cases packetCount with
    | zero =>
      refine iff_of_true ⟨.start, ?_, ?_⟩ (.inl rfl)
      · exact hstops .start
      · simp [Receiver.total_num_bits, Receiver.start]
    | succ n =>
      -- the first packet ends the loop
      refine iff_of_false ?_ (by omega)
      rintro ⟨r, hstop, -⟩
      rw [List.replicate_succ, List.cons_append, receiveLoop] at hstop
      simp only [List.length_replicate, if_pos hthree] at hstop
      have hlen := congrArg List.length (Prod.mk.inj (Option.some.inj hstop)).2
      simp at hlen
  -- every packet is counted with the bytes that fit the buffer
  · have hloop := receiveLoop_replicate (d := List.replicate payloadSize 82)
      (by rwa [List.length_replicate]) packetCount .start (List.replicate 3 lastThreeBytes)
    rw [hstops] at hloop
    rw [hloop]
    simp only [List.length_replicate, Receiver.start, Nat.zero_add]
    constructor
    · rintro ⟨r, hstop, hbits⟩
      obtain ⟨rfl, -⟩ := Prod.mk.inj (Option.some.inj hstop)
      have hsum : packetCount * (min payloadSize BUFSIZ + 46) =
          packetCount * (payloadSize + 46) := Nat.eq_of_mul_eq_mul_left (by decide) hbits
      rcases Nat.eq_zero_or_pos packetCount with hzero | hpos
      · exact .inl hzero
      · have heach := Nat.eq_of_mul_eq_mul_left hpos hsum
        exact .inr ⟨by omega, by omega⟩
    · intro h
      refine ⟨_, rfl, ?_⟩
      rw [Receiver.total_num_bits]
      rcases h with rfl | ⟨-, hfit⟩
      · simp
      · rw [min_eq_left hfit]

end NetworkLabs.Traffic

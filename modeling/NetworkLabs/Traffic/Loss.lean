import Mathlib.Data.List.Perm.Subperm
import Mathlib.Data.List.TakeWhile
import NetworkLabs.Traffic.Measurement

/-!
# Traffic that is lost and reordered

Of the datagrams of the sender some are lost, and the others arrive in any order. The receiver
counts those in front of the first of three bytes, which need not be the last that arrives. What it
counts is never more than what was sent.

## Main definitions

* `counted`: the datagrams in front of the one that stops the receiver

## Main results

* `of_receiveLoop`: the counters of a receiver that has stopped
* `length_counted_le`: no more packets are counted than were sent
* `measured_iff`: when the figures of the receiver are right
-/

namespace NetworkLabs.Traffic

open CRuntime

/-! ## What is counted -/

/-- A datagram that the receiver does not take for the end. -/
def isData (d : List UInt8) : Bool := d.length != 3

/-- The datagrams in front of the first that the receiver takes for the end. -/
def counted (ds : List (List UInt8)) : List (List UInt8) := ds.takeWhile isData

/-- Only a datagram of three bytes is received as three bytes. -/
theorem min_length_eq_three_iff (d : List UInt8) : min d.length BUFSIZ = 3 ↔ d.length = 3 := by
  have hsize : BUFSIZ = 8192 := rfl
  omega

/-- The receiver waits for a datagram of three bytes. -/
theorem receiveLoop_eq_none_iff {r : Receiver} {ds : List (List UInt8)} :
    receiveLoop r ds = none ↔ ∀ d ∈ ds, d.length ≠ 3 := by
  induction ds generalizing r with
  | nil => simp [receiveLoop]
  | cons d ds ih =>
    rw [receiveLoop, List.forall_mem_cons]
    by_cases hthree : d.length = 3
    · rw [if_pos ((min_length_eq_three_iff d).mpr hthree)]
      simp [hthree]
    · rw [if_neg (mt (min_length_eq_three_iff d).mp hthree), ih]
      simp [hthree]

/-- **The counters of a receiver that has stopped.** -/
theorem of_receiveLoop {r s : Receiver} {ds rest : List (List UInt8)}
    (h : receiveLoop r ds = some (s, rest)) :
    s.request_number = r.request_number + (counted ds).length ∧
      s.total_num_bytes_recvd = r.total_num_bytes_recvd +
        ((counted ds).map fun d => min d.length BUFSIZ + 46).sum := by
  induction ds generalizing r with
  | nil => cases h
  | cons d ds ih =>
    rw [receiveLoop] at h
    by_cases hthree : d.length = 3
    · rw [if_pos ((min_length_eq_three_iff d).mpr hthree)] at h
      obtain ⟨rfl, -⟩ := Prod.mk.inj (Option.some.inj h)
      have hlast : ¬ isData d = true := by simp [isData, hthree]
      rw [counted, List.takeWhile_cons_of_neg hlast]
      exact ⟨rfl, rfl⟩
    · rw [if_neg (mt (min_length_eq_three_iff d).mp hthree)] at h
      obtain ⟨hnumber, hbytes⟩ := ih h
      have hdata : isData d = true := bne_iff_ne.mpr hthree
      rw [counted, List.takeWhile_cons_of_pos hdata, hnumber, hbytes, List.length_cons,
        List.map_cons, List.sum_cons]
      exact ⟨Nat.add_right_comm .., Nat.add_assoc ..⟩

/-! ## Arrivals -/

section Arrivals

variable {payloadSize packetCount : ℕ} {ds : List (List UInt8)}

/-- What is counted is a packet. -/
theorem eq_of_mem_counted (h : ds.Subperm (sendTrafficGenerationRequest payloadSize packetCount).1)
    {d : List UInt8} (hd : d ∈ counted ds) : d = List.replicate payloadSize 82 := by
  have hlen : isData d = true := List.mem_takeWhile_imp hd
  have hsent := h.subset (List.takeWhile_subset _ hd)
  rw [sendTrafficGenerationRequest_eq] at hsent
  rcases List.mem_append.mp hsent with hdata | hlast
  · exact List.eq_of_mem_replicate hdata
  · rw [List.eq_of_mem_replicate hlast] at hlen
    cases hlen

/-- **No more packets are counted than were sent.** -/
theorem length_counted_le
    (h : ds.Subperm (sendTrafficGenerationRequest payloadSize packetCount).1) :
    (counted ds).length ≤ packetCount := by
  have hall : (counted ds).countP isData = (counted ds).length :=
    List.countP_eq_length.mpr fun d hd => List.mem_takeWhile_imp hd
  have hsub := ((List.takeWhile_sublist isData).subperm.trans h).countP_le isData
  have hdata := List.countP_le_length (p := isData)
    (l := List.replicate packetCount (List.replicate payloadSize 82))
  have hlast : (List.replicate 3 lastThreeBytes).countP isData = 0 := rfl
  rw [sendTrafficGenerationRequest_eq, List.countP_append, hlast] at hsub
  rw [List.length_replicate] at hdata
  rw [← hall]
  exact hsub.trans hdata

/-- The counters of a receiver that has stopped, on some of the datagrams in any order. -/
theorem of_receiveLoop_start
    (h : ds.Subperm (sendTrafficGenerationRequest payloadSize packetCount).1) {r : Receiver}
    {rest : List (List UInt8)} (hstop : receiveLoop .start ds = some (r, rest)) :
    r.request_number = (counted ds).length + 1 ∧
      r.total_num_bits = 8 * ((counted ds).length * (min payloadSize BUFSIZ + 46)) := by
  obtain ⟨hnumber, hbytes⟩ := of_receiveLoop hstop
  have hequal : counted ds =
      List.replicate (counted ds).length (List.replicate payloadSize 82) :=
    List.eq_replicate_iff.mpr ⟨rfl, fun d hd => eq_of_mem_counted h hd⟩
  rw [hequal, List.map_replicate, List.sum_replicate_nat, List.length_replicate] at hbytes
  constructor
  · rw [hnumber, Receiver.start, Nat.add_comm]
  · rw [Receiver.total_num_bits, hbytes, Receiver.start, Nat.zero_add]

end Arrivals

/-- **What the receiver measures of what arrives**, when any datagrams are lost and the others come
in any order. It stops when a datagram of three bytes has arrived. Its number of bits is at most
the sender's, and the same exactly when all packets have arrived before, none cut off; its packet
count is right exactly when one packet has not. The sender's number of bits fits an `int`, and then
so do the numbers of the receiver. -/
theorem measured_iff (payloadSize packetCount : ℕ)
    (hint : (sendTrafficGenerationRequest payloadSize packetCount).2 < 2 ^ 31)
    {ds : List (List UInt8)}
    (h : ds.Subperm (sendTrafficGenerationRequest payloadSize packetCount).1) :
    (receiveLoop .start ds = none ↔ ∀ d ∈ ds, d.length ≠ 3) ∧
      ∀ r rest, receiveLoop .start ds = some (r, rest) →
        r.total_num_bits ≤ (sendTrafficGenerationRequest payloadSize packetCount).2 ∧
        (r.total_num_bits = (sendTrafficGenerationRequest payloadSize packetCount).2 ↔
          (counted ds).length = packetCount ∧ (packetCount = 0 ∨ payloadSize ≤ BUFSIZ)) ∧
        (r.request_number = packetCount ↔ (counted ds).length + 1 = packetCount) ∧
        r.request_number < 2 ^ 31 := by
  refine ⟨receiveLoop_eq_none_iff, ?_⟩
  intro r rest hstop
  obtain ⟨hnumber, hbits⟩ := of_receiveLoop_start h hstop
  have hcount := length_counted_le h
  have heach : min payloadSize BUFSIZ + 46 ≤ payloadSize + 46 :=
    Nat.add_le_add_right (min_le_left ..) 46
  have hle := Nat.mul_le_mul hcount heach
  rw [sendTrafficGenerationRequest_eq] at hint
  have hpackets : packetCount ≤ packetCount * (payloadSize + 46) :=
    Nat.le_mul_of_pos_right packetCount (Nat.succ_pos _)
  rw [hnumber, hbits, sendTrafficGenerationRequest_eq]
  refine ⟨Nat.mul_le_mul_left 8 hle, ?_, Iff.rfl, by omega⟩
  rw [Nat.mul_right_inj (by norm_num)]
  constructor
  · intro heq
    have hmiddle := Nat.mul_le_mul_right (min payloadSize BUFSIZ + 46) hcount
    have hright := Nat.mul_le_mul_left packetCount heach
    rcases Nat.eq_zero_or_pos packetCount with hzero | hpos
    · exact ⟨by omega, .inl hzero⟩
    -- neither the number of packets nor their length has come down
    · have hlength := Nat.eq_of_mul_eq_mul_left hpos (hright.antisymm (heq ▸ hmiddle))
      rw [← hlength] at heq
      exact ⟨Nat.eq_of_mul_eq_mul_right (Nat.succ_pos _) heq, .inr (by omega)⟩
  · rintro ⟨hall, rfl | hfit⟩
    · rw [hall, Nat.zero_mul, Nat.zero_mul]
    · rw [hall, min_eq_left hfit]

/-- Two packets of one byte were sent. One of them and a closing packet arrive: the packet count is
right, and the number of bits is too small. -/
theorem measured_iff_oneLost :
    receiveLoop .start [[82], lastThreeBytes] = some (⟨2, 47⟩, []) ∧
      (Receiver.mk 2 47).request_number = 2 ∧
        (Receiver.mk 2 47).total_num_bits ≠ (sendTrafficGenerationRequest 1 2).2 := by
  have hstop : receiveLoop .start [[82], lastThreeBytes] = some (⟨2, 47⟩, []) := rfl
  have hsub : [[82], lastThreeBytes].Subperm (sendTrafficGenerationRequest 1 2).1 := by
    apply List.Sublist.subperm
    exact .cons_cons _ (.cons _ (.cons_cons _ (List.nil_sublist _)))
  obtain ⟨-, hmeasured⟩ := measured_iff 1 2 (by decide) hsub
  obtain ⟨-, hbits, hpackets, -⟩ := hmeasured _ _ hstop
  refine ⟨hstop, hpackets.mpr rfl, fun heq => ?_⟩
  cases (hbits.mp heq).1

end NetworkLabs.Traffic

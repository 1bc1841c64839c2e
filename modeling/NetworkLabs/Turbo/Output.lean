import NetworkLabs.Turbo.Nack
import NetworkLabs.Turbo.Retransmission

/-!
# The datagrams of the sending loop

The client believes every stamp it reads, so every datagram that the server sends should carry a
block. The sending loop counts one iteration too far: at `currSeq = numPackets` it sends a buffer
that was declared and not filled. No file and no block size avoid it.

## Main definitions

* `Server.WellFormedOutput`, `Server.AlwaysWellFormed`: every datagram handed over carries a
  block, in one output and in all runs
* `Server.Accepts`: the datagrams that a client sends before its final message

## Main results

* `not_wellFormed_sendIteration`: the iteration at `numPackets`
* `not_alwaysWellFormed`: every server has a run with an ill-formed output
-/

namespace NetworkLabs.Turbo

open CRuntime Blocks Transition

namespace Server

variable (sv : Server)

/-- Every datagram handed over is the stamp of a block and bytes that start with the block. Past a
fault nothing is known of what is sent. -/
def WellFormedOutput (tr : List Event) : Prop :=
  .fault ∉ tr ∧ ∀ pkt ∈ handed tr, ∃ seq < sv.blocks, ∃ d, sv.IsDatagram seq d ∧ pkt = d.map some

/-- The NACKs of a client, in any state it can reach; the size it has read is its own affair. -/
def Accepts : ServerInput → Prop
  | .tick => True
  | .nack _ d => ∃ D : Download, D.BLOCKSIZE = sv.BLOCKSIZE ∧ ∃ es c o stack c' out,
      (clientMachine D).run ClientState.init es = some (c, o) ∧
        timeout D c stack = some (c', out) ∧ d ∈ out

/-- The sending loop is about to run its body on `k`, after the outputs `tr`. -/
def Reaches (k : ℕ) (tr : List Event) : Prop :=
  ∃ is i, (∀ x ∈ is, x = .tick) ∧ i < sv.size ∧
    sv.machine.run ServerState.init is = some (⟨.sending i, k, false⟩, tr)

end Server

variable {sv : Server}

/-! ## One iteration -/

theorem handed_append (evs evs' : List Event) :
    handed (evs ++ evs') = handed evs ++ handed evs' :=
  List.filterMap_append

theorem wellFormedOutput_of_append {evs evs' : List Event}
    (h : sv.WellFormedOutput (evs ++ evs')) : sv.WellFormedOutput evs' := by
  obtain ⟨hfault, hpkts⟩ := h
  refine ⟨fun hmem => hfault (List.mem_append_right _ hmem), fun pkt hpkt => hpkts pkt ?_⟩
  rw [handed_append]
  exact List.mem_append_right _ hpkt

/-- A datagram whose stamp is past the last block is not well formed. -/
theorem not_isDatagram_stamped {k len : ℕ} (hk : sv.blocks ≤ k)
    (hshort : k < 10 ^ 7) (rest : Option UInt8) :
    ¬ ∃ seq < sv.blocks, ∃ d, sv.IsDatagram seq d ∧ sv.stamped k len rest = d.map some := by
  rintro ⟨seq, hseq, d, ⟨block, -, rfl⟩, he⟩
  have hstamps : (header seq).length = (header k).length := by
    rw [length_header hshort, length_header (by omega)]
  -- equal datagrams have equal stamps
  unfold Server.stamped at he
  rw [List.map_append, List.map_append, List.append_assoc] at he
  have hsame := List.append_inj_left he (by simp [hstamps])
  have hinj := List.map_injective_iff.mpr (Option.some_injective _) hsame
  have := header_injective (by omega) (by omega) hinj
  omega

/-- Where the conversion to `int` loses blocks, it loses more than one. -/
theorem lt_blocks_of_toNat_lt (h : sv.numPackets.toNat < sv.blocks) :
    sv.numPackets.toNat + 1 < sv.blocks := by
  have hbig : 2 ^ 31 ≤ sv.blocks := by
    by_contra hlt
    rw [numPackets_of_lt (not_le.mp hlt)] at h
    omega
  have hsmall : sv.numPackets < 2 ^ 31 := toInt_lt _
  -- a single block more would be `2 ^ 31`, which the conversion makes negative
  by_contra hge
  have heq : sv.blocks = 2 ^ 31 := by omega
  have hneg : sv.numPackets < 0 := toInt_neg (by omega) (by omega)
  omega

/-- **The iteration at `numPackets`** sends a buffer that was not filled, or the stamp of a block
that the file does not have, or writes past its buffer. -/
theorem not_wellFormed_sendIteration (sv : Server) :
    ¬ sv.WellFormedOutput (sv.sendIteration sv.numPackets.toNat) := by
  have hB := sv.blocksize_pos
  have hge : sv.numPackets ≤ sv.numPackets.toNat := Int.self_le_toNat _
  rintro ⟨hfault, hpkts⟩
  rcases Nat.lt_or_ge sv.numPackets.toNat sv.blocks with hlt | hblocks
  -- blocks were lost in the conversion: more than a block remains
  · have hnext := (lt_numBlocks_iff hB).mp (lt_blocks_of_toNat_lt hlt)
    have hoff := blockOffset_le sv.BLOCKSIZE sv.numPackets.toNat
    rw [Nat.add_mul, Nat.one_mul] at hnext
    exact hfault (fault_mem_sendIteration hge (by unfold Server.remaining; omega))
  · rcases Nat.eq_zero_or_pos (sv.remaining sv.numPackets.toNat) with hzero | hpos
    -- the ordinary case: nothing remains, and the buffer goes out as it was declared
    · rw [sendIteration_of_remaining_eq_zero hge hzero] at hpkts
      obtain ⟨seq, -, d, -, he⟩ := hpkts _ List.mem_cons_self
      have hnone : none ∈ d.map some := by
        rw [← he]
        exact List.mem_replicate.mpr ⟨by omega, rfl⟩
      simp at hnone
    -- the offset has wrapped around
    · have hlen : sv.remaining sv.numPackets.toNat ≤ sv.BLOCKSIZE := by
        by_contra hgt
        exact hfault (fault_mem_sendIteration hge (not_le.mp hgt))
      have hshort : sv.numPackets.toNat < 10 ^ 7 := by
        by_contra hlong
        exact hfault (fault_mem_sendIteration_of_long (not_lt.mp hlong) hpos)
      rw [sendIteration_of_remaining hge hpos hlen hshort] at hpkts
      exact not_isDatagram_stamped hblocks hshort none (hpkts _ List.mem_cons_self)

/-! ## The first pass -/

theorem forall_eq_tick_append {is : List ServerInput} (h : ∀ x ∈ is, x = .tick) :
    ∀ x ∈ is ++ [.tick], x = ServerInput.tick := by
  intro x hx
  rcases List.mem_append.mp hx with hx | hx
  · exact h x hx
  · exact List.mem_singleton.mp hx

theorem reaches_zero (sv : Server) : sv.Reaches 0 [] :=
  ⟨[], 0, by simp, sv.file_pos, rfl⟩

/-- Where no fault ends it, the loop goes on to the next block, perhaps through the outer loop. -/
theorem Server.Reaches.iterate {k : ℕ} {tr : List Event} (h : sv.Reaches k tr)
    (hk : (k : ℤ) ≠ sv.numPackets + 1) :
    (∃ is s, (∀ x ∈ is, x = .tick) ∧
      sv.machine.run ServerState.init is = some (s, tr ++ sv.sendIteration k)) ∧
    (.fault ∉ sv.sendIteration k → sv.Reaches (k + 1) (tr ++ sv.sendIteration k)) := by
  obtain ⟨is, i, hticks, hi, hrun⟩ := h
  have hticks' := forall_eq_tick_append hticks
  have hstep : sv.machine.run ⟨.sending i, k, false⟩ [.tick] =
      some (⟨Server.afterEvents (sv.sendIteration k) (.sending (i + 1)), k + 1, false⟩,
        sv.sendIteration k) := by
    rw [run_tick rfl, Server.tick, if_pos hi, if_neg hk]
  have hnext := Machine.run_append hrun hstep
  refine ⟨⟨_, _, hticks', hnext⟩, fun hfault => ?_⟩
  rw [afterEvents_of_notMem hfault] at hnext
  rcases Nat.lt_or_ge (i + 1) sv.size with hlt | hge
  · exact ⟨_, i + 1, hticks', hlt, hnext⟩
  -- the `for` loop has run out and is entered again
  · have hagain : sv.machine.run ⟨.sending (i + 1), k + 1, false⟩ [.tick] =
        some (⟨.sending 0, k + 1, false⟩, []) := by
      rw [run_tick rfl, Server.tick, if_neg (not_lt.mpr hge)]
      rfl
    have hlast := Machine.run_append hnext hagain
    rw [List.append_nil] at hlast
    exact ⟨_, 0, forall_eq_tick_append hticks', sv.file_pos, hlast⟩

/-! ## The runs -/

/-- Every run of the server that is fed with ticks and NACKs has a well-formed output. -/
def Server.AlwaysWellFormed (sv : Server) : Prop :=
  ∀ is s tr, (∀ i ∈ is, sv.Accepts i) → sv.machine.run ServerState.init is = some (s, tr) →
    sv.WellFormedOutput tr

theorem accepts_of_ticks {is : List ServerInput} (h : ∀ x ∈ is, x = .tick) :
    ∀ i ∈ is, sv.Accepts i := by
  intro i hi
  rw [h i hi]
  trivial

/-- A server whose outputs are well formed reaches every iteration up to `numPackets`. -/
theorem Server.AlwaysWellFormed.reaches (h : sv.AlwaysWellFormed) (hwrap : sv.numPackets ≠ -1)
    (k : ℕ) (hk : k ≤ sv.numPackets.toNat) : ∃ tr, sv.Reaches k tr := by
  induction k with
  | zero => exact ⟨[], reaches_zero sv⟩
  | succ k ih =>
    obtain ⟨tr, htr⟩ := ih (by omega)
    have hgo : (k : ℤ) ≠ sv.numPackets + 1 := by
      intro hk'
      exact hwrap (by omega)
    -- a well-formed output has no fault, so the loop goes on
    obtain ⟨⟨is, s, hticks, hrun⟩, hnext⟩ := htr.iterate hgo
    have hwf := wellFormedOutput_of_append (h is s _ (accepts_of_ticks hticks) hrun)
    exact ⟨_, hnext hwf.1⟩

/-- The NACK of a client that has received nothing asks for block 0 first. -/
theorem exists_nack_zero (B : ℕ) (hB : 1 ≤ B) :
    ∃ (D : Download) (stack : Mem UInt8) (c' : ClientState) (d : List UInt8) (cs : List ℕ),
      D.BLOCKSIZE = B ∧ timeout D ClientState.init stack = some (c', [d, d]) ∧
        nackDecode B (fun _ => 0) d = some (0 :: cs) := by
  -- a file of one byte, of which the client has nothing
  let D : Download := ⟨B, 1, hB, le_rfl⟩
  have hone : D.totPkts = 1 := by
    show (1 + B - 1) / B = 1
    rw [Nat.add_sub_cancel_left, Nat.div_self (by omega)]
  have hmissing : missing ClientState.init.pktsRcvd D.totPkts = [0] := by
    rw [hone]
    rfl
  have hlisted : D.listed ClientState.init = [0] := by
    rw [Download.listed, hmissing]
    exact List.take_of_length_le (by simpa using hB)
  have htable : D.totPkts ≤ tableSize := by
    rw [hone]
    decide
  have hne : missing ClientState.init.pktsRcvd D.totPkts ≠ [] := by
    rw [hmissing]
    exact List.cons_ne_nil _ _
  obtain ⟨tail, hdecode, -⟩ := nackDecode_nackOf htable hne (fun _ => 0) (fun _ => 0)
  rw [hlisted] at hdecode
  exact ⟨D, _, _, _, tail, rfl, timeout_of_missing htable hne _, hdecode⟩

/-- When `numPackets` is `-1` nothing is sent at first, and block 0 is copied whole. -/
theorem not_alwaysWellFormed_of_wrap (hwrap : sv.numPackets = -1) : ¬ sv.AlwaysWellFormed := by
  intro h
  have hB := sv.blocksize_pos
  obtain ⟨D, stack, c', d, cs, hD, htimeout, hdecode⟩ := exists_nack_zero sv.BLOCKSIZE hB
  have hstart : sv.machine.run ServerState.init [.tick] = some (⟨.awaitingNack, 0, true⟩, []) := by
    have hpos : 0 < sv.size := sv.file_pos
    rw [run_tick rfl, Server.tick, if_pos hpos, if_pos (by rw [hwrap]; rfl)]
    rfl
  have hanswer : sv.machine.run ⟨.awaitingNack, 0, true⟩ [.nack (fun _ => 0) d] =
      some (⟨Server.afterEvents (sv.retransmitAll (0 :: cs)) (.sending 0), 0, true⟩,
        sv.retransmitAll (0 :: cs)) :=
    run_nack_of_some rfl hdecode
  have haccepts : ∀ i ∈ [ServerInput.tick] ++ [.nack (fun _ => 0) d], sv.Accepts i := by
    intro i hi
    rcases List.mem_append.mp hi with hi | hi
    · exact accepts_of_ticks (fun x hx => List.mem_singleton.mp hx) i hi
    · rw [List.mem_singleton.mp hi]
      exact ⟨D, hD, [], _, [], stack, c', [d, d], rfl, htimeout, List.mem_cons_self⟩
  have hwf := h _ _ _ haccepts (Machine.run_append hstart hanswer)
  -- the file has more than one block, so block 0 does not fit into the buffer
  have hblocks : 1 < sv.blocks := by
    by_contra hle
    rw [numPackets_of_lt (by omega)] at hwrap
    omega
  have hsize := (lt_numBlocks_iff hB).mp hblocks
  have hrem : sv.remaining 0 = sv.size := by
    simp [Server.remaining, blockOffset, toUInt32]
  refine hwf.1 (List.mem_append_right _ (mem_retransmitAll_head ?_))
  exact fault_mem_retransmit (by omega) (by omega)

/-- **No file and no block size keep the output well formed.** -/
theorem not_alwaysWellFormed (sv : Server) : ¬ sv.AlwaysWellFormed := by
  intro h
  by_cases hwrap : sv.numPackets = -1
  · exact not_alwaysWellFormed_of_wrap hwrap h
  -- the first pass reaches `numPackets`, and that iteration is not well formed
  · obtain ⟨tr, htr⟩ := h.reaches hwrap _ le_rfl
    obtain ⟨⟨is, s, hticks, hrun⟩, -⟩ := htr.iterate (by omega)
    have hwf := h is s _ (accepts_of_ticks hticks) hrun
    exact not_wellFormed_sendIteration sv (wellFormedOutput_of_append hwf)

/-- The third datagram for a file of two blocks is the buffer as it was declared. -/
theorem threeBytes_not_alwaysWellFormed : ¬ threeBytesServer.AlwaysWellFormed := by
  intro h
  have hticks : ∀ x ∈ [ServerInput.tick, .tick, .tick], x = .tick := by simp
  obtain ⟨-, hpkts⟩ := h _ _ _ (accepts_of_ticks hticks) rfl
  obtain ⟨seq, -, d, -, he⟩ := hpkts (List.replicate 10 none) (by decide)
  have hnone : none ∈ d.map some := by
    rw [← he]
    exact List.mem_cons_self
  simp at hnone

end NetworkLabs.Turbo

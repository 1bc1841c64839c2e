import NetworkLabs.Turbo.Nack

/-!
# Stamping a block and reading it back

Both paths of the server print the sequence number, copy eight bytes of the text and put the block
behind them. The client reads the two apart again by two scans of the same bytes: `atoi` on the
first eight, and the search for the first bar.

## Main definitions

* `sendData seq block`: what the server puts into a datagram
* `decode BLOCKSIZE d`: what the client reads out of one, before it looks at its table

## Main results

* `stamped_eq_sendData`: the datagrams of the server are such datagrams
* `receiveData_of_decode`: the receive loop acts on what is decoded
* `decode_sendData`: the stamp and the block are read back
-/

namespace NetworkLabs.Turbo

open CRuntime

/-- `sendData`: eight bytes of `seqChar`, and the block behind them. -/
def sendData (seq : ℕ) (block : List UInt8) : List UInt8 := (header seq).take 8 ++ block

/-- `seq` and `data`, which the client finds in a datagram; `none` where it reads outside
`seqC` or `recvData`. -/
def decode (BLOCKSIZE : ℕ) (d : List UInt8) : Option (ℤ × List UInt8) :=
  let recvData := Mem.recv (fun _ => 0) d (BLOCKSIZE + 8)
  (atoi (recvData.read 8)).bind fun seq =>
    ((recvData.read (BLOCKSIZE + 8)).findIdx? (· == bar)).bind fun pch =>
      if pch + 1 + BLOCKSIZE ≤ BLOCKSIZE + 8 then
        some (seq, (recvData.shift (pch + 1)).read BLOCKSIZE)
      else none

/-! ## The two programs -/

theorem sendData_eq {seq : ℕ} (h : seq < 10 ^ 7) (block : List UInt8) :
    sendData seq block = header seq ++ block := by
  rw [sendData, List.take_of_length_le (length_header h).le]

/-- The datagrams that the server hands over are stamped blocks. -/
theorem stamped_eq_sendData (sv : Server) {seq : ℕ} (h : seq < 10 ^ 7) (rest : Option UInt8) :
    sv.stamped seq sv.BLOCKSIZE rest = (sendData seq
      ((sv.map.shift (blockOffset sv.BLOCKSIZE seq)).read sv.BLOCKSIZE)).map some := by
  rw [Server.stamped, sendData_eq h, Nat.sub_self, List.replicate_zero, List.append_nil]

/-- What is stored of a block depends on its bytes only. -/
theorem storeBlock_congr {D : Download} {data data' : Mem UInt8}
    (h : ∀ k < D.BLOCKSIZE, data k = data' k) (c : ClientState) (seq : ℕ) :
    storeBlock D c seq data = storeBlock D c seq data' := by
  simp only [storeBlock]
  generalize (if (seq : ℤ) < D.totPkts - 1 then (D.BLOCKSIZE : ℤ) else
    D.fileSize - blockOffset D.BLOCKSIZE seq) = len
  split
  · next hfit => rw [Mem.copy_congr c.map fun k hk => h k (by omega)]
  · rfl

/-- The receive loop acts on what is decoded. -/
theorem receiveData_of_decode {D : Download} {c : ClientState} {d data : List UInt8} {seq : ℕ}
    (h : decode D.BLOCKSIZE d = some ((seq : ℤ), data)) (hseq : seq < tableSize)
    (hnew : c.pktsRcvd seq = false) :
    receiveData D c d =
      (storeBlock D { c with pktsRcvd := Function.update c.pktsRcvd seq true } seq
        fun k => data.getD k 0).map (complete D) := by
  simp only [decode, Option.bind_eq_some_iff, Option.ite_none_right_eq_some, Option.some.injEq,
    Prod.mk.injEq] at h
  obtain ⟨z, hstamp, pch, hbar, hfit, rfl, rfl⟩ := h
  have hrange : (0 : ℤ) ≤ seq ∧ (seq : ℤ) < tableSize := ⟨by omega, by exact_mod_cast hseq⟩
  simp only [receiveData, hstamp, if_pos hrange, Int.toNat_natCast, hnew, Bool.false_eq_true,
    if_false, receiveNew, hbar, if_pos hfit]
  congr 1
  -- the decoded block is the part of the buffer that is copied
  apply storeBlock_congr
  intro k hk
  rw [List.getD_eq_getElem _ _ (by simpa using hk), Mem.getElem_read]

/-! ## The round trip -/

/-- What follows the stamp is the block. -/
theorem read_shift_recv_datagram {seq : ℕ} (h : seq < 10 ^ 7) (block : List UInt8)
    (m : Mem UInt8) :
    ((m.recv (header seq ++ block) (block.length + 8)).shift 8).read block.length = block := by
  apply List.ext_getElem (Mem.length_read _ _)
  intro i hi hi'
  rw [Mem.getElem_read]
  exact recv_datagram_shift h rfl m hi'

/-- **The stamp round-trips**: whatever bytes the block holds, the client reads back the sequence
number and the block. -/
theorem decode_sendData (seq : ℕ) (hseq : seq ≤ 999999) (block : List UInt8) :
    decode block.length (sendData seq block) = some ((seq : ℤ), block) := by
  have hlt : seq < 10 ^ 7 := by omega
  rw [sendData_eq hlt]
  simp only [decode, atoi_recv_datagram hlt rfl, Option.bind_some, read_recv_datagram hlt rfl,
    findIdx_header hlt]
  -- the bar is the eighth byte, so that the block ends with the buffer
  rw [if_pos (by omega), read_shift_recv_datagram hlt]

/-- A block that looks like a stamp itself. -/
theorem decode_sendData_bar : decode 3 (sendData 999999 [bar, 48, 0]) =
    some (999999, [bar, 48, 0]) :=
  decode_sendData 999999 le_rfl [bar, 48, 0]

end NetworkLabs.Turbo

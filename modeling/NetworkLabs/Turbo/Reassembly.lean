import NetworkLabs.Turbo.Client

/-!
# Reassembly on the client

What the receive loop is for: it collects the set of blocks that have arrived, whatever is lost,
repeated or reordered, and it is done when the set is full. The loop itself keeps a table, a byte
count and the mapped file, and looks at the byte count alone. It refines the collection of a set:
every step keeps the relation between the two, so every run does.

## Main definitions

* `Served.arrived`: the abstract state, the set of blocks that have arrived
* `Assembles`: the relation between the abstract state and the variables of the loop

## Main results

* `Assembles.datagram`, `Assembles.timeout`: one step of the loop
* `client_reassembles`: all runs of the loop
-/

namespace NetworkLabs.Turbo

open CRuntime Blocks Transition

variable {T : Served}

/-! ## The blocks that have arrived -/

/-- The download of a served file, when the client has read the size right. -/
def Served.download (T : Served) : Download where
  BLOCKSIZE := T.BLOCKSIZE
  fileSize := T.size
  blocksize_pos := T.blocksize_pos
  fileSize_pos := T.file_pos

/-- The inputs a network can give that loses, repeats and reorders the datagrams of the blocks. -/
def Served.Delivers (T : Served) : ClientInput → Prop
  | .datagram d => ∃ s < T.blocks, T.IsDatagram s d
  | .timeout _ => True

open Classical in
/-- The blocks that have arrived. -/
noncomputable def Served.arrived (T : Served) (es : List ClientInput) : Finset ℕ :=
  (Finset.range T.blocks).filter fun s => ∃ d, .datagram d ∈ es ∧ T.IsDatagram s d

theorem mem_arrived {es : List ClientInput} {s : ℕ} :
    s ∈ T.arrived es ↔ s < T.blocks ∧ ∃ d, .datagram d ∈ es ∧ T.IsDatagram s d := by
  simp [Served.arrived]

@[simp] theorem arrived_nil : T.arrived [] = ∅ := by
  ext s
  simp [mem_arrived]

theorem arrived_timeout (es : List ClientInput) (stack : Mem UInt8) :
    T.arrived (es ++ [.timeout stack]) = T.arrived es := by
  ext s
  simp [mem_arrived]

theorem isDatagram_unique (htable : T.blocks ≤ tableSize) {s t : ℕ} {d : List UInt8}
    (hs : s < T.blocks) (ht : t < T.blocks) (h : T.IsDatagram s d) (h' : T.IsDatagram t d) :
    s = t := by
  obtain ⟨b, -, rfl⟩ := h
  obtain ⟨b', -, he⟩ := h'
  have hsize : tableSize < 10 ^ 7 := by decide
  -- both stamps have eight bytes, so they are the same bytes
  have hlen : (header s).length = (header t).length := by
    rw [length_header (by omega), length_header (by omega)]
  exact header_injective (by omega) (by omega) (List.append_inj_left he hlen)

theorem arrived_datagram (htable : T.blocks ≤ tableSize) (es : List ClientInput) {s : ℕ}
    {d : List UInt8} (hs : s < T.blocks) (hd : T.IsDatagram s d) :
    T.arrived (es ++ [.datagram d]) = insert s (T.arrived es) := by
  ext t
  simp only [mem_arrived, List.mem_append, List.mem_singleton, Finset.mem_insert]
  constructor
  · rintro ⟨ht, d', hmem | he, hd'⟩
    · exact Or.inr ⟨ht, d', hmem, hd'⟩
    -- the new datagram carries one block only
    · obtain rfl := by simpa using he
      exact Or.inl (isDatagram_unique htable ht hs hd' hd)
  · rintro (rfl | ⟨ht, d', hmem, hd'⟩)
    · exact ⟨hs, d, Or.inr rfl, hd⟩
    · exact ⟨ht, d', Or.inl hmem, hd'⟩

/-! ## The refinement -/

/-- The variables of the loop when exactly the blocks of `S` have arrived. -/
structure Assembles (T : Served) (S : Finset ℕ) (c : ClientState) : Prop where
  subset : S ⊆ Finset.range T.blocks
  table : ∀ s, c.pktsRcvd s = true ↔ s ∈ S
  count : c.recvSize = (∑ s ∈ S, T.lenOf s : ℕ)
  content : ∀ s ∈ S, ∀ i < T.lenOf s,
    T.file[s * T.BLOCKSIZE + i]? = some (c.map (s * T.BLOCKSIZE + i))
  received : c.received = true ↔ S = Finset.range T.blocks

theorem Assembles.init (T : Served) : Assembles T ∅ ClientState.init where
  subset := Finset.empty_subset _
  table := by simp [ClientState.init]
  count := by simp [ClientState.init]
  content := by simp
  received := by
    have hpos := numBlocks_pos T.blocksize_pos T.file_pos
    have hne : (Finset.range T.blocks).Nonempty := ⟨0, Finset.mem_range.mpr hpos⟩
    simp [ClientState.init, hne.ne_empty.symm]

/-- The completion test decides whether all blocks have arrived, from the byte count alone. -/
theorem le_count_iff {S : Finset ℕ} (hS : S ⊆ Finset.range T.blocks) {n : ℤ}
    (hn : n = (∑ s ∈ S, T.lenOf s : ℕ)) :
    (T.download.fileSize : ℤ) ≤ n ↔ S = Finset.range T.blocks := by
  rw [← le_sum_blockLen_iff T.blocksize_pos hS, hn]
  exact Nat.cast_le

/-- Once all blocks have arrived the mapped file is the file. -/
theorem Assembles.map_eq {c : ClientState} (h : Assembles T (Finset.range T.blocks) c) :
    c.map.read T.size = T.file := by
  apply List.ext_getElem (by simp)
  intro i hi hi'
  -- byte `i` lies in some block, and that block has arrived
  obtain ⟨s, hs, k, hk, rfl⟩ := exists_block T.blocksize_pos hi'
  have hc := h.content s (Finset.mem_range.mpr hs) k hk
  rw [List.getElem?_eq_getElem hi', Option.some_inj] at hc
  rw [Mem.getElem_read, hc]

/-- Storing a block keeps what was stored of the others: two blocks do not overlap. -/
theorem copy_other_block (m data : Mem UInt8) {s t i : ℕ} (hne : s ≠ t) (hi : i < T.lenOf s) :
    m.copy (t * T.BLOCKSIZE) data (T.lenOf t) (s * T.BLOCKSIZE + i) =
      m (s * T.BLOCKSIZE + i) := by
  have hs : T.lenOf s ≤ T.BLOCKSIZE := blockLen_le
  have ht : T.lenOf t ≤ T.BLOCKSIZE := blockLen_le
  apply Mem.copy_outside
  rcases lt_or_gt_of_ne hne with hlt | hlt
  · have := Nat.mul_le_mul_right T.BLOCKSIZE hlt
    rw [Nat.succ_mul] at this
    omega
  · have := Nat.mul_le_mul_right T.BLOCKSIZE hlt
    rw [Nat.succ_mul] at this
    omega

/-- A new block that starts with the bytes of the file joins the set. -/
theorem Assembles.stored {S : Finset ℕ} {c : ClientState} (h : Assembles T S c) {s : ℕ}
    (hs : s < T.blocks) (hnew : s ∉ S) {data : Mem UInt8}
    (hdata : ∀ i < T.lenOf s, T.file[s * T.BLOCKSIZE + i]? = some (data i)) :
    Assembles T (insert s S) (complete T.download (c.stored T.download s data)).1 := by
  have hsub : insert s S ⊆ Finset.range T.blocks :=
    Finset.insert_subset (Finset.mem_range.mpr hs) h.subset
  have hcount : (c.stored T.download s data).recvSize =
      (∑ t ∈ insert s S, T.lenOf t : ℕ) := by
    show c.recvSize + (T.lenOf s : ℤ) = _
    rw [Finset.sum_insert hnew, h.count, ← Nat.cast_add, Nat.add_comm]
  have hfull := le_count_iff hsub hcount
  have hnot : c.received = false := by
    rw [← Bool.not_eq_true, h.received]
    intro he
    exact hnew (he ▸ Finset.mem_range.mpr hs)
  -- the branch taken changes `received` only
  have hfields : ∀ b, Assembles T (insert s S) { c.stored T.download s data with received := b } ↔
      (b = true ↔ insert s S = Finset.range T.blocks) := by
    intro b
    refine ⟨fun hb => hb.received, fun hb => ⟨hsub, ?_, hcount, ?_, hb⟩⟩
    -- the table
    · intro t
      by_cases ht : t = s
      · simp [ClientState.stored, ht]
      · simp [ClientState.stored, h.table, ht]
    -- the mapped file: the new block, or one that the copy does not touch
    · intro t ht i hi
      show _ = some (c.map.copy (s * T.BLOCKSIZE) data (T.lenOf s) (t * T.BLOCKSIZE + i))
      by_cases hts : t = s
      · subst hts
        rw [Mem.copy_inside _ _ hi]
        exact hdata i hi
      · rw [copy_other_block _ _ hts hi]
        exact h.content t (Finset.mem_of_mem_insert_of_ne ht hts) i hi
  unfold complete
  split
  · exact (hfields true).mpr (by simpa using hfull.mp ‹_›)
  · have hsame : c.stored T.download s data =
        { c.stored T.download s data with received := false } := by
      show _ = ClientState.mk ..
      rw [← hnot]
      rfl
    rw [hsame]
    exact (hfields false).mpr (by simpa using fun he => ‹¬ _› (hfull.mpr he))

/-- **One datagram**: the block joins the set, or was in it and nothing changes. -/
theorem Assembles.datagram (hsize : T.size < 2 ^ 31) (htable : T.blocks ≤ tableSize)
    {S : Finset ℕ} {c : ClientState} (h : Assembles T S c) {s : ℕ} {d : List UInt8}
    (hs : s < T.blocks) (hd : T.IsDatagram s d) :
    ∃ c' out, clientStep T.download c (.datagram d) = some (c', out) ∧
      Assembles T (insert s S) c' := by
  obtain ⟨block, ⟨hlen, hblock⟩, rfl⟩ := hd
  by_cases hin : s ∈ S
  -- a duplicate: the table stops it, or the loop was left
  · rw [Finset.insert_eq_self.mpr hin]
    have hseen := receiveData_of_seen (D := T.download) (by omega) hlen ((h.table s).mpr hin)
    unfold clientStep
    split
    · exact ⟨c, [], rfl, h⟩
    · exact ⟨c, [], hseen, h⟩
  -- a new block: the loop is still running, since a block was missing
  · have hnew : c.pktsRcvd s = false := by
      rw [← Bool.not_eq_true, h.table]
      exact hin
    have hopen : ¬ c.received = true := by
      rw [h.received]
      intro he
      exact hin (he ▸ Finset.mem_range.mpr hs)
    let data := (Mem.recv (fun _ => 0) (header s ++ block) (T.BLOCKSIZE + 8)).shift 8
    have hdata : ∀ i < T.lenOf s, T.file[s * T.BLOCKSIZE + i]? = some (data i) := by
      intro i hi
      have hiB : i < T.BLOCKSIZE := lt_of_lt_of_le hi blockLen_le
      have hsmall : tableSize < 10 ^ 7 := by decide
      have hib : i < block.length := by omega
      rw [← hblock i hi, List.getElem?_eq_getElem hib, Option.some_inj]
      exact (recv_datagram_shift (by omega) hlen _ hiB).symm
    have hstep : clientStep T.download c (.datagram (header s ++ block)) =
        some (complete T.download (c.stored T.download s data)) := by
      rw [clientStep, if_neg hopen]
      exact receiveData_of_new (D := T.download) (by show T.size < _; omega) hs (by omega) hlen hnew
    exact ⟨_, _, hstep, h.stored hs hin hdata⟩

/-- **One timeout** sends a NACK and changes nothing else. -/
theorem Assembles.timeout (htable : T.blocks ≤ tableSize) {S : Finset ℕ} {c : ClientState}
    (h : Assembles T S c) (stack : Mem UInt8) :
    ∃ c' out, clientStep T.download c (.timeout stack) = some (c', out) ∧ Assembles T S c' := by
  unfold clientStep
  split
  · exact ⟨c, [], rfl, h⟩
  · show ∃ c' out, Turbo.timeout T.download c stack = some (c', out) ∧ _
    rw [timeout_eq (D := T.download) htable]
    split
    · exact ⟨c, [], rfl, h⟩
    · exact ⟨_, _, rfl, ⟨h.subset, h.table, h.count, h.content, h.received⟩⟩

/-- **The client reassembles the file.** Whatever datagrams of the blocks arrive in whatever order,
between whatever timeouts: the table marks exactly the blocks that have arrived, the byte count is
the sum of their lengths, their regions of the mapped file equal the file, and the loop is left
exactly when the last of them is there, with the whole file in the map. -/
theorem client_reassembles (T : Served) (hsize : T.size < 2 ^ 31) (htable : T.blocks ≤ tableSize)
    (es : List ClientInput) (hes : ∀ e ∈ es, T.Delivers e) :
    ∃ c out, (clientMachine T.download).run ClientState.init es = some (c, out) ∧
      (∀ s, c.pktsRcvd s = true ↔ s ∈ T.arrived es) ∧
      c.recvSize = (∑ s ∈ T.arrived es, T.lenOf s : ℕ) ∧
      (∀ s ∈ T.arrived es, ∀ i < T.lenOf s,
        T.file[s * T.BLOCKSIZE + i]? = some (c.map (s * T.BLOCKSIZE + i))) ∧
      (c.received = true ↔ T.arrived es = Finset.range T.blocks) ∧
      (c.received = true → c.map.read T.size = T.file) := by
  -- the abstract state is a function of the history, so the relation is an invariant of it
  have hstep : ∀ es c e, Assembles T (T.arrived es) c → T.Delivers e →
      ∃ c' out, (clientMachine T.download).step c e = some (c', out) ∧
        Assembles T (T.arrived (es ++ [e])) c' := by
    intro es c e hc he
    cases e with
    | datagram d =>
      obtain ⟨s, hs, hd⟩ := he
      rw [arrived_datagram htable es hs hd]
      exact hc.datagram hsize htable hs hd
    | timeout stack =>
      rw [arrived_timeout]
      exact hc.timeout htable stack
  have hinit : Assembles T (T.arrived []) ClientState.init := by
    rw [arrived_nil]
    exact Assembles.init T
  obtain ⟨c, out, hrun, hc⟩ := Machine.exists_run_of_step hstep hinit hes
  rw [List.nil_append] at hc
  refine ⟨c, out, hrun, hc.table, hc.count, hc.content, hc.received, ?_⟩
  intro hdone
  rw [hc.received.mp hdone] at hc
  exact hc.map_eq

/-- The last block, twice and first, then the other one, with a bar among its bytes. -/
def reordered : List ClientInput :=
  [.datagram (header 1 ++ [9, bar]), .timeout fun _ => 0, .datagram (header 1 ++ [9, 0]),
    .datagram (header 0 ++ [7, 8])]

theorem reordered_delivers : ∀ e ∈ reordered, threeBytes.Delivers e := by
  intro e he
  simp only [reordered, List.mem_cons, List.not_mem_nil, or_false] at he
  rcases he with rfl | rfl | rfl | rfl
  · exact ⟨1, by decide, _, by decide, rfl⟩
  · trivial
  · exact ⟨1, by decide, _, by decide, rfl⟩
  · exact ⟨0, by decide, _, by decide, rfl⟩

theorem client_reassembles_threeBytes :
    ∃ c out, (clientMachine threeBytes.download).run ClientState.init reordered = some (c, out) ∧
      c.recvSize = 3 ∧ c.received = true ∧ c.map.read 3 = [7, 8, 9] := by
  obtain ⟨c, out, hrun, -, hcount, -, hdone, hfile⟩ :=
    client_reassembles threeBytes (by decide) (by decide) reordered reordered_delivers
  have harrived : threeBytes.arrived reordered = Finset.range threeBytes.blocks := by
    refine Finset.Subset.antisymm (fun s hs => Finset.mem_range.mpr (mem_arrived.mp hs).1) ?_
    intro s hs
    have hs2 : s < 2 := Finset.mem_range.mp hs
    rw [mem_arrived]
    rcases (by omega : s = 0 ∨ s = 1) with rfl | rfl
    · exact ⟨hs2, header 0 ++ [7, 8], by simp [reordered], _, by decide, rfl⟩
    · exact ⟨hs2, header 1 ++ [9, bar], by simp [reordered], _, by decide, rfl⟩
  have hreceived := hdone.mpr harrived
  refine ⟨c, out, hrun, ?_, hreceived, hfile hreceived⟩
  rw [hcount, harrived, sum_blockLen threeBytes.blocksize_pos]
  rfl

end NetworkLabs.Turbo

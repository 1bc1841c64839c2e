import NetworkLabs.Turbo.Bounds
import NetworkLabs.Turbo.Output

/-!
# How the sending loop covers the file

The inner loop of the server counts up to the size of the file in bytes, while its body counts
blocks and leaves the loop by a counter of its own. For small files the body runs out of turns, and
the outer loop enters it again where it was. The body hands over one datagram a turn, so that the
NACK handler is reached after one datagram for every block and one more, unless a turn writes past
one of its arrays or reads past the pages that are mapped. A stamp of eight digits does the first,
and so does the turn behind the last block when its offset wraps around; a last block that is copied
whole does the second when the file ends near the end of a page.

## Main definitions

* `Stamped`: a datagram with the stamp of a block
* `Server.mapped`: the length of the pages that hold the file
* `Server.CoversBlocks`: the loop sends every block once, in order, and then only handles NACKs

## Main results

* `covered_of_run`: what the ticks of the loop have sent, in any run
* `run_of_no_fault`: the run that reaches the NACK handler
* `coversBlocks_iff`: the files and block sizes that are covered
-/

namespace NetworkLabs.Turbo

open CRuntime Blocks Transition

/-- The first eight bytes of a datagram are the stamp of block `seq`. -/
def Stamped (seq : ℕ) (pkt : Packet) : Prop := pkt.take 8 = (header seq).map some

/-- The length of the pages that `mmap` makes readable: those that hold the file. -/
def Server.mapped (sv : Server) (page : ℕ) : ℕ := numBlocks sv.size page * page

/-- The loop comes to the NACK handler after one datagram for every block, in order, and one more,
and has read nothing behind the mapped pages until then. From there on, whatever NACKs arrive, its
own turns hand over nothing. -/
def Server.CoversBlocks (sv : Server) (page : ℕ) : Prop :=
  ∃ is s tr, (∀ x ∈ is, x = .tick) ∧ sv.machine.run ServerState.init is = some (s, tr) ∧
    s.pc = .awaitingNack ∧ (∀ off len, .copy off len ∈ tr → off + len ≤ sv.mapped page) ∧
    (handed tr).length = sv.blocks + 1 ∧
    (∀ seq < sv.blocks, ∃ pkt, (handed tr)[seq]? = some pkt ∧ Stamped seq pkt) ∧
    ∀ is', sv.machine.Always (fun _ i _ o => i = .tick → handed o = []) s is'

/-- What `stamped` puts together carries its stamp. -/
theorem stamped_header (sv : Server) {seq : ℕ} (h : seq < 10 ^ 7) (len : ℕ)
    (rest : Option UInt8) : Stamped seq (sv.stamped seq len rest) := by
  unfold Stamped Server.stamped
  rw [List.map_append, List.append_assoc,
    List.take_left' (by rw [List.length_map, length_header h])]

section Loop

variable {sv : Server} {page : ℕ}

/-! ## What was sent -/

/-- The outputs of the body for the blocks below `k`. -/
abbrev Server.sentBelow (sv : Server) (k : ℕ) : List Event :=
  (List.range k).flatMap sv.sendIteration

theorem sentBelow_succ (sv : Server) (k : ℕ) :
    sv.sentBelow (k + 1) = sv.sentBelow k ++ sv.sendIteration k := by
  rw [Server.sentBelow, Server.sentBelow, List.range_succ, List.flatMap_append,
    List.flatMap_singleton]

/-- Up to a fault the outputs are those of all blocks so far, and the loop is left only behind
`numPackets`. -/
structure Server.Covered (sv : Server) (s : ServerState) (tr : List Event) : Prop where
  sent : tr = sv.sentBelow s.currSeq
  noFault : .fault ∉ tr
  fileSent : s.isFileSent = true → (s.currSeq : ℤ) = sv.numPackets + 1
  awaiting : s.pc = .awaitingNack → s.isFileSent = true

theorem covered_init (sv : Server) : sv.Covered ServerState.init [] where
  sent := rfl
  noFault := List.not_mem_nil
  fileSent h := by cases h
  awaiting h := by cases h

/-- What a turn of the loop can do: leave for the handler, run the body, or start over. -/
theorem step_tick_cases {s t : ServerState} {o : List Event}
    (h : sv.step s .tick = some (t, o)) :
    (∃ i, s.pc = .sending i ∧ (s.currSeq : ℤ) ≠ sv.numPackets + 1 ∧ o = sv.sendIteration s.currSeq ∧
      t = ⟨Server.afterEvents o (.sending (i + 1)), s.currSeq + 1, s.isFileSent⟩) ∨
    (o = [] ∧ t.currSeq = s.currSeq ∧
      ((s.currSeq : ℤ) = sv.numPackets + 1 ∧ t.pc = .awaitingNack ∧ t.isFileSent = true ∨
        s.isFileSent = true ∧ t.pc = .awaitingNack ∧ t.isFileSent = true ∨
        t.pc = .sending 0 ∧ t.isFileSent = s.isFileSent)) := by
  unfold Server.step at h
  cases hpc : s.pc with
  | sending i =>
    simp only [hpc, Option.some_inj, Server.tick] at h
    split at h
    · split at h
      · next hlast =>
        obtain ⟨rfl, rfl⟩ := Prod.mk.inj h
        exact Or.inr ⟨rfl, rfl, Or.inl ⟨hlast, rfl, rfl⟩⟩
      · next hmore =>
        obtain ⟨rfl, rfl⟩ := Prod.mk.inj h
        exact Or.inl ⟨i, rfl, hmore, rfl, rfl⟩
    · split at h
      · next hsent =>
        obtain ⟨rfl, rfl⟩ := Prod.mk.inj h
        exact Or.inr ⟨rfl, rfl, Or.inr (Or.inl ⟨hsent, rfl, hsent⟩)⟩
      · obtain ⟨rfl, rfl⟩ := Prod.mk.inj h
        exact Or.inr ⟨rfl, rfl, Or.inr (Or.inr ⟨rfl, rfl⟩)⟩
  | awaitingNack => simp [hpc] at h
  | finished => simp [hpc] at h
  | faulted => simp [hpc] at h

/-- A turn of the loop keeps the account, or ends in a fault. -/
theorem Server.Covered.tick {s t : ServerState} {tr o : List Event} (h : sv.Covered s tr)
    (hstep : sv.step s .tick = some (t, o)) : t.pc = .faulted ∨ sv.Covered t (tr ++ o) := by
  rcases step_tick_cases hstep with ⟨i, -, hmore, rfl, rfl⟩ | ⟨rfl, hseq, hpc⟩
  · by_cases hfault : .fault ∈ sv.sendIteration s.currSeq
    · left
      exact if_pos (List.any_eq_true.mpr ⟨_, hfault, rfl⟩)
    · right
      refine ⟨?_, ?_, fun hsent => absurd (h.fileSent hsent) hmore, ?_⟩
      · rw [sentBelow_succ, h.sent]
      · rw [List.mem_append, not_or]
        exact ⟨h.noFault, hfault⟩
      · intro hpc
        rw [afterEvents_of_notMem hfault] at hpc
        cases hpc
  · right
    rw [List.append_nil]
    refine ⟨by rw [hseq]; exact h.sent, h.noFault, ?_, ?_⟩
    · rw [hseq]
      rcases hpc with ⟨hlast, -⟩ | ⟨hsent, -⟩ | ⟨-, hsame⟩
      · exact fun _ => hlast
      · exact fun _ => h.fileSent hsent
      · exact fun hsent => h.fileSent (hsame ▸ hsent)
    · rcases hpc with ⟨-, -, hsent⟩ | ⟨-, -, hsent⟩ | ⟨hsending, -⟩
      · exact fun _ => hsent
      · exact fun _ => hsent
      · intro hawait
        rw [hsending] at hawait
        cases hawait

/-- **Any turns of the loop** have sent the blocks up to its counter, or have ended in a fault. -/
theorem covered_of_run {is : List ServerInput} {s : ServerState} {tr : List Event}
    (his : ∀ x ∈ is, x = .tick) (hrun : sv.machine.run ServerState.init is = some (s, tr)) :
    s.pc = .faulted ∨ sv.Covered s tr := by
  have hstep : ∀ s tr (i : ServerInput) t o, (s.pc = .faulted ∨ sv.Covered s tr) → i = .tick →
      sv.machine.step s i = some (t, o) → t.pc = .faulted ∨ sv.Covered t (tr ++ o) := by
    rintro s tr i t o hs rfl hmove
    rcases hs with hfaulted | hcovered
    -- past a fault there is no turn
    · change sv.step s .tick = _ at hmove
      simp [Server.step, hfaulted] at hmove
    · exact hcovered.tick hmove
  exact Machine.invariant_of_run hstep (Or.inr (covered_init sv)) his hrun

/-! ## The run to the handler -/

/-- Without a fault the loop comes to every block, through as many passes as it takes. -/
theorem reaches_sentBelow {n : ℕ} (hn : (n : ℤ) ≤ sv.numPackets + 1)
    (hfault : ∀ k < n, .fault ∉ sv.sendIteration k) : sv.Reaches n (sv.sentBelow n) := by
  induction n with
  | zero => exact reaches_zero sv
  | succ n ih =>
    have hreaches := ih (by omega) fun k hk => hfault k (by omega)
    rw [sentBelow_succ]
    exact (hreaches.iterate (by omega)).2 (hfault n (by omega))

/-- **Without a fault the loop comes to the handler** behind `numPackets`. -/
theorem run_of_no_fault {n : ℕ} (hn : (n : ℤ) = sv.numPackets + 1)
    (hfault : ∀ k < n, .fault ∉ sv.sendIteration k) :
    ∃ is, (∀ x ∈ is, x = .tick) ∧ sv.machine.run ServerState.init is =
      some (⟨.awaitingNack, n, true⟩, sv.sentBelow n) := by
  obtain ⟨is, i, hticks, hi, hrun⟩ := reaches_sentBelow hn.le hfault
  have hbreak : sv.machine.run ⟨.sending i, n, false⟩ [.tick] =
      some (⟨.awaitingNack, n, true⟩, []) := by
    rw [run_tick rfl, Server.tick, if_pos hi, if_pos hn]
  have hall := Machine.run_append hrun hbreak
  rw [List.append_nil] at hall
  exact ⟨_, forall_eq_tick_append hticks, hall⟩

/-- Behind `numPackets` the turns of the loop hand over nothing, whatever NACKs arrive. -/
theorem always_quiet {s : ServerState} (hs : (s.currSeq : ℤ) = sv.numPackets + 1)
    (is : List ServerInput) :
    sv.machine.Always (fun _ i _ o => i = .tick → handed o = []) s is := by
  refine Machine.Always.of_invariant (I := fun s => (s.currSeq : ℤ) = sv.numPackets + 1) ?_ hs is
  intro s i t o hs hmove
  change sv.step s i = some (t, o) at hmove
  cases i with
  | tick =>
    rcases step_tick_cases hmove with ⟨i, -, hmore, -, -⟩ | ⟨rfl, hseq, -⟩
    · exact absurd hs hmore
    · exact ⟨fun _ => rfl, by rw [hseq]; exact hs⟩
  | nack stack d =>
    have hseq : t.currSeq = s.currSeq := by
      unfold Server.step at hmove
      cases hpc : s.pc with
      | awaitingNack =>
        simp only [hpc] at hmove
        split at hmove <;>
        · obtain ⟨rfl, -⟩ := Prod.mk.inj (Option.some.inj hmove)
          rfl
      | sending i => simp [hpc] at hmove
      | finished => simp [hpc] at hmove
      | faulted => simp [hpc] at hmove
    rw [hseq]
    exact ⟨ServerInput.noConfusion, hs⟩

/-! ## The datagrams -/

/-- A turn that does not fault hands over one datagram, with a stamp when the block is counted. -/
theorem handed_sendIteration {k : ℕ} (hfault : .fault ∉ sv.sendIteration k) :
    ∃ pkt, handed (sv.sendIteration k) = [pkt] ∧ ((k : ℤ) < sv.numPackets → Stamped k pkt) := by
  simp only [Server.sendIteration] at hfault ⊢
  by_cases hlt : (k : ℤ) < sv.numPackets
  · rw [if_pos hlt] at hfault ⊢
    by_cases hshort : (header k).length ≤ 8
    · rw [if_pos hshort]
      exact ⟨_, rfl, fun _ => stamped_header sv (length_header_le_iff.mp hshort) _ _⟩
    · rw [if_neg hshort] at hfault
      exact absurd List.mem_cons_self hfault
  · rw [if_neg hlt] at hfault ⊢
    by_cases hzero : sv.remaining k = 0
    · rw [if_pos hzero]
      exact ⟨_, rfl, fun h => absurd h hlt⟩
    · rw [if_neg hzero] at hfault ⊢
      by_cases hshort : (header k).length ≤ 8
      · rw [if_pos hshort] at hfault ⊢
        by_cases hrem : sv.remaining k ≤ sv.BLOCKSIZE
        · rw [if_pos hrem]
          exact ⟨_, rfl, fun h => absurd h hlt⟩
        · rw [if_neg hrem] at hfault
          exact absurd (List.mem_cons_of_mem _ List.mem_cons_self) hfault
      · rw [if_neg hshort] at hfault
        exact absurd List.mem_cons_self hfault

/-- The datagrams of the turns below `n`: one each, in order. -/
theorem handed_sentBelow {n : ℕ} (hfault : ∀ k < n, .fault ∉ sv.sendIteration k) :
    (handed (sv.sentBelow n)).length = n ∧
      ∀ seq < n, ∃ pkt, (handed (sv.sentBelow n))[seq]? = some pkt ∧
        ((seq : ℤ) < sv.numPackets → Stamped seq pkt) := by
  induction n with
  | zero => exact ⟨rfl, fun seq h => by cases h⟩
  | succ n ih =>
    obtain ⟨hlen, hall⟩ := ih fun k hk => hfault k (by omega)
    obtain ⟨pkt, hpkt, hstamped⟩ := handed_sendIteration (hfault n (by omega))
    rw [sentBelow_succ, handed_append, hpkt]
    refine ⟨by rw [List.length_append, hlen, List.length_singleton], fun seq hseq => ?_⟩
    rcases Nat.lt_succ_iff_lt_or_eq.mp hseq with hlt | rfl
    · rw [List.getElem?_append_left (by omega)]
      exact hall seq hlt
    · refine ⟨pkt, ?_, hstamped⟩
      rw [List.getElem?_append_right hlen.le, hlen, Nat.sub_self]
      rfl

/-! ## When the file is covered -/

/-- In a loop that covers the file no turn up to `numPackets` faults or reads behind the pages. -/
theorem turn_of_coversBlocks (h : sv.CoversBlocks page) {k : ℕ} (hk : (k : ℤ) ≤ sv.numPackets) :
    .fault ∉ sv.sendIteration k ∧
      ∀ off len, .copy off len ∈ sv.sendIteration k → off + len ≤ sv.mapped page := by
  obtain ⟨is, s, tr, hticks, hrun, hpc, hcopies, -⟩ := h
  rcases covered_of_run hticks hrun with hfaulted | hcovered
  · rw [hpc] at hfaulted
    cases hfaulted
  · have hseq := hcovered.fileSent (hcovered.awaiting hpc)
    have hturn : ∀ e ∈ sv.sendIteration k, e ∈ tr := by
      intro e he
      rw [hcovered.sent]
      exact List.mem_flatMap.mpr ⟨k, List.mem_range.mpr (by omega), he⟩
    exact ⟨fun hfault => hcovered.noFault (hturn _ hfault),
      fun off len hcopy => hcopies off len (hturn _ hcopy)⟩

/-- A file that is covered has at most `10 ^ 7` blocks, its last block is copied from the mapped
pages, and the turn behind it fits its buffer. -/
theorem le_of_coversBlocks (hblocks : sv.blocks < 2 ^ 31 - 1) (h : sv.CoversBlocks page) :
    sv.blocks ≤ 10 ^ 7 ∧
      blockOffset sv.BLOCKSIZE (sv.blocks - 1) + sv.BLOCKSIZE ≤ sv.mapped page ∧
      sv.size ≤ sv.BLOCKSIZE + blockOffset sv.BLOCKSIZE sv.blocks := by
  have hcount : sv.numPackets = sv.blocks := numPackets_of_lt (by omega)
  have hpos : 1 ≤ sv.blocks := numBlocks_pos sv.blocksize_pos sv.file_pos
  have hmany : sv.blocks ≤ 10 ^ 7 := by
    by_contra hmany
    have hlong : ¬ (header (10 ^ 7)).length ≤ 8 := not_le.mpr (lt_length_header le_rfl)
    apply (turn_of_coversBlocks h (k := 10 ^ 7) (by rw [hcount]; omega)).1
    simp only [Server.sendIteration]
    rw [if_pos (by rw [hcount]; omega), if_neg hlong]
    exact List.mem_singleton_self _
  refine ⟨hmany, ?_, ?_⟩
  · apply (turn_of_coversBlocks h (k := sv.blocks - 1) (by omega)).2
    rw [sendIteration_of_lt (by omega) (by omega)]
    exact List.mem_cons_self
  · by_contra hmore
    refine (turn_of_coversBlocks h hcount.ge).1 (fault_mem_sendIteration hcount.le ?_)
    unfold Server.remaining
    omega

/-- The turn behind the last of `10 ^ 7` blocks sends nothing of the file, or more than a block. -/
theorem remaining_eq_zero_of_long (hlong : sv.blocks = 10 ^ 7)
    (hrem : sv.remaining sv.blocks ≤ sv.BLOCKSIZE) : sv.remaining sv.blocks = 0 := by
  have hB := sv.blocksize_pos
  have hlast := (lt_numBlocks_iff hB).mp (show 10 ^ 7 - 1 < sv.blocks by omega)
  have hend : ¬ sv.blocks * sv.BLOCKSIZE < sv.size := by
    rw [← lt_numBlocks_iff hB]
    exact lt_irrefl _
  rw [hlong] at hend hrem ⊢
  -- the file is too long for one block behind the offset, unless its blocks are small
  have hsmall : sv.BLOCKSIZE < 430 := by
    have hoff := blockOffset_lt sv.BLOCKSIZE (10 ^ 7)
    unfold Server.remaining at hrem
    omega
  have hoff : blockOffset sv.BLOCKSIZE (10 ^ 7) = 10 ^ 7 * sv.BLOCKSIZE :=
    blockOffset_of_lt (by omega)
  unfold Server.remaining
  omega

theorem size_le_mapped (sv : Server) (hpage : 1 ≤ page) : sv.size ≤ sv.mapped page := by
  have hend : ¬ numBlocks sv.size page * page < sv.size := by
    rw [← lt_numBlocks_iff hpage]
    exact lt_irrefl _
  exact not_lt.mp hend

/-- The one read of a turn that copies and hands over. -/
theorem le_of_mem_copy_hand {off len off' len' n : ℕ} {pkt : Packet} {t l : ℤ}
    (h : .copy off len ∈ [Event.copy off' len', .hand pkt t l]) (hle : off' + len' ≤ n) :
    off + len ≤ n := by
  simp only [List.mem_cons, Event.copy.injEq, reduceCtorEq, List.not_mem_nil, or_self,
    or_false] at h
  rw [h.1, h.2]
  exact hle

/-- Up to `10 ^ 7` blocks no turn faults or reads behind the pages, when the one of the last block
reads inside them and the one behind it fits its buffer. -/
theorem turn_of_le (hpage : 1 ≤ page) (hshort : sv.blocks ≤ 10 ^ 7)
    (hlast : blockOffset sv.BLOCKSIZE (sv.blocks - 1) + sv.BLOCKSIZE ≤ sv.mapped page)
    (hfit : sv.size ≤ sv.BLOCKSIZE + blockOffset sv.BLOCKSIZE sv.blocks) {k : ℕ}
    (hk : k < sv.blocks + 1) : .fault ∉ sv.sendIteration k ∧
      ∀ off len, .copy off len ∈ sv.sendIteration k → off + len ≤ sv.mapped page := by
  have hsize := size_le_mapped sv hpage
  have hcount : sv.numPackets = sv.blocks := numPackets_of_lt (by omega)
  have hrem : sv.remaining sv.blocks ≤ sv.BLOCKSIZE := by
    unfold Server.remaining
    omega
  rcases Nat.lt_succ_iff_lt_or_eq.mp hk with hlt | rfl
  · rw [sendIteration_of_lt (by omega) (by omega)]
    refine ⟨by simp, fun off len hcopy => le_of_mem_copy_hand hcopy ?_⟩
    -- a block that is not the last has a full block of the file at its offset
    by_cases hnext : k + 1 < sv.blocks
    · have hfull : blockOffset sv.BLOCKSIZE k + sv.BLOCKSIZE ≤ sv.size :=
        offset_add_le_of_lt (by omega)
      omega
    · obtain rfl : k = sv.blocks - 1 := by omega
      exact hlast
  · rcases Nat.eq_zero_or_pos (sv.remaining sv.blocks) with hzero | hpos
    · rw [sendIteration_of_remaining_eq_zero hcount.le hzero]
      exact ⟨by simp, fun off len hcopy => by simp at hcopy⟩
    · have hlt : sv.blocks < 10 ^ 7 := by
        by_contra hge
        exact hpos.ne' (remaining_eq_zero_of_long (by omega) hrem)
      rw [sendIteration_of_remaining hcount.le hpos hrem hlt]
      refine ⟨by simp, fun off len hcopy => le_of_mem_copy_hand hcopy ?_⟩
      unfold Server.remaining at hpos ⊢
      omega

/-- **The loop covers a file exactly** when it has at most `10 ^ 7` blocks, a whole block lies in
the mapped pages behind the offset of the last one, and at most one block lies behind the wrapped
offset of the turn after them. -/
theorem coversBlocks_iff (sv : Server) (page : ℕ) (hpage : 1 ≤ page)
    (hblocks : sv.blocks < 2 ^ 31 - 1) :
    sv.CoversBlocks page ↔ sv.blocks ≤ 10 ^ 7 ∧
      blockOffset sv.BLOCKSIZE (sv.blocks - 1) + sv.BLOCKSIZE ≤ sv.mapped page ∧
      sv.size ≤ sv.BLOCKSIZE + blockOffset sv.BLOCKSIZE sv.blocks := by
  have hcount : sv.numPackets = sv.blocks := numPackets_of_lt (by omega)
  refine ⟨le_of_coversBlocks hblocks, ?_⟩
  rintro ⟨hshort, hlast, hfit⟩
  have hn : ((sv.blocks + 1 : ℕ) : ℤ) = sv.numPackets + 1 := by
    rw [hcount]
    push_cast
    rfl
  have hturn : ∀ k < sv.blocks + 1, .fault ∉ sv.sendIteration k ∧
      ∀ off len, .copy off len ∈ sv.sendIteration k → off + len ≤ sv.mapped page :=
    fun k hk => turn_of_le hpage hshort hlast hfit hk
  have hfault : ∀ k < sv.blocks + 1, .fault ∉ sv.sendIteration k := fun k hk => (hturn k hk).1
  obtain ⟨is, hticks, hrun⟩ := run_of_no_fault hn hfault
  obtain ⟨hlen, hall⟩ := handed_sentBelow hfault
  refine ⟨is, _, _, hticks, hrun, rfl, fun off len hcopy => ?_, hlen, fun seq hseq => ?_,
    always_quiet hn⟩
  · obtain ⟨k, hk, hcopy⟩ := List.mem_flatMap.mp hcopy
    exact (hturn k (List.mem_range.mp hk)).2 off len hcopy
  · obtain ⟨pkt, hpkt, hstamped⟩ := hall seq (by omega)
    exact ⟨pkt, hpkt, hstamped (by omega)⟩

/-- Three bytes in blocks of two: the short last block is copied whole, inside the page. -/
theorem coversBlocks_threeBytes : threeBytesServer.CoversBlocks 4096 :=
  (coversBlocks_iff threeBytesServer 4096 (by decide) (by decide)).mpr
    ⟨by decide, by decide, by decide⟩

/-- A file that fills its page, in blocks of a thousand bytes: the fifth block is copied from
behind the page as well. -/
example : numBlocks 4096 1000 = 5 ∧
    numBlocks 4096 4096 * 4096 < blockOffset 1000 (5 - 1) + 1000 := by decide

/-- A file of ten million bytes and one, in blocks of one byte. -/
def tenMillionServer : Server where
  file := List.replicate (10 ^ 7 + 1) 0
  BLOCKSIZE := 1
  file_pos := by rw [List.length_replicate]; norm_num
  blocksize_pos := Nat.one_pos
  past := fun _ => 0
  LOSS_NUM := 0

/-- The stamp of its last block overruns `seqChar`. -/
theorem tenMillionServer_not_coversBlocks :
    tenMillionServer.blocks < 2 ^ 31 - 1 ∧ ¬ tenMillionServer.CoversBlocks 4096 := by
  have hblocks : tenMillionServer.blocks = 10 ^ 7 + 1 := by
    show numBlocks (List.replicate (10 ^ 7 + 1) (0 : UInt8)).length 1 = _
    rw [List.length_replicate]
    rfl
  have hlt : tenMillionServer.blocks < 2 ^ 31 - 1 := by
    rw [hblocks]
    norm_num
  refine ⟨hlt, fun h => ?_⟩
  have hle := (le_of_coversBlocks hlt h).1
  rw [hblocks] at hle
  exact absurd hle (by norm_num)

end Loop

end NetworkLabs.Turbo

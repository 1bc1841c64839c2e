import NetworkLabs.Foundation.Rounds
import NetworkLabs.Turbo.Transfer

/-!
# Recovery from loss

Once the first pass is over the client waits in vain, lists the blocks it misses, and the server
sends these. Nothing else is sent, so every datagram that passes `dropsendto` brings a block that
was missing, and as long as none passes the losses of the period run out. All this is of a client
that has received something: before that it does not know where to send its list.

## Main definitions

* `Paced`, `due`: the counters when all calls are those of blocks, and the losses still to come
* `Server.Round`: a NACK, the answer to it, and the arrival of what has passed
* `Server.owed`: the number of missing blocks

## Main results

* `exists_run_paced`: the calls of an answer, and when nothing of it passes
* `Round.steps`: a round is made of steps of the transfer
* `recovery_terminates`: rounds come to an end, and only when the client has the file
-/

namespace NetworkLabs.Turbo

open CRuntime Blocks Transition

/-! ## The counters -/

section Counters

variable {L : ℤ}

/-- The counters when every call counts the packets of blocks. -/
structure Paced (L : ℤ) (s : LossState) : Prop where
  packet_le : s.packet_counter ≤ 1000
  one_le_loss : 1 ≤ s.loss_counter
  loss_le : s.loss_counter ≤ L

/-- The losses that are still to come, once they have begun. -/
def due (L : ℤ) (s : LossState) : ℕ :=
  if s.packet_counter = 1000 then (L + 1 - s.loss_counter).toNat else 0

theorem paced_init (hL : 1 ≤ L) : Paced L .init where
  packet_le := by decide
  one_le_loss := le_rfl
  loss_le := hL

theorem due_le {s : LossState} (h : Paced L s) : due L s ≤ L.toNat := by
  have hone := h.one_le_loss
  unfold due
  split
  · omega
  · exact Nat.zero_le _

/-- **A call of a block** is sent, or uses up one of the losses. -/
theorem Paced.call (hmax : L < 2 ^ 31) {s : LossState} (h : Paced L s) :
    ∃ t fate, dropsendto s 1000 L = some (t, fate) ∧ Paced L t ∧
      (fate = .dropped → due L t < due L s) := by
  obtain ⟨hpacket, hone, hloss⟩ := h
  unfold dropsendto
  rcases hpacket.lt_or_eq with hlt | heq
  · rw [if_pos hlt]
    exact ⟨_, _, rfl, ⟨Int.add_one_le_of_lt hlt, hone, hloss⟩, Fate.noConfusion⟩
  rw [if_neg (by omega), if_pos heq]
  have hdue : due L s = (L + 1 - s.loss_counter).toNat := if_pos heq
  by_cases hlast : s.loss_counter = L
  -- the last loss of the period
  · rw [if_pos hlast]
    refine ⟨_, _, rfl, paced_init (by omega), fun _ => ?_⟩
    have hzero : due L ⟨1, 1⟩ = 0 := rfl
    omega
  · rw [if_neg hlast, if_pos (by omega)]
    refine ⟨_, _, rfl, ⟨hpacket, by dsimp only; omega, by dsimp only; omega⟩, fun _ => ?_⟩
    have hnext : due L { s with loss_counter := s.loss_counter + 1 } =
        (L + 1 - (s.loss_counter + 1)).toNat := if_pos heq
    omega

/-- **The calls of an answer**: as long as nothing passes, every call uses up a loss. -/
theorem exists_run_paced (hmax : L < 2 ^ 31) (n : ℕ) {s : LossState} (h : Paced L s) :
    ∃ t fates, lossy.run s (List.replicate n (1000, L)) = some (t, fates) ∧ Paced L t ∧
      fates.length = n ∧ (.sent ∉ fates → due L t + n ≤ due L s) := by
  induction n generalizing s with
  | zero => exact ⟨s, [], rfl, h, rfl, fun _ => le_rfl⟩
  | succ n ih =>
    obtain ⟨u, fate, hcall, hu, hfate⟩ := h.call hmax
    obtain ⟨t, fates, hrun, ht, hlen, hrest⟩ := ih hu
    refine ⟨t, fate :: fates, Machine.run_cons (lossy_step_eq_some_iff.mpr ⟨fate, hcall, rfl⟩) hrun,
      ht, by rw [List.length_cons, hlen], fun hlost => ?_⟩
    rw [List.mem_cons, not_or] at hlost
    have hless := hrest hlost.2
    cases fate with
    | sent => exact absurd rfl hlost.1
    | dropped =>
      have hone := hfate rfl
      omega

end Counters

/-! ## What passes -/

section Passed

variable {sv : Server} {stale : List UInt8 → Prop} {among : ℕ → Prop}

/-- Where nothing has passed everything was dropped. -/
theorem notMem_of_passed_eq_nil {fates : List Fate} {pkts : List Packet}
    (hlen : fates.length = pkts.length) (h : passed fates pkts = []) : .sent ∉ fates := by
  induction fates generalizing pkts with
  | nil => exact List.not_mem_nil
  | cons fate fates ih =>
    cases pkts with
    | nil => cases hlen
    | cons pkt pkts =>
      cases fate with
      | sent => cases h
      | dropped =>
        rw [List.mem_cons, not_or]
        exact ⟨Fate.noConfusion, ih (Nat.succ.inj hlen) h⟩

/-- One call for every datagram that is handed over. -/
theorem filterMap_call {evs : List Event} {call : ℤ × ℤ}
    (h : ∀ e ∈ evs, ∀ call', e.call = some call' → call' = call) :
    evs.filterMap Event.call = List.replicate (handed evs).length call := by
  induction evs with
  | nil => rfl
  | cons e evs ih =>
    rw [List.forall_mem_cons] at h
    have hrest := ih h.2
    cases e with
    | copy off len => exact hrest
    | fault => exact hrest
    | hand pkt t l =>
      have hcall : ((t, l) : ℤ × ℤ) = call := h.1 _ rfl
      show (t, l) :: evs.filterMap Event.call = List.replicate ((handed evs).length + 1) call
      rw [hrest, hcall, List.replicate_succ]

/-- **A step of the server goes through `dropsendto`**: something passes, or as many losses are used
up as datagrams were handed over. -/
theorem exists_dropping_step (hmax : sv.LOSS_NUM < 2 ^ 31) {st st' : ServerState}
    {i : ServerInput} {evs : List Event} (hmove : sv.step st i = some (st', evs))
    (hcarries : sv.Carries stale among evs) {l : LossState} (hl : Paced sv.LOSS_NUM l) :
    ∃ l' pkts, sv.dropping.step (st, l) i = some ((st', l'), pkts) ∧ pkts ⊆ handed evs ∧
      Paced sv.LOSS_NUM l' ∧
      (pkts = [] → due sv.LOSS_NUM l' + (handed evs).length ≤ due sv.LOSS_NUM l) := by
  obtain ⟨l', fates, hrun, hl', hlen, hlost⟩ := exists_run_paced hmax (handed evs).length hl
  rw [← filterMap_call hcarries.calls] at hrun
  refine ⟨l', passed fates (handed evs),
    dropping_step_eq_some_iff.mpr ⟨evs, fates, hmove, hrun, rfl⟩,
    fun pkt hpkt => mem_of_mem_passed hpkt, hl', fun hnil => ?_⟩
  exact hlost (notMem_of_passed_eq_nil hlen hnil)

end Passed

/-! ## A round -/

/-- A round: the client, which knows the server's address and waits in vain, lists the missing
blocks; the server, which waits for that, answers the list once or more often; and all that has
passed arrives, in any order, among whatever arrives again of what was sent before. -/
inductive Server.Round (sv : Server) (addr : SockAddr) (stale : List UInt8 → Prop) :
    Transfer → Transfer → Prop
  | intro {client server counters toServer toClient stack nack client₁ client' server' counters'}
      {is : List ServerInput} {pkts : List Packet} {ds out : List (List UInt8)} :
      clientStep sv.download client (.timeout stack) = some (client₁, [nack, nack]) →
      server.pc = .awaitingNack →
      (∀ i ∈ is, i = .tick ∨ ∃ sstack, i = .nack sstack nack) →
      (∃ sstack, .nack sstack nack ∈ is) →
      sv.dropping.run (server, counters) is = some ((server', counters'), pkts) →
      server'.pc = .awaitingNack →
      (∀ d ∈ ds, d ∈ toClient ∨ ∃ pkt ∈ pkts, GoesOut stale pkt d) →
      (∀ pkt ∈ pkts, ∃ d ∈ ds, GoesOut stale pkt d) →
      (clientMachine sv.download).run client₁ (ds.map .datagram) = some (client', out) →
      Server.Round sv addr stale ⟨(client, some addr), server, counters, toServer, toClient⟩
        ⟨(client', some addr), server', counters', toServer ∪ {d | d ∈ [nack, nack] ++ out},
          toClient ∪ {d | ∃ pkt ∈ pkts, GoesOut stale pkt d}⟩

/-- The number of missing blocks. -/
def Server.owed (sv : Server) (s : Transfer) : ℕ := (missing s.client.1.pktsRcvd sv.blocks).length

section Rounds

variable {sv : Server} {addr : SockAddr} {stale : List UInt8 → Prop}
  {client client' : ClientState} {server server' : ServerState} {counters counters' : LossState}
  {toServer toClient : Set (List UInt8)}

/-! ### Steps of a round -/

theorem union_mem_append (sent : Set (List UInt8)) (l l' : List (List UInt8)) :
    sent ∪ {d | d ∈ l ++ l'} = sent ∪ {d | d ∈ l} ∪ {d | d ∈ l'} := by
  ext d
  simp only [Set.mem_union, Set.mem_ofPred_eq, List.mem_append, or_assoc]

/-- A turn of a client that knows the server's address. -/
theorem turn_of_clientStep {i : ClientInput} {out : List (List UInt8)}
    (hfrom : ClientInput.From toClient i)
    (hstep : clientStep sv.download client i = some (client', out)) :
    sv.TransferStep addr stale ⟨(client, some addr), server, counters, toServer, toClient⟩
      ⟨(client', some addr), server, counters, toServer ∪ {d | d ∈ out}, toClient⟩ := by
  obtain ⟨sent, hsent, harriving⟩ := addressedStep_of_clientStep addr hstep
  rw [← harriving]
  exact .turn hfrom hsent

/-- Turns of the receive loop on datagrams that were sent. -/
theorem steps_of_client_run {ds : List (List UInt8)} {out : List (List UInt8)}
    (hds : ∀ d ∈ ds, d ∈ toClient)
    (hrun : (clientMachine sv.download).run client (ds.map .datagram) = some (client', out)) :
    Relation.ReflTransGen (sv.TransferStep addr stale)
      ⟨(client, some addr), server, counters, toServer, toClient⟩
      ⟨(client', some addr), server, counters, toServer ∪ {d | d ∈ out}, toClient⟩ := by
  induction ds generalizing client toServer out with
  | nil =>
    obtain ⟨rfl, rfl⟩ := Prod.mk.inj (Option.some.inj hrun)
    have hsame : toServer ∪ {d : List UInt8 | d ∈ ([] : List (List UInt8))} = toServer := by
      ext d
      simp
    rw [hsame]
  | cons d ds ih =>
    rw [List.map_cons, Machine.run_cons_eq_some_iff] at hrun
    obtain ⟨c, o, o', hstep, hrest, rfl⟩ := hrun
    rw [List.forall_mem_cons] at hds
    have hmove : sv.TransferStep addr stale
        ⟨(client, some addr), server, counters, toServer, toClient⟩
        ⟨(c, some addr), server, counters, toServer ∪ {d | d ∈ o}, toClient⟩ :=
      turn_of_clientStep (i := .datagram d) hds.1 hstep
    rw [union_mem_append]
    exact .head hmove (ih hds.2 hrest)

/-- Turns of the server on datagrams that were sent. -/
theorem steps_of_dropping_run {source : ClientState × Option SockAddr} {is : List ServerInput}
    {pkts : List Packet} (his : ∀ i ∈ is, ServerInput.From toServer i)
    (hrun : sv.dropping.run (server, counters) is = some ((server', counters'), pkts)) :
    Relation.ReflTransGen (sv.TransferStep addr stale)
      ⟨source, server, counters, toServer, toClient⟩
      ⟨source, server', counters', toServer,
        toClient ∪ {d | ∃ pkt ∈ pkts, GoesOut stale pkt d}⟩ := by
  induction is generalizing server counters toClient pkts with
  | nil =>
    obtain ⟨hstate, rfl⟩ := Prod.mk.inj (Option.some.inj hrun)
    obtain ⟨rfl, rfl⟩ := Prod.mk.inj hstate
    have hsame : toClient ∪ {d | ∃ pkt ∈ ([] : List Packet), GoesOut stale pkt d} = toClient := by
      ext d
      simp
    rw [hsame]
  | cons i is ih =>
    obtain ⟨⟨st, l⟩, o, o', hstep, hrest, rfl⟩ := Machine.run_cons_eq_some_iff.mp hrun
    rw [List.forall_mem_cons] at his
    have hmove : sv.TransferStep addr stale ⟨source, server, counters, toServer, toClient⟩
        ⟨source, st, l, toServer, toClient ∪ {d | ∃ pkt ∈ o, GoesOut stale pkt d}⟩ :=
      .serve his.1 hstep
    have hsets : toClient ∪ {d | ∃ pkt ∈ o ++ o', GoesOut stale pkt d} =
        toClient ∪ {d | ∃ pkt ∈ o, GoesOut stale pkt d} ∪
          {d | ∃ pkt ∈ o', GoesOut stale pkt d} := by
      ext d
      simp only [Set.mem_union, Set.mem_ofPred_eq, List.mem_append, or_and_right, exists_or,
        or_assoc]
    rw [hsets]
    exact .head hmove (ih his.2 hrest)

/-- **A round is made of steps** of the transfer. -/
theorem Server.Round.steps {s t : Transfer} (h : sv.Round addr stale s t) :
    Relation.ReflTransGen (sv.TransferStep addr stale) s t := by
  cases h with
  | @intro client server counters toServer toClient stack nack client₁ client' server' counters' is
      pkts ds out htimeout hpc his hnack hserve hpc' hsent harrives hclient =>
    have hask : sv.TransferStep addr stale
        ⟨(client, some addr), server, counters, toServer, toClient⟩
        ⟨(client₁, some addr), server, counters, toServer ∪ {d | d ∈ [nack, nack]}, toClient⟩ :=
      turn_of_clientStep (i := .timeout stack) trivial htimeout
    have hfrom : ∀ i ∈ is, ServerInput.From (toServer ∪ {d | d ∈ [nack, nack]}) i := by
      intro i hi
      rcases his i hi with rfl | ⟨sstack, rfl⟩
      · trivial
      · exact .inr List.mem_cons_self
    have hanswer : Relation.ReflTransGen (sv.TransferStep addr stale)
        ⟨(client₁, some addr), server, counters, toServer ∪ {d | d ∈ [nack, nack]}, toClient⟩
        ⟨(client₁, some addr), server', counters', toServer ∪ {d | d ∈ [nack, nack]},
          toClient ∪ {d | ∃ pkt ∈ pkts, GoesOut stale pkt d}⟩ :=
      steps_of_dropping_run hfrom hserve
    rw [union_mem_append]
    refine .head hask (hanswer.trans (steps_of_client_run (fun d hd => ?_) hclient))
    exact (hsent d hd).imp_right id

/-! ### What a round brings -/

theorem length_missing {T : Served} {S : Finset ℕ} {c : ClientState} (h : Assembles T S c) :
    (missing c.pktsRcvd T.blocks).length = T.blocks - S.card := by
  have hnodup : (missing c.pktsRcvd T.blocks).Nodup :=
    (missing_pairwise_lt c.pktsRcvd T.blocks).imp fun hlt => hlt.ne
  have hset : (missing c.pktsRcvd T.blocks).toFinset = Finset.range T.blocks \ S := by
    ext s
    rw [List.mem_toFinset, mem_missing, Finset.mem_sdiff, Finset.mem_range, ← h.table s,
      Bool.not_eq_true]
  rw [← List.toFinset_card_of_nodup hnodup, hset, Finset.card_sdiff_of_subset h.subset,
    Finset.card_range]

/-- A list of missing blocks goes out only while some are missing. -/
theorem nack_of_timeout (hroomy : sv.Roomy) {c c₁ : ClientState} {stack : Mem UInt8}
    {nack : List UInt8}
    (h : clientStep sv.download c (.timeout stack) = some (c₁, [nack, nack])) :
    missing c.pktsRcvd sv.blocks ≠ [] ∧ c₁.pktsRcvd = c.pktsRcvd ∧
      (∀ sstack, nackDecode sv.BLOCKSIZE sstack nack = some (missing c.pktsRcvd sv.blocks)) ∧
      ∀ S, Assembles sv.toServed S c → Assembles sv.toServed S c₁ := by
  unfold clientStep at h
  split at h
  · cases h
  · simp only [timeout_eq (D := sv.download) hroomy.blocks_le] at h
    split at h
    · cases h
    · next hne =>
      obtain ⟨rfl, hnack⟩ := Prod.mk.inj (Option.some.inj h)
      obtain ⟨rfl, -⟩ := List.cons.inj hnack
      exact ⟨hne, rfl, fun sstack => nackDecode_of_timeout hroomy hne stack sstack,
        fun S hS => ⟨hS.subset, hS.table, hS.count, hS.content, hS.received⟩⟩

/-- **The blocks that arrive join the others.** -/
theorem receives_all (hroomy : sv.Roomy) {S : Finset ℕ} {c : ClientState}
    (h : Assembles sv.toServed S c) {ds : List (List UInt8)}
    (hds : ∀ d ∈ ds, ∃ seq < sv.blocks, sv.IsDatagram seq d) :
    ∃ c' out S', (clientMachine sv.download).run c (ds.map .datagram) = some (c', out) ∧
      Assembles sv.toServed S' c' ∧ S ⊆ S' ∧
      ∀ d ∈ ds, ∀ seq < sv.blocks, sv.IsDatagram seq d → seq ∈ S' := by
  induction ds generalizing S c with
  | nil => exact ⟨c, [], S, rfl, h, Finset.Subset.refl S, fun d hd => absurd hd List.not_mem_nil⟩
  | cons d ds ih =>
    rw [List.forall_mem_cons] at hds
    obtain ⟨seq, hseq, hd⟩ := hds.1
    obtain ⟨c₁, o, hstep, h₁⟩ := h.datagram hroomy.size_lt hroomy.blocks_le hseq hd
    obtain ⟨c', o', S', hrun, h', hsub, hall⟩ := ih h₁ hds.2
    refine ⟨c', o ++ o', S', Machine.run_cons hstep hrun, h',
      (Finset.subset_insert seq S).trans hsub, ?_⟩
    rw [List.forall_mem_cons]
    refine ⟨fun seq' hseq' hd' => ?_, hall⟩
    rw [isDatagram_unique hroomy.blocks_le hseq' hseq hd' hd]
    exact hsub (Finset.mem_insert_self seq S)

/-- A turn of the server behind the first pass: it answers the list, or hands over nothing. -/
theorem carries_of_answer (stale : List UInt8 → Prop) (hroomy : sv.Roomy) {cs : List ℕ}
    (hcs : ∀ k ∈ cs, k < sv.blocks) {nack : List UInt8}
    (hnack : ∀ sstack, nackDecode sv.BLOCKSIZE sstack nack = some cs) {st st' : ServerState}
    (hseq : st.currSeq = sv.blocks + 1) {i : ServerInput}
    (hi : i = .tick ∨ ∃ sstack, i = .nack sstack nack) {evs : List Event}
    (hmove : sv.step st i = some (st', evs)) :
    st'.currSeq = sv.blocks + 1 ∧ sv.Carries stale (· ∈ cs) evs ∧
      (i ≠ .tick → evs = sv.retransmitAll cs) := by
  rcases hi with rfl | ⟨sstack, rfl⟩
  · rcases step_tick_cases hmove with ⟨-, -, hmore, -⟩ | ⟨rfl, hsame, -⟩
    · rw [hroomy.numPackets, hseq] at hmore
      exact absurd (Nat.cast_succ _) hmore
    · exact ⟨hsame.trans hseq, carries_nil, fun h => absurd rfl h⟩
  · have hrun : sv.machine.run st [.nack sstack nack] = some (st', evs) := by
      rwa [Machine.run_singleton]
    rw [run_nack_of_some (pc_of_step_nack hmove) (hnack sstack)] at hrun
    obtain ⟨rfl, rfl⟩ := Prod.mk.inj (Option.some.inj hrun)
    exact ⟨hseq, carries_retransmitAll hroomy hcs fun _ h => h, fun _ => rfl⟩

theorem handed_retransmitAll_ne_nil (hroomy : sv.Roomy) {cs : List ℕ}
    (hcs : ∀ k ∈ cs, k < sv.blocks) (hne : cs ≠ []) : handed (sv.retransmitAll cs) ≠ [] := by
  cases cs with
  | nil => exact absurd rfl hne
  | cons c cs =>
    have hc := hcs c List.mem_cons_self
    obtain ⟨len, -, -, heq⟩ := retransmit_eq hroomy hc
    rw [retransmitAll_cons hroomy hc, handed_append, heq]
    exact List.cons_ne_nil _ _

/-- The datagram brings one of these blocks. -/
def Server.Brings (sv : Server) (stale : List UInt8 → Prop) (cs : List ℕ) (pkt : Packet) : Prop :=
  ∀ d, GoesOut stale pkt d → ∃ seq ∈ cs, sv.IsDatagram seq d

/-- The server after it has begun to answer: what has passed brings a missing block, and as long as
nothing has, fewer losses are due than there were. -/
structure Server.Answered (sv : Server) (stale : List UInt8 → Prop) (cs : List ℕ) (before : ℕ)
    (p : ServerState × LossState) (pkts : List Packet) : Prop where
  currSeq : p.1.currSeq = sv.blocks + 1
  paced : Paced sv.LOSS_NUM p.2
  brings : ∀ pkt ∈ pkts, sv.Brings stale cs pkt
  due_lt : pkts = [] → due sv.LOSS_NUM p.2 < before

/-- **One turn of the server in a round**: what passes brings a missing block, and where nothing
passes the losses run out. -/
theorem answer_step (stale : List UInt8 → Prop) (hroomy : sv.Roomy)
    (hmax : sv.LOSS_NUM < 2 ^ 31) {cs : List ℕ} (hcs : ∀ k ∈ cs, k < sv.blocks) (hne : cs ≠ [])
    {nack : List UInt8}
    (hnack : ∀ sstack, nackDecode sv.BLOCKSIZE sstack nack = some cs)
    {p q : ServerState × LossState} (hseq : p.1.currSeq = sv.blocks + 1)
    (hpaced : Paced sv.LOSS_NUM p.2) {i : ServerInput}
    (hi : i = .tick ∨ ∃ sstack, i = .nack sstack nack) {o : List Packet}
    (hstep : sv.dropping.step p i = some (q, o)) :
    q.1.currSeq = sv.blocks + 1 ∧ Paced sv.LOSS_NUM q.2 ∧ (∀ pkt ∈ o, sv.Brings stale cs pkt) ∧
      (o = [] → due sv.LOSS_NUM q.2 ≤ due sv.LOSS_NUM p.2) ∧
      (o = [] → i ≠ .tick → due sv.LOSS_NUM q.2 < due sv.LOSS_NUM p.2) := by
  obtain ⟨evs, -, hmove, -, -⟩ := dropping_step_eq_some_iff.mp hstep
  obtain ⟨hseq', hcarries, hanswer⟩ := carries_of_answer stale hroomy hcs hnack hseq hi hmove
  obtain ⟨l', pkts, hstep', hsub, hpaced', hless⟩ :=
    exists_dropping_step hmax hmove hcarries hpaced
  obtain ⟨hq, rfl⟩ := Prod.mk.inj (Option.some.inj (hstep.symm.trans hstep'))
  obtain rfl : l' = q.2 := (congrArg Prod.snd hq).symm
  refine ⟨hseq', hpaced', fun pkt hpkt => hcarries.blocks pkt (hsub hpkt),
    fun hnil => (Nat.le_add_right ..).trans (hless hnil), fun hnil htick => ?_⟩
  -- the answer is not empty
  have hpos := List.length_pos_iff.mpr (handed_retransmitAll_ne_nil hroomy hcs hne)
  have hle := hless hnil
  rw [hanswer htick] at hle
  omega

/-- **The turns of the server in a round.** -/
theorem answer_run (stale : List UInt8 → Prop) (hroomy : sv.Roomy)
    (hmax : sv.LOSS_NUM < 2 ^ 31) {cs : List ℕ} (hcs : ∀ k ∈ cs, k < sv.blocks) (hne : cs ≠ [])
    {nack : List UInt8}
    (hnack : ∀ sstack, nackDecode sv.BLOCKSIZE sstack nack = some cs)
    {p q : ServerState × LossState} (hpc : p.1.pc = .awaitingNack)
    (hseq : p.1.currSeq = sv.blocks + 1) (hpaced : Paced sv.LOSS_NUM p.2) {is : List ServerInput}
    (his : ∀ i ∈ is, i = .tick ∨ ∃ sstack, i = .nack sstack nack)
    (hsome : ∃ sstack, .nack sstack nack ∈ is) {pkts : List Packet}
    (hrun : sv.dropping.run p is = some (q, pkts)) :
    sv.Answered stale cs (due sv.LOSS_NUM p.2) q pkts := by
  cases is with
  | nil =>
    obtain ⟨sstack, hmem⟩ := hsome
    cases hmem
  | cons i is =>
    obtain ⟨r, o, o', hstep, hrest, rfl⟩ := Machine.run_cons_eq_some_iff.mp hrun
    rw [List.forall_mem_cons] at his
    -- a server that waits begins with the list
    have htick : i ≠ .tick := by
      rintro rfl
      obtain ⟨evs, -, hmove, -, -⟩ := dropping_step_eq_some_iff.mp hstep
      simp [Server.step, hpc] at hmove
    obtain ⟨hseqr, hpacedr, hbringsr, -, hless⟩ :=
      answer_step stale hroomy hmax hcs hne hnack hseq hpaced his.1 hstep
    -- from there on nothing grows back
    have hkeep : ∀ q tr i t o, sv.Answered stale cs (due sv.LOSS_NUM p.2) q tr →
        (i = .tick ∨ ∃ sstack, i = .nack sstack nack) → sv.dropping.step q i = some (t, o) →
          sv.Answered stale cs (due sv.LOSS_NUM p.2) t (tr ++ o) := by
      rintro q tr i t o ⟨hseq, hpaced, hbrings, hdue⟩ hi hstep
      obtain ⟨hseq', hpaced', hbrings', hle, -⟩ :=
        answer_step stale hroomy hmax hcs hne hnack hseq hpaced hi hstep
      refine ⟨hseq', hpaced', fun pkt hpkt => ?_, fun hnil => ?_⟩
      · exact (List.mem_append.mp hpkt).elim (hbrings pkt) (hbrings' pkt)
      · obtain ⟨rfl, rfl⟩ := List.append_eq_nil_iff.mp hnil
        exact (hle rfl).trans_lt (hdue rfl)
    exact Machine.invariant_of_run hkeep
      ⟨hseqr, hpacedr, hbringsr, fun hnil => hless hnil htick⟩ his.2 hrest

/-! ### How many rounds there are -/

/-- A transfer behind the first pass, when the client knows the server's address. -/
structure Server.Recovering (sv : Server) (addr : SockAddr) (s : Transfer) : Prop where
  sound : sv.Sound s
  heard : s.client.2 = some addr
  awaiting : s.server.pc = .awaitingNack
  paced : Paced sv.LOSS_NUM s.counters

theorem Server.Recovering.currSeq {s : Transfer} (h : sv.Recovering addr s) :
    s.server.currSeq = sv.blocks + 1 :=
  h.sound.onTrack.fileSent (h.sound.onTrack.awaiting h.awaiting)

/-- **One round**: a missing block arrives, or the losses run out. -/
theorem Server.Recovering.round (hroomy : sv.Roomy) (hmax : sv.LOSS_NUM < 2 ^ 31)
    (hstale : ∀ d, stale d → ∃ seq < sv.blocks, sv.IsDatagram seq d) {s t : Transfer}
    (h : sv.Recovering addr s) (hround : sv.Round addr stale s t) :
    sv.Recovering addr t ∧ (sv.owed t < sv.owed s ∨ sv.owed t = sv.owed s ∧
      due sv.LOSS_NUM t.counters < due sv.LOSS_NUM s.counters) := by
  have hsound : sv.Sound t := by
    have hsteps := hround.steps
    clear hround
    induction hsteps with
    | refl => exact h.sound
    | tail _ hmove ih => exact ih.step hroomy hstale hmove
  obtain ⟨S, hS⟩ := h.sound.assembles
  have hcurr := h.currSeq
  cases hround with
  | @intro client server counters toServer toClient stack nack client₁ client' server' counters' is
      pkts ds out htimeout hpc his hnack hserve hpc' hsent harrives hclient =>
    obtain ⟨hne, hsame, hdecode, hkeeps⟩ := nack_of_timeout hroomy htimeout
    have hcs : ∀ k ∈ missing client.pktsRcvd sv.blocks, k < sv.blocks :=
      fun k hk => (mem_missing.mp hk).1
    have hanswered :=
      answer_run stale hroomy hmax hcs hne hdecode hpc hcurr h.paced his hnack hserve
    have hds : ∀ d ∈ ds, ∃ seq < sv.blocks, sv.IsDatagram seq d :=
      fun d hd => hsound.toClient d (hsent d hd)
    obtain ⟨c', out', S', hrun, hS', hsub, hall⟩ := receives_all hroomy (hkeeps S hS) hds
    obtain ⟨rfl, -⟩ := Prod.mk.inj (Option.some.inj (hclient.symm.trans hrun))
    refine ⟨⟨hsound, rfl, hpc', hanswered.paced⟩, ?_⟩
    simp only [Server.owed]
    rw [length_missing hS, length_missing hS']
    have hcard := Finset.card_le_card hsub
    have htotal := Finset.card_le_card hS'.subset
    rw [Finset.card_range] at htotal
    by_cases hnil : pkts = []
    -- nothing has passed
    · have hless : due sv.LOSS_NUM counters' < due sv.LOSS_NUM counters := hanswered.due_lt hnil
      omega
    -- a block that was missing is there
    · left
      obtain ⟨pkt, hpkt⟩ := List.exists_mem_of_ne_nil pkts hnil
      obtain ⟨d, hd, hgoes⟩ := harrives pkt hpkt
      obtain ⟨seq, hmem, hdata⟩ := hanswered.brings pkt hpkt d hgoes
      obtain ⟨hlt, hnew⟩ := mem_missing.mp hmem
      have hin := hall d hd seq hlt hdata
      have hout : seq ∉ S := by
        rw [← hS.table seq, hnew]
        exact Bool.false_ne_true
      have hmore := Finset.card_lt_card (Finset.ssubset_iff_of_subset hsub |>.mpr ⟨seq, hin, hout⟩)
      omega

/-! ### There is always a next round -/

/-- A datagram that was filled goes out as it is. -/
theorem goesOut_of_notMem {pkt : Packet} (h : none ∉ pkt) :
    GoesOut stale pkt (pkt.map fun b => b.getD 0) := by
  refine ⟨?_, fun hmem => absurd hmem h⟩
  unfold Resolves
  rw [List.forall₂_map_right_iff, List.forall₂_same]
  intro b hb
  cases b with
  | none => exact absurd hb h
  | some b => exact .inr rfl

theorem none_notMem_of_retransmitAll (hroomy : sv.Roomy) {cs : List ℕ}
    (hcs : ∀ k ∈ cs, k < sv.blocks) {pkt : Packet} (hpkt : pkt ∈ handed (sv.retransmitAll cs)) :
    none ∉ pkt := by
  induction cs with
  | nil => cases hpkt
  | cons c cs ih =>
    rw [List.forall_mem_cons] at hcs
    obtain ⟨len, -, -, heq⟩ := retransmit_eq hroomy hcs.1
    rw [retransmitAll_cons hroomy hcs.1, handed_append, heq] at hpkt
    rcases List.mem_append.mp hpkt with hfirst | hrest
    · obtain rfl : sv.stamped c len (some 0) = pkt := by
        simpa [handed, Event.handed] using hfirst
      simp [Server.stamped]
    · exact ih hcs.2 hrest

/-- A server that has sent everything comes back to its handler. -/
theorem step_tick_of_sent (hroomy : sv.Roomy) {st : ServerState}
    (hseq : st.currSeq = sv.blocks + 1) (hpc : st.pc = .sending 0) :
    sv.step st .tick = some ({ st with isFileSent := true, pc := .awaitingNack }, []) := by
  have hlast : (st.currSeq : ℤ) = sv.numPackets + 1 := by
    rw [hseq, hroomy.numPackets, Nat.cast_succ]
  have hpos : 0 < sv.size := sv.file_pos
  simp only [Server.step, hpc, Server.tick]
  rw [if_pos hpos, if_pos hlast]

/-- A client that is not done asks for what it misses. -/
theorem clientStep_timeout (hroomy : sv.Roomy) (hopen : client.received = false)
    (hne : missing client.pktsRcvd sv.blocks ≠ []) (stack : Mem UInt8) :
    clientStep sv.download client (.timeout stack) =
      some ({ client with nackCounter := client.nackCounter + 1 },
        [(nackOf sv.download client stack).read (4 * sv.BLOCKSIZE),
          (nackOf sv.download client stack).read (4 * sv.BLOCKSIZE)]) := by
  unfold clientStep
  rw [if_neg (by rw [hopen]; exact Bool.false_ne_true)]
  exact timeout_of_missing (D := sv.download) hroomy.blocks_le hne stack

/-- The server answers a list through `dropsendto`, and comes back to its handler. -/
theorem exists_answer (hroomy : sv.Roomy) (hmax : sv.LOSS_NUM < 2 ^ 31)
    (hpc : server.pc = .awaitingNack) (hseq : server.currSeq = sv.blocks + 1)
    (hpaced : Paced sv.LOSS_NUM counters) {cs : List ℕ} (hcs : ∀ k ∈ cs, k < sv.blocks)
    {sstack : Mem UInt8} {nack : List UInt8}
    (hdecode : nackDecode sv.BLOCKSIZE sstack nack = some cs) :
    ∃ l pkts, sv.dropping.run (server, counters) [.nack sstack nack, .tick] =
        some (({ server with isFileSent := true, pc := .awaitingNack }, l), pkts) ∧
      pkts ⊆ handed (sv.retransmitAll cs) := by
  have hcarries : sv.Carries (fun _ => False) (· ∈ cs) (sv.retransmitAll cs) :=
    carries_retransmitAll hroomy hcs fun _ hk => hk
  have hquiet : sv.Carries (fun _ => False) (fun _ => False) [] := carries_nil
  have hmove := run_nack_of_some hpc hdecode
  rw [Machine.run_singleton, afterEvents_of_notMem hcarries.noFault] at hmove
  obtain ⟨l₁, pkts₁, hstep₁, hsub₁, hpaced₁, -⟩ :=
    exists_dropping_step hmax hmove hcarries hpaced
  have hback : sv.step { server with pc := .sending 0 } .tick =
      some ({ server with isFileSent := true, pc := .awaitingNack }, []) :=
    step_tick_of_sent hroomy hseq rfl
  obtain ⟨l₂, pkts₂, hstep₂, hsub₂, -, -⟩ := exists_dropping_step hmax hback hquiet hpaced₁
  obtain rfl : pkts₂ = [] := List.subset_nil.mp hsub₂
  have hrun := Machine.run_cons hstep₁ ((Machine.run_singleton _ _).trans hstep₂)
  rw [List.append_nil] at hrun
  exact ⟨l₂, pkts₁, hrun, hsub₁⟩

/-- **As long as a block is missing there is a next round.** -/
theorem Server.Recovering.exists_round (hroomy : sv.Roomy) (hmax : sv.LOSS_NUM < 2 ^ 31)
    (stale : List UInt8 → Prop) {s : Transfer} (h : sv.Recovering addr s)
    (hopen : s.client.1.received = false) : ∃ t, sv.Round addr stale s t := by
  obtain ⟨⟨client, source⟩, server, counters, toServer, toClient⟩ := s
  obtain rfl : source = some addr := h.heard
  obtain ⟨S, hS⟩ := h.sound.assembles
  have hne : missing client.pktsRcvd sv.blocks ≠ [] := by
    intro hnil
    have hlen := length_missing hS
    rw [hnil, List.length_nil] at hlen
    have hfull : S = Finset.range sv.blocks :=
      Finset.eq_of_subset_of_card_le hS.subset (by rw [Finset.card_range]; omega)
    rw [hS.received.mpr hfull] at hopen
    cases hopen
  have hcs : ∀ k ∈ missing client.pktsRcvd sv.blocks, k < sv.blocks :=
    fun k hk => (mem_missing.mp hk).1
  -- the client asks, and the server answers once
  have hask := clientStep_timeout hroomy hopen hne fun _ => 0
  have hdecode := nackDecode_of_timeout hroomy hne (fun _ => 0) fun _ => 0
  obtain ⟨l, pkts, hserve, hsub⟩ :=
    exists_answer hroomy hmax h.awaiting h.currSeq h.paced hcs hdecode
  -- what has passed arrives
  have hgoes : ∀ pkt ∈ pkts, GoesOut stale pkt (pkt.map fun b => b.getD 0) :=
    fun pkt hpkt => goesOut_of_notMem (none_notMem_of_retransmitAll hroomy hcs (hsub hpkt))
  have hcarries : sv.Carries stale (· ∈ missing client.pktsRcvd sv.blocks)
      (sv.retransmitAll (missing client.pktsRcvd sv.blocks)) :=
    carries_retransmitAll hroomy hcs fun _ hk => hk
  have hds : ∀ d ∈ pkts.map fun pkt => pkt.map fun b => b.getD 0,
      ∃ seq < sv.blocks, sv.IsDatagram seq d := by
    intro d hd
    obtain ⟨pkt, hpkt, rfl⟩ := List.mem_map.mp hd
    obtain ⟨seq, hseq, hdata⟩ := hcarries.blocks pkt (hsub hpkt) _ (hgoes pkt hpkt)
    exact ⟨seq, hcs seq hseq, hdata⟩
  obtain ⟨-, -, -, hkeeps⟩ := nack_of_timeout hroomy hask
  obtain ⟨c', out, -, hclient, -⟩ := receives_all hroomy (hkeeps S hS) hds
  refine ⟨_, .intro hask h.awaiting ?_ ⟨_, List.mem_cons_self⟩ hserve rfl ?_ ?_ hclient⟩
  · intro i hi
    rcases List.mem_pair.mp hi with rfl | rfl
    · exact .inr ⟨_, rfl⟩
    · exact .inl rfl
  · intro d hd
    obtain ⟨pkt, hpkt, rfl⟩ := List.mem_map.mp hd
    exact .inr ⟨pkt, hpkt, hgoes pkt hpkt⟩
  · exact fun pkt hpkt => ⟨_, List.mem_map_of_mem hpkt, hgoes pkt hpkt⟩

/-- The counters of a transfer count the packets of blocks only. -/
theorem sound_and_paced (hroomy : sv.Roomy) (hL : 1 ≤ sv.LOSS_NUM) (hmax : sv.LOSS_NUM < 2 ^ 31)
    (hstale : ∀ d, stale d → ∃ seq < sv.blocks, sv.IsDatagram seq d) {s : Transfer}
    (hs : Reachable sv.BeginsTransfer (sv.TransferStep addr stale) s) :
    sv.Sound s ∧ Paced sv.LOSS_NUM s.counters := by
  have hinit : ∀ s, sv.BeginsTransfer s → sv.Sound s ∧ Paced sv.LOSS_NUM s.counters := by
    intro s h
    have hsound := Server.Sound.init h
    obtain ⟨-, -, -, -, k, fates, hrun⟩ := h
    obtain ⟨l, fates', hrun', hl, -⟩ := exists_run_paced hmax k (paced_init hL)
    obtain ⟨rfl, -⟩ := Prod.mk.inj (Option.some.inj (hrun'.symm.trans hrun))
    exact ⟨hsound, hl⟩
  have hstep : ∀ s t, sv.Sound s ∧ Paced sv.LOSS_NUM s.counters →
      sv.TransferStep addr stale s t → sv.Sound t ∧ Paced sv.LOSS_NUM t.counters := by
    rintro s t ⟨hsound, hpaced⟩ hmove
    refine ⟨hsound.step hroomy hstale hmove, ?_⟩
    cases hmove with
    | turn hfrom hturn => exact hpaced
    | serve hfrom hserve =>
      obtain ⟨evs, -, hmove, -, -⟩ := dropping_step_eq_some_iff.mp hserve
      obtain ⟨hcarries, -⟩ := hsound.server hroomy hstale hfrom hmove
      obtain ⟨l', pkts, hserve', -, hl', -⟩ := exists_dropping_step hmax hmove hcarries hpaced
      obtain ⟨hstate, -⟩ := Prod.mk.inj (Option.some.inj (hserve'.symm.trans hserve))
      obtain ⟨-, rfl⟩ := Prod.mk.inj hstate
      exact hl'
  exact hs.invariant hinit hstep

end Rounds

end NetworkLabs.Turbo

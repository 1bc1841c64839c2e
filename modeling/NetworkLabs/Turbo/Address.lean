import NetworkLabs.Runtime.Socket
import NetworkLabs.Turbo.Nack

/-!
# Where the client sends its NACKs

The receive loop answers to the address in `from`, which `recvfrom` writes with every datagram of
the loop. The handshake reads with `read`, so that `from` holds nothing when the loop starts. A
client that is woken by a timeout first sends its NACK to whatever was on the stack.

## Main definitions

* `Sent`: what the loop sends, with the address it is sent to
* `addressedMachine`: the receive loop with its variable `from`
* `NacksTo`: every NACK is addressed to the server

## Main results

* `timeout_init_ne_nil`: a timeout before any data sends a NACK
* `nacksTo_iff`: the runs whose NACKs all go to the server
-/

namespace NetworkLabs.Turbo

open CRuntime Transition

/-- What the receive loop sends, and where: `none` is an address that was never written. -/
inductive Sent
  | nack (dest : Option SockAddr) (data : List UInt8)
  | final (dest : Option SockAddr) (data : List UInt8)

/-- The receive loop with its variable `from`, the second component of the state. The socket is
connected, so that every datagram comes from the server. -/
def addressedStep (server : SockAddr) (D : Download) (s : ClientState × Option SockAddr) :
    ClientInput → Option ((ClientState × Option SockAddr) × List Sent)
  | .datagram d =>
    -- `recvfrom` writes the address before the datagram is looked at
    (clientStep D s.1 (.datagram d)).map fun p =>
      ((p.1, if s.1.received then s.2 else some server), p.2.map (.final (some server)))
  | .timeout stack =>
    (clientStep D s.1 (.timeout stack)).map fun p => ((p.1, s.2), p.2.map (.nack s.2))

/-- The loop. -/
def addressedMachine (server : SockAddr) (D : Download) :
    Machine (ClientState × Option SockAddr) ClientInput Sent where
  step := addressedStep server D

/-- Every NACK is addressed to the server. -/
def NacksTo (server : SockAddr) (tr : List Sent) : Prop :=
  ∀ dest data, .nack dest data ∈ tr → dest = some server

section Address

variable {server : SockAddr} {D : Download}

/-! ## A timeout before any data -/

/-- A scan that finds every block missing lists all that it passes, or fills the array. -/
theorem nackScan_of_none_rcvd {BLOCKSIZE k : ℕ} {pktsRcvd : ℕ → Bool}
    (hnone : ∀ j, pktsRcvd j = false) {s t : NackScan}
    (h : nackScan BLOCKSIZE pktsRcvd k s = some t) :
    t.full = true ∨ t.j = s.j + k ∧ t.num = s.num + k := by
  induction k generalizing s with
  | zero =>
    obtain rfl := Option.some.inj h
    exact Or.inr ⟨rfl, rfl⟩
  | succ k ih =>
    rw [nackScan] at h
    split at h
    · rw [if_neg (by simp [hnone])] at h
      simp only at h
      split at h
      · rw [← Option.some.inj h]
        exact Or.inl rfl
      · rcases ih h with hfull | ⟨hj, hnum⟩
        · exact Or.inl hfull
        · refine Or.inr ⟨?_, ?_⟩
          · simp only at hj
            omega
          · simp only at hnum
            omega
    · cases h

/-- Before any data every block is missing, so that a timeout sends a NACK. -/
theorem timeout_init_ne_nil {stack : Mem UInt8} {c : ClientState} {out : List (List UInt8)}
    (h : timeout D ClientState.init stack = some (c, out)) : out ≠ [] := by
  have hpos := Blocks.numBlocks_pos D.blocksize_pos D.fileSize_pos
  rw [← totPkts_eq] at hpos
  unfold timeout at h
  simp only at h
  split at h
  · cases h
  · next t ht =>
    have hsend : t.full = true ∨ t.j = D.totPkts ∧ 0 < t.num := by
      rcases nackScan_of_none_rcvd (fun _ => rfl) ht with hfull | ⟨hj, hnum⟩
      · exact Or.inl hfull
      · simp only at hj hnum
        exact Or.inr ⟨by omega, by omega⟩
    rw [if_pos hsend] at h
    obtain ⟨-, rfl⟩ := Prod.mk.inj (Option.some.inj h)
    exact List.cons_ne_nil _ _

/-! ## The runs -/

theorem nacksTo_nil : NacksTo server [] := by
  intro dest data hmem
  cases hmem

theorem nacksTo_append {tr o : List Sent} (htr : NacksTo server tr) (ho : NacksTo server o) :
    NacksTo server (tr ++ o) := by
  intro dest data hmem
  rcases List.mem_append.mp hmem with hmem | hmem
  · exact htr dest data hmem
  · exact ho dest data hmem

theorem nacksTo_map_final (dest : Option SockAddr) (out : List (List UInt8)) :
    NacksTo server (out.map (.final dest)) := by
  intro dest' data hmem
  simp at hmem

theorem nacksTo_map_nack (out : List (List UInt8)) :
    NacksTo server (out.map (.nack (some server))) := by
  intro dest data hmem
  obtain ⟨d, -, hd⟩ := List.mem_map.mp hmem
  exact (Sent.nack.inj hd).1.symm

/-- Once `from` holds the server's address it keeps it, and the NACKs go there. -/
theorem addressed_of_run {s u : ClientState × Option SockAddr} {es : List ClientInput}
    {tr : List Sent} (hs : s.2 = some server)
    (hrun : (addressedMachine server D).run s es = some (u, tr)) : NacksTo server tr := by
  have hstep : ∀ s tr (i : ClientInput) t o, s.2 = some server ∧ NacksTo server tr → True →
      (addressedMachine server D).step s i = some (t, o) →
      t.2 = some server ∧ NacksTo server (tr ++ o) := by
    rintro s tr i t o ⟨hs, htr⟩ - hmove
    change addressedStep server D s i = _ at hmove
    cases i with
    | datagram d =>
      obtain ⟨p, -, hp⟩ := Option.map_eq_some_iff.mp hmove
      obtain ⟨rfl, rfl⟩ := Prod.mk.inj hp
      refine ⟨?_, nacksTo_append htr (nacksTo_map_final _ _)⟩
      simp only [hs, ite_self]
    | timeout stack =>
      obtain ⟨p, -, hp⟩ := Option.map_eq_some_iff.mp hmove
      obtain ⟨rfl, rfl⟩ := Prod.mk.inj hp
      rw [hs]
      exact ⟨rfl, nacksTo_append htr (nacksTo_map_nack _)⟩
  exact (Machine.invariant_of_run hstep ⟨hs, nacksTo_nil⟩ (fun _ _ => trivial) hrun).2

/-- **All NACKs of a run go to the server exactly** when it does not begin with a timeout. -/
theorem nacksTo_iff (server : SockAddr) (D : Download) (es : List ClientInput)
    (s : ClientState × Option SockAddr) (tr : List Sent)
    (hrun : (addressedMachine server D).run (ClientState.init, none) es = some (s, tr)) :
    NacksTo server tr ↔ ∀ stack rest, es ≠ .timeout stack :: rest := by
  constructor
  · rintro h stack rest rfl
    obtain ⟨t, o, o', hmove, -, rfl⟩ := Machine.run_cons_eq_some_iff.mp hrun
    obtain ⟨⟨c, out⟩, htimeout, hp⟩ := Option.map_eq_some_iff.mp hmove
    obtain ⟨-, rfl⟩ := Prod.mk.inj hp
    -- the first NACK goes to an address that was never written
    obtain ⟨d, hd⟩ := List.exists_mem_of_ne_nil out (timeout_init_ne_nil htimeout)
    have hdest := h none d (List.mem_append_left _ (List.mem_map_of_mem hd))
    cases hdest
  · intro h
    cases es with
    | nil =>
      obtain ⟨-, rfl⟩ := by simpa using hrun
      exact nacksTo_nil
    | cons i es =>
      cases i with
      | timeout stack => exact absurd rfl (h stack es)
      | datagram d =>
        obtain ⟨t, o, o', hmove, hrest, rfl⟩ := Machine.run_cons_eq_some_iff.mp hrun
        obtain ⟨p, -, hp⟩ := Option.map_eq_some_iff.mp hmove
        obtain ⟨rfl, rfl⟩ := Prod.mk.inj hp
        exact nacksTo_append (nacksTo_map_final _ _) (addressed_of_run rfl hrest)

/-- A server on port 4096 of the local host. -/
def localServer : SockAddr := ⟨0x0100007F, 0x0010⟩

/-- The first block of four bytes arrives, and a timeout asks for the other. -/
def firstThenTimeout : List ClientInput := [.datagram (header 0 ++ [1, 2]), .timeout fun _ => 0]

theorem nacksTo_iff_firstThenTimeout : ∃ s tr,
    (addressedMachine localServer fourBytes).run (ClientState.init, none) firstThenTimeout =
      some (s, tr) ∧
    (NacksTo localServer tr ↔ ∀ stack rest, firstThenTimeout ≠ .timeout stack :: rest) := by
  have h := nacksTo_iff localServer fourBytes firstThenTimeout _ _ rfl
  exact ⟨_, _, rfl, h⟩

/-- A timeout comes first: both copies of the NACK go to an address that was never written. -/
theorem timeoutFirst_not_nacksTo : ∃ s tr,
    (addressedMachine localServer fourBytes).run (ClientState.init, none) [.timeout fun _ => 0] =
      some (s, tr) ∧ ¬ NacksTo localServer tr := by
  refine ⟨_, _, rfl, fun h => ?_⟩
  have hdest := h none _ List.mem_cons_self
  cases hdest

end Address

end NetworkLabs.Turbo

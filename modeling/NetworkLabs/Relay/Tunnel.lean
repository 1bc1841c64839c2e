import NetworkLabs.Foundation.Machine
import NetworkLabs.Overlay.Route
import NetworkLabs.Relay.Programs
import NetworkLabs.Runtime.Numbers

/-!
# Tunnels to servers

`mytunnel` sends the host and the port of a server in two arrays of a thousand bytes. `tunneld`
forks for every datagram it receives. The child opens a socket on a port of its own, looks up the
host and answers with the port, or with `-1`; after the port it relays. `mytunnel` prints what the
first datagram says that reaches it.

Any number of clients run at any time. The network loses, repeats, delays and reorders datagrams,
so that a request may start several children, and a client may get the answers of all of them. Only
the programs send to the clients, and no call of the system fails.

## Main definitions

* `Command`, `Command.packet`: the arguments of `mytunnel`, and its request
* `tunnelRegistration`: the child of `tunneld` up to its answer
* `report`: what the client prints of an answer
* `Tunnels`, `TunnelStep`: all clients and all children
* `Tunnels.Sound`: the invariant

## Main results

* `tunnelRegistration_packet`: a child finds the arguments of the client
* `report_printed`: a client reads what its child has printed
* `Tunnels.Sound.step`: one step of any party
* `reports_true`: a client is told the port of a child that relays to its server
-/

namespace NetworkLabs.Relay

open CRuntime Transition Overlay

/-! ## The client -/

/-- `MAX_BUF`. -/
def MAX_BUF : ℕ := 1000

/-- The last two arguments of `mytunnel`. -/
structure Command where
  rserver_host : List UInt8
  rserver_port : List UInt8
  zero_notMem_host : 0 ∉ rserver_host
  zero_notMem_port : 0 ∉ rserver_port

/-- The array of `MAX_BUF` cleared bytes behind `strcpy`. -/
def copied (s : List UInt8) : List UInt8 := s ++ List.replicate (MAX_BUF - s.length) 0

/-- The request of `sendMyTunnelRequest`, `none` when an argument overruns its array. -/
def Command.packet (c : Command) : Option (List UInt8) :=
  if c.rserver_host.length < MAX_BUF ∧ c.rserver_port.length < MAX_BUF then
    some (copied c.rserver_host ++ copied c.rserver_port)
  else none

/-- What a client prints of an answer, and that it leaves its array. -/
inductive Report
  | failure
  | success (recv_response : List UInt8)
  | notEstablished
  | corrupt (recv_response : List UInt8)
  | fault
  deriving DecidableEq

/-- Only the client of the overlay knows the failure message `A`. -/
def readsA : Program → Bool
  | .tunneld => false
  | .overlayrouter => true

/-- The end of `sendMyTunnelRequest` in `mytunnel` and in `overlaybuild`, the clients of the two
programs: the datagram `r` is received over `stack`. -/
def report (program : Program) (stack : Mem UInt8) (r : List UInt8) : Report :=
  let recv_response := (stack.recv r 13).read 13
  match isnumber recv_response with
  | none => .fault
  | some true =>
    match atoi recv_response with
    | none => .fault
    | some z => if z = -1 then .failure else .success (cstring recv_response)
  | some false =>
    if readsA program && recv_response.head? == some 65 then .notEstablished
    else if 0 ∈ recv_response then .corrupt (cstring recv_response)
    else .fault

/-- **A client reads what was printed for it**: a failure for `-1`, and any other number as it
is. -/
theorem report_printed (program : Program) (stack : Mem UInt8) {z : ℤ} (hz : FitsInt z)
    {r : List UInt8} (h : SentAs (printed 13 z) r) :
    report program stack r = if z = -1 then .failure else .success (sprintfInt z) := by
  have hlen := length_sprintfInt_le hz
  have hr : r.length = 13 := h.length_eq.trans (length_printed (by omega))
  have hread : (stack.recv r 13).read 13 = r := by
    rw [← hr]
    exact Mem.read_recv le_rfl
  obtain ⟨t, rfl⟩ := h.exists_eq
  simp only [report, hread, isnumber_sprintfInt, atoi_sprintfInt hz,
    cstring_append_zero (zero_notMem_sprintfInt z)]

/-! ## The daemon -/

/-- What a child of `tunneld` does with a request. -/
inductive Registration (Addr : Type*)
  /-- It answers its client and relays to the server. -/
  | relay (response : List (Option UInt8)) (server : Addr × ℕ)
  /-- It answers that there is no such server, and ends. -/
  | refuse (response : List (Option UInt8))
  /-- It reads on behind its arrays. -/
  | fault

variable {Addr : Type*}

/-- The child that `registration_proc` of `tunneld` forks for the datagram `d`; its socket has the
port `rand_port`. -/
def tunnelRegistration (net : Resolver Addr) (rand_port : ℕ) (d : List UInt8) :
    Registration Addr :=
  -- `bzero` clears both arrays before each datagram
  let packet := (Mem.recv (fun _ => 0) d (2 * MAX_BUF)).read (2 * MAX_BUF)
  if 0 ∉ packet then .fault
  else
    match net.gethostbyname (cstring packet) with
    | none => .refuse (printed 13 (-1))
    | some hp =>
      match atoi (packet.drop MAX_BUF) with
      | none => .fault
      | some port => .relay (printed 13 rand_port) (hp, htons port)

theorem length_copied {s : List UInt8} (h : s.length < MAX_BUF) : (copied s).length = MAX_BUF := by
  rw [copied, List.length_append, List.length_replicate]
  omega

theorem copied_eq {s : List UInt8} (h : s.length < MAX_BUF) :
    copied s = s ++ 0 :: List.replicate (MAX_BUF - s.length - 1) 0 := by
  rw [copied, ← List.replicate_succ]
  congr 2
  omega

/-- **A child finds the arguments of the client.** -/
theorem tunnelRegistration_packet (net : Resolver Addr) (rand_port : ℕ) {c : Command}
    {d : List UInt8} (h : c.packet = some d) :
    tunnelRegistration net rand_port d =
      match net.gethostbyname c.rserver_host with
      | none => .refuse (printed 13 (-1))
      | some hp => .relay (printed 13 rand_port) (hp, htons (atoiString c.rserver_port)) := by
  obtain ⟨⟨hhost, hport⟩, hd⟩ := Option.ite_none_right_eq_some.mp h
  obtain rfl := Option.some.inj hd
  have hlen : (copied c.rserver_host ++ copied c.rserver_port).length = 2 * MAX_BUF := by
    rw [List.length_append, length_copied hhost, length_copied hport]
    omega
  have hread := Mem.read_recv (m := fun _ => 0) hlen.le
  rw [hlen] at hread
  have hdrop : (copied c.rserver_host ++ copied c.rserver_port).drop MAX_BUF =
      copied c.rserver_port := List.drop_left' (length_copied hhost)
  have hatoi : atoi (copied c.rserver_port) = some (atoiString c.rserver_port) := by
    obtain ⟨port, hvalue⟩ := Option.isSome_iff_exists.mp
      (atoi_isSome (s := c.rserver_port ++ [0]) (by simp))
    rw [copied_eq hport, atoi_append_terminator, atoiString, hvalue, Option.getD_some]
  simp only [tunnelRegistration, hread, hdrop, hatoi]
  rw [if_neg (by rw [copied_eq hhost]; simp), copied_eq hhost, List.append_assoc, List.cons_append,
    cstring_append_zero c.zero_notMem_host]

/-! ## All clients and all children -/

/-- The requests and the answers that were sent so far, with the client of each; the servers of the
children that relay, by the ports of the children; and what the clients have printed. -/
structure Tunnels (Addr : Type*) where
  requests : Set (ℕ × List UInt8)
  child : ℕ → Option (Addr × ℕ)
  answers : Set (ℕ × List UInt8)
  report : ℕ → Option Report
  faulted : Prop

/-- `tunneld` has started, and no client has. -/
def Tunnels.init : Tunnels Addr where
  requests := ∅
  child _ := none
  answers := ∅
  report _ := none
  faulted := False

section Service

variable (net : Resolver Addr) (command : ℕ → Command)

/-- A step of a client, or a child up to its answer. The port of a child is free, and the child of a
refused request gives it back. -/
inductive TunnelStep : Tunnels Addr → Tunnels Addr → Prop
  | request {s j d} : (command j).packet = some d →
      TunnelStep s { s with requests := insert (j, d) s.requests }
  -- `strcpy` writes behind its array
  | overrun {s j} : (command j).packet = none → TunnelStep s { s with faulted := True }
  | relay {s j d p response server r} : (j, d) ∈ s.requests →
      1 ≤ p → p < 2 ^ 16 → s.child p = none →
      tunnelRegistration net p d = .relay response server → SentAs response r →
      TunnelStep s { s with
        child := Function.update s.child p (some server)
        answers := insert (j, r) s.answers }
  | refuse {s j d p response r} : (j, d) ∈ s.requests →
      tunnelRegistration net p d = .refuse response → SentAs response r →
      TunnelStep s { s with answers := insert (j, r) s.answers }
  | fault {s j d p} : (j, d) ∈ s.requests →
      tunnelRegistration net p d = .fault → TunnelStep s { s with faulted := True }
  | receive {s j r} (stack : Mem UInt8) : (j, r) ∈ s.answers → s.report j = none →
      TunnelStep s { s with
        report := Function.update s.report j (some (Relay.report .tunneld stack r)) }

/-- The address that the arguments of a client stand for, `none` for an unknown host. -/
def Command.target (c : Command) : Option (Addr × ℕ) :=
  (net.gethostbyname c.rserver_host).map fun hp => (hp, htons (atoiString c.rserver_port))

namespace Tunnels

/-- A number that a client may be told: a port that relays to its server, or `-1` when there is no
such server. -/
def Tells (s : Tunnels Addr) (j : ℕ) (z : ℤ) : Prop :=
  (∃ p server, z = (p : ℕ) ∧ 1 ≤ p ∧ p < 2 ^ 16 ∧ s.child p = some server ∧
      (command j).target net = some server) ∨
    z = -1 ∧ (command j).target net = none

/-- Requests are those of the clients, answers are true and printed as numbers, and so is what the
clients were told. -/
structure Sound (s : Tunnels Addr) : Prop where
  requests : ∀ j d, (j, d) ∈ s.requests → (command j).packet = some d
  answers : ∀ j r, (j, r) ∈ s.answers →
    ∃ z, s.Tells net command j z ∧ SentAs (printed 13 z) r
  report : ∀ j out, s.report j = some out →
    ∃ z, s.Tells net command j z ∧ out = if z = -1 then .failure else .success (sprintfInt z)
  not_faulted : ¬ s.faulted

variable {net command} {s t : Tunnels Addr} {j : ℕ} {z : ℤ}

theorem Tells.fitsInt (h : s.Tells net command j z) : FitsInt z := by
  rcases h with ⟨p, server, rfl, hpos, hlt, -⟩ | ⟨rfl, -⟩
  · unfold FitsInt
    omega
  · unfold FitsInt
    omega

/-- Children that relay do not end, so that what was true stays true. -/
theorem Tells.mono (h : s.Tells net command j z)
    (hchild : ∀ p c, s.child p = some c → t.child p = some c) : t.Tells net command j z := by
  rcases h with ⟨p, server, hz, hpos, hlt, hp, htarget⟩ | hnone
  · exact .inl ⟨p, server, hz, hpos, hlt, hchild _ _ hp, htarget⟩
  · exact .inr hnone

theorem child_update (hfree : s.child p = none) (new : Addr × ℕ) :
    ∀ q c, s.child q = some c → Function.update s.child p (some new) q = some c := by
  intro q c hq
  rcases eq_or_ne q p with rfl | hne
  · rw [hfree] at hq
    cases hq
  · rwa [Function.update_of_ne hne]

theorem Sound.init : Sound net command (Tunnels.init : Tunnels Addr) where
  requests _ _ h := h.elim
  answers _ _ h := h.elim
  report _ _ h := by cases h
  not_faulted h := h

/-- An answer more, with the children it speaks of. -/
theorem Sound.answer (hs : s.Sound net command) {child : ℕ → Option (Addr × ℕ)}
    {r : List UInt8}
    (hchild : ∀ p c, s.child p = some c → child p = some c)
    (htells : Tells net command { s with child := child } j z) (hr : SentAs (printed 13 z) r) :
    Sound net command { s with child := child, answers := insert (j, r) s.answers } where
  requests := hs.requests
  answers := by
    intro i r' h
    rcases h with heq | hold
    · obtain ⟨rfl, rfl⟩ := Prod.mk.inj heq
      exact ⟨z, htells, hr⟩
    · obtain ⟨z', hz', hr'⟩ := hs.answers i r' hold
      exact ⟨z', hz'.mono hchild, hr'⟩
  report := by
    intro i out h
    obtain ⟨z', hz', hout⟩ := hs.report i out h
    exact ⟨z', hz'.mono hchild, hout⟩
  not_faulted := hs.not_faulted

/-- **One step of a client or a child.** -/
theorem Sound.step (hs : s.Sound net command) (hfits : ∀ j, (command j).packet ≠ none)
    (h : TunnelStep net command s t) : t.Sound net command := by
  cases h with
  | @request j d hd =>
    refine ⟨?_, hs.answers, hs.report, hs.not_faulted⟩
    rintro i d' (heq | hold)
    · obtain ⟨rfl, rfl⟩ := Prod.mk.inj heq
      exact hd
    · exact hs.requests i d' hold
  | @overrun j hnone => exact absurd hnone (hfits j)
  | @relay j d p response server r hreq hpos hlt hfree hact hr =>
    rw [tunnelRegistration_packet net p (hs.requests j d hreq)] at hact
    cases hhost : net.gethostbyname (command j).rserver_host with
    | none => simp [hhost] at hact
    | some hp =>
      obtain ⟨rfl, rfl⟩ := by simpa [hhost] using hact
      apply hs.answer (child_update hfree _) _ hr
      refine .inl ⟨p, _, rfl, hpos, hlt, Function.update_self .., ?_⟩
      rw [Command.target, hhost, Option.map_some]
  | @refuse j d p response r hreq hact hr =>
    rw [tunnelRegistration_packet net p (hs.requests j d hreq)] at hact
    cases hhost : net.gethostbyname (command j).rserver_host with
    | none =>
      obtain rfl := by simpa [hhost] using hact
      apply hs.answer (fun _ _ h => h) _ hr
      exact .inr ⟨rfl, by rw [Command.target, hhost, Option.map_none]⟩
    | some hp => simp [hhost] at hact
  | @fault j d p hreq hact =>
    rw [tunnelRegistration_packet net p (hs.requests j d hreq)] at hact
    cases hhost : net.gethostbyname (command j).rserver_host <;> simp [hhost] at hact
  | @receive j r stack hans hnone =>
    refine ⟨hs.requests, hs.answers, ?_, hs.not_faulted⟩
    intro i out hout
    have hprinted : Function.update s.report j (some (Relay.report .tunneld stack r)) i =
        some out := hout
    rcases eq_or_ne i j with rfl | hne
    · obtain ⟨z, hz, hr⟩ := hs.answers i r hans
      rw [Function.update_self, report_printed .tunneld stack hz.fitsInt hr] at hprinted
      exact ⟨z, hz, (Option.some.inj hprinted).symm⟩
    · rw [Function.update_of_ne hne] at hprinted
      exact hs.report i out hprinted

end Tunnels

end Service

/-- **A client is told the truth.** However requests and answers of all clients are lost, repeated,
delayed and reordered, what `mytunnel` prints is the port of a child that relays to the server that
its arguments name; or a failure, when there is no host of that name. No answer is corrupt, and when
the arguments of all clients have less than a thousand characters no program leaves its arrays. -/
theorem reports_true (net : Resolver Addr) (command : ℕ → Command)
    (hfits : ∀ j, (command j).packet ≠ none) {s : Tunnels Addr}
    (h : Reachable (· = .init) (TunnelStep net command) s) :
    ¬ s.faulted ∧ ∀ j out, s.report j = some out →
      (∃ p server, out = .success (decimal p) ∧ s.child p = some server ∧
        (command j).target net = some server) ∨
      out = .failure ∧ (command j).target net = none := by
  have hsound : s.Sound net command := by
    refine h.invariant ?_ ?_
    · rintro s rfl
      exact .init
    · exact fun s t hs hst => hs.step hfits hst
  refine ⟨hsound.not_faulted, ?_⟩
  intro j out hout
  obtain ⟨z, ⟨p, server, rfl, -, -, hp, htarget⟩ | ⟨rfl, hnone⟩, rfl⟩ := hsound.report j out hout
  · left
    refine ⟨p, server, ?_, hp, htarget⟩
    rw [if_neg (by omega), sprintfInt_natCast]
  · exact .inr ⟨if_pos rfl, hnone⟩

/-- The arguments for a tunnel to `d` and the port `7`. -/
def toSeven : Command where
  rserver_host := [100]
  rserver_port := [55]
  zero_notMem_host := by decide
  zero_notMem_port := by decide

/-- The answer of a child on port `5`, with what its array held behind the text. -/
def portFive : List UInt8 := [53, 0, 9, 9, 9, 9, 9, 9, 9, 9, 9, 9, 9]

theorem sentAs_portFive : SentAs (printed 13 5) portFive := by decide

/-- One client is answered, and reads the answer over an array of nines. -/
theorem reports_true_toSeven : ∃ s : Tunnels ℕ, s.report 0 = some (.success [53]) ∧
    ((∃ p server, Report.success [53] = .success (decimal p) ∧ s.child p = some server ∧
      toSeven.target letters = some server) ∨
      Report.success [53] = .failure ∧ toSeven.target letters = none) := by
  have hpacket : toSeven.packet = some (copied [100] ++ copied [55]) := if_pos (by decide)
  have hact := tunnelRegistration_packet letters 5 hpacket
  have hprinted : report .tunneld (fun _ => 9) portFive = .success [53] :=
    report_printed .tunneld _ (by decide) sentAs_portFive
  have hstart : Reachable (· = .init) (TunnelStep letters fun _ => toSeven) Tunnels.init :=
    .init rfl
  have hasked := hstart.step (.request (j := 0) hpacket)
  have hserved := hasked.step (.relay (j := 0) (p := 5) (Set.mem_insert ..) (by decide) (by decide)
    rfl hact sentAs_portFive)
  have htold := hserved.step (.receive (j := 0) (fun _ => 9) (Set.mem_insert ..) rfl)
  have hreport : some (report .tunneld (fun _ => 9) portFive) = some (.success [53]) := by
    rw [hprinted]
  have hfits : ∀ _ : ℕ, toSeven.packet ≠ none := fun _ => by
    rw [hpacket]
    exact Option.some_ne_none _
  exact ⟨_, hreport, (reports_true letters _ hfits htold).2 0 _ hreport⟩

end NetworkLabs.Relay

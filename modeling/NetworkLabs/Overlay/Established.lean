import NetworkLabs.Overlay.Failure
import NetworkLabs.Relay.Tunnel

/-!
# Routes that are established

Any number of builders ask for routes of their own over the same routers. A router forks for every
datagram it receives, so that a request that is repeated on the way is served by several children,
each on a port of its own. A child that is not the last asks the next router on its own account and
waits; when a reply arrives it answers its upstream with its own port and relays to the port it was
told, on the router it asked. The network loses, repeats, delays and reorders all datagrams, and a
child may give up at any time.

Only the requests and replies of the programs reach a child that waits, a port is not given out
twice, no call of the system fails, and behind a request the buffer of a router holds zeros, not
what was received before. That the builders leave their array `forwards` is not followed here, nor
what comes of it.

## Main definitions

* `Mesh`, `MeshStep`: all builders, routers and children
* `Mesh.Asks`: the builder and the hop that a socket asks for
* `Mesh.Linked`: a path of children, each relaying to the next one
* `Mesh.Sound`: the invariant

## Main results

* `Mesh.Asks.unique`: a socket asks for one builder, as one hop
* `awaitReply_printed`: a child that reads a port relays to it
* `Mesh.Sound.step`: one step of any party
* `established`: a builder is told the first port of a path to its destination
-/

namespace NetworkLabs.Overlay

open CRuntime Transition Relay

/-- A party that asks for a route: a builder, or a child by its socket. -/
inductive Peer (Addr : Type*)
  | builder (b : ℕ)
  | child (sock : Addr × ℕ)

/-- A child waits for the router it has asked, relays, or is at its end. -/
inductive Phase (Addr : Type*)
  | waiting (next : Addr × ℕ)
  | relaying (server : Addr × ℕ)
  | ended

/-- A child: whom it answers, and what it does. -/
structure MeshChild (Addr : Type*) where
  upstream : Peer Addr
  phase : Phase Addr

/-- The requests and the replies that were sent so far, with source and destination; the children,
by their sockets; what the builders have printed; and whether a child has left its arrays or asked a
router that has no address. -/
structure Mesh (Addr : Type*) where
  requests : Set (Peer Addr × (Addr × ℕ) × List UInt8)
  child : Addr × ℕ → Option (MeshChild Addr)
  replies : Set ((Addr × ℕ) × Peer Addr × List UInt8)
  report : ℕ → Option Report
  faulted : Prop

variable {Addr : Type*}

/-- The routers have started, and no builder has. -/
def Mesh.init : Mesh Addr where
  requests := ∅
  child _ := none
  replies := ∅
  report _ := none
  faulted := False

/-- The datagrams that a child sends to its upstream. -/
def repliesOf (sock : Addr × ℕ) (u : Peer Addr) (msgs : List (List (Option UInt8))) :
    Set ((Addr × ℕ) × Peer Addr × List UInt8) :=
  {m | m.1 = sock ∧ m.2.1 = u ∧ ∃ buf ∈ msgs, SentAs buf m.2.2}

/-- `server` of a child that has asked `next`, after the reply. -/
def serverAfter (next : Addr × ℕ) (reply : Option (List UInt8)) : Addr × ℕ :=
  (next.1, htons ((reply.bind fun r => atoi (recvResponse r)).getD 0))

/-- What a child does after `awaitReply`. -/
def phaseAfter (next : Addr × ℕ) (reply : Option (List UInt8)) : Ending → Phase Addr
  | .relay => .relaying (serverAfter next reply)
  | .exit _ | .fault => .ended

section Step

variable [DecidableEq Addr]

/-- A child with its upstream and its phase. -/
def Mesh.put (s : Mesh Addr) (sock : Addr × ℕ) (u : Peer Addr) (phase : Phase Addr) : Mesh Addr :=
  { s with child := Function.update s.child sock (some ⟨u, phase⟩) }

theorem Mesh.child_put_self (s : Mesh Addr) (sock : Addr × ℕ) (u : Peer Addr) (phase : Phase Addr) :
    (s.put sock u phase).child sock = some ⟨u, phase⟩ :=
  Function.update_self ..

theorem Mesh.child_put_of_ne (s : Mesh Addr) {sock sock' : Addr × ℕ} (h : sock' ≠ sock)
    (u : Peer Addr) (phase : Phase Addr) : (s.put sock u phase).child sock' = s.child sock' :=
  Function.update_of_ne h ..

/-- A request or a number of replies more. -/
def Mesh.send (s : Mesh Addr) (requests : Set (Peer Addr × (Addr × ℕ) × List UInt8))
    (replies : Set ((Addr × ℕ) × Peer Addr × List UInt8)) : Mesh Addr :=
  { s with requests := s.requests ∪ requests, replies := s.replies ∪ replies }

/-- A fork of a router for a request: the host and the port of the child, and its buffer. -/
structure Mesh.Forks (s : Mesh Addr) (myUDPport : List UInt8) (u : Peer Addr) (sock : Addr × ℕ)
    (stack : Mem UInt8) (d : List UInt8) : Prop where
  request : (u, (sock.1, htons (atoiString myUDPport)), d) ∈ s.requests
  port_pos : 1 ≤ sock.2
  port_lt : sock.2 < 2 ^ 16
  fresh : s.child sock = none
  zeros : ZeroPast stack d.length

variable (net : Resolver Addr) (myUDPport : List UInt8) (argv : ℕ → List (List UInt8))

/-- A step of a builder, a router or a child. All routers have been started on one port. -/
inductive MeshStep : Mesh Addr → Mesh Addr → Prop
  | build {s b first d} : overlaybuild net (argv b) = some (first, d) →
      MeshStep s (s.send {(.builder b, first, d)} ∅)
  | serve {s u sock stack d response server} : s.Forks myUDPport u sock stack d →
      registration net myUDPport sock.2 stack d = .serve response server →
      MeshStep s ((s.put sock u (.relaying server)).send ∅ (repliesOf sock u [response]))
  | forward {s u sock stack d next str} : s.Forks myUDPport u sock stack d →
      registration net myUDPport sock.2 stack d = .forward (some next) str →
      MeshStep s ((s.put sock u (.waiting next)).send {(.child sock, next, str)} ∅)
  | leave {s u sock stack d} : s.Forks myUDPport u sock stack d →
      registration net myUDPport sock.2 stack d = .leave → MeshStep s (s.put sock u .ended)
  | stray {s u sock stack d str} : s.Forks myUDPport u sock stack d →
      registration net myUDPport sock.2 stack d = .forward none str ∨
        registration net myUDPport sock.2 stack d = .fault →
      MeshStep s { s with faulted := True }
  | await {s sock u next} (reply : Option (List UInt8)) : s.child sock = some ⟨u, .waiting next⟩ →
      (∀ r ∈ reply, ∃ src, (src, .child sock, r) ∈ s.replies) →
      MeshStep s ((s.put sock u (phaseAfter next reply (awaitReply sock.2 reply).2)).send ∅
        (repliesOf sock u (awaitReply sock.2 reply).1))
  | receive {s b src r} (stack : Mem UInt8) : (src, .builder b, r) ∈ s.replies →
      s.report b = none →
      MeshStep s { s with
        report := Function.update s.report b (some (Relay.report .overlayrouter stack r)) }

end Step

/-! ## Replies -/

theorem responseOf_eq (rand_port : ℕ) : responseOf rand_port = printed 13 rand_port := by
  rw [responseOf, printed, sprintfInt_natCast]

theorem htons_of_lt {p : ℕ} (h : p < 2 ^ 16) : htons p = p := by
  unfold htons
  omega

section Replies

variable {p q : ℕ} {r : List UInt8}

/-- **A child that reads a port answers and relays to it.** -/
theorem awaitReply_printed (hpos : 1 ≤ q) (hlt : q < 2 ^ 16) (hr : SentAs (printed 13 q) r)
    (next : Addr × ℕ) :
    awaitReply p (some r) = ([printed 13 p], .relay) ∧
      serverAfter next (some r) = (next.1, q) := by
  have hfits : FitsInt (q : ℤ) := by
    unfold FitsInt
    omega
  have hlen := length_sprintfInt_le hfits
  have hwhole : r.length = 13 := hr.length_eq.trans (length_printed (by omega))
  have hread : recvResponse r = r := by
    rw [recvResponse, ← hwhole]
    exact Mem.read_recv le_rfl
  obtain ⟨t, ht⟩ := hr.exists_eq
  have hnumber : isnumber r = some true := ht ▸ isnumber_sprintfInt q t
  have hvalue : atoi r = some (q : ℤ) := ht ▸ atoi_sprintfInt hfits t
  constructor
  · simp only [awaitReply, hread, hnumber, hvalue, responseOf_eq]
    rw [if_neg (by omega)]
  · simp only [serverAfter, Option.bind_some, hread, hvalue, Option.getD_some]
    rw [htons_of_lt hlt]

theorem eq_of_sentAs_invalid (hr : SentAs invalid r) : r = [65] := by
  cases hr with
  | cons hcell hrest =>
    cases hrest
    rw [Option.some.inj (hcell.resolve_left (Option.some_ne_none _))]

/-- A child that reads the failure message leaves without a word. -/
theorem awaitReply_invalid (hr : SentAs invalid r) :
    awaitReply p (some r) = ([], .exit (some .notEstablished)) := by
  rw [eq_of_sentAs_invalid hr]
  rfl

/-- The builder reads the failure message, whatever its array holds behind it. -/
theorem report_invalid (stack : Mem UInt8) (hr : SentAs invalid r) :
    report .overlayrouter stack r = .notEstablished := by
  rw [eq_of_sentAs_invalid hr]
  have hread : (stack.recv [65] 13).read 13 = 65 :: (stack.shift 1).read 12 :=
    Mem.read_recv_append stack (by decide) (by decide)
  have hnumber : isnumber (65 :: (stack.shift 1).read 12) = some false := rfl
  simp only [report, hread, hnumber]
  rfl

end Replies

/-! ## Paths of children -/

namespace Mesh

variable {s t : Mesh Addr} {u : Peer Addr} {b i : ℕ}

/-- The party `u` asks the router of index `i` for the builder `b`. -/
inductive Asks (s : Mesh Addr) (b : ℕ) : ℕ → Peer Addr → Prop
  | builder : Asks s b 0 (.builder b)
  | child {i sock u phase} : s.child sock = some ⟨u, phase⟩ → Asks s b i u →
    Asks s b (i + 1) (.child sock)

/-- **A party asks for one builder, and one router.** -/
theorem Asks.unique (h : s.Asks b i u) {b' i' : ℕ} (h' : s.Asks b' i' u) : b = b' ∧ i = i' := by
  induction h generalizing i' with
  | builder =>
    cases h'
    exact ⟨rfl, rfl⟩
  | child hchild _ ih =>
    cases h' with
    | child hchild' hu =>
      obtain rfl := (MeshChild.mk.inj (Option.some.inj (hchild.symm.trans hchild'))).1
      obtain ⟨rfl, rfl⟩ := ih hu
      exact ⟨rfl, rfl⟩

/-- A path of children that starts for `u`: one on each of the routers, that relays to the next
one, and the last to `dst`. -/
inductive Linked (s : Mesh Addr) (addr : List UInt8 → Addr) (dst : Addr × ℕ) :
    Peer Addr → List (List UInt8) → List (Addr × ℕ) → Prop
  | last {u r sock} : sock.1 = addr r → s.child sock = some ⟨u, .relaying dst⟩ →
    Linked s addr dst u [r] [sock]
  | hop {u r rs sock next socks} : sock.1 = addr r → s.child sock = some ⟨u, .relaying next⟩ →
    Linked s addr dst (.child sock) rs (next :: socks) →
    Linked s addr dst u (r :: rs) (sock :: next :: socks)

variable {addr : List UInt8 → Addr} {dst : Addr × ℕ} {rs : List (List UInt8)}
  {socks : List (Addr × ℕ)}

/-- All children of a path were asked for its builder. -/
theorem Linked.asks (h : s.Linked addr dst u rs socks) (hu : s.Asks b i u) :
    ∀ sock ∈ socks, ∃ j, s.Asks b j (.child sock) := by
  induction h generalizing i with
  | last _ hchild =>
    intro sock hsock
    rw [List.mem_singleton.mp hsock]
    exact ⟨_, .child hchild hu⟩
  | hop _ hchild _ ih =>
    intro sock hsock
    rcases List.mem_cons.mp hsock with rfl | hsock
    · exact ⟨_, .child hchild hu⟩
    · exact ih (.child hchild hu) sock hsock

/-- Children keep their upstream, and relay to one server for ever. -/
def Later (s t : Mesh Addr) : Prop :=
  ∀ sock u phase, s.child sock = some ⟨u, phase⟩ →
    ∃ phase', t.child sock = some ⟨u, phase'⟩ ∧
      ∀ server, phase = .relaying server → phase' = .relaying server

theorem Later.of_child_eq (h : t.child = s.child) : s.Later t :=
  fun sock u phase hsock => ⟨phase, by rw [h, hsock], fun _ h => h⟩

theorem Asks.mono (h : s.Asks b i u) (hlater : s.Later t) : t.Asks b i u := by
  induction h with
  | builder => exact .builder
  | child hchild _ ih =>
    obtain ⟨phase', hchild', -⟩ := hlater _ _ _ hchild
    exact .child hchild' ih

theorem Later.relaying (hlater : s.Later t) {sock server : Addr × ℕ}
    (h : s.child sock = some ⟨u, .relaying server⟩) :
    t.child sock = some ⟨u, .relaying server⟩ := by
  obtain ⟨phase', hchild, hphase⟩ := hlater _ _ _ h
  rwa [hphase server rfl] at hchild

theorem Linked.mono (h : s.Linked addr dst u rs socks) (hlater : s.Later t) :
    t.Linked addr dst u rs socks := by
  induction h with
  | last hhost hchild => exact .last hhost (hlater.relaying hchild)
  | hop hhost hchild _ ih => exact .hop hhost (hlater.relaying hchild) ih

end Mesh

/-! ## The invariant -/

/-- The destination of a route. -/
def Route.target (R : Route) (addr : List UInt8 → Addr) : Addr × ℕ :=
  (addr R.dst, htons (atoiString R.port))

/-- The builder names routers that know all names of the route, on the port they were started on,
and every message fits. -/
structure Route.Served (R : Route) (net : Resolver Addr) (addr : List UInt8 → Addr)
    (myUDPport : List UInt8) : Prop where
  overlay_port : R.overlay_port = myUDPport
  port_pos : 0 < atoiString myUDPport
  resolves : R.Resolves net addr (R.listener addr (R.routers.head R.routers_ne))
  fits : R.Fits

/-- **A router does the next thing on the route**: it asks the next router, or serves. -/
theorem Route.Served.registration {R : Route} {net : Resolver Addr} {addr : List UInt8 → Addr}
    {myUDPport : List UInt8} (hserved : R.Served net addr myUDPport) {i : ℕ}
    (h : i < R.routers.length) (p : ℕ) {stack : Mem UInt8}
    (hzeros : ZeroPast stack (R.startingAt i h).message.length) :
    registration net myUDPport p stack (R.startingAt i h).message =
      if h' : i + 1 < R.routers.length then
        .forward (some (R.listener addr R.routers[i + 1])) (R.startingAt (i + 1) h').message
      else .serve (printed 13 p) (R.target addr) := by
  obtain ⟨rfl, hpos, hres, hfits⟩ := hserved
  split
  · next h' => exact R.registration_startingAt hres hfits hpos p h' hzeros
  · obtain rfl : i = R.routers.length - 1 := by omega
    rw [← responseOf_eq]
    exact R.registration_startingAt_last hres hfits hpos p hzeros

namespace Mesh

variable (route : ℕ → Route) (addr : List UInt8 → Addr)

/-- A request is the one for the rest of the route, to the router at its start. -/
def Genuine (s : Mesh Addr) (u : Peer Addr) (dst : Addr × ℕ) (d : List UInt8) : Prop :=
  ∃ b i, ∃ h : i < (route b).routers.length, s.Asks b i u ∧
    dst = (route b).listener addr (route b).routers[i] ∧ d = ((route b).startingAt i h).message

/-- A reply is the failure message, or the port of a child that relays for the one it is sent to. -/
def Told (s : Mesh Addr) (sock : Addr × ℕ) (u : Peer Addr) (r : List UInt8) : Prop :=
  ∃ phase, s.child sock = some ⟨u, phase⟩ ∧
    (SentAs invalid r ∨ SentAs (printed 13 sock.2) r ∧ ∃ server, phase = .relaying server)

/-- What a child on the router of index `i` does: it waits for the next router, or a path to the
destination starts with it. -/
def Fulfils (s : Mesh Addr) (R : Route) (i : ℕ) (u : Peer Addr) (sock : Addr × ℕ) :
    Phase Addr → Prop
  | .waiting next => ∃ h : i + 1 < R.routers.length, next = R.listener addr R.routers[i + 1]
  | .relaying _ => ∃ socks, s.Linked addr (R.target addr) u (R.routers.drop i) (sock :: socks)
  | .ended => True

/-- A child is on the router that its upstream has asked. -/
def Placed (s : Mesh Addr) (sock : Addr × ℕ) (u : Peer Addr) (phase : Phase Addr) : Prop :=
  1 ≤ sock.2 ∧ sock.2 < 2 ^ 16 ∧ ∃ b i, ∃ h : i < (route b).routers.length, s.Asks b i u ∧
    sock.1 = addr (route b).routers[i] ∧ s.Fulfils addr (route b) i u sock phase

/-- What a builder prints: the first port of a path, or that there is none. -/
def Printed (s : Mesh Addr) (b : ℕ) (out : Report) : Prop :=
  out = .notEstablished ∨ ∃ sock socks, out = .success (decimal sock.2) ∧
    s.Linked addr ((route b).target addr) (.builder b) (route b).routers (sock :: socks)

/-- All datagrams and all children are in order, and so is what was printed. -/
structure Sound (s : Mesh Addr) : Prop where
  requests : ∀ u dst d, (u, dst, d) ∈ s.requests → s.Genuine route addr u dst d
  child : ∀ sock u phase, s.child sock = some ⟨u, phase⟩ → s.Placed route addr sock u phase
  replies : ∀ sock u r, (sock, u, r) ∈ s.replies → s.Told sock u r
  report : ∀ b out, s.report b = some out → s.Printed route addr b out
  not_faulted : ¬ s.faulted

variable {route addr} {s t : Mesh Addr} {u : Peer Addr} {sock dst : Addr × ℕ}
  {phase : Phase Addr} {d r : List UInt8} {b i : ℕ}

/-! ### What stays true -/

section Later

variable (hlater : s.Later t)

include hlater

theorem Genuine.mono (h : s.Genuine route addr u dst d) : t.Genuine route addr u dst d := by
  obtain ⟨b, i, hi, hasks, hdst, hd⟩ := h
  exact ⟨b, i, hi, hasks.mono hlater, hdst, hd⟩

theorem Told.mono (h : s.Told sock u r) : t.Told sock u r := by
  obtain ⟨phase, hchild, hr⟩ := h
  obtain ⟨phase', hchild', hphase⟩ := hlater _ _ _ hchild
  refine ⟨phase', hchild', ?_⟩
  rcases hr with hinvalid | ⟨hprinted, server, hserver⟩
  · exact .inl hinvalid
  · exact .inr ⟨hprinted, server, hphase server hserver⟩

theorem Placed.mono (h : s.Placed route addr sock u phase) : t.Placed route addr sock u phase := by
  obtain ⟨hpos, hlt, b, i, hi, hasks, hhost, hful⟩ := h
  refine ⟨hpos, hlt, b, i, hi, hasks.mono hlater, hhost, ?_⟩
  cases phase with
  | waiting next => exact hful
  | relaying server =>
    obtain ⟨socks, hlinked⟩ := hful
    exact ⟨socks, hlinked.mono hlater⟩
  | ended => trivial

theorem Printed.mono {out : Report} (h : s.Printed route addr b out) :
    t.Printed route addr b out := by
  rcases h with hnone | ⟨sock, socks, hout, hlinked⟩
  · exact .inl hnone
  · exact .inr ⟨sock, socks, hout, hlinked.mono hlater⟩

end Later

/-! ### One step -/

theorem Sound.init : Sound route addr (Mesh.init : Mesh Addr) where
  requests _ _ _ h := h.elim
  child _ _ _ h := by cases h
  replies _ _ _ h := h.elim
  report _ _ h := by cases h
  not_faulted h := h

theorem Sound.send (hs : s.Sound route addr) {requests : Set (Peer Addr × (Addr × ℕ) × List UInt8)}
    {replies : Set ((Addr × ℕ) × Peer Addr × List UInt8)}
    (hreq : ∀ u dst d, (u, dst, d) ∈ requests → s.Genuine route addr u dst d)
    (hrep : ∀ sock u r, (sock, u, r) ∈ replies → s.Told sock u r) :
    (s.send requests replies).Sound route addr := by
  have hlater : s.Later (s.send requests replies) := .of_child_eq rfl
  refine ⟨?_, ?_, ?_, fun b out h => (hs.report b out h).mono hlater, hs.not_faulted⟩
  · rintro u dst d (hold | hnew)
    · exact (hs.requests u dst d hold).mono hlater
    · exact (hreq u dst d hnew).mono hlater
  · exact fun sock u phase h => (hs.child sock u phase h).mono hlater
  · rintro sock u r (hold | hnew)
    · exact (hs.replies sock u r hold).mono hlater
    · exact (hrep sock u r hnew).mono hlater

theorem told_of_mem_repliesOf {msgs : List (List (Option UInt8))}
    (hchild : s.child sock = some ⟨u, phase⟩)
    (hmsgs : ∀ buf ∈ msgs, buf = invalid ∨
      buf = printed 13 sock.2 ∧ ∃ server, phase = .relaying server) :
    ∀ sock' u' r, (sock', u', r) ∈ repliesOf sock u msgs → s.Told sock' u' r := by
  rintro _ _ r ⟨rfl, rfl, buf, hbuf, hr⟩
  refine ⟨phase, hchild, ?_⟩
  rcases hmsgs buf hbuf with rfl | ⟨rfl, hserver⟩
  · exact .inl hr
  · exact .inr ⟨hr, hserver⟩

/-- A path is one child longer once the child has read the port of the next one. -/
theorem Sound.linked (hs : s.Sound route addr) {next src : Addr × ℕ} {server : Addr × ℕ}
    (hwait : s.child sock = some ⟨u, .waiting next⟩)
    (hsrc : s.child src = some ⟨.child sock, .relaying server⟩) {t : Mesh Addr} (hlater : s.Later t)
    (hrelay : t.child sock = some ⟨u, .relaying (next.1, src.2)⟩) :
    t.Placed route addr sock u (.relaying (next.1, src.2)) := by
  obtain ⟨hpos, hlt, b, i, hi, hasks, hhost, h', rfl⟩ := hs.child _ _ _ hwait
  obtain ⟨-, -, b', j, hj, hasks', hhost', socks, hlinked⟩ := hs.child _ _ _ hsrc
  -- both were asked on behalf of the child, which asks for one builder
  obtain ⟨rfl, rfl⟩ := hasks'.unique (.child hwait hasks)
  refine ⟨hpos, hlt, b', i, hi, hasks.mono hlater, hhost, src :: socks, ?_⟩
  have hnext : ((route b').listener addr (route b').routers[i + 1]).1 = src.1 := hhost'.symm
  rw [hnext] at hrelay
  rw [List.drop_eq_getElem_cons hi]
  exact .hop hhost hrelay (hlinked.mono hlater)

theorem Sound.receive (hs : s.Sound route addr) {src : Addr × ℕ} (stack : Mem UInt8)
    (hr : (src, .builder b, r) ∈ s.replies) :
    s.Printed route addr b (Relay.report .overlayrouter stack r) := by
  obtain ⟨phase, hchild, hinvalid | ⟨hprinted, server, rfl⟩⟩ := hs.replies _ _ _ hr
  · exact .inl (report_invalid stack hinvalid)
  · obtain ⟨hpos, hlt, b', j, hj, hasks, -, socks, hlinked⟩ := hs.child _ _ _ hchild
    obtain ⟨rfl, rfl⟩ := hasks.unique .builder
    have hfits : FitsInt (src.2 : ℤ) := by
      unfold FitsInt
      omega
    refine .inr ⟨src, socks, ?_, hlinked⟩
    rw [report_printed .overlayrouter stack hfits hprinted, if_neg (by omega), sprintfInt_natCast]

section Put

variable [DecidableEq Addr]

/-- A child may start, or stop to wait. -/
theorem later_put (h : s.child sock = none ∨ ∃ next, s.child sock = some ⟨u, .waiting next⟩) :
    s.Later (s.put sock u phase) := by
  intro sock' u' phase' hchild
  rcases eq_or_ne sock' sock with rfl | hne
  · rcases h with hnone | ⟨next, hwait⟩
    · rw [hnone] at hchild
      cases hchild
    · rw [hwait] at hchild
      obtain ⟨rfl, rfl⟩ := MeshChild.mk.inj (Option.some.inj hchild)
      exact ⟨phase, child_put_self .., fun server hserver => by cases hserver⟩
  · exact ⟨phase', by rw [child_put_of_ne s hne, hchild], fun _ h => h⟩

theorem Sound.put (hs : s.Sound route addr) (hlater : s.Later (s.put sock u phase))
    (hplaced : (s.put sock u phase).Placed route addr sock u phase) :
    (s.put sock u phase).Sound route addr where
  requests u' dst d h := (hs.requests u' dst d h).mono hlater
  child := by
    intro sock' u' phase' h
    rcases eq_or_ne sock' sock with rfl | hne
    · rw [child_put_self] at h
      obtain ⟨rfl, rfl⟩ := MeshChild.mk.inj (Option.some.inj h)
      exact hplaced
    · rw [child_put_of_ne s hne] at h
      exact (hs.child sock' u' phase' h).mono hlater
  replies sock' u' r h := (hs.replies sock' u' r h).mono hlater
  report b out h := (hs.report b out h).mono hlater
  not_faulted := hs.not_faulted

theorem Sound.await (hs : s.Sound route addr) {next : Addr × ℕ} {reply : Option (List UInt8)}
    (hwait : s.child sock = some ⟨u, .waiting next⟩)
    (hreply : ∀ r ∈ reply, ∃ src, (src, .child sock, r) ∈ s.replies) :
    ((s.put sock u (phaseAfter next reply (awaitReply sock.2 reply).2)).send ∅
      (repliesOf sock u (awaitReply sock.2 reply).1)).Sound route addr := by
  have hlater : ∀ phase, s.Later (s.put sock u phase) := fun phase => later_put (.inr ⟨next, hwait⟩)
  obtain ⟨hpos, hlt, b, i, hi, hasks, hhost, -⟩ := hs.child _ _ _ hwait
  -- a child that gives up sends the failure message at most
  have hend : ∀ msgs : List (List (Option UInt8)), (∀ buf ∈ msgs, buf = invalid) →
      ((s.put sock u .ended).send ∅ (repliesOf sock u msgs)).Sound route addr := by
    intro msgs hmsgs
    have hplaced : (s.put sock u .ended).Placed route addr sock u .ended :=
      ⟨hpos, hlt, b, i, hi, hasks.mono (hlater _), hhost, trivial⟩
    refine (hs.put (hlater _) hplaced).send (fun _ _ _ h => h.elim) ?_
    exact told_of_mem_repliesOf (s.child_put_self ..) fun buf hbuf => .inl (hmsgs buf hbuf)
  cases reply with
  | none => exact hend [invalid] fun buf hbuf => List.mem_singleton.mp hbuf
  | some r =>
    obtain ⟨src, hsrc⟩ := hreply r rfl
    obtain ⟨phase, hchild, hinvalid | ⟨hprinted, server, rfl⟩⟩ := hs.replies _ _ _ hsrc
    · rw [awaitReply_invalid hinvalid]
      exact hend [] fun buf hbuf => by cases hbuf
    · obtain ⟨hspos, hslt, -⟩ := hs.child _ _ _ hchild
      obtain ⟨hout, hserver⟩ := awaitReply_printed (p := sock.2) hspos hslt hprinted next
      simp only [hout, phaseAfter, hserver]
      have hself := s.child_put_self sock u (.relaying (next.1, src.2))
      refine (hs.put (hlater _) (hs.linked hwait hchild (hlater _) hself)).send
        (fun _ _ _ h => h.elim) ?_
      apply told_of_mem_repliesOf hself
      intro buf hbuf
      exact .inr ⟨List.mem_singleton.mp hbuf, _, rfl⟩

end Put

section Steps

variable {net : Resolver Addr} {myUDPport program : List UInt8}
  (hserved : ∀ b, (route b).Served net addr myUDPport)

include hserved

/-- A fork is for a request of the route, and the child does the next thing on it. -/
theorem Sound.forks (hs : s.Sound route addr) {stack : Mem UInt8}
    (h : s.Forks myUDPport u sock stack d) :
    ∃ b i, ∃ hi : i < (route b).routers.length, s.Asks b i u ∧
      sock.1 = addr (route b).routers[i] ∧
      registration net myUDPport sock.2 stack d =
        if h' : i + 1 < (route b).routers.length then
          .forward (some ((route b).listener addr (route b).routers[i + 1]))
            ((route b).startingAt (i + 1) h').message
        else .serve (printed 13 sock.2) ((route b).target addr) := by
  obtain ⟨b, i, hi, hasks, hdst, rfl⟩ := hs.requests _ _ _ h.request
  exact ⟨b, i, hi, hasks, congrArg Prod.fst hdst, (hserved b).registration hi _ h.zeros⟩

variable [DecidableEq Addr]

theorem Sound.serve (hs : s.Sound route addr) {stack : Mem UInt8}
    (h : s.Forks myUDPport u sock stack d) {response : List (Option UInt8)} {server : Addr × ℕ}
    (hact : registration net myUDPport sock.2 stack d = .serve response server) :
    ((s.put sock u (.relaying server)).send ∅ (repliesOf sock u [response])).Sound route addr := by
  obtain ⟨b, i, hi, hasks, hhost, hreg⟩ := hs.forks hserved h
  have hlater : s.Later (s.put sock u (.relaying server)) := later_put (.inl h.fresh)
  rw [hreg] at hact
  split at hact
  · cases hact
  · obtain ⟨rfl, rfl⟩ := Action.serve.inj hact
    have hself := s.child_put_self sock u (.relaying ((route b).target addr))
    have hlast : (route b).routers.drop i = [(route b).routers[i]] := by
      rw [List.drop_eq_getElem_cons hi, List.drop_eq_nil_of_le (by omega)]
    refine (hs.put hlater ?_).send ?_ ?_
    · refine ⟨h.port_pos, h.port_lt, b, i, hi, hasks.mono hlater, hhost, [], ?_⟩
      rw [hlast]
      exact .last hhost hself
    · exact fun _ _ _ h => h.elim
    · apply told_of_mem_repliesOf hself
      intro buf hbuf
      exact .inr ⟨List.mem_singleton.mp hbuf, _, rfl⟩

theorem Sound.forward (hs : s.Sound route addr) {stack : Mem UInt8}
    (h : s.Forks myUDPport u sock stack d) {next : Addr × ℕ} {str : List UInt8}
    (hact : registration net myUDPport sock.2 stack d = .forward (some next) str) :
    ((s.put sock u (.waiting next)).send {(.child sock, next, str)} ∅).Sound route addr := by
  obtain ⟨b, i, hi, hasks, hhost, hreg⟩ := hs.forks hserved h
  have hlater : s.Later (s.put sock u (.waiting next)) := later_put (.inl h.fresh)
  rw [hreg] at hact
  split at hact
  · next h' =>
    obtain ⟨hnext, rfl⟩ := Action.forward.inj hact
    obtain rfl := Option.some.inj hnext
    have hasks' := hasks.mono hlater
    refine (hs.put hlater ⟨h.port_pos, h.port_lt, b, i, hi, hasks', hhost, h', rfl⟩).send ?_ ?_
    -- the child asks the router behind its own
    · rintro _ _ _ ⟨rfl, rfl, rfl⟩
      exact ⟨b, i + 1, h', .child (s.child_put_self ..) hasks', rfl, rfl⟩
    · exact fun _ _ _ h => h.elim
  · cases hact

/-- **One step of a builder, a router or a child.** -/
theorem Sound.step (hs : s.Sound route addr)
    (h : MeshStep net myUDPport (fun b => (route b).argv program) s t) : t.Sound route addr := by
  cases h with
  | @build b first d hbuild =>
    rw [(route b).overlaybuild_eq (hserved b).resolves (hserved b).fits program] at hbuild
    obtain ⟨rfl, rfl⟩ := Prod.mk.inj (Option.some.inj hbuild)
    refine hs.send ?_ fun _ _ _ h => h.elim
    rintro _ _ _ ⟨rfl, rfl, rfl⟩
    exact ⟨b, 0, List.length_pos_of_ne_nil (route b).routers_ne, .builder,
      by rw [List.head_eq_getElem], rfl⟩
  | serve hforks hact => exact hs.serve hserved hforks hact
  | forward hforks hact => exact hs.forward hserved hforks hact
  | leave hforks hact =>
    obtain ⟨b, i, hi, -, -, hreg⟩ := hs.forks hserved hforks
    rw [hreg] at hact
    split at hact <;> cases hact
  | stray hforks hact =>
    obtain ⟨b, i, hi, -, -, hreg⟩ := hs.forks hserved hforks
    rw [hreg] at hact
    split at hact <;> simp at hact
  | await reply hwait hreply => exact hs.await hwait hreply
  | @receive b src r stack hr hnone =>
    have hlater : s.Later { s with
        report := Function.update s.report b (some (Relay.report .overlayrouter stack r)) } :=
      .of_child_eq rfl
    refine ⟨fun u dst d h => (hs.requests u dst d h).mono hlater,
      fun sock u phase h => (hs.child sock u phase h).mono hlater,
      fun sock u r h => (hs.replies sock u r h).mono hlater, ?_, hs.not_faulted⟩
    intro b' out hout
    have hprinted : Function.update s.report b (some (Relay.report .overlayrouter stack r)) b' =
        some out := hout
    rcases eq_or_ne b' b with rfl | hne
    · rw [Function.update_self] at hprinted
      rw [← Option.some.inj hprinted]
      exact (hs.receive stack hr).mono hlater
    · rw [Function.update_of_ne hne] at hprinted
      exact (hs.report b' out hprinted).mono hlater

/-- The invariant holds in every reachable state. -/
theorem Sound.of_reachable
    (h : Reachable (· = .init) (MeshStep net myUDPport fun b => (route b).argv program) s) :
    s.Sound route addr := by
  refine h.invariant ?_ ?_
  · rintro s rfl
    exact .init
  · exact fun s t hs hst => hs.step hserved hst

end Steps

end Mesh

/-- **A builder is told the truth.** However the requests and replies of all builders are lost,
repeated, delayed and reordered, and whoever gives up, a builder prints the port of the first child
of a path that visits the routers of its route in order and ends at its destination, or that there
is no route. The paths of two builders have no child in common, and no child leaves its arrays. -/
theorem established [DecidableEq Addr] (net : Resolver Addr) (addr : List UInt8 → Addr)
    (myUDPport program : List UInt8) (route : ℕ → Route)
    (hserved : ∀ b, (route b).Served net addr myUDPport) {s : Mesh Addr}
    (h : Reachable (· = .init) (MeshStep net myUDPport fun b => (route b).argv program) s) :
    ¬ s.faulted ∧
    (∀ b out, s.report b = some out → out = .notEstablished ∨
      ∃ sock socks, out = .success (decimal sock.2) ∧
        s.Linked addr ((route b).target addr) (.builder b) (route b).routers (sock :: socks)) ∧
    ∀ b b' socks socks', b ≠ b' →
      s.Linked addr ((route b).target addr) (.builder b) (route b).routers socks →
      s.Linked addr ((route b').target addr) (.builder b') (route b').routers socks' →
      socks.Disjoint socks' := by
  have hsound : s.Sound route addr := .of_reachable hserved h
  refine ⟨hsound.not_faulted, hsound.report, ?_⟩
  intro b b' socks socks' hne hlinked hlinked' sock hsock hsock'
  obtain ⟨i, hasks⟩ := hlinked.asks .builder sock hsock
  obtain ⟨i', hasks'⟩ := hlinked'.asks .builder sock hsock'
  exact hne (hasks.unique hasks').1

/-! ## One builder and two routers -/

theorem twoRouters_served :
    twoRouters.Served letters (fun s => (s.headD 0).toNat) [57] where
  overlay_port := rfl
  port_pos := nine_pos
  resolves := twoRouters_resolves
  fits := twoRouters_fits

/-- The builder has asked the router `a`. -/
def askedMesh : Mesh ℕ := Mesh.init.send {(.builder 0, (97, 9), twoRouters.message)} ∅

/-- The router `a` has asked the router `b`. -/
def waitingMesh : Mesh ℕ :=
  (askedMesh.put (97, 5) (.builder 0) (.waiting (98, 9))).send
    {(.child (97, 5), (98, 9), (twoRouters.startingAt 1 (by decide)).message)} ∅

/-- The router `b` has answered. -/
def servedMesh : Mesh ℕ :=
  (waitingMesh.put (98, 6) (.child (97, 5)) (.relaying (100, 7))).send ∅
    (repliesOf (98, 6) (.child (97, 5)) [printed 13 6])

/-- The router `a` has read the answer and answered the builder. -/
def linkedMesh : Mesh ℕ :=
  (servedMesh.put (97, 5) (.builder 0) (.relaying (98, 6))).send ∅
    (repliesOf (97, 5) (.builder 0) [printed 13 5])

/-- The text of a port `0` to `9`, with what the array of the child held behind it. -/
def portText (p : UInt8) : List UInt8 := [48 + p, 0, 9, 9, 9, 9, 9, 9, 9, 9, 9, 9, 9]

theorem reachable_linkedMesh :
    Reachable (· = .init) (MeshStep letters [57] fun _ => twoRouters.argv [111]) linkedMesh := by
  have hasked : MeshStep letters [57] (fun _ => twoRouters.argv [111]) Mesh.init askedMesh :=
    .build (twoRouters.overlaybuild_eq twoRouters_resolves twoRouters_fits [111])
  have hfirst : askedMesh.Forks [57] (.builder 0) (97, 5) (fun _ => 0) twoRouters.message :=
    ⟨.inr rfl, by decide, by decide, rfl, fun _ _ _ => rfl⟩
  have hwaiting : MeshStep letters [57] (fun _ => twoRouters.argv [111]) askedMesh waitingMesh :=
    .forward hfirst ((twoRouters_served.registration (by decide : 0 < 2) 5 hfirst.zeros).trans
      (dif_pos (by decide)))
  have hsecond : waitingMesh.Forks [57] (.child (97, 5)) (98, 6) (fun _ => 0)
      (twoRouters.startingAt 1 (by decide)).message :=
    ⟨.inr rfl, by decide, by decide, rfl, fun _ _ _ => rfl⟩
  have hserved : MeshStep letters [57] (fun _ => twoRouters.argv [111]) waitingMesh servedMesh :=
    .serve hsecond ((twoRouters_served.registration (by decide : 1 < 2) 6 hsecond.zeros).trans
      (dif_neg (by decide)))
  have hsent : SentAs (printed 13 6) (portText 6) := by decide
  obtain ⟨hout, hserver⟩ := awaitReply_printed (p := 5) (q := 6) (by decide) (by decide) hsent
    ((98, 9) : ℕ × ℕ)
  have hlinked : MeshStep letters [57] (fun _ => twoRouters.argv [111]) servedMesh linkedMesh := by
    have hreply : ∀ r ∈ some (portText 6),
        ∃ src, (src, Peer.child (97, 5), r) ∈ servedMesh.replies := by
      intro r hr
      rw [← Option.some.inj hr]
      exact ⟨(98, 6), .inr ⟨rfl, rfl, _, List.mem_singleton_self _, hsent⟩⟩
    have hawait : MeshStep letters [57] (fun _ => twoRouters.argv [111]) servedMesh _ :=
      .await (some (portText 6)) rfl hreply
    simp only [hout, phaseAfter, hserver] at hawait
    exact hawait
  have hstart : Reachable (· = .init) (MeshStep letters [57] fun _ => twoRouters.argv [111])
      Mesh.init := .init rfl
  exact (((hstart.step hasked).step hwaiting).step hserved).step hlinked

/-- The builder has read the answer of the router `a` over an array of nines. -/
def toldMesh : Mesh ℕ :=
  { linkedMesh with
    report := Function.update linkedMesh.report 0
      (some (report .overlayrouter (fun _ => 9) (portText 5))) }

theorem sentAs_portText_five : SentAs (printed 13 5) (portText 5) := by decide

theorem reachable_toldMesh :
    Reachable (· = .init) (MeshStep letters [57] fun _ => twoRouters.argv [111]) toldMesh :=
  reachable_linkedMesh.step (.receive (b := 0) (fun _ => 9)
    (.inr ⟨rfl, rfl, _, List.mem_singleton_self _, sentAs_portText_five⟩) rfl)

theorem report_toldMesh : toldMesh.report 0 = some (.success [53]) := by
  have hread : report .overlayrouter (fun _ => 9) (portText 5) = .success [53] :=
    report_printed .overlayrouter _ (by decide) sentAs_portText_five
  rw [← hread]
  rfl

/-- The builder of the route reads the port of the first router. -/
theorem established_twoRouters : Report.success [53] = .notEstablished ∨ ∃ sock socks,
    Report.success [53] = .success (decimal sock.2) ∧ toldMesh.Linked
      (fun s => (s.headD 0).toNat) (100, 7) (.builder 0) [[97], [98]] (sock :: socks) :=
  (established letters _ [57] [111] (fun _ => twoRouters) (fun _ => twoRouters_served)
    reachable_toldMesh).2.1 0 _ report_toldMesh

end NetworkLabs.Overlay

import NetworkLabs.Ping.Exchange
import NetworkLabs.Relay.Drain

/-!
# A ping through relays

A client sends its ping to the first relay of a chain, and the destination of the chain is a server.
The links keep the order and lose nothing, and nobody else sends on them. The client sends once
only, so that its fate depends on the counter of the server alone: the fourth datagram is dropped,
and nobody makes up for it.

## Main definitions

* `Journey`: the chain, the client and the server
* `Journey.Turn`, `Journey.Step`: one party receives; the steps of all parties
* `Journey.Sound`: the invariant

## Main results

* `Journey.Step.reachable_net`: a step is a row of steps of the chain
* `Journey.Sound.step`: one step of any party
* `Journey.lowers_turn`: receiving comes to an end
* `round_trip_through`: what a client behind a chain reports
-/

namespace NetworkLabs.Ping

open CRuntime Relay Transition

/-- What a server that holds `secretKey` sends back to a ping, when its counter stands at
`request_number`. -/
def reply (K : Key) (secretKey : List UInt8) (request_number : ℕ) : List (List UInt8) :=
  if secretKey = K.text ∧ request_number ≠ 4 then [terve] else []

/-- A server does not end at a ping. -/
theorem serve_ping {K : Key} {rand : ℕ → ℕ} {x : Arrival}
    (hx : x.datagram = pingMessage K.text rand) (secretKey : List UInt8) (request_number : ℕ) :
    ∃ next, serve secretKey request_number x = some (next, reply K secretKey request_number) := by
  unfold reply
  by_cases hkey : secretKey = K.text
  · rw [hkey, serve_of_key hx]
    by_cases hdrop : request_number = 4
    · rw [if_pos hdrop, if_neg fun h => h.2 hdrop]
      exact ⟨1, rfl⟩
    · rw [if_neg hdrop, if_pos ⟨rfl, hdrop⟩]
      exact ⟨request_number + 1, rfl⟩
  · rw [if_neg fun h => hkey h.1]
    cases hserve : serve secretKey request_number x with
    | none =>
      obtain ⟨-, htoken⟩ := of_serve_eq_none hserve
      rw [hx, firstToken_pingMessage] at htoken
      cases htoken
    | some p =>
      obtain ⟨next, out⟩ := p
      obtain rfl : out = [] := by
        refine List.eq_nil_iff_forall_not_mem.mpr fun r hr => ?_
        exact hkey (serve_pingMessage hx hserve hr).2
      exact ⟨next, rfl⟩

/-- A chain with a client at its one end and a server at the other one. -/
structure Journey where
  net : Net
  client : Client
  server : Option ℕ

namespace Journey

section Step

variable (C : Chain) (K : Key) (secretKey : List UInt8)

/-- The destination has received `d` from `src`, which leaves `rest` on the link, and has sent
`out` back. -/
def answered (n : Net) (src : SockAddr) (d : List UInt8) (rest out : List (List UInt8)) : Net :=
  { n with
    destGot := n.destGot ++ [d]
    heard := src :: n.heard
    destSent := n.destSent ++ out
    link := out.foldl (fun l r => l.push (C.addr (C.k + 1)) src r)
      (n.link.set src (C.addr (C.k + 1)) rest) }

/-- One party receives and does what it does then. -/
inductive Turn : Journey → Journey → Prop
  | relay {s i src d rest} : i < C.k → s.net.link src (C.addr (i + 1)) = d :: rest →
      Turn s { s with
        net := s.net.relayRound C i (some (src, d)) (s.net.link.set src (C.addr (i + 1)) rest) }
  | serve {s src rest request_number} {x : Arrival} :
      s.net.link src (C.addr (C.k + 1)) = x.datagram :: rest → s.server = some request_number →
      Turn s { s with
        net := answered C s.net src x.datagram rest
          ((Ping.serve secretKey request_number x).elim [] Prod.snd)
        server := (Ping.serve secretKey request_number x).map Prod.fst }
  | receive {s src r rest got_interrupt} (stack : Mem UInt8) :
      s.net.link src (C.addr 0) = r :: rest → s.client = .waiting got_interrupt →
      Turn s { s with
        net := { s.net with
          clientGot := s.net.clientGot ++ [r]
          link := s.net.link.set src (C.addr 0) rest }
        client := response stack r }

/-- A step: the client sends its ping, one party receives, or an alarm goes off. -/
inductive Step : Journey → Journey → Prop
  | ping {s} (rand : ℕ → ℕ) : s.client = .idle →
      Step s { s with
        net := { s.net with
          clientSent := s.net.clientSent ++ [pingMessage K.text rand]
          link := s.net.link.push (C.addr 0) (C.addr 1) (pingMessage K.text rand) }
        client := .waiting 0 }
  | turn {s t} : Turn C secretKey s t → Step s t
  | alarm {s got_interrupt} : s.client = .waiting got_interrupt →
      Step s { s with client := handle_signal_alarm got_interrupt }

end Step

/-- Nothing has been sent, and the counter of the server stands at `request_number`. -/
structure Initial (request_number : ℕ) (s : Journey) : Prop where
  net : s.net.Initial
  client : s.client = .idle
  server : s.server = some request_number

variable {C : Chain} {K : Key} {secretKey : List UInt8} {s t : Journey}

/-! ## Steps of the chain -/

theorem reachable_answered {n : Net} {src : SockAddr} {d : List UInt8} {rest : List (List UInt8)}
    (h : n.link src (C.addr (C.k + 1)) = d :: rest) {out : List (List UInt8)}
    (hout : ∀ r ∈ out, r.length ≤ BUFSIZ) :
    Reachable (· = n) (Net.Step C) (answered C n src d rest out) := by
  have hstart : Reachable (· = n) (Net.Step C) n := .init rfl
  induction out using List.reverseRecOn with
  | nil =>
    have hreceived := hstart.step (.destRecv n src d rest h)
    simpa only [answered, List.append_nil, List.foldl_nil] using hreceived
  | append_singleton out r ih =>
    have hbefore := ih fun r hr => hout r (List.mem_append_left _ hr)
    have hr := hout r (List.mem_append_right _ (List.mem_singleton_self r))
    have hsent := hbefore.step (.destSend _ r hr src List.mem_cons_self)
    simpa only [answered, List.append_assoc, List.foldl_append, List.foldl_cons, List.foldl_nil]
      using hsent

/-- A server sends nothing long. -/
theorem length_le_of_mem_serve {request_number : ℕ} {x : Arrival} :
    ∀ r ∈ (serve secretKey request_number x).elim [] Prod.snd, r.length ≤ BUFSIZ := by
  intro r hr
  cases hserve : serve secretKey request_number x with
  | none =>
    rw [hserve] at hr
    cases hr
  | some p =>
    rw [hserve] at hr
    rw [(of_mem_serve hserve hr).1]
    decide

/-- **A step is a row of steps of the chain.** -/
theorem Step.reachable_net (h : Step C K secretKey s t) :
    Reachable (· = s.net) (Net.Step C) t.net := by
  have hstart : Reachable (· = s.net) (Net.Step C) s.net := .init rfl
  cases h with
  | ping rand hidle =>
    refine hstart.step (.clientSend s.net _ ?_)
    rw [length_pingMessage]
    decide
  | turn hturn =>
    cases hturn with
    | relay hi hq => exact hstart.step (.relayRecv _ _ hi _ _ _ hq)
    | serve hq hserver => exact reachable_answered hq length_le_of_mem_serve
    | receive stack hq hwaiting => exact hstart.step (.clientRecv _ _ _ _ hq)
  | alarm hwaiting => exact hstart

/-! ## The invariant -/

variable (C K secretKey) {request_number : ℕ}

/-- The receives that can still come: the hops before what is in flight, and those of an answer. -/
def pending (s : Journey) : ℕ :=
  C.toGo s.net.link + if s.net.destGot = [] then C.k + 1 else 0

/-- What the client has received when it is at `c`, and for how long it has waited. -/
def Honest (clientGot : List (List UInt8)) : Client → Prop
  | .waiting got_interrupt => got_interrupt ≤ 40 ∧ clientGot = []
  | .reported => clientGot = [terve]
  | .corrupt _ => False
  | .idle | .killed => clientGot = []

/-- The client has sent one ping or none, the server has sent what it replies to it or has received
nothing, and the client has received what its state says. -/
structure Sound (request_number : ℕ) (s : Journey) : Prop where
  net : s.net.Inv C
  sent : (s.client = .idle ∧ s.net.clientSent = []) ∨
    (s.client ≠ .idle ∧ ∃ rand, s.net.clientSent = [pingMessage K.text rand])
  server : (s.net.destGot = [] ∧ s.net.destSent = [] ∧ s.server = some request_number) ∨
    (s.net.destGot ≠ [] ∧ s.net.destSent = reply K secretKey request_number ∧ s.server ≠ none)
  client : Honest s.net.clientGot s.client
  hops : s.pending C ≤ (C.k + 1) * (s.net.clientSent.length + 1)

variable {C K secretKey}

theorem Initial.sound (h : s.Initial request_number) : s.Sound C K secretKey request_number where
  net := h.net.inv
  sent := .inl ⟨h.client, h.net.clientSent⟩
  server := .inl ⟨h.net.destGot, h.net.destSent, h.server⟩
  client := by
    rw [h.client]
    exact h.net.clientGot
  hops := by
    rw [pending, Chain.toGo_eq_zero h.net.link, if_pos h.net.destGot, h.net.clientSent,
      List.length_nil]
    omega

theorem toGo_answers (out : List (List UInt8)) (l : Links) :
    C.toGo (out.foldl (fun l r => l.push (C.addr (C.k + 1)) (C.addr C.k) r) l) =
      C.toGo l + out.length * (C.k + 1) := by
  induction out generalizing l with
  | nil => simp
  | cons r out ih =>
    rw [List.foldl_cons, ih, Chain.toGo_push_back le_rfl, List.length_cons, Nat.succ_mul]
    omega

theorem length_reply_le (K : Key) (secretKey : List UInt8) (request_number : ℕ) :
    (reply K secretKey request_number).length ≤ 1 := by
  unfold reply
  split_ifs <;> simp

theorem Step.inv (h : Step C K secretKey s t) (hs : s.net.Inv C) : t.net.Inv C :=
  h.reachable_net.invariant (fun _ heq => heq ▸ hs) fun _ _ hn hstep => hn.step hstep

/-- The only datagram that can arrive where nothing has arrived and one was sent. -/
theorem eq_of_concat_prefix {α : Type*} {got : List α} {d e : α} (h : got ++ [d] <+: [e]) :
    got = [] ∧ d = e := by
  have hle := h.length_le
  rw [List.length_append, List.length_singleton, List.length_singleton] at hle
  obtain rfl : got = [] := List.length_eq_zero_iff.mp (by omega)
  exact ⟨rfl, List.head_eq_of_cons_eq (List.prefix_iff_eq_take.mp h)⟩

namespace Sound

variable (hs : s.Sound C K secretKey request_number)

include hs

/-- What the destination receives is the only ping. -/
theorem of_destGot {d : List UInt8} {n : Net} (hn : n.Inv C)
    (hgot : n.destGot = s.net.destGot ++ [d]) (hsent : n.clientSent = s.net.clientSent) :
    s.net.destGot = [] ∧ ∃ rand, d = pingMessage K.text rand := by
  have hprefix : s.net.destGot ++ [d] <+: s.net.clientSent := by
    rw [← hgot, ← hsent]
    exact hn.forward.delivers
  rcases hs.sent with ⟨-, hnone⟩ | ⟨-, rand, hping⟩
  · rw [hnone] at hprefix
    cases List.append_ne_nil_of_right_ne_nil _ (List.cons_ne_nil d []) (List.prefix_nil.mp hprefix)
  · rw [hping] at hprefix
    obtain ⟨hgot, hd⟩ := eq_of_concat_prefix hprefix
    exact ⟨hgot, rand, hd⟩

/-- What the client receives is the answer of the server. -/
theorem of_clientGot {r : List UInt8} {n : Net} (hn : n.Inv C)
    (hgot : n.clientGot = s.net.clientGot ++ [r]) (hsent : n.destSent = s.net.destSent) :
    s.net.clientGot = [] ∧ r = terve := by
  have hprefix : s.net.clientGot ++ [r] <+: s.net.destSent := by
    rw [← hgot, ← hsent]
    exact hn.backward.delivers
  have hnil : ¬ s.net.clientGot ++ [r] <+: [] := fun h =>
    List.append_ne_nil_of_right_ne_nil _ (List.cons_ne_nil r []) (List.prefix_nil.mp h)
  rcases hs.server with ⟨-, hnone, -⟩ | ⟨-, hreply, -⟩
  · rw [hnone] at hprefix
    exact absurd hprefix hnil
  · rw [hreply, reply] at hprefix
    split_ifs at hprefix
    · exact eq_of_concat_prefix hprefix
    · exact absurd hprefix hnil

theorem pinged {got_interrupt : ℕ} (hwaiting : s.client = .waiting got_interrupt) :
    s.client ≠ .idle ∧ ∃ rand, s.net.clientSent = [pingMessage K.text rand] := by
  refine hs.sent.resolve_left fun h => ?_
  rw [hwaiting] at h
  cases h.1

theorem server_ne_none : s.server ≠ none := by
  rcases hs.server with ⟨-, -, hserver⟩ | ⟨-, -, hserver⟩
  · rw [hserver]
    exact Option.some_ne_none _
  · exact hserver

/-- **Receiving comes to an end.** -/
theorem pending_lt (h : Turn C secretKey s t) : t.pending C < s.pending C := by
  have hnet : t.net.Inv C := (Step.turn (K := K) h).inv hs.net
  cases h with
  | relay hi hq =>
    have hhop := hs.net.receive (.relay hi hq)
    exact Nat.add_lt_add_right (Nat.lt_of_succ_le hhop.le) _
  | @serve src rest n x hq hserver =>
    obtain ⟨hgot, rand, hx⟩ := hs.of_destGot hnet rfl rfl
    have hne : s.net.link src (C.addr (C.k + 1)) ≠ [] := by simp [hq]
    obtain rfl := hs.net.source_dest hne
    obtain ⟨next, hserve⟩ := serve_ping hx secretKey n
    have hpop := Chain.toGo_pop_forth le_rfl hq
    have hreply := Nat.mul_le_mul_right (C.k + 1) (length_reply_le K secretKey n)
    -- the answer has as many hops before it as were kept for it, and one is behind the ping
    have hsome : s.net.destGot ++ [x.datagram] ≠ [] :=
      List.append_ne_nil_of_right_ne_nil _ (List.cons_ne_nil _ _)
    simp only [pending, answered, hserve, Option.elim_some, toGo_answers, if_pos hgot,
      if_neg hsome]
    omega
  | receive stack hq hwaiting =>
    have hhop := hs.net.receive (.client hq)
    exact Nat.add_lt_add_right (Nat.lt_of_succ_le hhop.le) _

theorem turn (h : Turn C secretKey s t) : t.Sound C K secretKey request_number := by
  have hpending := hs.pending_lt h
  have hhops := hs.hops
  have hnet : t.net.Inv C := (Step.turn (K := K) h).inv hs.net
  cases h with
  | relay hi hq => exact ⟨hnet, hs.sent, hs.server, hs.client, (hpending.trans_le hhops).le⟩
  | @serve src rest n x hq hserver =>
    obtain ⟨hgot, rand, hx⟩ := hs.of_destGot hnet rfl rfl
    obtain ⟨-, hsent, hcounter⟩ := hs.server.resolve_right fun h => h.1 hgot
    obtain rfl := Option.some.inj (hserver.symm.trans hcounter)
    obtain ⟨next, hserve⟩ := serve_ping hx secretKey n
    refine ⟨hnet, hs.sent, .inr ⟨?_, ?_, ?_⟩, hs.client, (hpending.trans_le hhops).le⟩
    · exact List.append_ne_nil_of_right_ne_nil _ (List.cons_ne_nil _ _)
    · simp only [answered, hserve, hsent, Option.elim_some, List.nil_append]
    · simp only [hserve, Option.map_some]
      exact Option.some_ne_none next
  | @receive src r rest g stack hq hwaiting =>
    obtain ⟨hgot, rfl⟩ := hs.of_clientGot hnet rfl rfl
    refine ⟨hnet, ?_, hs.server, ?_, (hpending.trans_le hhops).le⟩
    · rw [response_terve]
      exact .inr ⟨Client.noConfusion, (hs.pinged hwaiting).2⟩
    · rw [response_terve]
      simp only [Honest, hgot, List.nil_append]

/-- **One step of any party.** -/
theorem step (h : Step C K secretKey s t) : t.Sound C K secretKey request_number := by
  have hnet : t.net.Inv C := h.inv hs.net
  cases h with
  | ping rand hidle =>
    obtain ⟨-, hnone⟩ := hs.sent.resolve_right fun h => h.1 hidle
    refine ⟨hnet, .inr ⟨Client.noConfusion, rand, ?_⟩, hs.server, ?_, ?_⟩
    · simp only [hnone, List.nil_append]
    · have hclient := hs.client
      rw [hidle] at hclient
      exact ⟨Nat.zero_le 40, hclient⟩
    · have hhops := hs.hops
      have hpush : C.toGo (s.net.link.push (C.addr 0) (C.addr 1) (pingMessage K.text rand)) =
          C.toGo s.net.link + (C.k + 1) := Chain.toGo_push_forth (Nat.zero_le C.k) _
      simp only [pending, hnone, List.nil_append, List.length_nil, List.length_singleton] at hhops ⊢
      omega
  | turn hturn => exact hs.turn hturn
  | @alarm g hwaiting =>
    have hclient := hs.client
    rw [hwaiting] at hclient
    obtain ⟨hle, hgot⟩ := hclient
    refine ⟨hnet, ?_, hs.server, ?_, hs.hops⟩
    · refine .inr ⟨?_, (hs.pinged hwaiting).2⟩
      unfold handle_signal_alarm
      split_ifs <;> exact Client.noConfusion
    · unfold handle_signal_alarm
      split_ifs with hlast
      · exact hgot
      · exact ⟨Nat.succ_le_of_lt (lt_of_le_of_ne hle hlast), hgot⟩

/-- A server that has received something has received the ping, and has made its reply to it. -/
theorem of_destGot_ne_nil (hgot : s.net.destGot ≠ []) :
    (∃ rand, s.net.destGot = [pingMessage K.text rand]) ∧
      s.net.destSent = reply K secretKey request_number := by
  have hprefix : s.net.destGot <+: s.net.clientSent := hs.net.forward.delivers
  obtain ⟨-, hreply, -⟩ := hs.server.resolve_left fun h => hgot h.1
  refine ⟨?_, hreply⟩
  rcases hs.sent with ⟨-, hnone⟩ | ⟨-, rand, hping⟩
  · rw [hnone] at hprefix
    exact absurd (List.prefix_nil.mp hprefix) hgot
  · rw [hping] at hprefix
    obtain ⟨got, hcons, hnil⟩ := (List.prefix_cons_iff.mp hprefix).resolve_left hgot
    rw [List.prefix_nil.mp hnil] at hcons
    exact ⟨rand, hcons⟩

/-- A client that has reported was answered by the server. -/
theorem of_reported (hreported : s.client = .reported) :
    (secretKey = K.text ∧ request_number ≠ 4) ∧
      (∃ rand, s.net.destGot = [pingMessage K.text rand]) ∧ s.net.destSent = [terve] := by
  have hgot := hs.client
  rw [hreported] at hgot
  have hprefix : [terve] <+: s.net.destSent := by
    rw [← show s.net.clientGot = [terve] from hgot]
    exact hs.net.backward.delivers
  have hreceived : s.net.destGot ≠ [] := by
    intro hnothing
    obtain ⟨-, hnone, -⟩ := hs.server.resolve_right fun h => h.1 hnothing
    rw [hnone] at hprefix
    cases List.prefix_nil.mp hprefix
  obtain ⟨hping, hreply⟩ := hs.of_destGot_ne_nil hreceived
  rw [reply] at hreply
  split_ifs at hreply with hanswers
  · exact ⟨hanswers, hping, hreply⟩
  · rw [hreply] at hprefix
    cases List.prefix_nil.mp hprefix

/-- When nobody can receive and the client still waits, it was not answered. -/
theorem of_waiting (hnone : ∀ u, ¬ Turn C secretKey s u) {got_interrupt : ℕ}
    (hwaiting : s.client = .waiting got_interrupt) :
    ¬ (secretKey = K.text ∧ request_number ≠ 4) := by
  intro hanswers
  obtain ⟨n, hserver⟩ := Option.ne_none_iff_exists'.mp hs.server_ne_none
  have hquiet : ∀ m, ¬ Net.Receive C s.net m := by
    intro m hm
    cases hm with
    | client hq => exact hnone _ (.receive (fun _ => 0) hq hwaiting)
    | relay hi hq => exact hnone _ (.relay hi hq)
    | @dest src d rest hq =>
      obtain ⟨x, rfl⟩ := Exchange.exists_arrival d
      exact hnone _ (.serve hq hserver)
  obtain ⟨hforth, hback⟩ := hs.net.no_receive_iff.mp hquiet
  have hgot := hs.client
  rw [hwaiting] at hgot
  obtain ⟨-, rand, hping⟩ := hs.pinged hwaiting
  rcases hs.server with ⟨hnothing, -, -⟩ | ⟨-, hreply, -⟩
  · rw [hnothing, hping] at hforth
    cases hforth
  · rw [hreply, reply, if_pos hanswers, hgot.2] at hback
    cases hback

end Sound

/-- A client that waits or has reported does so as long as it only receives. -/
theorem client_of_turns (hs : s.Sound C K secretKey request_number) {got_interrupt n : ℕ}
    (h : Rounds (Turn C secretKey) n s t) (hwaiting : s.client = .waiting got_interrupt) :
    t.Sound C K secretKey request_number ∧
      (t.client = .waiting got_interrupt ∨ t.client = .reported) := by
  refine h.invariant (I := fun s => s.Sound C K secretKey request_number ∧
    (s.client = .waiting got_interrupt ∨ s.client = .reported)) ?_ ⟨hs, .inl hwaiting⟩
  rintro s t ⟨hs, hclient⟩ hturn
  refine ⟨hs.turn hturn, ?_⟩
  cases hturn with
  | relay hi hq => exact hclient
  | serve hq hserver => exact hclient
  | receive stack hq hw =>
    have hgot := (hs.turn (.receive stack hq hw)).client
    have hr := (hs.of_clientGot (hs.turn (.receive stack hq hw)).net rfl rfl).2
    right
    rw [hr]
    exact response_terve stack

end Journey

/-- **What a client behind a chain of relays reports.** Whatever turns the parties take, the server
goes on and no answer is corrupt; a client that has reported was answered by the server at the end
of the chain, which has received its ping, holds its key and was not about to drop a datagram. And
while no alarm goes off, each row of receives comes to an end after at most twice as many of them as
there are hops, and at its end the client has reported if that is so, and otherwise waits in
vain. -/
theorem round_trip_through (C : Chain) (K : Key) (secretKey : List UInt8) {request_number : ℕ}
    {s : Journey}
    (h : Reachable (Journey.Initial request_number) (Journey.Step C K secretKey) s) :
    s.server ≠ none ∧ (∀ recv_response, s.client ≠ .corrupt recv_response) ∧
      (s.client = .reported → (secretKey = K.text ∧ request_number ≠ 4) ∧
        (∃ rand, s.net.destGot = [pingMessage K.text rand]) ∧ s.net.destSent = [terve]) ∧
      ∀ got_interrupt, s.client = .waiting got_interrupt → got_interrupt ≤ 40 ∧
        ∀ n t, Rounds (Journey.Turn C secretKey) n s t → n ≤ 2 * (C.k + 1) ∧
          ((∀ u, ¬ Journey.Turn C secretKey t u) →
            (t.client = .reported ↔ secretKey = K.text ∧ request_number ≠ 4)) := by
  have hs : s.Sound C K secretKey request_number :=
    h.invariant (fun _ hinit => hinit.sound) fun _ _ hs hstep => hs.step hstep
  refine ⟨hs.server_ne_none, ?_, hs.of_reported, ?_⟩
  · intro recv_response hcorrupt
    have hclient := hs.client
    rwa [hcorrupt] at hclient
  · intro got_interrupt hwaiting
    have hclient := hs.client
    rw [hwaiting] at hclient
    refine ⟨hclient.1, fun n t hturns => ⟨?_, fun hnone => ?_⟩⟩
    · have hlowers : Lowers (Journey.Turn C secretKey)
          (fun s => s.Sound C K secretKey request_number) fun s => s.pending C :=
        fun s t hs hturn => ⟨hs.turn hturn, hs.pending_lt hturn⟩
      have hle := hlowers.add_le hs hturns
      have hhops := hs.hops
      obtain ⟨-, rand, hping⟩ := hs.pinged hwaiting
      rw [hping, List.length_singleton] at hhops
      omega
    · obtain ⟨ht, hclient⟩ := Journey.client_of_turns hs hturns hwaiting
      refine ⟨fun hreported => (ht.of_reported hreported).1, fun hanswers => ?_⟩
      exact hclient.resolve_left fun hw => ht.of_waiting hnone hw hanswers

/-- A client that has sent its ping through a tunnel to a server with its key. -/
theorem round_trip_through_tunnel : ∃ s : Journey, s.client = .waiting 0 ∧
    ∀ n t, Rounds (Journey.Turn tunnel shortKey.text) n s t → n ≤ 2 * (tunnel.k + 1) ∧
      ((∀ u, ¬ Journey.Turn tunnel shortKey.text t u) →
        (t.client = .reported ↔ shortKey.text = shortKey.text ∧ 1 ≠ 4)) := by
  have hstart : Reachable (Journey.Initial 1) (Journey.Step tunnel shortKey shortKey.text)
      ⟨Net.fresh, .idle, some 1⟩ := .init ⟨Net.fresh_initial, rfl, rfl⟩
  have hpinged := hstart.step (.ping (fun _ => 0) rfl)
  obtain ⟨-, -, -, hwaiting⟩ := round_trip_through tunnel shortKey shortKey.text hpinged
  exact ⟨_, rfl, (hwaiting 0 rfl).2⟩

end NetworkLabs.Ping

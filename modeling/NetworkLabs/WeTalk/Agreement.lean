import NetworkLabs.WeTalk.Handshake
import NetworkLabs.WeTalk.Session

/-!
# Two endpoints agree

Two endpoints that talk only to each other, over channels that keep their order and lose nothing, in
runs where no request times out and nobody types while his own request is unanswered. Without their
addresses and texts they follow the handshake, so that they agree on the session whenever nothing is
in flight.

## Main definitions

* `chat`: what the two endpoints may do
* `Endpoint.phase`: the phase of an endpoint
* `Tidy`: what the variables of an endpoint keep in such runs

## Main results

* `Tidy.heard`, `Tidy.typed`: an endpoint follows the handshake
* `connections_agree`: with nothing in flight, both endpoints are connected to each other, or
  neither is connected
-/

namespace NetworkLabs.WeTalk

open CRuntime Duplex Transition

/-- The datagrams that are sent to an address. -/
def sentTo (a : SockAddr) (o : List Output) : List (List UInt8) :=
  o.filterMap fun
    | .sendto dst msg => if dst = a then some msg else none
    | _ => none

@[simp] theorem sentTo_singleton (a : SockAddr) (msg : List UInt8) :
    sentTo a [.sendto a msg] = [msg] := by
  simp [sentTo]

/-- Two endpoints at two addresses: a datagram comes from the other one, and an endpoint whose
request is unanswered neither is typed to nor times out. -/
def chat (gethostbyname : Bool → List UInt8 → Option UInt32) (addr : Bool → SockAddr) :
    Protocol Endpoint (List UInt8) where
  take b s d t := ∃ o, (wetalk (gethostbyname b)).step s (.datagram (addr !b) d) = some (t, o)
  move b s ms t := s.received = true ∧ ∃ i o, (∀ src d, i ≠ .datagram src d) ∧
    (wetalk (gethostbyname b)).step s i = some (t, o) ∧
    -- only the other endpoint is asked for a session
    (∀ dst, .sendto dst wannatalk ∈ o → dst = addr !b) ∧ ms = sentTo (addr !b) o

/-- Both endpoints at their start, with nothing in flight. -/
def started : Link Endpoint (List UInt8) where
  party _ := initial
  flight _ := []

/-! ## An endpoint follows the handshake -/

/-- The phase of an endpoint. -/
def Endpoint.phase (s : Endpoint) : Phase :=
  if s.connection = true then .connected
  else if s.received = false then .pending
  else if s.opp_server_pointer = none then .idle
  else .asked

theorem map_started : started.map Endpoint.phase kind = quiet := rfl

theorem phase_eq_connected_iff {s : Endpoint} : s.phase = .connected ↔ s.connection = true := by
  unfold Endpoint.phase
  split_ifs <;> simp_all

theorem phase_eq_pending_iff {s : Endpoint} :
    s.phase = .pending ↔ s.connection = false ∧ s.received = false := by
  unfold Endpoint.phase
  split_ifs <;> simp_all

/-- What the variables of an endpoint keep when it talks only to one peer. -/
structure Tidy (peer : SockAddr) (s : Endpoint) : Prop where
  answered : s.connection = true → s.received = true
  attached : s.connection = true ∨ s.received = false → s.opp_server_pointer ≠ none
  peer_eq : ∀ a, s.opp = some a → a = peer

theorem tidy_initial (peer : SockAddr) : Tidy peer initial where
  answered := nofun
  attached := nofun
  peer_eq := nofun

namespace Tidy

variable {peer : SockAddr} {s t : Endpoint}

/-- A datagram of the peer leaves no other peer. -/
theorem peer_eq_of_heard (h : Tidy peer s) {a : SockAddr} (ha : t.opp = some a)
    (haddr : t.their_addr = peer) (hserver : t.opp_server = s.opp_server)
    (hptr : t.opp_server_pointer = some .their_addr ∨
      t.opp_server_pointer = s.opp_server_pointer) : a = peer := by
  cases hp : t.opp_server_pointer with
  | none => exact absurd hp (pointer_ne_none ha)
  | some target =>
    cases target with
    | their_addr =>
      obtain rfl : t.their_addr = a := by simpa [Endpoint.opp, hp] using ha
      exact haddr
    | opp_server =>
      obtain rfl : t.opp_server = a := by simpa [Endpoint.opp, hp] using ha
      have hs : s.opp_server_pointer = some .opp_server :=
        (hptr.resolve_left (by simp [hp])).symm.trans hp
      exact hserver.trans (h.peer_eq s.opp_server (by simp [Endpoint.opp, hs]))

/-- An endpoint without a peer and without a request. -/
theorem of_idle (hc : t.connection = false) (hr : t.received = true)
    (hp : t.opp_server_pointer = none) : Tidy peer t where
  answered hc' := absurd hc' (ne_true_of_eq_false hc)
  attached h := by simp [hc, hr] at h
  peer_eq a ha := absurd hp (pointer_ne_none ha)

/-- An endpoint takes a datagram of its peer as the handshake does. -/
theorem heard (h : Tidy peer s) {d : List UInt8} (hd : Heard s peer d t) :
    Tidy peer t ∧ t.phase = recv s.phase (kind d) := by
  cases hd with
  | request hc hk =>
    refine ⟨⟨fun hc' => ?_, fun _ => Option.some_ne_none _, fun a ha => ?_⟩, ?_⟩
    · exact absurd hc' (ne_true_of_eq_false hc)
    · exact h.peer_eq_of_heard ha rfl rfl (.inl rfl)
    -- an outstanding request stays outstanding when another one crosses it
    · cases hr : s.received with
      | false => simp [Endpoint.phase, recv, hc, hr, hk]
      | true =>
        by_cases hp : s.opp_server_pointer = none <;> simp [Endpoint.phase, recv, hc, hr, hk, hp]
  | accepted hc hr hk =>
    refine ⟨⟨fun _ => rfl, fun _ => h.attached (.inr hr), fun a ha => ?_⟩, ?_⟩
    · exact h.peer_eq_of_heard ha rfl rfl (.inr rfl)
    · simp [Endpoint.phase, recv, hc, hr, hk]
  | refused hc hr hk =>
    refine ⟨of_idle hc rfl rfl, ?_⟩
    simp [Endpoint.phase, recv, hc, hr, hk]
  | ended hc hk =>
    refine ⟨of_idle rfl (h.answered hc) rfl, ?_⟩
    simp [Endpoint.phase, recv, hc, h.answered hc, hk]
  | within hc hk =>
    refine ⟨⟨h.answered, h.attached, fun a ha => ?_⟩, ?_⟩
    · exact h.peer_eq_of_heard ha rfl rfl (.inr rfl)
    · have hphase := phase_eq_connected_iff.mpr hc
      exact (recv_eq_self (p := s.phase) (by simp [hphase]) (by simp [hphase]) fun _ => hk).symm
  | ignored hc hk hrest =>
    refine ⟨⟨h.answered, h.attached, fun a ha => ?_⟩, ?_⟩
    · exact h.peer_eq_of_heard ha rfl rfl (.inr rfl)
    · refine (recv_eq_self (p := s.phase) (fun _ => hk) (fun hp => ?_) fun hp => ?_).symm
      · exact not_or.mpr (hrest (phase_eq_pending_iff.mp hp).2)
      · exact absurd (phase_eq_connected_iff.mp hp) (ne_true_of_eq_false hc)

/-- An endpoint acts on a typed line as the handshake does. -/
theorem typed (h : Tidy peer s) (hr : s.received = true)
    {gethostbyname : List UInt8 → Option UInt32} {line : List UInt8} {o : List Output}
    (hline : Typed gethostbyname s line t o)
    (honly : ∀ dst, .sendto dst wannatalk ∈ o → dst = peer) :
    Tidy peer t ∧ Move s.phase ((sentTo peer o).map kind) t.phase := by
  cases hline with
  | empty | unknown | invalid => exact ⟨h, .rest _⟩
  | quit => exact ⟨⟨h.answered, h.attached, h.peer_eq⟩, .rest _⟩
  | accept a hc ho _ =>
    obtain rfl := h.peer_eq a ho
    have hp := pointer_ne_none ho
    refine ⟨⟨fun _ => hr, fun _ => hp, h.peer_eq⟩, ?_⟩
    simpa [Endpoint.phase, hc, hr, hp] using Move.accept
  | refuse a hc ho _ =>
    obtain rfl := h.peer_eq a ho
    have hp := pointer_ne_none ho
    refine ⟨of_idle rfl hr rfl, ?_⟩
    simpa [Endpoint.phase, hc, hr, hp] using Move.refuse
  | dial a hc ho _ =>
    obtain rfl := honly a (List.mem_singleton_self _)
    have hp := opp_eq_none_iff.mp ho
    refine ⟨⟨fun hc' => ?_, fun _ => Option.some_ne_none _, fun b hb => ?_⟩, ?_⟩
    · exact absurd hc' (ne_true_of_eq_false hc)
    · exact (Option.some.inj hb).symm
    · simpa [Endpoint.phase, hc, hr, hp] using Move.dial
  | leave a hc ho _ =>
    obtain rfl := h.peer_eq a ho
    refine ⟨of_idle rfl hr rfl, ?_⟩
    simpa [Endpoint.phase, hc, hr] using Move.leave
  | talk a hc ho _ =>
    obtain rfl := h.peer_eq a ho
    refine ⟨h, ?_⟩
    simpa [Endpoint.phase, hc] using Move.talk
  | wrongly hc ho => exact ⟨h, .rest _⟩

end Tidy

/-- **Two endpoints follow the handshake.** -/
theorem follows_handshake (gethostbyname : Bool → List UInt8 → Option UInt32)
    (addr : Bool → SockAddr) {s : Link Endpoint (List UInt8)}
    (h : Reachable (· = started) (chat gethostbyname addr).Step s) :
    (∀ b, Tidy (addr !b) (s.party b)) ∧
      Reachable (· = quiet) handshake.Step (s.map Endpoint.phase kind) := by
  rw [← map_started]
  refine Protocol.reachable_map (I := fun b => Tidy (addr !b)) ?_ ?_ (fun _ => tidy_initial _) h
  · rintro b p d q hp ⟨o, hstep⟩
    rcases (wetalk_step_cases hstep).2 with ⟨line, hi, -⟩ | ⟨src, d', hi, rfl, -⟩ | ⟨hi, -⟩
    · cases hi
    · obtain ⟨rfl, rfl⟩ := Input.datagram.inj hi
      exact hp.heard (heard_packetHandler p _ d)
    · cases hi
  · rintro b p ms q hp ⟨hr, i, o, hi, hstep, honly, rfl⟩
    rcases (wetalk_step_cases hstep).2 with ⟨line, -, htyped⟩ | ⟨src, d, hd, -⟩ | ⟨-, rfl, rfl⟩
    · exact hp.typed hr htyped honly
    · exact absurd hd (hi src d)
    -- nothing is outstanding, so the alarm changes nothing
    · have hnot : ¬ p.received = false := by simp [hr]
      rw [handleSignalAlarm, if_neg hnot]
      exact ⟨hp, .rest _⟩

/-- **Two endpoints agree**: with nothing in flight, both are connected to each other, or neither is
connected. -/
theorem connections_agree (gethostbyname : Bool → List UInt8 → Option UInt32)
    (addr : Bool → SockAddr) {s : Link Endpoint (List UInt8)}
    (h : Reachable (· = started) (chat gethostbyname addr).Step s)
    (hempty : ∀ b, s.flight b = []) :
    (s.party true).connection = (s.party false).connection ∧
      ((s.party true).connection = true → ∀ b, (s.party b).opp = some (addr !b)) := by
  obtain ⟨htidy, hreach⟩ := follows_handshake gethostbyname addr h
  have hsettled := settled_of_reachable hreach fun b => congrArg (List.map kind) (hempty b)
  have hboth := (phase_eq_connected_iff.symm.trans hsettled.connected_iff).trans
    phase_eq_connected_iff
  refine ⟨Bool.eq_iff_iff.mpr hboth, fun hc b => ?_⟩
  have hconn : (s.party b).connection = true := by
    cases b
    · exact hboth.mp hc
    · exact hc
  obtain ⟨a, ha⟩ := Option.ne_none_iff_exists'.mp
    (mt opp_eq_none_iff.mp ((htidy b).attached (.inl hconn)))
  rw [ha, (htidy b).peer_eq a ha]

/-- The addresses of two endpoints; the second one answers on port 1. -/
def onPort : Bool → SockAddr
  | true => ⟨8, 256⟩
  | false => ⟨7, 256⟩

/-- The second endpoint, asked by the first. -/
def askedBy : Endpoint :=
  { initial with
    opp_server_pointer := some .their_addr
    their_addr := ⟨8, 256⟩ }

/-- The first endpoint, answered by the second. -/
def answeredBy : Endpoint :=
  { dialing with
    connection := true
    received := true
    their_addr := ⟨7, 256⟩ }

/-- The first endpoint asks, the second accepts, and everything is taken. -/
def talking : Link Endpoint (List UInt8) :=
  (((started.send true dialing [wannatalk]).deliver false askedBy []).send false
    { askedBy with connection := true } [okChk]).deliver true answeredBy []

theorem reachable_talking :
    Reachable (· = started) (chat (fun _ _ => some 7) onPort).Step talking := by
  have hdial : (chat (fun _ _ => some 7) onPort).Step started
      (started.send true dialing [wannatalk]) :=
    .send true _ _ ⟨rfl, .typed [104, 32, 49], _, nofun, step_dial, by simp [onPort], rfl⟩
  have hstart : Reachable (· = started) (chat (fun _ _ => some 7) onPort).Step started := .init rfl
  have hasked := (hstart.step hdial).step
    (.deliver false wannatalk [] askedBy rfl ⟨[.chatRequest ⟨8, 256⟩], rfl⟩)
  have haccept := hasked.step (.send false [okChk] { askedBy with connection := true }
    ⟨rfl, .typed cmdC, [.sendto ⟨8, 256⟩ okChk], nofun, rfl, by simp [wannatalk, okChk], rfl⟩)
  exact haccept.step (.deliver true okChk [] answeredBy rfl ⟨[.accepted], rfl⟩)

/-- Two endpoints that talk are connected to each other. -/
theorem connections_agree_talking :
    (talking.party true).connection = (talking.party false).connection ∧
      ∀ b, (talking.party b).opp = some (onPort !b) := by
  have hagree := connections_agree (fun _ _ => some 7) onPort reachable_talking (by decide)
  exact ⟨hagree.1, hagree.2 rfl⟩

end NetworkLabs.WeTalk

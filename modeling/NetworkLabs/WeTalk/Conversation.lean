import NetworkLabs.WeTalk.Agreement
import NetworkLabs.WeTalk.Control

/-!
# What is said is heard

Two endpoints that talk only to each other, over channels that keep their order and lose nothing,
with a record of what each of them has said and shown. A line can get lost only on its way to an
endpoint that leaves the session before the line arrives. An endpoint that stays shows every line,
once and in order: the answer that makes it a partner in a session overtakes nothing and is not
overtaken.

## Main definitions

* `HeardAll`: every line that is in flight will find its receiver in a session
* `Log`, `Log.record`: what an endpoint has said and shown, and whether it has left a session
* `conversation`: the two endpoints with their records

## Main results

* `Sound.heardAll_move`, `Sound.heardAll_append`: what an end does keeps `HeardAll` at both ends
* `conversation_delivered`: what is shown is what was said
-/

namespace NetworkLabs.WeTalk

open CRuntime Duplex Transition

/-! ## Lines among the messages of the handshake -/

/-- Every line among the messages finds a session, when an end in this phase takes them. -/
def HeardAll : Phase → List Kind → Prop
  | _, [] => True
  | p, m :: l => (m = .text → p = .connected) ∧ HeardAll (recv p m) l

section Phases

variable {p q : Phase} {l l' : List Kind} {s : Link Phase Kind} {b : Bool} {ms : List Kind}

theorem heardAll_append_iff :
    HeardAll p (l ++ l') ↔ HeardAll p l ∧ HeardAll (l.foldl recv p) l' := by
  induction l generalizing p with
  | nil => simp [HeardAll]
  | cons m l ih => rw [List.cons_append, HeardAll, ih, HeardAll, List.foldl_cons, and_assoc]

theorem heardAll_of_notMem (h : .text ∉ l) : HeardAll p l := by
  induction l generalizing p with
  | nil => trivial
  | cons m l ih =>
    obtain ⟨hm, hl⟩ := List.ne_and_not_mem_of_not_mem_cons h
    exact ⟨fun he => absurd he.symm hm, ih hl⟩

/-- Messages alone do not connect an end that has not asked for a session. -/
theorem text_notMem_of_heardAll (hp : p = .idle ∨ p = .asked) (h : HeardAll p l) : .text ∉ l := by
  induction l generalizing p with
  | nil => exact List.not_mem_nil
  | cons m l ih =>
    have hm : m ≠ .text := by
      intro he
      rcases hp with rfl | rfl <;> cases h.1 he
    have hrecv : recv p m = .idle ∨ recv p m = .asked := by
      rcases hp with rfl | rfl <;> cases m <;> simp [recv]
    exact List.not_mem_cons_of_ne_of_not_mem hm.symm (ih hrecv h.2)

/-- A session that is not ended goes on. -/
theorem foldl_recv_connected_of_notMem (h : .e ∉ l) : l.foldl recv .connected = .connected := by
  induction l with
  | nil => rfl
  | cons m l ih =>
    obtain ⟨hm, hl⟩ := List.ne_and_not_mem_of_not_mem_cons h
    have hrecv : recv .connected m = .connected := by
      cases m with
      | e => exact absurd rfl hm
      | _ => rfl
    rw [List.foldl_cons, hrecv]
    exact ih hl

/-- **An end that does not leave a session** still hears what is in flight, whatever else it does:
where it moves to another phase, nothing is said to it. -/
theorem heardAll_move (h : HeardAll p l) (hmove : Move p ms q) (hstay : .e ∉ ms) :
    HeardAll q l := by
  cases hmove with
  | dial => exact heardAll_of_notMem (text_notMem_of_heardAll (.inl rfl) h)
  | accept | refuse => exact heardAll_of_notMem (text_notMem_of_heardAll (.inr rfl) h)
  | leave => exact absurd (List.mem_singleton_self _) hstay
  | talk | rest => exact h

/-- **What an end says is heard**, as long as the other one has not left: it will be in the session
when the line arrives. -/
theorem Sound.heardAll_append (hs : Sound s) (hmove : Move (s.party b) ms q)
    (hstay : .e ∉ s.flight (!b)) (h : HeardAll (s.party !b) (s.flight b)) :
    HeardAll (s.party !b) (s.flight b ++ ms) := by
  rw [heardAll_append_iff]
  refine ⟨h, ?_⟩
  generalize hp : s.party b = p at hmove
  cases hmove with
  | talk =>
    have hahead : s.ahead recv b = .connected := by
      rw [Link.ahead, hp]
      exact foldl_recv_connected_of_notMem hstay
    have hother := settled_connected_iff.mp (hahead ▸ hs.settled_not b)
    rw [Link.ahead, Bool.not_not] at hother
    exact ⟨fun _ => hother, trivial⟩
  | _ => exact heardAll_of_notMem (by simp)

end Phases

/-! ## The endpoints with their records -/

/-- What an endpoint has said and shown, and whether it has ended a session itself. -/
structure Log where
  said : List (List UInt8)
  shown : List (List UInt8)
  left : Bool

/-- The line in a datagram of a session. -/
def lineIn : List UInt8 → Option (List UInt8)
  | 68 :: line => some line
  | _ => none

/-- The lines that are sent. -/
def saidIn (o : List Output) : List (List UInt8) :=
  o.filterMap fun
    | .sendto _ msg => lineIn msg
    | _ => none

/-- The lines that are shown. -/
def shownIn (o : List Output) : List (List UInt8) :=
  o.filterMap fun
    | .shown line => some line
    | _ => none

/-- A session is ended. -/
def leftIn (o : List Output) : Bool :=
  o.any fun
    | .sendto _ msg => msg == eChk
    | _ => false

/-- A record with the outputs of a step. -/
def Log.record (g : Log) (o : List Output) : Log where
  said := g.said ++ saidIn o
  shown := g.shown ++ shownIn o
  left := g.left || leftIn o

/-- The two endpoints of a chat with their records. The lines typed have at most 50 characters; the
51 that the editor hands on as well do not fit the arrays of the endpoint. -/
def conversation (gethostbyname : Bool → List UInt8 → Option UInt32) (addr : Bool → SockAddr) :
    Protocol (Endpoint × Log) (List UInt8) where
  take b p d q := ∃ o, q.2 = p.2.record o ∧
    (wetalk (gethostbyname b)).step p.1 (.datagram (addr !b) d) = some (q.1, o)
  move b p ms q := p.1.received = true ∧ ∃ i o, q.2 = p.2.record o ∧
    (∀ src d, i ≠ .datagram src d) ∧ (∀ line, i = .typed line → (cstring line).length ≤ 50) ∧
    (wetalk (gethostbyname b)).step p.1 i = some (q.1, o) ∧
    (∀ dst, .sendto dst wannatalk ∈ o → dst = addr !b) ∧ ms = sentTo (addr !b) o

/-- Both endpoints at their start, with nothing said. -/
def begun : Link (Endpoint × Log) (List UInt8) where
  party _ := (initial, ⟨[], [], false⟩)
  flight _ := []

/-- Without the records this is the chat. -/
theorem reachable_chat (gethostbyname : Bool → List UInt8 → Option UInt32)
    (addr : Bool → SockAddr) {s : Link (Endpoint × Log) (List UInt8)}
    (h : Reachable (· = begun) (conversation gethostbyname addr).Step s) :
    Reachable (· = started) (chat gethostbyname addr).Step (s.map Prod.fst id) := by
  have hmap : begun.map Prod.fst id = started := rfl
  rw [← hmap]
  refine (Protocol.reachable_map (I := fun _ _ => True) ?_ ?_ (fun _ => trivial) h).2
  · rintro b p d q - ⟨o, -, hstep⟩
    exact ⟨trivial, o, hstep⟩
  · rintro b p ms q - ⟨hr, i, o, -, hi, -, hstep, honly, hms⟩
    rw [List.map_id]
    exact ⟨trivial, hr, i, o, hi, hstep, honly, hms⟩

/-! ## What is in flight -/

/-- What an endpoint sends. -/
def Message (d : List UInt8) : Prop :=
  d ∈ [wannatalk, okChk, nkoChk, eChk] ∨ ∃ line, d = 68 :: line ∧ 0 ∉ line ∧ line.length ≤ 50

section Messages

variable {s t : Endpoint} {peer src : SockAddr} {d line : List UInt8} {o : List Output}

theorem lineIn_isSome_iff (h : Message d) : (lineIn d).isSome ↔ kind d = .text := by
  rcases h with h | ⟨line, rfl, -, -⟩
  · simp only [List.mem_cons, List.not_mem_nil, or_false] at h
    rcases h with rfl | rfl | rfl | rfl <;> simp [lineIn, wannatalk, okChk, nkoChk, eChk] <;> decide
  · simp [lineIn]

/-- **What an endpoint shows of a message**: its line, in a session. -/
theorem shownIn_packetHandler (h : Message d) (s : Endpoint) (src : SockAddr) :
    shownIn (packetHandler s src d).2 = if s.connection = true then (lineIn d).toList else [] := by
  rcases h with h | ⟨line, rfl, hzero, hlen⟩
  · simp only [List.mem_cons, List.not_mem_nil, or_false] at h
    rcases s with ⟨connection, received, ptr, their_addr, opp_server, running⟩
    rcases h with rfl | rfl | rfl | rfl <;> cases connection <;> cases received <;> rfl
  · cases hc : s.connection with
    | true =>
      rw [packetHandler_text hc src hlen hzero]
      rfl
    | false =>
      rw [packetHandler_of_not_connected hc src (.inl (kind_cons_68 line))]
      rfl

theorem saidIn_packetHandler (s : Endpoint) (src : SockAddr) (d : List UInt8) :
    saidIn (packetHandler s src d).2 = [] ∧ leftIn (packetHandler s src d).2 = false := by
  have hnone : ∀ dst msg, .sendto dst msg ∉ (packetHandler s src d).2 :=
    fun _ _ => notMem_packetHandler rfl s src d
  constructor
  · apply List.filterMap_eq_nil_iff.mpr
    intro e he
    cases e with
    | sendto dst msg => exact absurd he (hnone dst msg)
    | _ => rfl
  · apply List.any_eq_false.mpr
    intro e he
    cases e with
    | sendto dst msg => exact absurd he (hnone dst msg)
    | _ => simp

theorem kind_eq_e_iff (h : Message d) : kind d = .e ↔ d = eChk := by
  rcases h with h | ⟨line, rfl, -, -⟩
  · simp only [List.mem_cons, List.not_mem_nil, or_false] at h
    rcases h with rfl | rfl | rfl | rfl <;> decide
  · simp [eChk]

/-- What a step does to the record, by what it sends to the peer. -/
def Told (peer : SockAddr) (o : List Output) : Prop :=
  (∀ d ∈ sentTo peer o, Message d) ∧ (sentTo peer o).filterMap lineIn = saidIn o ∧
    shownIn o = [] ∧ (leftIn o = false → .e ∉ (sentTo peer o).map kind)

theorem told_nil : Told peer [] :=
  ⟨nofun, rfl, rfl, fun _ => List.not_mem_nil⟩

theorem told_sendto (h : Message d) : Told peer [.sendto peer d] := by
  rw [Told, sentTo_singleton]
  refine ⟨by simpa using h, ?_, rfl, fun hleft => ?_⟩
  · simp [saidIn, List.filterMap_cons]
  · have hne : d ≠ eChk := by simpa [leftIn] using hleft
    simpa [eq_comm] using mt (kind_eq_e_iff h).mp hne

/-- **What a typed line does to the record.** -/
theorem Tidy.told (h : Tidy peer s) {gethostbyname : List UInt8 → Option UInt32}
    (hline : Typed gethostbyname s line t o) (hlen : (cstring line).length ≤ 50)
    (honly : ∀ dst, .sendto dst wannatalk ∈ o → dst = peer) : Told peer o := by
  cases hline with
  | empty | unknown | quit => exact told_nil
  | invalid | wrongly => exact ⟨nofun, rfl, rfl, fun _ => List.not_mem_nil⟩
  | accept a hc ho _ =>
    obtain rfl := h.peer_eq a ho
    exact told_sendto (.inl (by simp))
  | refuse a hc ho _ =>
    obtain rfl := h.peer_eq a ho
    exact told_sendto (.inl (by simp))
  | dial a hc ho _ =>
    obtain rfl := honly a (List.mem_singleton_self _)
    exact told_sendto (.inl (by simp))
  | leave a hc ho _ =>
    obtain rfl := h.peer_eq a ho
    exact told_sendto (.inl (by simp))
  | talk a hc ho _ =>
    obtain rfl := h.peer_eq a ho
    exact told_sendto (.inr ⟨cstring line, rfl, zero_notMem_cstring line, hlen⟩)

end Messages

/-! ## What is shown and what is still in flight -/

/-- What is shown at an end and what is in flight to it, beside what was said at the other one. -/
structure Delivered (s : Link (Endpoint × Log) (List UInt8)) : Prop where
  message : ∀ b, ∀ d ∈ s.flight b, Message d
  inOrder : ∀ b, ((s.party b).2.shown ++ (s.flight !b).filterMap lineIn).Sublist
    (s.party !b).2.said
  stays : ∀ b, (s.party b).2.left = false → .e ∉ (s.flight b).map kind
  heard : ∀ b, (s.party b).2.left = false →
    HeardAll (s.party b).1.phase ((s.flight !b).map kind)
  complete : ∀ b, (s.party b).2.left = false →
    (s.party b).2.shown ++ (s.flight !b).filterMap lineIn = (s.party !b).2.said

theorem delivered_begun : Delivered begun where
  message _ _ h := absurd h List.not_mem_nil
  inOrder _ := List.Sublist.slnil
  stays _ _ := List.not_mem_nil
  heard _ _ := trivial
  complete _ _ := rfl

namespace Delivered

variable {s : Link (Endpoint × Log) (List UInt8)} {b : Bool}

theorem filterMap_lineIn_cons (d : List UInt8) (l : List (List UInt8)) :
    (d :: l).filterMap lineIn = (lineIn d).toList ++ l.filterMap lineIn := by
  rw [List.filterMap_cons]
  cases lineIn d <;> rfl

/-- **Taking a datagram**: its line is shown, or the end is in no session, which it then has left
before. -/
theorem deliver (h : Delivered s) {d : List UInt8} {l : List (List UInt8)}
    (hflight : s.flight (!b) = d :: l) {q : Endpoint × Log} (src : SockAddr)
    (hlog : q.2 = (s.party b).2.record (packetHandler (s.party b).1 src d).2)
    (hphase : q.1.phase = recv (s.party b).1.phase (kind d)) : Delivered (s.deliver b q l) := by
  have hd : Message d := h.message (!b) d (by rw [hflight]; exact List.mem_cons_self)
  obtain ⟨hsaid, hleft⟩ := saidIn_packetHandler (s.party b).1 src d
  have hsaid' : q.2.said = (s.party b).2.said := by
    rw [hlog, Log.record, hsaid, List.append_nil]
  have hleft' : q.2.left = (s.party b).2.left := by
    rw [hlog, Log.record, hleft, Bool.or_false]
  have hshown : q.2.shown = (s.party b).2.shown ++
      if (s.party b).1.connection = true then (lineIn d).toList else [] := by
    rw [hlog, Log.record, shownIn_packetHandler hd]
  have horder := h.inOrder b
  rw [hflight, filterMap_lineIn_cons] at horder
  refine ⟨fun c => ?_, fun c => ?_, fun c hc => ?_, fun c hc => ?_, fun c hc => ?_⟩
  all_goals obtain rfl | rfl := eq_or_eq_not c b
  · rw [Link.deliver_flight_self]
    exact h.message c
  · rw [Link.deliver_flight_not]
    exact fun e he => h.message (!b) e (by rw [hflight]; exact List.mem_cons_of_mem d he)
  · rw [Link.deliver_party_self, Link.deliver_party_not, Link.deliver_flight_not, hshown]
    refine List.Sublist.trans ?_ horder
    rw [List.append_assoc]
    apply List.Sublist.append_left
    split
    · exact List.Sublist.refl _
    · exact List.sublist_append_right ..
  · rw [Bool.not_not, Link.deliver_party_self, Link.deliver_party_not, Link.deliver_flight_self,
      hsaid']
    simpa using h.inOrder !b
  · rw [Link.deliver_party_self, hleft'] at hc
    rw [Link.deliver_flight_self]
    exact h.stays c hc
  · rw [Link.deliver_party_not] at hc
    have hold := h.stays (!b) hc
    rw [hflight, List.map_cons] at hold
    rw [Link.deliver_flight_not]
    exact List.not_mem_of_not_mem_cons hold
  · rw [Link.deliver_party_self, hleft'] at hc
    have hold := h.heard c hc
    rw [hflight, List.map_cons] at hold
    rw [Link.deliver_party_self, Link.deliver_flight_not, hphase]
    exact hold.2
  · rw [Link.deliver_party_not] at hc
    rw [Bool.not_not, Link.deliver_party_not, Link.deliver_flight_self]
    simpa using h.heard (!b) hc
  · rw [Link.deliver_party_self, hleft'] at hc
    have hold := h.heard c hc
    rw [hflight, List.map_cons] at hold
    have hcomplete := h.complete c hc
    rw [hflight, filterMap_lineIn_cons] at hcomplete
    rw [Link.deliver_party_self, Link.deliver_party_not, Link.deliver_flight_not, hshown,
      ← hcomplete, List.append_assoc]
    split
    · rfl
    -- a line would have found a session
    · next hconn =>
      have hnone : lineIn d = none := by
        by_contra hsome
        have htext := (lineIn_isSome_iff hd).mp (Option.isSome_iff_ne_none.mpr hsome)
        exact hconn (phase_eq_connected_iff.mp (hold.1 htext))
      rw [hnone]
      rfl
  · rw [Link.deliver_party_not] at hc
    rw [Bool.not_not, Link.deliver_party_not, Link.deliver_party_self, Link.deliver_flight_self,
      hsaid']
    simpa using h.complete (!b) hc

/-- **Sending**: a line that is said will find a session, unless its receiver has left one. -/
theorem send (h : Delivered s) (hsound : Sound (s.map (fun p => p.1.phase) kind)) {o : List Output}
    {q : Endpoint × Log} {ms : List (List UInt8)} (hlog : q.2 = (s.party b).2.record o)
    (hmessage : ∀ d ∈ ms, Message d) (hsaid : ms.filterMap lineIn = saidIn o)
    (hshown : shownIn o = []) (hleft : leftIn o = false → .e ∉ ms.map kind)
    (hmove : Move (s.party b).1.phase (ms.map kind) q.1.phase) : Delivered (s.send b q ms) := by
  have hsaid' : q.2.said = (s.party b).2.said ++ ms.filterMap lineIn := by
    rw [hlog, Log.record, hsaid]
  have hshown' : q.2.shown = (s.party b).2.shown := by
    rw [hlog, Log.record, hshown, List.append_nil]
  have hleft' : q.2.left = false → (s.party b).2.left = false ∧ .e ∉ ms.map kind := by
    rw [hlog, Log.record, Bool.or_eq_false_iff]
    exact fun hno => ⟨hno.1, hleft hno.2⟩
  refine ⟨fun c => ?_, fun c => ?_, fun c hc => ?_, fun c hc => ?_, fun c hc => ?_⟩
  all_goals obtain rfl | rfl := eq_or_eq_not c b
  · rw [Link.send_flight_self]
    exact fun d hd => (List.mem_append.mp hd).elim (h.message c d) (hmessage d)
  · rw [Link.send_flight_not]
    exact h.message !b
  · rw [Link.send_party_self, Link.send_party_not, Link.send_flight_not, hshown']
    exact h.inOrder c
  · rw [Bool.not_not, Link.send_party_self, Link.send_party_not, Link.send_flight_self, hsaid',
      List.filterMap_append, ← List.append_assoc]
    have hold := h.inOrder !b
    rw [Bool.not_not] at hold
    exact hold.append_right _
  · rw [Link.send_party_self] at hc
    obtain ⟨hbefore, hnow⟩ := hleft' hc
    rw [Link.send_flight_self, List.map_append, List.mem_append, not_or]
    exact ⟨h.stays c hbefore, hnow⟩
  · rw [Link.send_party_not] at hc
    rw [Link.send_flight_not]
    exact h.stays (!b) hc
  · rw [Link.send_party_self] at hc
    obtain ⟨hbefore, hnow⟩ := hleft' hc
    rw [Link.send_party_self, Link.send_flight_not]
    exact heardAll_move (h.heard c hbefore) hmove hnow
  · rw [Link.send_party_not] at hc
    rw [Bool.not_not, Link.send_party_not, Link.send_flight_self, List.map_append]
    have hold := h.heard (!b) hc
    rw [Bool.not_not] at hold
    exact hsound.heardAll_append hmove (h.stays (!b) hc) hold
  · rw [Link.send_party_self] at hc
    rw [Link.send_party_self, Link.send_party_not, Link.send_flight_not, hshown']
    exact h.complete c (hleft' hc).1
  · rw [Link.send_party_not] at hc
    have hold := h.complete (!b) hc
    rw [Bool.not_not] at hold
    rw [Bool.not_not, Link.send_party_self, Link.send_party_not, Link.send_flight_self, hsaid',
      List.filterMap_append, ← List.append_assoc, hold]

end Delivered

theorem sound_of_reachable {s : Link Phase Kind} (h : Reachable (· = quiet) handshake.Step s) :
    Sound s :=
  h.invariant (fun _ h => h ▸ sound_quiet) fun _ _ hs hstep => hs.step hstep

theorem map_record (s : Link (Endpoint × Log) (List UInt8)) :
    (s.map Prod.fst id).map Endpoint.phase kind = s.map (fun p => p.1.phase) kind := by
  ext c : 2
  · rfl
  · simp [Link.map]

/-- **Every run delivers.** -/
theorem delivered_of_reachable (gethostbyname : Bool → List UInt8 → Option UInt32)
    (addr : Bool → SockAddr) {s : Link (Endpoint × Log) (List UInt8)}
    (h : Reachable (· = begun) (conversation gethostbyname addr).Step s) : Delivered s := by
  induction h with
  | init h => exact h ▸ delivered_begun
  | @step s t h hstep ih =>
    obtain ⟨htidy, hreach⟩ := follows_handshake gethostbyname addr (reachable_chat _ addr h)
    have hsound := sound_of_reachable hreach
    rw [map_record] at hsound
    cases hstep with
    | deliver b d l q hflight hp =>
      obtain ⟨o, hlog, hstep⟩ := hp
      rcases (wetalk_step_cases hstep).2 with ⟨line, hi, -⟩ | ⟨src, d', hi, hq, rfl⟩ | ⟨hi, -⟩
      · cases hi
      · obtain ⟨rfl, rfl⟩ := Input.datagram.inj hi
        refine ih.deliver hflight _ hlog ?_
        rw [hq]
        exact ((htidy b).heard (heard_packetHandler _ _ _)).2
      · cases hi
    | send b ms q hp =>
      obtain ⟨hr, i, o, hlog, hi, hlen, hstep, honly, rfl⟩ := hp
      rcases (wetalk_step_cases hstep).2 with ⟨line, rfl, htyped⟩ | ⟨src, d, hd, -⟩ | ⟨-, hq, rfl⟩
      · obtain ⟨hmessage, hsaid, hshown, hleft⟩ := (htidy b).told htyped (hlen line rfl) honly
        exact ih.send hsound hlog hmessage hsaid hshown hleft ((htidy b).typed hr htyped honly).2
      · exact absurd hd (hi src d)
      -- nothing is outstanding, so the alarm changes nothing
      · have hidle : handleSignalAlarm (s.party b).1 = ((s.party b).1, []) :=
          if_neg (by simp [hr])
        rw [hidle] at hq hlog ⊢
        refine ih.send hsound hlog nofun rfl rfl (fun _ => List.not_mem_nil) ?_
        rw [hq]
        exact .rest _

/-- **What is said is heard.** Whatever lines of at most 50 characters two endpoints type, as long
as nobody types while his own request is unanswered, what an endpoint has shown is what the other
one has said, in order, with nothing twice and nothing changed; and as long as the endpoint has not
left a session itself, nothing is missing but what is still in flight. -/
theorem conversation_delivered (gethostbyname : Bool → List UInt8 → Option UInt32)
    (addr : Bool → SockAddr) {s : Link (Endpoint × Log) (List UInt8)}
    (h : Reachable (· = begun) (conversation gethostbyname addr).Step s) (b : Bool) :
    (s.party b).2.shown.Sublist (s.party !b).2.said ∧
      ((s.party b).2.left = false →
        (s.party b).2.shown ++ (s.flight !b).filterMap lineIn = (s.party !b).2.said) := by
  have hdelivered := delivered_of_reachable gethostbyname addr h
  exact ⟨(List.sublist_append_left ..).trans (hdelivered.inOrder b), hdelivered.complete b⟩

/-- An endpoint with a record. -/
def recorded (s : Endpoint) (said shown : List (List UInt8)) : Endpoint × Log :=
  (s, ⟨said, shown, false⟩)

/-- The first endpoint asks, the second accepts and says `hi`, and everything is taken. -/
def greeted : Link (Endpoint × Log) (List UInt8) :=
  (((((begun.send true (recorded dialing [] []) [wannatalk]).deliver false
    (recorded askedBy [] []) []).send false
    (recorded { askedBy with connection := true } [] []) [okChk]).send false
    (recorded { askedBy with connection := true } [[104, 105]] []) [[68, 104, 105]]).deliver true
    (recorded answeredBy [] []) [[68, 104, 105]]).deliver true
    (recorded answeredBy [] [[104, 105]]) []

theorem reachable_greeted :
    Reachable (· = begun) (conversation (fun _ _ => some 7) onPort).Step greeted := by
  have hline {typed : List UInt8} : ∀ src d, Input.typed typed ≠ .datagram src d :=
    fun _ _ heq => Input.noConfusion heq
  have hlen {typed : List UInt8} (h : (cstring typed).length ≤ 50) :
      ∀ line, Input.typed typed = .typed line → (cstring line).length ≤ 50 :=
    fun line heq => Input.typed.inj heq ▸ h
  have hstart : Reachable (· = begun) (conversation (fun _ _ => some 7) onPort).Step begun :=
    .init rfl
  have hdial := hstart.step (.send true [wannatalk] (recorded dialing [] []) ⟨rfl,
    .typed [104, 32, 49], [.sendto ⟨7, 256⟩ wannatalk], rfl, hline, hlen (by decide), step_dial,
    by simp [onPort], rfl⟩)
  have hasked := hdial.step (.deliver false wannatalk [] (recorded askedBy [] []) rfl
    ⟨[.chatRequest ⟨8, 256⟩], rfl, rfl⟩)
  have haccept := hasked.step (.send false [okChk]
    (recorded { askedBy with connection := true } [] []) ⟨rfl, .typed cmdC,
      [.sendto ⟨8, 256⟩ okChk], rfl, hline, hlen (by decide), rfl, by simp [wannatalk, okChk], rfl⟩)
  have hsaid := haccept.step (.send false [[68, 104, 105]]
    (recorded { askedBy with connection := true } [[104, 105]] []) ⟨rfl, .typed [104, 105],
      [.sendto ⟨8, 256⟩ [68, 104, 105]], rfl, hline, hlen (by decide), rfl, by simp [wannatalk],
      rfl⟩)
  exact (hsaid.step (.deliver true okChk [[68, 104, 105]] (recorded answeredBy [] []) rfl
    ⟨[.accepted], rfl, rfl⟩)).step (.deliver true [68, 104, 105] []
      (recorded answeredBy [] [[104, 105]]) rfl ⟨[.shown [104, 105]], rfl, rfl⟩)

/-- The first endpoint has shown what the second one said. -/
theorem conversation_delivered_hi :
    (greeted.party true).2.shown.Sublist [[104, 105]] ∧
      ((greeted.party true).2.left = false →
        (greeted.party true).2.shown ++ [] = [[104, 105]]) :=
  conversation_delivered (fun _ _ => some 7) onPort reachable_greeted true

end NetworkLabs.WeTalk

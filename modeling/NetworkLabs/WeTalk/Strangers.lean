import NetworkLabs.WeTalk.Session

/-!
# Strangers to a session

What is typed should go to the peer of the session, whoever else sends. This is followed through all
runs of an endpoint, with a record of who asked, who was asked, whom the session is with and who was
heard last beside it. The handler of datagrams does not look at who sends them: a stranger can end a
session or settle a request as the peer can, and one who was asked earlier can settle the request to
another. Whose `OK` makes a session is therefore a parameter.

## Main definitions

* `Talk`, `recordTalk`: the record
* `HeardLast`: what has to be so when a line is typed
* `RightPeer`, `IgnoresStrangers`: the two properties

## Main results

* `always_rightPeer_iff`: the runs in which what is typed goes to the peer
* `keeps_iff`: the datagrams that change nothing, whoever sends them
-/

namespace NetworkLabs.WeTalk

open CRuntime Transition

variable (gethostbyname : List UInt8 → Option UInt32)

/-! ## What is typed goes to the peer -/

/-- Who asked for a session, who was asked for one (the last one first), whom the session is with,
and who was heard last. -/
structure Talk where
  asker : Option SockAddr
  asked : List SockAddr
  session : Option SockAddr
  last : Option SockAddr

/-- The record at the start. -/
def Talk.start : Talk := ⟨none, [], none, none⟩

/-- Whom a request for a session goes to. -/
def Output.request : Output → Option SockAddr
  | .sendto dst msg => if msg = wannatalk then some dst else none
  | _ => none

/-- The record after a step. A session is with the asker when the user accepts. When a datagram
opens it, it is with the sender, if that sender's `OK` counts after the requests `asked`: anyone's
may, or those of all who were asked, or that of the last one only. -/
def recordTalk (counts : List SockAddr → SockAddr → Bool) (g : Talk) (s : Endpoint) (i : Input)
    (t : Endpoint) (o : List Output) : Talk where
  asked := o.filterMap Output.request ++ g.asked
  asker :=
    if t.connection = true ∨ t.opp_server_pointer = none then none
    else
      match i with
      | .datagram src d => if kind d = .wannatalk then some src else g.asker
      | _ => g.asker
  session :=
    if t.connection = false then none
    else if s.connection = true then g.session
    else
      match i with
      | .datagram src _ => if counts g.asked src then some src else none
      | _ => g.asker
  last :=
    match i with
    | .datagram src _ => some src
    | _ => g.last

/-- What is sent goes to the peer of the session; before a session, to the asker. -/
def RightPeer (p : Endpoint × Talk) (o : List Output) : Prop :=
  ∀ dst msg, .sendto dst msg ∈ o →
    (p.1.connection = true → ∀ a, p.2.session = some a → dst = a) ∧
      (p.1.connection = false → ∀ a, p.2.asker = some a → dst = a)

/-- The one who is to receive what is typed was heard last, if the pointer points to the variable
that every datagram writes, and was asked last, if it points to the variable of requests; while a
request of somebody else is unanswered it is the former. -/
def HeardLast (p : Endpoint × Talk) : Input → Prop
  | .typed line =>
    (p.1.connection = true → cstring line ≠ [] → ∀ a, p.2.session = some a →
      (p.1.opp_server_pointer = some .their_addr → p.2.last = some a) ∧
        (p.1.opp_server_pointer = some .opp_server → p.2.asked.head? = some a)) ∧
    (p.1.connection = false → cstring line = cmdC ∨ cstring line = cmdN →
      ∀ a, p.2.asker = some a → p.2.last = some a)
  | _ => True

/-- What the record says of the variables. -/
structure Recorded (p : Endpoint × Talk) : Prop where
  last : p.1.opp_server_pointer = some .their_addr → p.2.last = some p.1.their_addr
  asker : p.1.connection = false → p.2.asker ≠ none → p.1.opp_server_pointer = some .their_addr
  asked : p.1.opp_server_pointer = some .opp_server → p.2.asked.head? = some p.1.opp_server

/-- The pointer points to one variable at most. -/
theorem their_addr_ne_opp_server : some Pointee.their_addr ≠ some Pointee.opp_server := by decide

theorem recorded_initial : Recorded (initial, Talk.start) where
  last h := absurd h.symm (Option.some_ne_none _)
  asker _ h := absurd rfl h
  asked h := absurd h.symm (Option.some_ne_none _)

variable {counts : List SockAddr → SockAddr → Bool}

/-- Without a peer the record says nothing. -/
theorem recorded_of_idle {t : Endpoint} (h : t.opp_server_pointer = none) (g : Talk) (s : Endpoint)
    (i : Input) (o : List Output) : Recorded (t, recordTalk counts g s i t o) where
  last hp := absurd (hp.symm.trans h) (Option.some_ne_none _)
  asker _ ha := absurd (if_pos (.inr h)) ha
  asked hp := absurd (hp.symm.trans h) (Option.some_ne_none _)

/-- Where nobody is asked the record of requests stays. -/
theorem asked_recordTalk {o : List Output} (ho : o.filterMap Output.request = []) (g : Talk)
    (s : Endpoint) (i : Input) (t : Endpoint) : (recordTalk counts g s i t o).asked = g.asked := by
  show o.filterMap Output.request ++ g.asked = g.asked
  rw [ho, List.nil_append]

/-- A step that hears nothing, asks nobody and changes no peer keeps what the record says. -/
theorem Recorded.still {s : Endpoint} {g : Talk} (h : Recorded (s, g)) {i : Input}
    (hi : ∀ src d, i ≠ .datagram src d) (running : Bool) {o : List Output}
    (ho : o.filterMap Output.request = []) :
    Recorded ({ s with running }, recordTalk counts g s i { s with running } o) := by
  cases i with
  | datagram src d => exact absurd rfl (hi src d)
  | typed | alarm =>
    refine ⟨h.last, fun hc ha => h.asker hc fun hnone => ?_, fun hp => ?_⟩
    · exact ha (by simp [recordTalk, show g.asker = none from hnone])
    · rw [asked_recordTalk ho]
      exact h.asked hp

/-- A typed line keeps what the record says. -/
theorem Recorded.typed {s t : Endpoint} {g : Talk} (h : Recorded (s, g)) {line : List UInt8}
    {o : List Output} (hline : Typed gethostbyname s line t o) :
    Recorded (t, recordTalk counts g s (.typed line) t o) := by
  have hstill (running : Bool) {o : List Output} (ho : o.filterMap Output.request = []) :
      Recorded ({ s with running }, recordTalk counts g s (.typed line) { s with running } o) :=
    h.still (fun _ _ => Input.noConfusion) running ho
  cases hline with
  | empty | unknown | invalid | wrongly => exact hstill s.running rfl
  | talk a hc ho hne => exact hstill s.running (by simp [Output.request, wannatalk])
  | quit => exact hstill false rfl
  | refuse | leave => exact recorded_of_idle rfl g s _ _
  | accept a hc ho _ =>
    refine ⟨h.last, Bool.noConfusion, fun hp => ?_⟩
    rw [asked_recordTalk (by simp [Output.request, wannatalk, okChk])]
    exact h.asked hp
  | dial peer hc ho _ =>
    refine ⟨fun hp => absurd hp.symm their_addr_ne_opp_server, fun _ ha => ?_,
      fun _ => by simp [recordTalk, Output.request]⟩
    -- without a peer nobody has asked
    have hasker : g.asker ≠ none := fun hnone => ha (by simp [recordTalk, hnone])
    have hptr := h.asker hc hasker
    exact absurd (hptr.symm.trans (opp_eq_none_iff.mp ho)) (Option.some_ne_none _)

/-- A datagram keeps what the record says. -/
theorem Recorded.heard {s t : Endpoint} {g : Talk} (h : Recorded (s, g)) {src : SockAddr}
    {d : List UInt8} (hd : Heard s src d t) {o : List Output}
    (ho : o.filterMap Output.request = []) :
    Recorded (t, recordTalk counts g s (.datagram src d) t o) := by
  have hasked : s.opp_server_pointer = some .opp_server →
      (recordTalk counts g s (.datagram src d) t o).asked.head? = some s.opp_server := by
    rw [asked_recordTalk ho]
    exact h.asked
  cases hd with
  | request hc _ =>
    exact ⟨fun _ => rfl, fun _ _ => rfl, fun hp => absurd hp their_addr_ne_opp_server⟩
  | accepted hc _ _ => exact ⟨fun _ => rfl, Bool.noConfusion, hasked⟩
  | refused | ended => exact recorded_of_idle rfl g s _ _
  | within hc _ => exact ⟨fun _ => rfl, fun hc' => absurd hc (ne_true_of_eq_false hc'), hasked⟩
  | ignored hc hk _ =>
    refine ⟨fun _ => rfl, fun _ ha => h.asker hc fun hnone => ha ?_, hasked⟩
    simp [recordTalk, hk, show g.asker = none from hnone]

/-- An alarm keeps what the record says. -/
theorem Recorded.alarm {s : Endpoint} {g : Talk} (h : Recorded (s, g)) :
    Recorded ((handleSignalAlarm s).1,
      recordTalk counts g s .alarm (handleSignalAlarm s).1 (handleSignalAlarm s).2) := by
  unfold handleSignalAlarm
  split
  · exact recorded_of_idle rfl g s _ _
  · exact h.still (fun _ _ => Input.noConfusion) s.running rfl

theorem rightPeer_nil (p : Endpoint × Talk) : RightPeer p [] :=
  fun _ _ h => absurd h List.not_mem_nil

theorem rightPeer_singleton_iff {p : Endpoint × Talk} {dst : SockAddr} {msg : List UInt8} :
    RightPeer p [.sendto dst msg] ↔
      (p.1.connection = true → ∀ a, p.2.session = some a → dst = a) ∧
        (p.1.connection = false → ∀ a, p.2.asker = some a → dst = a) := by
  constructor
  · exact fun h => h dst msg (List.mem_singleton_self _)
  · intro h dst' msg' hmem
    obtain ⟨rfl, rfl⟩ := Output.sendto.inj (List.mem_singleton.mp hmem)
    exact h

/-- The peer of the pointer is whoever was heard last or asked last, as the pointer points. -/
theorem Recorded.opp_eq_session_iff {s : Endpoint} {g : Talk} (h : Recorded (s, g))
    {a dst : SockAddr} (ho : s.opp = some dst) :
    dst = a ↔ (s.opp_server_pointer = some .their_addr → g.last = some a) ∧
      (s.opp_server_pointer = some .opp_server → g.asked.head? = some a) := by
  cases hp : s.opp_server_pointer with
  | none => exact absurd hp (pointer_ne_none ho)
  | some target =>
    cases target with
    | their_addr =>
      obtain rfl : s.their_addr = dst := by simpa [Endpoint.opp, hp] using ho
      simp [show g.last = some s.their_addr from h.last hp]
    | opp_server =>
      obtain rfl : s.opp_server = dst := by simpa [Endpoint.opp, hp] using ho
      simp [show g.asked.head? = some s.opp_server from h.asked hp]

/-- The peer of a request is whoever was heard last. -/
theorem Recorded.opp_eq_asker_iff {s : Endpoint} {g : Talk} (h : Recorded (s, g))
    (hc : s.connection = false) {a dst : SockAddr} (ha : g.asker = some a)
    (ho : s.opp = some dst) : dst = a ↔ g.last = some a := by
  have hp := h.asker hc (show g.asker ≠ none by simp [ha])
  obtain rfl : s.their_addr = dst := by simpa [Endpoint.opp, show s.opp_server_pointer = _ from hp]
    using ho
  simp [show g.last = some s.their_addr from h.last hp]

/-- Within a session, what is sent to the peer of the pointer goes to the peer of the session
exactly under the condition. -/
theorem rightPeer_session_iff {s : Endpoint} {g : Talk} (h : Recorded (s, g))
    (hc : s.connection = true) {dst : SockAddr} (ho : s.opp = some dst) {line : List UInt8}
    (hline : cstring line ≠ []) (msg : List UInt8) :
    RightPeer (s, g) [.sendto dst msg] ↔ HeardLast (s, g) (.typed line) := by
  rw [rightPeer_singleton_iff]
  constructor
  · rintro ⟨hright, -⟩
    refine ⟨fun _ _ a ha => ?_, fun hc' => absurd hc (ne_true_of_eq_false hc')⟩
    exact (h.opp_eq_session_iff ho).mp (hright hc a ha)
  · rintro ⟨hlast, -⟩
    refine ⟨fun _ a ha => ?_, fun hc' => absurd hc (ne_true_of_eq_false hc')⟩
    exact (h.opp_eq_session_iff ho).mpr (hlast hc hline a ha)

/-- An answer to a request goes to the asker exactly under the condition. -/
theorem rightPeer_answer_iff {s : Endpoint} {g : Talk} (h : Recorded (s, g))
    (hc : s.connection = false) {dst : SockAddr} (ho : s.opp = some dst) {line : List UInt8}
    (hline : cstring line = cmdC ∨ cstring line = cmdN) (msg : List UInt8) :
    RightPeer (s, g) [.sendto dst msg] ↔ HeardLast (s, g) (.typed line) := by
  rw [rightPeer_singleton_iff]
  constructor
  · rintro ⟨-, hright⟩
    refine ⟨fun hc' => absurd hc' (ne_true_of_eq_false hc), fun _ _ a ha => ?_⟩
    exact (h.opp_eq_asker_iff hc ha ho).mp (hright hc a ha)
  · rintro ⟨-, hlast⟩
    refine ⟨fun hc' => absurd hc' (ne_true_of_eq_false hc), fun _ a ha => ?_⟩
    exact (h.opp_eq_asker_iff hc ha ho).mpr (hlast hc hline a ha)

/-- Without a peer nobody has asked. -/
theorem Recorded.asker_eq_none {s : Endpoint} {g : Talk} (h : Recorded (s, g))
    (hc : s.connection = false) (ho : s.opp = none) : g.asker = none := by
  by_contra hne
  have hptr := h.asker hc hne
  exact absurd (hptr.symm.trans (opp_eq_none_iff.mp ho)) (Option.some_ne_none _)

/-- A typed line goes to the peer exactly under the condition. -/
theorem rightPeer_typed_iff {s t : Endpoint} {g : Talk} (h : Recorded (s, g)) {line : List UInt8}
    {o : List Output} (hline : Typed gethostbyname s line t o) :
    RightPeer (s, g) o ↔ HeardLast (s, g) (.typed line) := by
  cases hline with
  | empty hempty => exact iff_of_true (rightPeer_nil _) (by simp [HeardLast, hempty, cmdC, cmdN])
  | accept a hc ho hcmd => exact rightPeer_answer_iff h hc ho (.inl hcmd) okChk
  | refuse a hc ho hcmd => exact rightPeer_answer_iff h hc ho (.inr hcmd) nkoChk
  | unknown a hc ho h₁ h₂ => exact iff_of_true (rightPeer_nil _) (by simp [HeardLast, hc, h₁, h₂])
  | quit hc ho =>
    exact iff_of_true (rightPeer_nil _) (by simp [HeardLast, hc, h.asker_eq_none hc ho])
  | dial peer hc ho _ =>
    have hnone := h.asker_eq_none hc ho
    refine iff_of_true (rightPeer_singleton_iff.mpr ?_) (by simp [HeardLast, hc, hnone])
    simp [hc, hnone]
  | invalid hc ho =>
    exact iff_of_true (by simp [RightPeer]) (by simp [HeardLast, hc, h.asker_eq_none hc ho])
  | leave a hc ho hcmd =>
    exact rightPeer_session_iff h hc ho (by rw [hcmd]; exact List.cons_ne_nil _ _) eChk
  | talk a hc ho hne => exact rightPeer_session_iff h hc ho hne (68 :: cstring line)
  | wrongly hc ho =>
    exact iff_of_true (by simp [RightPeer]) (by simp [HeardLast, hc, opp_eq_none_iff.mp ho])

/-- No datagram makes the endpoint ask for a session. -/
theorem request_packetHandler (s : Endpoint) (src : SockAddr) (d : List UInt8) :
    (packetHandler s src d).2.filterMap Output.request = [] := by
  rw [List.filterMap_eq_nil_iff]
  intro o ho
  cases o with
  | sendto dst msg => exact absurd ho (notMem_packetHandler rfl s src d)
  | _ => rfl

/-- **What is typed goes to the peer, exactly when** it is not typed after a datagram from
elsewhere, while the pointer points to `their_addr`, nor after a request to another than the one
who accepted, while it points to `opp_server`: whoever may accept. -/
theorem always_rightPeer_iff (counts : List SockAddr → SockAddr → Bool) (is : List Input) :
    ((wetalk gethostbyname).monitor (recordTalk counts)).Always (fun p _ _ o => RightPeer p o)
        (initial, Talk.start) is ↔
      ((wetalk gethostbyname).monitor (recordTalk counts)).Always (fun p i _ _ => HeardLast p i)
        (initial, Talk.start) is := by
  refine Machine.always_congr (I := Recorded) (fun p i q o hp hmove => ?_) recorded_initial is
  obtain ⟨hstep, hrecord⟩ := Machine.monitor_step_eq_some_iff.mp hmove
  obtain ⟨t, g'⟩ := q
  obtain rfl : recordTalk counts p.2 p.1 i t o = g' := hrecord
  rcases (wetalk_step_cases hstep).2 with ⟨line, rfl, htyped⟩ | ⟨src, d, rfl, rfl, rfl⟩ |
    ⟨rfl, rfl, rfl⟩
  · exact ⟨rightPeer_typed_iff gethostbyname hp htyped, fun _ => hp.typed gethostbyname htyped⟩
  · refine ⟨iff_of_true (fun dst msg hmem => ?_) trivial, fun _ => ?_⟩
    · exact absurd hmem (notMem_packetHandler rfl p.1 src d)
    · exact hp.heard (heard_packetHandler p.1 src d) (request_packetHandler p.1 src d)
  · refine ⟨iff_of_true ?_ trivial, fun _ => hp.alarm⟩
    unfold handleSignalAlarm
    split <;> simp [RightPeer]

/-- The address of one who asks for a session. -/
def asking : SockAddr := ⟨7, 256⟩

/-- The address of one who does not. -/
def passing : SockAddr := ⟨8, 256⟩

/-- A user accepts a request, a datagram comes from elsewhere, and what he types goes there. -/
theorem not_always_rightPeer_passing :
    ¬ ((wetalk fun _ => none).monitor (recordTalk fun asked a => asked.contains a)).Always
        (fun p _ _ o => RightPeer p o) (initial, Talk.start)
        [.datagram asking wannatalk, .typed cmdC, .datagram passing [33], .typed [33]] := by
  intro h
  have hrequest := h _ _ rfl
  have haccept := hrequest.2 _ _ rfl
  have hpassing := haccept.2 _ _ rfl
  have htalk := hpassing.2 _ _ rfl
  have heq : passing = asking :=
    (htalk.1 passing [68, 33] (List.mem_singleton_self _)).1 rfl asking rfl
  exact absurd heq (by decide)

/-! ## Who may end a session or settle a request -/

/-- The endpoint is connected to an address, or has an unanswered request to it. -/
def HasPeer (s : Endpoint) (a : SockAddr) : Prop :=
  (s.connection = true ∧ s.opp = some a) ∨ (s.received = false ∧ s.opp_server = a)

/-- A datagram leaves `connection` and `received` as they are. -/
def Keeps (s : Endpoint) (src : SockAddr) (d : List UInt8) : Prop :=
  (packetHandler s src d).1.connection = s.connection ∧
    (packetHandler s src d).1.received = s.received

/-- Datagrams from elsewhere than the peer change nothing. -/
def IgnoresStrangers (s : Endpoint) : Prop :=
  ∀ a, HasPeer s a → ∀ src d, src ≠ a → Keeps s src d

/-- An endpoint that has dialled is connected by a stranger's acceptance. -/
theorem not_ignoresStrangers_dialing :
    (wetalk fun _ => some 7).run initial [.typed [104, 32, 49]] =
        some (dialing, [.sendto asking wannatalk]) ∧
      ¬ IgnoresStrangers dialing := by
  refine ⟨(Machine.run_singleton _ _).trans step_dial, fun h => ?_⟩
  have hkeeps := h asking (.inr ⟨rfl, rfl⟩) passing okChk (by decide)
  exact Bool.noConfusion hkeeps.1

/-- **What a datagram does to a session or to a request depends on its content only**: the end of a
session ends it, and an answer settles a request, whoever sends it. Nothing else changes either. -/
theorem keeps_iff {s : Endpoint} {a : SockAddr} (ha : HasPeer s a) (src : SockAddr)
    (d : List UInt8) :
    Keeps s src d ↔ if s.connection = true then kind d ≠ .e else kind d ≠ .ok ∧ kind d ≠ .ko := by
  have hheard := heard_packetHandler s src d
  unfold Keeps
  generalize (packetHandler s src d).1 = t at hheard
  cases hheard with
  | request hc hk => simp [hc, hk]
  | accepted hc _ hk => simp [hc, hk]
  | refused hc hr hk => simp [hc, hr, hk]
  | ended hc hk => simp [hc, hk]
  | within hc hk => simp [hc, hk]
  | ignored hc _ hrest =>
    rcases ha with ⟨hc', -⟩ | ⟨hr, -⟩
    · exact absurd hc' (ne_true_of_eq_false hc)
    · simp [hc, hrest hr]

/-- A stranger's end of a session is nothing to an endpoint that has only dialled. -/
theorem keeps_dialing_eChk : Keeps dialing passing eChk :=
  (keeps_iff (a := asking) (.inr ⟨rfl, rfl⟩) passing eChk).mpr (by decide)

end NetworkLabs.WeTalk

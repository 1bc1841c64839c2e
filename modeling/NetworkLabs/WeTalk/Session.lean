import NetworkLabs.WeTalk.Endpoint

/-!
# Sessions of one endpoint

A session should have a peer, its peer should have agreed to it, and the alarm should not end it.
All three are followed through all runs of an endpoint, agreement with a record of the run beside
it. The code has each property exactly in the runs whose steps meet a condition.

## Main definitions

* `consent`: who has sent a request or an acceptance since the endpoint was last idle
* `Consented`, `Attached`, `Lasting`: the three properties

## Main results

* `always_consented_iff`, `always_attached_iff`, `always_lasting_iff`: the runs that have them
-/

namespace NetworkLabs.WeTalk

open CRuntime Transition

variable (gethostbyname : List UInt8 → Option UInt32)

/-! ## The peer has agreed -/

/-- The addresses that have sent a request or an acceptance since the endpoint was last idle. -/
def consent (c : List SockAddr) (_ : Endpoint) (i : Input) (t : Endpoint) (_ : List Output) :
    List SockAddr :=
  if t.connection = false ∧ t.opp_server_pointer = none then []
  else
    match i with
    | .datagram src d => if kind d = .wannatalk ∨ kind d = .ok then src :: c else c
    | _ => c

/-- A connected endpoint has a peer, and the peer has agreed. -/
def Consented (p : Endpoint × List SockAddr) : Prop :=
  p.1.connection = true → ∃ a, p.1.opp = some a ∧ a ∈ p.2

/-- The step connects with a peer that has agreed, and keeps the peer of a session. -/
def ConsentKept (p : Endpoint × List SockAddr) : Input → Prop
  -- a request of one's own is not answered by oneself
  | .typed line => cstring line = cmdC → p.1.connection = false →
      ∀ a, p.1.opp = some a → a ∈ p.2
  | .datagram src d =>
    (p.1.connection = false → p.1.received = false → kind d = .ok →
      p.1.opp_server_pointer ≠ none ∧
        (p.1.opp_server_pointer = some .opp_server → p.1.opp_server = src ∨ p.1.opp_server ∈ p.2)) ∧
    -- on the accepting side the sender of any datagram becomes the peer
    (p.1.connection = true → p.1.opp_server_pointer = some .their_addr → kind d ≠ .e →
      src ∈ p.2 ∨ kind d = .wannatalk ∨ kind d = .ok)
  | .alarm => True

theorem consented_of_unconnected {t : Endpoint} (h : t.connection = false) (c : List SockAddr) :
    Consented (t, c) :=
  fun hc => absurd hc (ne_true_of_eq_false h)

/-- A step that is no datagram and changes nothing keeps a session consented. -/
theorem consented_of_same {s : Endpoint} {c : List SockAddr} (hs : Consented (s, c)) {i : Input}
    (hi : ∀ src d, i ≠ .datagram src d) (o : List Output) :
    Consented (s, consent c s i s o) := by
  cases hc : s.connection with
  | false => exact consented_of_unconnected hc _
  | true =>
    have hsame : consent c s i s o = c := by
      have hnot : ¬ (s.connection = false ∧ s.opp_server_pointer = none) :=
        fun hidle => absurd hc (ne_true_of_eq_false hidle.1)
      cases i with
      | datagram src d => exact absurd rfl (hi src d)
      | typed line => exact if_neg hnot
      | alarm => exact if_neg hnot
    rwa [hsame]

/-- Within a session the record only grows. -/
theorem consent_of_connected (c : List SockAddr) (s : Endpoint) {t : Endpoint}
    (h : t.connection = true) (src : SockAddr) (d : List UInt8) (o : List Output) :
    consent c s (.datagram src d) t o =
      if kind d = .wannatalk ∨ kind d = .ok then src :: c else c :=
  if_neg fun hidle => absurd h (ne_true_of_eq_false hidle.1)

/-- Without a session, no datagram but an answer matters. -/
theorem consentKept_of_unconnected {s : Endpoint} (c : List SockAddr) (hc : s.connection = false)
    (src : SockAddr) {d : List UInt8} (h : ¬ (s.received = false ∧ kind d = .ok)) :
    ConsentKept (s, c) (.datagram src d) :=
  ⟨fun _ hr hk => absurd ⟨hr, hk⟩ h, fun hc' => absurd hc' (ne_true_of_eq_false hc)⟩

/-- A datagram keeps a session consented exactly under the condition. -/
theorem consented_datagram_iff {s t : Endpoint} {c : List SockAddr} (hs : Consented (s, c))
    {src : SockAddr} {d : List UInt8} (hd : Heard s src d t) (o : List Output) :
    Consented (t, consent c s (.datagram src d) t o) ↔ ConsentKept (s, c) (.datagram src d) := by
  cases hd with
  | request hc hk =>
    exact iff_of_true (consented_of_unconnected (by exact hc) _)
      (consentKept_of_unconnected c hc src (by simp [hk]))
  | accepted hc hr hk =>
    -- the sender has agreed, the peer need not have
    rw [consent_of_connected c s rfl, if_pos (.inr hk)]
    cases hp : s.opp_server_pointer with
    | none => simp [Consented, ConsentKept, Endpoint.opp, hc, hr, hk, hp]
    | some p => cases p <;> simp [Consented, ConsentKept, Endpoint.opp, hc, hr, hk, hp]
  | refused hc _ hk =>
    exact iff_of_true (consented_of_unconnected (by exact hc) _)
      (consentKept_of_unconnected c hc src (by simp [hk]))
  | ended hc hk =>
    refine iff_of_true (consented_of_unconnected rfl _) ⟨fun hc' => ?_, fun _ _ hne => ?_⟩
    · exact absurd hc (ne_true_of_eq_false hc')
    · exact absurd hk hne
  | within hc hk =>
    -- the sender becomes the peer when the pointer points to `their_addr`
    obtain ⟨a, ha, hmem⟩ := hs hc
    rw [consent_of_connected (t := { s with their_addr := src }) c s hc]
    cases hp : s.opp_server_pointer with
    | none => simp [Endpoint.opp, hp] at ha
    | some p =>
      cases p with
      | their_addr =>
        by_cases hagree : kind d = .wannatalk ∨ kind d = .ok
        · simp [Consented, ConsentKept, Endpoint.opp, hc, hp, hagree]
        · simp [Consented, ConsentKept, Endpoint.opp, hc, hp, hk, hagree]
      | opp_server =>
        obtain rfl : s.opp_server = a := by simpa [Endpoint.opp, hp] using ha
        have hkept : s.opp_server ∈ if kind d = .wannatalk ∨ kind d = .ok then src :: c else c := by
          split
          · exact List.mem_cons_of_mem _ hmem
          · exact hmem
        simp [Consented, ConsentKept, Endpoint.opp, hc, hp, hkept]
  | ignored hc _ hrest =>
    exact iff_of_true (consented_of_unconnected (by exact hc) _)
      (consentKept_of_unconnected c hc src fun hok => (hrest hok.1).1 hok.2)

/-- A typed line keeps a session consented exactly under the condition. -/
theorem consented_typed_iff {s t : Endpoint} {c : List SockAddr} (hs : Consented (s, c))
    {line : List UInt8} {o : List Output} (h : Typed gethostbyname s line t o) :
    Consented (t, consent c s (.typed line) t o) ↔ ConsentKept (s, c) (.typed line) := by
  cases h with
  | empty hline =>
    refine iff_of_true (consented_of_same hs (fun _ _ => Input.noConfusion) _) fun hcmd => ?_
    rw [hline] at hcmd
    cases hcmd
  | accept a hc ho hline =>
    have hsame : consent c s (.typed line) { s with connection := true } [.sendto a okChk] = c :=
      if_neg fun hidle => absurd hidle.1 Bool.noConfusion
    rw [hsame]
    constructor
    · intro hall _ _ b hb
      obtain ⟨a', ha', hmem⟩ := hall rfl
      obtain rfl := Option.some.inj (ha'.symm.trans hb)
      exact hmem
    · intro hall _
      exact ⟨a, ho, hall hline hc a ho⟩
  | refuse a hc ho hline =>
    refine iff_of_true (consented_of_unconnected rfl _) fun hcmd => ?_
    rw [hline] at hcmd
    cases hcmd
  | unknown a hc ho hne _ =>
    exact iff_of_true (consented_of_unconnected hc _) fun hcmd => absurd hcmd hne
  | quit hc ho =>
    exact iff_of_true (consented_of_unconnected hc _)
      fun _ _ a ha => nomatch ho.symm.trans ha
  | dial peer hc ho _ =>
    exact iff_of_true (consented_of_unconnected (by exact hc) _)
      fun _ _ a ha => nomatch ho.symm.trans ha
  | invalid hc ho =>
    exact iff_of_true (consented_of_unconnected hc _)
      fun _ _ a ha => nomatch ho.symm.trans ha
  | leave a hc ho hline =>
    exact iff_of_true (consented_of_unconnected rfl _)
      fun _ hc' => absurd hc (ne_true_of_eq_false hc')
  | talk a hc ho hline =>
    exact iff_of_true (consented_of_same hs (fun _ _ => Input.noConfusion) _)
      fun _ hc' => absurd hc (ne_true_of_eq_false hc')
  | wrongly hc ho =>
    exact iff_of_true (consented_of_same hs (fun _ _ => Input.noConfusion) _)
      fun _ hc' => absurd hc (ne_true_of_eq_false hc')

/-- **No session without the peer's consent, exactly when** the user types `c` only to a peer that
has agreed, an acceptance that settles a request finds a peer that has agreed, and within a session
that the user has accepted only addresses that have agreed send anything but its end. -/
theorem always_consented_iff (is : List Input) :
    ((wetalk gethostbyname).monitor consent).Always (fun _ _ q _ => Consented q) (initial, []) is ↔
      ((wetalk gethostbyname).monitor consent).Always (fun p i _ _ => ConsentKept p i)
        (initial, []) is := by
  refine Machine.always_congr (I := Consented) (fun p i q o hp hmove => ⟨?_, fun hq => hq⟩)
    (consented_of_unconnected rfl _) is
  obtain ⟨hstep, hrecord⟩ := Machine.monitor_step_eq_some_iff.mp hmove
  obtain ⟨t, c'⟩ := q
  obtain rfl : consent p.2 p.1 i t o = c' := hrecord
  rcases (wetalk_step_cases hstep).2 with ⟨line, rfl, htyped⟩ | ⟨src, d, rfl, rfl, rfl⟩ |
    ⟨rfl, rfl, rfl⟩
  · exact consented_typed_iff gethostbyname hp htyped
  · exact consented_datagram_iff hp (heard_packetHandler p.1 src d) _
  · refine iff_of_true ?_ trivial
    unfold handleSignalAlarm
    split
    · exact consented_of_unconnected rfl _
    · exact consented_of_same hp (fun _ _ => Input.noConfusion) _

/-- An endpoint whose request to a peer on port 1 is outstanding. -/
def dialing : Endpoint :=
  { initial with
    received := false
    opp_server_pointer := some .opp_server
    opp_server := ⟨7, 256⟩ }

theorem step_dial : (wetalk fun _ => some 7).step initial (.typed [104, 32, 49]) =
    some (dialing, [.sendto ⟨7, 256⟩ wannatalk]) := by
  have hline : cstring [104, 32, 49] = [104, 32, 49] := by decide
  have hpeer : typedPeer (fun _ => some 7) [104, 32, 49] = some ⟨7, 256⟩ := by decide
  simp [wetalk, weChatServer, initial, Endpoint.opp, hline, hpeer, cmdQ, dialing]

/-- A user who types `c` to a request of his own is connected to a peer that has not answered. -/
theorem not_always_consented_ownRequest :
    ¬ ((wetalk fun _ => some 7).monitor consent).Always (fun _ _ q _ => Consented q) (initial, [])
        [.typed [104, 32, 49], .typed cmdC] := by
  intro h
  have hdial := h (dialing, []) [.sendto ⟨7, 256⟩ wannatalk]
    (Machine.monitor_step_eq_some_iff.mpr ⟨step_dial, rfl⟩)
  have haccept := hdial.2 ({ dialing with connection := true }, []) [.sendto ⟨7, 256⟩ okChk]
    (Machine.monitor_step_eq_some_iff.mpr ⟨rfl, rfl⟩)
  obtain ⟨a, -, hmem⟩ := haccept.1 rfl
  cases hmem

/-! ## A session has a peer -/

/-- The step leaves a connected endpoint with a peer, and does not complain that it has none. -/
def Attached (_ : Endpoint) (_ : Input) (t : Endpoint) (o : List Output) : Prop :=
  (t.connection = true → t.opp_server_pointer ≠ none) ∧ .wronglyAssumes ∉ o

/-- An acceptance that settles a request finds a peer. -/
def PeerLeft (s : Endpoint) : Input → Prop
  | .datagram _ d => s.connection = false → s.received = false → kind d = .ok →
      s.opp_server_pointer ≠ none
  | _ => True

theorem attached_datagram_iff {s t : Endpoint}
    (hs : s.connection = true → s.opp_server_pointer ≠ none) {src : SockAddr} {d : List UInt8}
    (hd : Heard s src d t) {o : List Output} (ho : .wronglyAssumes ∉ o) :
    Attached s (.datagram src d) t o ↔ PeerLeft s (.datagram src d) := by
  apply (and_iff_left ho).trans
  cases hd with
  | request hc hk =>
    refine iff_of_true (fun hc' => absurd hc' (ne_true_of_eq_false hc)) fun _ _ hk' => ?_
    exact Kind.noConfusion (hk.symm.trans hk')
  | accepted hc hr hk => simp [PeerLeft, hc, hr, hk]
  | refused hc _ hk =>
    refine iff_of_true (fun hc' => absurd hc' (ne_true_of_eq_false hc)) fun _ _ hk' => ?_
    exact Kind.noConfusion (hk.symm.trans hk')
  | ended hc _ =>
    exact iff_of_true Bool.noConfusion fun hc' => absurd hc (ne_true_of_eq_false hc')
  | within hc _ => exact iff_of_true hs fun hc' => absurd hc (ne_true_of_eq_false hc')
  | ignored hc _ hrest =>
    exact iff_of_true (fun hc' => absurd hc' (ne_true_of_eq_false hc))
      fun _ hr hk => absurd hk (hrest hr).1

theorem attached_typed {s t : Endpoint} (hs : s.connection = true → s.opp_server_pointer ≠ none)
    {line : List UInt8} {o : List Output} (h : Typed gethostbyname s line t o) :
    Attached s (.typed line) t o := by
  cases h with
  | empty => exact ⟨hs, by simp⟩
  | accept a hc ho =>
    exact ⟨fun _ => pointer_ne_none ho, by simp⟩
  | refuse => exact ⟨Bool.noConfusion, by simp⟩
  | unknown => exact ⟨hs, by simp⟩
  | quit => exact ⟨hs, by simp⟩
  | dial => exact ⟨fun _ => Option.some_ne_none _, by simp⟩
  | invalid => exact ⟨hs, by simp⟩
  | leave => exact ⟨Bool.noConfusion, by simp⟩
  | talk => exact ⟨hs, by simp⟩
  | wrongly hc ho => exact absurd (opp_eq_none_iff.mp ho) (hs hc)

theorem attached_alarm {s : Endpoint} (hs : s.connection = true → s.opp_server_pointer ≠ none) :
    Attached s .alarm (handleSignalAlarm s).1 (handleSignalAlarm s).2 := by
  unfold handleSignalAlarm
  split
  · exact ⟨Bool.noConfusion, by simp⟩
  · exact ⟨hs, by simp⟩

/-- **Connected to nobody is never reached, exactly when** no acceptance settles a request whose
peer is gone: the user has refused meanwhile, and the request is still outstanding. -/
theorem always_attached_iff (is : List Input) :
    (wetalk gethostbyname).Always Attached initial is ↔
      (wetalk gethostbyname).Always (fun s i _ _ => PeerLeft s i) initial is := by
  refine Machine.always_congr (I := fun s => s.connection = true → s.opp_server_pointer ≠ none)
    (fun s i t o hs hmove => ⟨?_, fun h => h.1⟩) Bool.noConfusion is
  rcases (wetalk_step_cases hmove).2 with ⟨line, rfl, htyped⟩ | ⟨src, d, rfl, rfl, rfl⟩ |
    ⟨rfl, rfl, rfl⟩
  · exact iff_of_true (attached_typed gethostbyname hs htyped) trivial
  · exact attached_datagram_iff hs (heard_packetHandler s src d)
      (notMem_packetHandler rfl s src d)
  · exact iff_of_true (attached_alarm hs) trivial

/-- A user dials, types `n`, and is connected to nobody by the acceptance that comes later. -/
theorem not_always_attached_lateAnswer :
    ¬ (wetalk fun _ => some 7).Always Attached initial
        [.typed [104, 32, 49], .typed cmdN, .datagram ⟨7, 256⟩ okChk] := by
  intro h
  have hdial := h dialing [.sendto ⟨7, 256⟩ wannatalk] step_dial
  have hrefuse := hdial.2 { dialing with opp_server_pointer := none } [.sendto ⟨7, 256⟩ nkoChk] rfl
  have hanswer := hrefuse.2 _ _ rfl
  exact hanswer.1.1 rfl rfl

/-! ## The alarm ends no session -/

/-- No alarm ends a session: not the one of this step, and not one that goes off after it. -/
def Lasting (s : Endpoint) (i : Input) (t : Endpoint) (_ : List Output) : Prop :=
  (i = .alarm → s.connection = true → t.connection = true) ∧
    (t.connection = true → (handleSignalAlarm t).1.connection = true)

/-- A request is accepted only when no request of one's own is outstanding. -/
def Unasked (s : Endpoint) : Input → Prop
  | .typed line => cstring line = cmdC → s.connection = false → s.opp_server_pointer ≠ none →
      s.received = true
  | _ => True

/-- The alarm leaves a session alone exactly when no request is outstanding. -/
theorem connection_handleSignalAlarm_iff {s : Endpoint} (hc : s.connection = true) :
    (handleSignalAlarm s).1.connection = true ↔ s.received = true := by
  unfold handleSignalAlarm
  cases hr : s.received with
  | false => simp
  | true => simpa using hc

theorem lasting_iff {s t : Endpoint} {i : Input} {o : List Output}
    (hi : i = .alarm → s.connection = true → t.connection = true) :
    Lasting s i t o ↔ (t.connection = true → t.received = true) :=
  (and_iff_right hi).trans (forall_congr' connection_handleSignalAlarm_iff)

theorem lasting_typed_iff {s t : Endpoint} (hs : s.connection = true → s.received = true)
    {line : List UInt8} {o : List Output} (h : Typed gethostbyname s line t o) :
    Lasting s (.typed line) t o ↔ Unasked s (.typed line) := by
  apply (lasting_iff Input.noConfusion).trans
  -- `accept` is the only line that connects, and it leaves `received` as it was
  cases h with
  | empty hline =>
    refine iff_of_true hs fun hcmd => ?_
    rw [hline] at hcmd
    cases hcmd
  | accept a hc ho hline =>
    constructor
    · intro hr _ _ _
      exact hr rfl
    · intro hr _
      exact hr hline hc (pointer_ne_none ho)
  | refuse a hc ho hline =>
    refine iff_of_true Bool.noConfusion fun hcmd => ?_
    rw [hline] at hcmd
    cases hcmd
  | unknown a hc ho hne _ => exact iff_of_true hs fun hcmd => absurd hcmd hne
  | quit hc ho => exact iff_of_true hs fun _ _ hp => absurd (opp_eq_none_iff.mp ho) hp
  | dial peer hc ho _ =>
    exact iff_of_true (fun hc' => absurd hc' (ne_true_of_eq_false hc))
      fun _ _ hp => absurd (opp_eq_none_iff.mp ho) hp
  | invalid hc ho => exact iff_of_true hs fun _ _ hp => absurd (opp_eq_none_iff.mp ho) hp
  | leave a hc _ _ =>
    exact iff_of_true Bool.noConfusion fun _ hc' => absurd hc (ne_true_of_eq_false hc')
  | talk a hc _ _ => exact iff_of_true hs fun _ hc' => absurd hc (ne_true_of_eq_false hc')
  | wrongly hc _ => exact iff_of_true hs fun _ hc' => absurd hc (ne_true_of_eq_false hc')

/-- A datagram that connects settles the request. -/
theorem lasting_datagram {s t : Endpoint} (hs : s.connection = true → s.received = true)
    {src : SockAddr} {d : List UInt8} (hd : Heard s src d t) (o : List Output) :
    Lasting s (.datagram src d) t o := by
  apply (lasting_iff Input.noConfusion).mpr
  cases hd with
  | request hc _ => exact fun hc' => absurd hc' (ne_true_of_eq_false hc)
  | accepted => exact fun _ => rfl
  | refused => exact fun _ => rfl
  | ended => exact Bool.noConfusion
  | within => exact hs
  | ignored hc _ _ => exact fun hc' => absurd hc' (ne_true_of_eq_false hc)

theorem lasting_alarm {s : Endpoint} (hs : s.connection = true → s.received = true) :
    Lasting s .alarm (handleSignalAlarm s).1 (handleSignalAlarm s).2 := by
  refine (lasting_iff fun _ hc => (connection_handleSignalAlarm_iff hc).mpr (hs hc)).mpr ?_
  unfold handleSignalAlarm
  split
  · exact Bool.noConfusion
  · exact hs

/-- **The alarm ends no session, exactly when** the user accepts a request only while no request of
his own is outstanding. -/
theorem always_lasting_iff (is : List Input) :
    (wetalk gethostbyname).Always Lasting initial is ↔
      (wetalk gethostbyname).Always (fun s i _ _ => Unasked s i) initial is := by
  refine Machine.always_congr (I := fun s => s.connection = true → s.received = true)
    (fun s i t o hs hmove => ⟨?_, fun h hc => (connection_handleSignalAlarm_iff hc).mp (h.2 hc)⟩)
    (fun _ => rfl) is
  rcases (wetalk_step_cases hmove).2 with ⟨line, rfl, htyped⟩ | ⟨src, d, rfl, rfl, rfl⟩ |
    ⟨rfl, rfl, rfl⟩
  · exact lasting_typed_iff gethostbyname hs htyped
  · exact iff_of_true (lasting_datagram hs (heard_packetHandler s src d) _) trivial
  · exact iff_of_true (lasting_alarm hs) trivial

/-- Two endpoints request each other, one of them accepts, and is disconnected when the alarm of its
own request goes off. -/
theorem not_always_lasting_crossing :
    ¬ (wetalk fun _ => some 7).Always Lasting initial
        [.typed [104, 32, 49], .datagram ⟨7, 256⟩ wannatalk, .typed cmdC, .alarm] := by
  intro h
  have hdial := h dialing [.sendto ⟨7, 256⟩ wannatalk] step_dial
  have hrequest := hdial.2 _ _ rfl
  have haccept := hrequest.2 _ _ rfl
  have halarm := haccept.2 _ _ rfl
  exact Bool.noConfusion (halarm.1.1 rfl rfl)

end NetworkLabs.WeTalk

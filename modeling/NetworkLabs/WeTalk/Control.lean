import NetworkLabs.WeTalk.Endpoint

/-!
# Text and control

Text and control words share the datagrams of wetalk. What is said in a session carries a `D` in
front, so that it is no control word, and the control words that are looked for depend on the
session. A request is settled when it is answered, refused or timed out; from then on only the user
starts a session, and every acceptance belongs to a request of its own.

## Main definitions

* `Waits`: the steps on which the user neither accepts nor asks
* `Tally`, `tally`: the acceptances and the requests of a run

## Main results

* `packetHandler_of_said`: what a receiver does with what is said in a session
* `settled_stays`: a settled request stays settled, and acceptances are at most as many as requests
-/

namespace NetworkLabs.WeTalk

open CRuntime Transition

/-! ## What is said in a session -/

section Said

variable {line : List UInt8}

theorem zero_notMem_of_isPrint (h : ∀ b ∈ line, isPrint b = true) : 0 ∉ line := fun hmem =>
  absurd (h 0 hmem) (by decide)

/-- What a session sends for a line: the end of the session, or the line with a `D` in front. -/
theorem sendto_of_connected {gethostbyname : List UInt8 → Option UInt32} {s : Endpoint}
    (hs : s.connection = true) (hzero : 0 ∉ line) {dst : SockAddr} {msg : List UInt8}
    (h : .sendto dst msg ∈ (weChatServer gethostbyname s line).2) :
    msg = if line = cmdE then eChk else 68 :: line := by
  have hline := cstring_eq_self hzero
  by_cases hnil : line = []
  · subst hnil
    simp [weChatServer, hline] at h
  · cases ho : s.opp with
    | none => simp [weChatServer, hline, hnil, hs, ho] at h
    | some a =>
      by_cases he : line = cmdE
      · subst he
        have hsent : dst = a ∧ msg = eChk := by
          simpa [weChatServer, hline, hnil, hs, ho] using h
        rw [if_pos rfl]
        exact hsent.2
      · have hsent : dst = a ∧ msg = 68 :: line := by
          simpa [weChatServer, hline, hnil, hs, ho, he] using h
        rw [if_neg he]
        exact hsent.2

/-- A message of at most 52 bytes is compared as it is. -/
theorem cstring_take_cons (hlen : line.length ≤ 50) (hzero : 0 ∉ line) :
    cstring ((68 :: line).take 52) = 68 :: line := by
  rw [List.take_of_length_le (by rw [List.length_cons]; omega)]
  apply cstring_eq_self
  intro hmem
  rcases List.mem_cons.mp hmem with h | h
  · exact absurd h (by decide)
  · exact hzero h

/-- A session shows what was said. -/
theorem packetHandler_text {r : Endpoint} (hr : r.connection = true) (src : SockAddr)
    (hlen : line.length ≤ 50) (hzero : 0 ∉ line) :
    packetHandler r src (68 :: line) = ({ r with their_addr := src }, [.shown line]) := by
  have hne : ¬ 68 :: line = eChk := by simp [eChk]
  simp only [packetHandler, cstring_take_cons hlen hzero, hr, if_neg (List.cons_ne_nil 68 line),
    if_neg hne, Bool.true_eq_false, if_false, List.head?_cons, if_true, List.tail_cons]

/-- The end message ends a session. -/
theorem packetHandler_eChk {r : Endpoint} (hr : r.connection = true) (src : SockAddr) :
    packetHandler r src eChk =
      ({ r with their_addr := src, connection := false, opp_server_pointer := none },
        [.terminated]) := by
  have hbuf : cstring (eChk.take 52) = eChk := by decide
  have hne : ¬ eChk = [] := by decide
  simp [packetHandler, hr, hbuf, hne]

/-- Without a session only the words of the handshake are looked for. -/
theorem packetHandler_of_not_connected {r : Endpoint} (hr : r.connection = false) (src : SockAddr)
    {d : List UInt8} (hd : kind d = .text ∨ kind d = .e) :
    packetHandler r src d = ({ r with their_addr := src }, []) := by
  have hwords : cstring (d.take 52) ≠ wannatalk ∧ cstring (d.take 52) ≠ okChk ∧
      cstring (d.take 52) ≠ nkoChk := by
    unfold kind at hd
    dsimp only at hd
    split_ifs at hd <;> simp_all
  simp [packetHandler, hr, hwords.1, hwords.2.1, hwords.2.2]

/-- **Text is never mistaken for control.** What a session sends for a line of 1 to 50 printable
characters fits the buffer of its receiver. A receiver in a session shows the line, unless it is
`e`, which ends the session; a receiver without a session does nothing with it. -/
theorem packetHandler_of_said (gethostbyname : List UInt8 → Option UInt32) (s : Endpoint)
    (hs : s.connection = true) (line : List UInt8) (hpos : 1 ≤ line.length)
    (hlen : line.length ≤ 50) (hprint : ∀ b ∈ line, isPrint b = true) (dst : SockAddr)
    (msg : List UInt8) (hmsg : .sendto dst msg ∈ (weChatServer gethostbyname s line).2) :
    msg.length < 52 ∧ ∀ (r : Endpoint) (src : SockAddr),
      (r.connection = true → line ≠ cmdE →
        packetHandler r src msg = ({ r with their_addr := src }, [.shown line])) ∧
      (r.connection = true → line = cmdE →
        packetHandler r src msg =
          ({ r with their_addr := src, connection := false, opp_server_pointer := none },
            [.terminated])) ∧
      (r.connection = false → packetHandler r src msg = ({ r with their_addr := src }, [])) := by
  have hzero := zero_notMem_of_isPrint hprint
  have hsaid := sendto_of_connected hs hzero hmsg
  by_cases he : line = cmdE
  -- the end message
  · rw [if_pos he] at hsaid
    subst hsaid
    refine ⟨by decide, fun r src => ⟨fun _ hne => absurd he hne, fun hr _ => ?_, fun hr => ?_⟩⟩
    · exact packetHandler_eChk hr src
    · exact packetHandler_of_not_connected hr src (.inr kind_eChk)
  -- text, with the `D` in front of it
  · rw [if_neg he] at hsaid
    subst hsaid
    refine ⟨by rw [List.length_cons]; omega,
      fun r src => ⟨fun hr _ => ?_, fun _ heq => absurd heq he, fun hr => ?_⟩⟩
    · exact packetHandler_text hr src hlen hzero
    · exact packetHandler_of_not_connected hr src (.inl (kind_cons_68 line))

/-- The line `hi`, said to a receiver without a session. -/
theorem packetHandler_of_said_hi :
    packetHandler initial ⟨1, 2⟩ [68, 104, 105] = ({ initial with their_addr := ⟨1, 2⟩ }, []) := by
  have hprint : [104, 105].all isPrint = true := by decide
  have hsaid := packetHandler_of_said (fun _ => none)
    { initial with connection := true, opp_server_pointer := some .opp_server } rfl [104, 105]
    (by decide) (by decide) (List.all_eq_true.mp hprint) ⟨0, 0⟩ [68, 104, 105] (by decide)
  exact (hsaid.2 initial ⟨1, 2⟩).2.2 rfl

end Said

/-! ## Requests and acceptances -/

/-- The user neither accepts, nor sends a request. -/
def Waits (s : Endpoint) (i : Input) (_ : Endpoint) (o : List Output) : Prop :=
  ∀ line, i = .typed line →
    ¬ (cstring line = cmdC ∧ s.opp_server_pointer ≠ none) ∧ ∀ dst, .sendto dst wannatalk ∉ o

/-- How often a datagram has accepted a request, and how many requests were sent. -/
structure Tally where
  accepted : ℕ
  requested : ℕ

/-- A request for a session. -/
def isRequest : Output → Bool
  | .sendto _ msg => msg == wannatalk
  | _ => false

/-- The tally after a step. -/
def tally (c : Tally) (s : Endpoint) (i : Input) (t : Endpoint) (o : List Output) : Tally where
  accepted :=
    match i with
    | .datagram _ d =>
      if kind d = .ok ∧ s.connection = false ∧ t.connection = true then c.accepted + 1
      else c.accepted
    | _ => c.accepted
  requested := c.requested + o.countP isRequest

section Requests

variable {gethostbyname : List UInt8 → Option UInt32} {s t : Endpoint} {i : Input}
  {o : List Output}

/-- A settled request stays settled through a step of waiting. -/
theorem settled_step (hstep : (wetalk gethostbyname).step s i = some (t, o))
    (hs : s.connection = false ∧ s.received = true) (hwait : Waits s i t o) :
    t.connection = false ∧ t.received = true := by
  obtain ⟨hc, hr⟩ := hs
  rcases (wetalk_step_cases hstep).2 with ⟨line, rfl, hline⟩ | ⟨src, d, rfl, rfl, rfl⟩ |
    ⟨rfl, rfl, rfl⟩
  -- of the typed lines only an acceptance and a request matter, and the user waits
  · obtain ⟨hno, hnone⟩ := hwait line rfl
    cases hline with
    | empty | unknown | quit | invalid => exact ⟨hc, hr⟩
    | refuse => exact ⟨rfl, hr⟩
    | accept a _ ho hline => exact absurd ⟨hline, pointer_ne_none ho⟩ hno
    | dial peer => exact absurd List.mem_cons_self (hnone peer)
    | leave _ hon | talk _ hon | wrongly hon => exact absurd hc (by simp [hon])
  -- nothing is outstanding, so a datagram settles nothing
  · generalize ht : (packetHandler s src d).1 = u
    have hheard := heard_packetHandler s src d
    rw [ht] at hheard
    cases hheard with
    | request | within | ignored => exact ⟨hc, hr⟩
    | accepted _ hr' | refused _ hr' => exact absurd hr (by simp [hr'])
    | ended hon => exact absurd hc (by simp [hon])
  -- the alarm finds nothing to give up
  · rw [handleSignalAlarm, if_neg (by simp [hr])]
    exact ⟨hc, hr⟩

/-- A request that is still outstanding has not been accepted yet. -/
def Charged (p : Endpoint × Tally) : Prop :=
  p.2.accepted + (if p.1.received then 0 else 1) ≤ p.2.requested

/-- Every acceptance takes a request that was outstanding. -/
theorem Charged.step {p q : Endpoint × Tally} (hp : Charged p)
    (hstep : ((wetalk gethostbyname).monitor tally).step p i = some (q, o)) : Charged q := by
  obtain ⟨hmove, hrecord⟩ := Machine.monitor_step_eq_some_iff.mp hstep
  obtain ⟨t, c⟩ := q
  obtain ⟨s, g⟩ := p
  simp only at hmove hrecord hp
  subst hrecord
  simp only [Charged] at hp ⊢
  rcases (wetalk_step_cases hmove).2 with ⟨line, rfl, hline⟩ | ⟨src, d, rfl, rfl, rfl⟩ |
    ⟨rfl, rfl, rfl⟩
  -- a typed line accepts nothing, and what it leaves outstanding it has sent
  · cases hline with
    | dial peer =>
      have hone : [Output.sendto peer wannatalk].countP isRequest = 1 := rfl
      simp only [tally, hone, Bool.false_eq_true, if_false]
      split at hp <;> omega
    | empty | accept | refuse | unknown | quit | invalid | leave | talk | wrongly =>
      exact hp.trans (Nat.le_add_right ..)
  · refine le_trans ?_ (Nat.le_add_right ..)
    have hheard := heard_packetHandler s src d
    generalize (packetHandler s src d).1 = u at hheard
    cases hheard with
    | accepted hc hr hk =>
      -- the request that was outstanding pays for the acceptance
      rw [hr] at hp
      simpa [tally, hc, hk] using hp
    | refused hc hr hk =>
      have hle : g.accepted ≤ g.requested := (Nat.le_add_right ..).trans hp
      simpa [tally, hc, hk] using hle
    | request hc hk | ended hc hk => simpa [tally, hk] using hp
    | within hc => simpa [tally, hc] using hp
    | ignored hc => simpa [tally, hc] using hp
  -- the alarm only gives a request up
  · refine le_trans ?_ (Nat.le_add_right ..)
    unfold handleSignalAlarm
    split
    · exact (Nat.le_add_right ..).trans hp
    · exact hp

/-- **A settled request stays settled**: without a session and without a request of its own
outstanding, an endpoint whose user waits stays so, whatever it receives from whomever and whenever
its alarm goes off. So over any run the acceptances are at most as many as the requests. -/
theorem settled_stays (gethostbyname : List UInt8 → Option UInt32) :
    (∀ s t is o, s.connection = false → s.received = true →
      (wetalk gethostbyname).Always Waits s is → (wetalk gethostbyname).run s is = some (t, o) →
        t.connection = false ∧ t.received = true) ∧
    ∀ is t c o,
      ((wetalk gethostbyname).monitor tally).run (initial, ⟨0, 0⟩) is = some ((t, c), o) →
        c.accepted ≤ c.requested := by
  constructor
  · intro s t is o hc hr hwaits hrun
    exact hwaits.invariant (I := fun s => s.connection = false ∧ s.received = true)
      (fun _ _ _ _ hs hstep hwait => settled_step hstep hs hwait) ⟨hc, hr⟩ hrun
  · intro is t c o hrun
    have hcharged : Charged (t, c) :=
      Machine.run_invariant (fun _ _ _ _ hp hstep => Charged.step hp hstep) le_rfl hrun
    exact (Nat.le_add_right ..).trans hcharged

/-- An acceptance and a refusal that come too late, and the alarm. -/
def lateAnswers : List Input := [.datagram ⟨1, 2⟩ okChk, .datagram ⟨3, 4⟩ nkoChk, .alarm]

theorem settled_stays_lateAnswers : ∃ t o,
    (wetalk fun _ => none).run initial lateAnswers = some (t, o) ∧ t.connection = false ∧
      t.received = true := by
  have hwaits : (wetalk fun _ => none).Always Waits initial lateAnswers :=
    .of_forall_mem (fun i hi _ _ _ _ line hline => by
      subst hline
      simp [lateAnswers] at hi) _
  have hstays := (settled_stays fun _ => none).1 initial _ lateAnswers _ rfl rfl hwaits rfl
  exact ⟨_, _, rfl, hstays⟩

end Requests

end NetworkLabs.WeTalk

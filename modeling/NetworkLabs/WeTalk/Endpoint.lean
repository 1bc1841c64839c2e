import NetworkLabs.Foundation.Machine
import NetworkLabs.Runtime.Socket
import NetworkLabs.Runtime.Strtol
import NetworkLabs.Runtime.Tokens

/-!
# A wetalk endpoint

An endpoint acts on typed lines, on datagrams and on its alarm, each of which is processed as a
whole. Three variables decide what it does: `connection`, `received` (the endpoint has no request of
its own outstanding) and `opp_server_pointer`. The pointer of a request that came in points to
`their_addr`, into which every `recvfrom` writes; the pointer of a request that went out points to
`opp_server`.

## Main definitions

* `Endpoint`: the variables
* `weChatServer`, `packetHandler`, `handleSignalAlarm`: the three handlers
* `wetalk`: the endpoint as a machine
* `Kind`, `kind`: what the handler of datagrams distinguishes
* `Heard`, `Typed`: what a datagram and a typed line may do

## Main results

* `packetHandler_fst`, `heard_packetHandler`: what a datagram changes, by its kind
* `typed_weChatServer`: what a typed line changes
* `wetalk_step_cases`: what a step can do
-/

namespace NetworkLabs.WeTalk

open CRuntime Transition

/-- The variables that `opp_server_pointer` may point to. -/
inductive Pointee
  | their_addr
  | opp_server
  deriving DecidableEq

/-- The variables of an endpoint; `running` until the loop is left. -/
structure Endpoint where
  connection : Bool
  received : Bool
  opp_server_pointer : Option Pointee
  their_addr : SockAddr
  opp_server : SockAddr
  running : Bool

/-- An endpoint at its start. -/
def initial : Endpoint where
  connection := false
  received := true
  opp_server_pointer := none
  their_addr := ⟨0, 0⟩
  opp_server := ⟨0, 0⟩
  running := true

/-- `*opp_server_pointer`, `none` for `NULL`. -/
def Endpoint.opp (s : Endpoint) : Option SockAddr :=
  s.opp_server_pointer.map fun
    | .their_addr => s.their_addr
    | .opp_server => s.opp_server

theorem opp_eq_none_iff {s : Endpoint} : s.opp = none ↔ s.opp_server_pointer = none :=
  Option.map_eq_none_iff

theorem pointer_ne_none {s : Endpoint} {a : SockAddr} (h : s.opp = some a) :
    s.opp_server_pointer ≠ none :=
  fun hnone => Option.some_ne_none a (h.symm.trans (opp_eq_none_iff.mpr hnone))

/-- What an endpoint reacts to. -/
inductive Input
  | typed (line : List UInt8)
  | datagram (src : SockAddr) (d : List UInt8)
  | alarm

/-- What an endpoint sends, and where it prints. The texts are left out: `wetalk` and `gui_wetalk`
word them differently, and show a port with and without `ntohs`. -/
inductive Output
  | sendto (dst : SockAddr) (msg : List UInt8)
  | chatRequest (src : SockAddr)
  | accepted
  | refused
  | terminated
  | shown (text : List UInt8)
  | noResponse
  | invalidPeer
  | wronglyAssumes
  deriving DecidableEq

/-- What is sent, and what is printed for a typed line or an alarm. -/
def Output.outside : Output → Bool
  | .sendto .. | .noResponse | .invalidPeer | .wronglyAssumes => true
  | _ => false

/-! ## The messages and the commands -/

/-- `"WANNATALK"`. -/
def wannatalk : List UInt8 := [87, 65, 78, 78, 65, 84, 65, 76, 75]

/-- `"OK"`. -/
def okChk : List UInt8 := [79, 75]

/-- `"KO"`. -/
def nkoChk : List UInt8 := [75, 79]

/-- `"E"`. -/
def eChk : List UInt8 := [69]

/-- `"c"`, which accepts a request. -/
def cmdC : List UInt8 := [99]

/-- `"n"`, which refuses a request. -/
def cmdN : List UInt8 := [110]

/-- `"q"`, which leaves the program. -/
def cmdQ : List UInt8 := [113]

/-- `"e"`, which ends a session. -/
def cmdE : List UInt8 := [101]

/-! ## The handlers -/

/-- The peer that a typed line names, `hostname port`. -/
def typedPeer (gethostbyname : List UInt8 → Option UInt32) (toProcess : List UInt8) :
    Option SockAddr :=
  match strtok 32 toProcess with
  | (none, _) => none
  | (some hostname, rest) =>
    match strtok 44 rest with
    | (none, _) => none
    | (some port, _) =>
      if isnumber (port ++ [0]) = some true then
        (gethostbyname hostname).map fun h_addr =>
          ⟨h_addr, ntohs (UInt16.ofNat (((atoi (port ++ [0])).getD 0 % 2 ^ 16).toNat))⟩
      else none

/-- One round of the loop of `startWeChatServer`, on a line that was typed. The editor hands on up
to 51 characters; the last one of these has no room for its terminator in `term_buf`, `toProcess`
and `msg`, and the line is taken here for what its characters spell. -/
def weChatServer (gethostbyname : List UInt8 → Option UInt32) (s : Endpoint) (line : List UInt8) :
    Endpoint × List Output :=
  let toProcess := cstring line
  if toProcess = [] then (s, [])
  else if s.connection = false then
    match s.opp with
    | some opp =>
      if toProcess = cmdC then ({ s with connection := true }, [.sendto opp okChk])
      else if toProcess = cmdN then
        ({ s with connection := false, opp_server_pointer := none }, [.sendto opp nkoChk])
      else (s, [])
    | none =>
      if toProcess = cmdQ then ({ s with running := false }, [])
      else
        match typedPeer gethostbyname toProcess with
        | some peer =>
          ({ s with
              opp_server := peer
              opp_server_pointer := some .opp_server
              received := false }, [.sendto peer wannatalk])
        | none => (s, [.invalidPeer])
  else
    match s.opp with
    | some opp =>
      if toProcess = cmdE then
        ({ s with connection := false, opp_server_pointer := none }, [.sendto opp eChk])
      else (s, [.sendto opp (68 :: toProcess)])
    | none => (s, [.wronglyAssumes])

/-- One round of the loop of `packet_handler`: `recvfrom` takes 52 bytes and writes the sender to
`their_addr`, whoever it is. The terminator of a datagram of 52 bytes or more goes behind `buf`, to
`buf[52]`; it is taken to end the string there and to change nothing else. -/
def packetHandler (s : Endpoint) (src : SockAddr) (d : List UInt8) : Endpoint × List Output :=
  let s := { s with their_addr := src }
  if d = [] then (s, [])
  else
    let buf := cstring (d.take 52)
    if s.connection = false then
      let r :=
        if buf = wannatalk then
          ({ s with opp_server_pointer := some .their_addr }, [.chatRequest src])
        else (s, [])
      let s := r.1
      if s.received = false then
        if buf = okChk then ({ s with received := true, connection := true }, r.2 ++ [.accepted])
        else if buf = nkoChk then
          ({ s with received := true, connection := false, opp_server_pointer := none },
            r.2 ++ [.refused])
        else r
      else r
    else if buf = eChk then
      ({ s with connection := false, opp_server_pointer := none }, [.terminated])
    else if buf.head? = some 68 then (s, [.shown buf.tail])
    else (s, [])

/-- `handle_signal_alarm`. -/
def handleSignalAlarm (s : Endpoint) : Endpoint × List Output :=
  if s.received = false then
    ({ s with received := true, connection := false, opp_server_pointer := none }, [.noResponse])
  else (s, [])

/-- The endpoint as a machine; it accepts nothing once it has been left. -/
def wetalk (gethostbyname : List UInt8 → Option UInt32) : Machine Endpoint Input Output where
  step s i :=
    if s.running then
      match i with
      | .typed line => some (weChatServer gethostbyname s line)
      | .datagram src d => some (packetHandler s src d)
      | .alarm => some (handleSignalAlarm s)
    else none

/-! ## Datagrams by their kind -/

/-- What the handler of datagrams tells apart. -/
inductive Kind
  | wannatalk
  | ok
  | ko
  | e
  | text
  deriving DecidableEq

/-- The kind of a datagram. -/
def kind (d : List UInt8) : Kind :=
  let buf := cstring (d.take 52)
  if buf = wannatalk then .wannatalk
  else if buf = okChk then .ok
  else if buf = nkoChk then .ko
  else if buf = eChk then .e
  else .text

@[simp] theorem kind_wannatalk : kind wannatalk = .wannatalk := by decide

@[simp] theorem kind_okChk : kind okChk = .ok := by decide

@[simp] theorem kind_nkoChk : kind nkoChk = .ko := by decide

@[simp] theorem kind_eChk : kind eChk = .e := by decide

/-- What is said in a session is no message of the handshake. -/
@[simp] theorem kind_cons_68 (text : List UInt8) : kind (68 :: text) = .text := by
  have hbuf : cstring ((68 :: text).take 52) = 68 :: cstring (text.take 51) := rfl
  simp only [kind, hbuf]
  simp [wannatalk, okChk, nkoChk, eChk]

/-- **What a datagram changes.** -/
theorem packetHandler_fst (s : Endpoint) (src : SockAddr) (d : List UInt8) :
    (packetHandler s src d).1 =
      match s.connection, s.received, kind d with
      | false, _, .wannatalk =>
        { s with their_addr := src, opp_server_pointer := some .their_addr }
      | false, false, .ok => { s with their_addr := src, received := true, connection := true }
      | false, false, .ko =>
        { s with their_addr := src, received := true, opp_server_pointer := none }
      | true, _, .e =>
        { s with their_addr := src, connection := false, opp_server_pointer := none }
      | _, _, _ => { s with their_addr := src } := by
  rcases s with ⟨connection, received, ptr, their_addr, opp_server, running⟩
  unfold packetHandler
  by_cases hd : d = []
  · subst hd
    cases connection <;> cases received <;> rfl
  · rw [if_neg hd]
    unfold kind
    generalize cstring (d.take 52) = buf
    -- the comparisons in the order of the source, each in all states
    by_cases h₁ : buf = wannatalk
    · subst h₁
      cases connection <;> cases received <;> rfl
    · by_cases h₂ : buf = okChk
      · subst h₂
        cases connection <;> cases received <;> rfl
      · by_cases h₃ : buf = nkoChk
        · subst h₃
          cases connection <;> cases received <;> rfl
        · by_cases h₄ : buf = eChk
          · subst h₄
            cases connection <;> cases received <;> rfl
          · cases connection <;> cases received <;> simp [h₁, h₂, h₃, h₄] <;> split <;> rfl

/-- What a datagram may do: the state it leads to. -/
inductive Heard (s : Endpoint) (src : SockAddr) (d : List UInt8) : Endpoint → Prop
  | request : s.connection = false → kind d = .wannatalk →
      Heard s src d { s with their_addr := src, opp_server_pointer := some .their_addr }
  | accepted : s.connection = false → s.received = false → kind d = .ok →
      Heard s src d { s with their_addr := src, received := true, connection := true }
  | refused : s.connection = false → s.received = false → kind d = .ko →
      Heard s src d { s with their_addr := src, received := true, opp_server_pointer := none }
  | ended : s.connection = true → kind d = .e →
      Heard s src d
        { s with their_addr := src, connection := false, opp_server_pointer := none }
  | within : s.connection = true → kind d ≠ .e → Heard s src d { s with their_addr := src }
  | ignored : s.connection = false → kind d ≠ .wannatalk →
      (s.received = false → kind d ≠ .ok ∧ kind d ≠ .ko) →
      Heard s src d { s with their_addr := src }

theorem heard_packetHandler (s : Endpoint) (src : SockAddr) (d : List UInt8) :
    Heard s src d (packetHandler s src d).1 := by
  rw [packetHandler_fst]
  rcases s with ⟨connection, received, ptr, their_addr, opp_server, running⟩
  cases connection with
  | true =>
    cases hk : kind d with
    | e => exact .ended rfl hk
    | _ => exact .within rfl (by simp [hk])
  | false =>
    cases received with
    | true =>
      cases hk : kind d with
      | wannatalk => exact .request rfl hk
      | _ => exact .ignored rfl (by simp [hk]) Bool.noConfusion
    | false =>
      cases hk : kind d with
      | wannatalk => exact .request rfl hk
      | ok => exact .accepted rfl rfl hk
      | ko => exact .refused rfl rfl hk
      | _ => exact .ignored rfl (by simp [hk]) fun _ => by simp [hk]

/-- The handler of datagrams sends nothing, and prints notes only. -/
theorem outside_packetHandler (s : Endpoint) (src : SockAddr) (d : List UInt8) :
    ∀ e ∈ (packetHandler s src d).2, e.outside = false := by
  unfold packetHandler
  split
  · simp
  · dsimp only
    split_ifs <;> simp [Output.outside]

theorem notMem_packetHandler {e : Output} (he : e.outside = true) (s : Endpoint) (src : SockAddr)
    (d : List UInt8) : e ∉ (packetHandler s src d).2 :=
  fun h => Bool.false_ne_true ((outside_packetHandler s src d e h).symm.trans he)

/-! ## Typed lines by what they do -/

/-- What a typed line may do: the state it leads to, and what is sent and printed. -/
inductive Typed (gethostbyname : List UInt8 → Option UInt32) (s : Endpoint) (line : List UInt8) :
    Endpoint → List Output → Prop
  | empty : cstring line = [] → Typed gethostbyname s line s []
  | accept (a : SockAddr) : s.connection = false → s.opp = some a → cstring line = cmdC →
      Typed gethostbyname s line { s with connection := true } [.sendto a okChk]
  | refuse (a : SockAddr) : s.connection = false → s.opp = some a → cstring line = cmdN →
      Typed gethostbyname s line { s with connection := false, opp_server_pointer := none }
        [.sendto a nkoChk]
  | unknown (a : SockAddr) : s.connection = false → s.opp = some a → cstring line ≠ cmdC →
      cstring line ≠ cmdN → Typed gethostbyname s line s []
  | quit : s.connection = false → s.opp = none →
      Typed gethostbyname s line { s with running := false } []
  | dial (peer : SockAddr) : s.connection = false → s.opp = none →
      typedPeer gethostbyname (cstring line) = some peer →
      Typed gethostbyname s line
        { s with opp_server := peer, opp_server_pointer := some .opp_server, received := false }
        [.sendto peer wannatalk]
  | invalid : s.connection = false → s.opp = none → Typed gethostbyname s line s [.invalidPeer]
  | leave (a : SockAddr) : s.connection = true → s.opp = some a → cstring line = cmdE →
      Typed gethostbyname s line { s with connection := false, opp_server_pointer := none }
        [.sendto a eChk]
  | talk (a : SockAddr) : s.connection = true → s.opp = some a → cstring line ≠ [] →
      Typed gethostbyname s line s [.sendto a (68 :: cstring line)]
  | wrongly : s.connection = true → s.opp = none →
      Typed gethostbyname s line s [.wronglyAssumes]

/-- **What a typed line changes.** -/
theorem typed_weChatServer (gethostbyname : List UInt8 → Option UInt32) (s : Endpoint)
    (line : List UInt8) : Typed gethostbyname s line (weChatServer gethostbyname s line).1
      (weChatServer gethostbyname s line).2 := by
  unfold weChatServer
  by_cases hline : cstring line = []
  · simp only [hline, if_pos]
    exact .empty hline
  · rw [if_neg hline]
    by_cases hc : s.connection = false
    -- an open request is answered, and without one the line names a peer
    · rw [if_pos hc]
      cases ho : s.opp with
      | some a =>
        by_cases h₁ : cstring line = cmdC
        · simp only [if_pos h₁]
          exact .accept a hc ho h₁
        · by_cases h₂ : cstring line = cmdN
          · simp only [if_neg h₁, if_pos h₂]
            exact .refuse a hc ho h₂
          · simp only [if_neg h₁, if_neg h₂]
            exact .unknown a hc ho h₁ h₂
      | none =>
        by_cases h₁ : cstring line = cmdQ
        · simp only [if_pos h₁]
          exact .quit hc ho
        · simp only [if_neg h₁]
          split
          · exact .dial _ hc ho ‹_›
          · exact .invalid hc ho
    -- in a session the line is said
    · rw [if_neg hc]
      have hc' : s.connection = true := Bool.eq_true_of_not_eq_false hc
      cases ho : s.opp with
      | some a =>
        by_cases h₁ : cstring line = cmdE
        · simp only [if_pos h₁]
          exact .leave a hc' ho h₁
        · simp only [if_neg h₁]
          exact .talk a hc' ho hline
      | none => exact .wrongly hc' ho

/-- **What a step can do.** -/
theorem wetalk_step_cases {gethostbyname : List UInt8 → Option UInt32} {s t : Endpoint} {i : Input}
    {o : List Output} (h : (wetalk gethostbyname).step s i = some (t, o)) : s.running = true ∧
      ((∃ line, i = .typed line ∧ Typed gethostbyname s line t o) ∨
        (∃ src d, i = .datagram src d ∧ t = (packetHandler s src d).1 ∧
          o = (packetHandler s src d).2) ∨
        (i = .alarm ∧ t = (handleSignalAlarm s).1 ∧ o = (handleSignalAlarm s).2)) := by
  simp only [wetalk, Option.ite_none_right_eq_some] at h
  obtain ⟨hrun, h⟩ := h
  refine ⟨hrun, ?_⟩
  cases i with
  | typed line =>
    have htyped := typed_weChatServer gethostbyname s line
    rw [Option.some.inj h] at htyped
    exact .inl ⟨line, rfl, htyped⟩
  | datagram src d =>
    have hto := Prod.ext_iff.mp (Option.some.inj h)
    exact .inr (.inl ⟨src, d, rfl, hto.1.symm, hto.2.symm⟩)
  | alarm =>
    have hto := Prod.ext_iff.mp (Option.some.inj h)
    exact .inr (.inr ⟨rfl, hto.1.symm, hto.2.symm⟩)

end NetworkLabs.WeTalk

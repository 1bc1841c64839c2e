import Mathlib.Data.Set.Insert
import Mathlib.Logic.Function.Basic
import NetworkLabs.Ping.Answers

/-!
# Pings and answers

A client sends one ping and waits. An answer ends it, whoever has sent it and whatever the array of
six bytes held before; so does the 41st alarm. A server answers the sender of a ping, and ends when
it finds no token in a full datagram.

Any number of clients and servers run at any time. The network loses, repeats, delays and reorders
datagrams. Strangers send to the servers what they like; they do not take the address of a client,
and only servers send to clients.

## Main definitions

* `Client`, `handle_signal_alarm`, `response`: a client, and what an alarm and an answer do to it
* `Exchange`, `Exchange.Step`: all clients and all servers
* `Exchange.Sound`: the invariant

## Main results

* `serve_pingMessage`: a server answers a ping only for its own key
* `Exchange.Sound.step`: one step of any party
* `round_trip`: a client reports a round trip only to a server that holds its key
* `round_trip_iff`: when a waiting client can still report one
-/

namespace NetworkLabs.Ping

open CRuntime Transition

/-! ## The client -/

/-- A client: before its ping, with `got_interrupt` while it waits, and at its end. -/
inductive Client
  | idle
  | waiting (got_interrupt : ℕ)
  | reported
  | corrupt (recv_response : List UInt8)
  | killed
  deriving DecidableEq

/-- `handle_signal_alarm`, while nothing is received. -/
def handle_signal_alarm (got_interrupt : ℕ) : Client :=
  if got_interrupt = 40 then .killed else .waiting (got_interrupt + 1)

/-- The end of `sendPingRequest`: the datagram `r` is received over `stack`, of which the sixth byte
is overwritten. -/
def response (stack : Mem UInt8) (r : List UInt8) : Client :=
  let recv_response := cstring (((stack.recv r 6).store 5 [0]).read 6)
  if terve = recv_response then .reported else .corrupt recv_response

/-- **The answer is recognized**, whatever lies in the array. -/
theorem response_terve (stack : Mem UInt8) : response stack terve = .reported := by
  have hrecv : (stack.recv terve 6).read 5 = terve := Mem.read_recv (by decide)
  have hread : ((stack.recv terve 6).store 5 [0]).read 6 = terve ++ [0] := by
    have hstore := Mem.read_store (stack.recv terve 6) 5 [0]
    rwa [hrecv] at hstore
  have hnul : (0 : UInt8) ∉ terve := by decide
  unfold response
  rw [hread, cstring_append_zero hnul]
  exact if_pos rfl

/-! ## What a server does with a datagram -/

section Server

variable {secretKey : List UInt8} {request_number next : ℕ} {x : Arrival} {out : List (List UInt8)}

/-- A server sends nothing but its answer, to a full datagram with its key. -/
theorem of_mem_serve (h : serve secretKey request_number x = some (next, out)) {r : List UInt8}
    (hr : r ∈ out) : r = terve ∧ MAX_BUF ≤ x.datagram.length ∧
      (strtok dollar x.request).1 = some secretKey := by
  unfold serve at h
  split_ifs at h with hdrop hfull
  · obtain ⟨-, rfl⟩ := Prod.mk.inj (Option.some.inj h)
    cases hr
  · cases htoken : (strtok dollar x.request).1 with
    | none =>
      rw [htoken] at h
      cases h
    | some secretKeyDecode =>
      rw [htoken] at h
      obtain ⟨-, rfl⟩ := Prod.mk.inj (Option.some.inj h)
      split_ifs at hr with hkey
      · refine ⟨List.mem_singleton.mp hr, min_eq_right_iff.mp hfull, ?_⟩
        rw [hkey]
      · cases hr
  · obtain ⟨-, rfl⟩ := Prod.mk.inj (Option.some.inj h)
    cases hr

/-- A server ends only at a full datagram without a token. -/
theorem of_serve_eq_none (h : serve secretKey request_number x = none) :
    MAX_BUF ≤ x.datagram.length ∧ firstToken x.datagram = none := by
  unfold serve at h
  split_ifs at h with hdrop hfull
  have hle : MAX_BUF ≤ x.datagram.length := min_eq_right_iff.mp hfull
  refine ⟨hle, ?_⟩
  by_contra htoken
  obtain ⟨t, ht⟩ := Option.ne_none_iff_exists'.mp (strtok_request_ne_none hle htoken)
  rw [ht] at h
  cases h

/-- **A server answers a ping only for its own key**, whatever lies behind the buffer. -/
theorem serve_pingMessage {K : Key} {rand : ℕ → ℕ} (hx : x.datagram = pingMessage K.text rand)
    (h : serve secretKey request_number x = some (next, out)) {r : List UInt8} (hr : r ∈ out) :
    r = terve ∧ secretKey = K.text := by
  obtain ⟨hterve, hfull, htoken⟩ := of_mem_serve h hr
  have hfirst : firstToken x.datagram = some K.text := by
    rw [hx]
    exact firstToken_pingMessage K rand
  have hends : EndsInside x.datagram := by
    rw [hx]
    exact endsInside_pingMessage K rand
  have hne : firstToken x.datagram ≠ none := by
    rw [hfirst]
    exact Option.some_ne_none _
  rw [strtok_request_of_endsInside hfull hne hends, hfirst] at htoken
  exact ⟨hterve, (Option.some.inj htoken).symm⟩

/-- A server that holds the key answers every ping but the fourth datagram. -/
theorem serve_of_key {K : Key} {rand : ℕ → ℕ} (hx : x.datagram = pingMessage K.text rand) (n : ℕ) :
    serve K.text n x = if n = 4 then some (1, []) else some (n + 1, [terve]) := by
  have hfull : MAX_BUF ≤ x.datagram.length := by
    rw [hx]
    exact (length_pingMessage K rand).ge
  have hfirst : firstToken x.datagram = some K.text := by
    rw [hx]
    exact firstToken_pingMessage K rand
  have hends : EndsInside x.datagram := by
    rw [hx]
    exact endsInside_pingMessage K rand
  have hne : firstToken x.datagram ≠ none := by
    rw [hfirst]
    exact Option.some_ne_none _
  rw [serve_eq K n fun _ => hne, strtok_request_of_endsInside hfull hne hends, hfirst]
  by_cases hdrop : n = 4
  · rw [if_pos hdrop, if_pos hdrop, if_neg fun h => h.1 hdrop]
  · rw [if_neg hdrop, if_neg hdrop, if_pos ⟨hdrop, hfull, rfl⟩]

end Server

/-! ## All clients and all servers -/

/-- The arguments of a client. -/
structure Command (Addr : Type*) where
  host : Addr
  key : Key

/-- The datagrams that were sent so far, to a server by a client or by a stranger and by a server to
a client; the counters of the servers that have not ended; and the clients. -/
structure Exchange (Addr : Type*) where
  requests : Set (Addr × Option ℕ × List UInt8)
  answers : Set (Addr × ℕ × List UInt8)
  server : Addr → Option ℕ
  client : ℕ → Client

variable {Addr : Type*}

/-- All servers have started, and no client has. -/
def Exchange.init : Exchange Addr where
  requests := ∅
  answers := ∅
  server _ := some 1
  client _ := .idle

namespace Exchange

/-- What a server has sent to the sender `src` of a datagram. -/
def sentTo (a : Addr) (src : Option ℕ) (out : List (List UInt8)) :
    Set (Addr × ℕ × List UInt8) :=
  {m | m.1 = a ∧ src = some m.2.1 ∧ m.2.2 ∈ out}

section Step

variable [DecidableEq Addr] (command : ℕ → Command Addr) (secretKey : Addr → List UInt8)

/-- A step of a client, a stranger or a server. -/
inductive Step : Exchange Addr → Exchange Addr → Prop
  | ping {s j} (rand : ℕ → ℕ) : s.client j = .idle →
      Step s { s with
        requests :=
          insert ((command j).host, some j, pingMessage (command j).key.text rand) s.requests
        client := Function.update s.client j (.waiting 0) }
  | stranger {s} (a : Addr) (d : List UInt8) :
      Step s { s with requests := insert (a, none, d) s.requests }
  | serve {s a src request_number next out} {x : Arrival} : (a, src, x.datagram) ∈ s.requests →
      s.server a = some request_number →
      serve (secretKey a) request_number x = some (next, out) →
      Step s { s with
        answers := s.answers ∪ sentTo a src out
        server := Function.update s.server a (some next) }
  | crash {s a src request_number} {x : Arrival} : (a, src, x.datagram) ∈ s.requests →
      s.server a = some request_number → serve (secretKey a) request_number x = none →
      Step s { s with server := Function.update s.server a none }
  | receive {s a j r got_interrupt} (stack : Mem UInt8) : (a, j, r) ∈ s.answers →
      s.client j = .waiting got_interrupt →
      Step s { s with client := Function.update s.client j (response stack r) }
  | alarm {s j got_interrupt} : s.client j = .waiting got_interrupt →
      Step s { s with client := Function.update s.client j (handle_signal_alarm got_interrupt) }

end Step

variable (command : ℕ → Command Addr) (secretKey : Addr → List UInt8)

/-- What is true of a client: it has sent its ping and waits for less than 41 alarms, it has been
answered if it reports, and it has received nothing corrupt. -/
def Honest (s : Exchange Addr) (j : ℕ) : Client → Prop
  | .idle => True
  | .waiting got_interrupt => got_interrupt ≤ 40 ∧
      ∃ rand, ((command j).host, some j, pingMessage (command j).key.text rand) ∈ s.requests
  | .reported => ((command j).host, j, terve) ∈ s.answers
  | .corrupt _ => False
  | .killed => True

/-- A stranger has sent the server a full datagram without a token. -/
def Ended (s : Exchange Addr) (a : Addr) : Prop :=
  ∃ d, (a, none, d) ∈ s.requests ∧ MAX_BUF ≤ d.length ∧ firstToken d = none

/-- Requests of clients are their pings, answers come from the server that was asked, for its own
key, and a server has ended only at the datagram of a stranger. -/
structure Sound (s : Exchange Addr) : Prop where
  requests : ∀ a j d, (a, some j, d) ∈ s.requests →
    a = (command j).host ∧ ∃ rand, d = pingMessage (command j).key.text rand
  answers : ∀ a j r, (a, j, r) ∈ s.answers →
    r = terve ∧ a = (command j).host ∧ secretKey a = (command j).key.text
  client : ∀ j, s.Honest command j (s.client j)
  server : ∀ a, s.server a = none → s.Ended a

variable {command secretKey} {s t : Exchange Addr}

theorem Sound.init : (Exchange.init : Exchange Addr).Sound command secretKey where
  requests _ _ _ h := h.elim
  answers _ _ _ h := h.elim
  client _ := trivial
  server _ h := by cases h

/-- What was sent stays sent. -/
theorem Honest.mono {j : ℕ} {c : Client} (hc : s.Honest command j c)
    (hasked : s.requests ⊆ t.requests) (hanswered : s.answers ⊆ t.answers) :
    t.Honest command j c := by
  cases c with
  | idle => trivial
  | waiting got_interrupt =>
    obtain ⟨hle, rand, hping⟩ := hc
    exact ⟨hle, rand, hasked hping⟩
  | reported => exact hanswered hc
  | corrupt recv_response => exact hc
  | killed => trivial

/-- A client moves, and the others are as they were. -/
theorem honest_update {client : ℕ → Client} (hs : ∀ i, s.Honest command i (client i)) {j : ℕ}
    {c : Client} (hc : s.Honest command j c) :
    ∀ i, s.Honest command i (Function.update client j c i) := by
  rw [Function.forall_update_iff client fun i c => s.Honest command i c]
  exact ⟨hc, fun i _ => hs i⟩

/-- A server moves or ends, and the others are as they were. -/
theorem ended_update [DecidableEq Addr] (hs : ∀ b, s.server b = none → s.Ended b) {a : Addr}
    {n : Option ℕ} (hn : n = none → s.Ended a) :
    ∀ b, Function.update s.server a n b = none → s.Ended b := by
  rw [Function.forall_update_iff s.server fun b n => n = none → s.Ended b]
  exact ⟨hn, fun b _ => hs b⟩

theorem Ended.mono {a : Addr} (ha : s.Ended a) (hle : s.requests ⊆ t.requests) : t.Ended a := by
  obtain ⟨d, hd, hlast⟩ := ha
  exact ⟨d, hle hd, hlast⟩

theorem honest_alarm {j got_interrupt : ℕ} (h : s.Honest command j (.waiting got_interrupt)) :
    s.Honest command j (handle_signal_alarm got_interrupt) := by
  obtain ⟨hle, hping⟩ := h
  unfold handle_signal_alarm
  split_ifs with hlast
  · trivial
  · exact ⟨Nat.succ_le_of_lt (lt_of_le_of_ne hle hlast), hping⟩

/-- **One step of any party.** -/
theorem Sound.step [DecidableEq Addr] (hs : s.Sound command secretKey)
    (h : Step command secretKey s t) : t.Sound command secretKey := by
  cases h with
  | @ping j rand hidle =>
    refine ⟨?_, hs.answers, ?_, ?_⟩
    · rintro a i d (heq | hold)
      · obtain ⟨rfl, hsent⟩ := Prod.mk.inj heq
        obtain ⟨hi, hd⟩ := Prod.mk.inj hsent
        obtain rfl := Option.some.inj hi
        exact ⟨rfl, rand, hd⟩
      · exact hs.requests a i d hold
    · apply honest_update
      · intro i
        exact (hs.client i).mono (Set.subset_insert ..) subset_rfl
      · exact ⟨Nat.zero_le 40, rand, Set.mem_insert ..⟩
    · intro a hnone
      exact (hs.server a hnone).mono (Set.subset_insert ..)
  | stranger a d =>
    refine ⟨?_, hs.answers, ?_, ?_⟩
    · rintro b i d' (heq | hold)
      · cases heq
      · exact hs.requests b i d' hold
    · intro i
      exact (hs.client i).mono (Set.subset_insert ..) subset_rfl
    · intro b hnone
      exact (hs.server b hnone).mono (Set.subset_insert ..)
  | @serve a src n next out x hreq hrunning hserve =>
    refine ⟨hs.requests, ?_, ?_, ?_⟩
    · rintro b i r (hold | ⟨rfl, rfl, hr⟩)
      · exact hs.answers b i r hold
      · obtain ⟨hhost, rand, hx⟩ := hs.requests _ _ _ hreq
        obtain ⟨hterve, hkey⟩ := serve_pingMessage hx hserve hr
        exact ⟨hterve, hhost, hkey⟩
    · intro i
      exact (hs.client i).mono subset_rfl Set.subset_union_left
    · apply ended_update hs.server
      intro hnone
      cases hnone
  | @crash a src n x hreq hrunning hserve =>
    refine ⟨hs.requests, hs.answers, hs.client, ?_⟩
    apply ended_update hs.server
    intro _
    obtain ⟨hfull, htoken⟩ := of_serve_eq_none hserve
    -- a ping has a token, so that this datagram is not of a client
    cases src with
    | none => exact ⟨_, hreq, hfull, htoken⟩
    | some i =>
      obtain ⟨-, rand, hx⟩ := hs.requests _ _ _ hreq
      rw [hx, firstToken_pingMessage] at htoken
      cases htoken
  | @receive a j r n stack hans hwaiting =>
    obtain ⟨rfl, rfl, -⟩ := hs.answers a j r hans
    refine ⟨hs.requests, hs.answers, ?_, hs.server⟩
    apply honest_update hs.client
    rw [response_terve]
    exact hans
  | @alarm j n hwaiting =>
    refine ⟨hs.requests, hs.answers, ?_, hs.server⟩
    apply honest_update hs.client
    apply honest_alarm
    have hj := hs.client j
    rwa [hwaiting] at hj

theorem sound_of_reachable [DecidableEq Addr]
    (h : Reachable (· = .init) (Step command secretKey) s) : s.Sound command secretKey := by
  refine h.invariant ?_ ?_
  · rintro s rfl
    exact .init
  · intro s t hs hst
    exact hs.step hst

/-! ### What a client can still receive -/

section Outlook

variable [DecidableEq Addr] {j : ℕ}

theorem exists_arrival (d : List UInt8) : ∃ x : Arrival, x.datagram = d :=
  ⟨⟨d, [0], List.mem_singleton_self 0⟩, rfl⟩

/-- A server that holds the key and is not about to drop a datagram can answer a ping that was
sent. -/
theorem exists_answered_at_once {x : Arrival} {rand : ℕ → ℕ}
    (hx : x.datagram = pingMessage (command j).key.text rand)
    (hping : ((command j).host, some j, x.datagram) ∈ s.requests)
    (hkey : secretKey (command j).host = (command j).key.text) {request_number : ℕ}
    (hserver : s.server (command j).host = some request_number) (hkept : request_number ≠ 4) :
    ∃ t, Step command secretKey s t ∧ t.client = s.client ∧
      ((command j).host, j, terve) ∈ t.answers := by
  have hserve := serve_of_key hx request_number
  rw [if_neg hkept, ← hkey] at hserve
  have hanswer : ((command j).host, j, terve) ∈ sentTo (command j).host (some j) [terve] :=
    ⟨rfl, rfl, List.mem_singleton_self terve⟩
  refine ⟨_, .serve hping hserver hserve, rfl, ?_⟩
  exact Set.mem_union_right _ hanswer

/-- A server that holds the key and is about to drop a datagram can drop a ping that was sent. -/
theorem exists_dropped {x : Arrival} {rand : ℕ → ℕ}
    (hx : x.datagram = pingMessage (command j).key.text rand)
    (hping : ((command j).host, some j, x.datagram) ∈ s.requests)
    (hkey : secretKey (command j).host = (command j).key.text)
    (hserver : s.server (command j).host = some 4) :
    ∃ t, Step command secretKey s t ∧ t.client = s.client ∧ t.requests = s.requests ∧
      t.server (command j).host = some 1 := by
  have hserve := serve_of_key hx 4
  rw [if_pos rfl, ← hkey] at hserve
  exact ⟨_, .serve hping hserver hserve, rfl, rfl, Function.update_self ..⟩

/-- A server that runs and holds the key can answer a ping that was sent, at once or when the
network repeats the datagram that it drops. -/
theorem exists_answered {rand : ℕ → ℕ}
    (hping : ((command j).host, some j, pingMessage (command j).key.text rand) ∈ s.requests)
    (hkey : secretKey (command j).host = (command j).key.text) {request_number : ℕ}
    (hserver : s.server (command j).host = some request_number) :
    ∃ t, Reachable (· = s) (Step command secretKey) t ∧ t.client = s.client ∧
      ((command j).host, j, terve) ∈ t.answers := by
  obtain ⟨x, hx⟩ := exists_arrival (pingMessage (command j).key.text rand)
  rw [← hx] at hping
  have hstart : Reachable (· = s) (Step command secretKey) s := .init rfl
  by_cases hdrop : request_number = 4
  · rw [hdrop] at hserver
    obtain ⟨u, hdropped, hclient, hrequests, hnext⟩ := exists_dropped hx hping hkey hserver
    rw [← hrequests] at hping
    obtain ⟨t, hstep, hclient', hanswer⟩ :=
      exists_answered_at_once hx hping hkey hnext (by decide)
    exact ⟨t, (hstart.step hdropped).step hstep, hclient'.trans hclient, hanswer⟩
  · obtain ⟨t, hstep, hclient, hanswer⟩ := exists_answered_at_once hx hping hkey hserver hdrop
    exact ⟨t, hstart.step hstep, hclient, hanswer⟩

/-- A waiting client that was answered can report. -/
theorem exists_reported {a : Addr} {got_interrupt : ℕ} (hanswer : (a, j, terve) ∈ s.answers)
    (hwaiting : s.client j = .waiting got_interrupt) :
    ∃ t, Step command secretKey s t ∧ t.client j = .reported := by
  refine ⟨_, .receive (fun _ => 0) hanswer hwaiting, ?_⟩
  exact (Function.update_self ..).trans (response_terve _)

/-- The server of a client has ended, and has not answered it. -/
def Silent (command : ℕ → Command Addr) (s : Exchange Addr) (j : ℕ) : Prop :=
  s.server (command j).host = none ∧ ((command j).host, j, terve) ∉ s.answers

/-- A server that has ended stays silent. -/
theorem Silent.step (hs : s.Silent command j) (h : Step command secretKey s t) :
    t.Silent command j := by
  obtain ⟨hended, hnone⟩ := hs
  cases h with
  | ping rand hidle => exact ⟨hended, hnone⟩
  | stranger a d => exact ⟨hended, hnone⟩
  | @serve a src n next out x hreq hrunning hserve =>
    have hne : (command j).host ≠ a := by
      rintro rfl
      rw [hended] at hrunning
      cases hrunning
    refine ⟨?_, ?_⟩
    · exact (Function.update_of_ne hne ..).trans hended
    · rintro (hold | ⟨heq, -⟩)
      · exact hnone hold
      · exact hne heq
  | @crash a src n x hreq hrunning hserve =>
    have hne : (command j).host ≠ a := by
      rintro rfl
      rw [hended] at hrunning
      cases hrunning
    exact ⟨(Function.update_of_ne hne ..).trans hended, hnone⟩
  | receive stack hans hwaiting => exact ⟨hended, hnone⟩
  | alarm hwaiting => exact ⟨hended, hnone⟩

theorem Silent.of_reachable (hs : s.Silent command j)
    (h : Reachable (· = s) (Step command secretKey) t) : t.Silent command j := by
  induction h with
  | init heq => rwa [heq]
  | step _ hst ih => exact ih.step hst

end Outlook

end Exchange

/-- **A round trip is reported only to a server that holds the key of the client**, and that has
answered this client. However pings and answers of all clients are lost, repeated, delayed and
reordered, and whatever strangers send, no client receives a corrupt packet, or waits for more than
41 alarms; and a server ends only at the full datagram of a stranger, without a token. -/
theorem round_trip [DecidableEq Addr] (command : ℕ → Command Addr) (secretKey : Addr → List UInt8)
    {s : Exchange Addr} (h : Reachable (· = .init) (Exchange.Step command secretKey) s) :
    (∀ j, (s.client j = .reported → secretKey (command j).host = (command j).key.text ∧
        ((command j).host, j, terve) ∈ s.answers) ∧
      (∀ recv_response, s.client j ≠ .corrupt recv_response) ∧
      ∀ got_interrupt, s.client j = .waiting got_interrupt → got_interrupt ≤ 40) ∧
    ∀ a, s.server a = none →
      ∃ d, (a, none, d) ∈ s.requests ∧ MAX_BUF ≤ d.length ∧ firstToken d = none := by
  have hsound := Exchange.sound_of_reachable h
  refine ⟨?_, hsound.server⟩
  intro j
  have hj := hsound.client j
  refine ⟨?_, ?_, ?_⟩
  · intro hreported
    rw [hreported] at hj
    exact ⟨(hsound.answers _ _ _ hj).2.2, hj⟩
  · intro recv_response hcorrupt
    rw [hcorrupt] at hj
    exact hj
  · intro got_interrupt hwaiting
    rw [hwaiting] at hj
    exact hj.1

/-- One client of one server. -/
def onlyPing : ℕ → Command Unit := fun _ => ⟨(), shortKey⟩

/-- The key of the server. -/
def onlyKey : Unit → List UInt8 := fun _ => shortKey.text

/-- The state in which this client has sent its ping. -/
theorem exists_waiting : ∃ s : Exchange Unit, Reachable (· = .init)
    (Exchange.Step onlyPing onlyKey) s ∧ s.client 0 = .waiting 0 ∧
      s.server (onlyPing 0).host = some 1 ∧ ∃ rand,
        ((onlyPing 0).host, some 0, pingMessage (onlyPing 0).key.text rand) ∈ s.requests := by
  have hstart : Reachable (· = .init) (Exchange.Step onlyPing onlyKey)
      Exchange.init := .init rfl
  refine ⟨_, hstart.step (.ping (j := 0) (fun _ => 0) rfl), rfl, rfl, fun _ => 0, ?_⟩
  exact Set.mem_insert ..

/-- The client is answered, and reports. -/
theorem round_trip_onlyPing : ∃ s : Exchange Unit, s.client 0 = .reported ∧
    ((), 0, terve) ∈ s.answers := by
  obtain ⟨s, hs, hwaiting, hserver, rand, hping⟩ := exists_waiting
  have hkey : onlyKey (onlyPing 0).host = (onlyPing 0).key.text := rfl
  obtain ⟨t, ht, hclient, hanswer⟩ := Exchange.exists_answered hping hkey hserver
  rw [← hclient] at hwaiting
  obtain ⟨u, hstep, hreported⟩ := Exchange.exists_reported hanswer hwaiting
  obtain ⟨hclients, -⟩ := round_trip onlyPing onlyKey ((hs.trans ht).step hstep)
  exact ⟨u, hreported, ((hclients 0).1 hreported).2⟩

/-- **A waiting client can still hear of its server exactly when** that holds its key, and runs or
has answered already. Of what the network repeats, the server drops one datagram at most. -/
theorem round_trip_iff [DecidableEq Addr] (command : ℕ → Command Addr)
    (secretKey : Addr → List UInt8) {s : Exchange Addr}
    (h : Reachable (· = .init) (Exchange.Step command secretKey) s) {j got_interrupt : ℕ}
    (hwaiting : s.client j = .waiting got_interrupt) :
    (∃ t, Reachable (· = s) (Exchange.Step command secretKey) t ∧ t.client j = .reported) ↔
      secretKey (command j).host = (command j).key.text ∧
        (s.server (command j).host ≠ none ∨ ((command j).host, j, terve) ∈ s.answers) := by
  have hsound := Exchange.sound_of_reachable h
  constructor
  · rintro ⟨t, ht, hreported⟩
    have htsound := Exchange.sound_of_reachable (h.trans ht)
    have hanswer := htsound.client j
    rw [hreported] at hanswer
    refine ⟨(htsound.answers _ _ _ hanswer).2.2, ?_⟩
    by_contra hnot
    obtain ⟨hended, hnone⟩ := not_or.mp hnot
    have hsilent : s.Silent command j := ⟨not_not.mp hended, hnone⟩
    exact (hsilent.of_reachable ht).2 hanswer
  · rintro ⟨hkey, hcan⟩
    obtain ⟨t, ht, hclient, hanswer⟩ : ∃ t, Reachable (· = s) (Exchange.Step command secretKey) t ∧
        t.client = s.client ∧ ((command j).host, j, terve) ∈ t.answers := by
      by_cases hanswered : ((command j).host, j, terve) ∈ s.answers
      · exact ⟨s, .init rfl, rfl, hanswered⟩
      · obtain ⟨n, hserver⟩ := Option.ne_none_iff_exists'.mp (hcan.resolve_right hanswered)
        have hhonest := hsound.client j
        rw [hwaiting] at hhonest
        obtain ⟨-, rand, hping⟩ := hhonest
        exact Exchange.exists_answered hping hkey hserver
    rw [← hclient] at hwaiting
    obtain ⟨u, hstep, hreported⟩ := Exchange.exists_reported hanswer hwaiting
    exact ⟨u, ht.step hstep, hreported⟩

/-- The client waits, and can report. -/
theorem round_trip_iff_onlyPing : ∃ s t : Exchange Unit, s.client 0 = .waiting 0 ∧
    Reachable (· = s) (Exchange.Step onlyPing onlyKey) t ∧
      t.client 0 = .reported := by
  obtain ⟨s, hs, hwaiting, hserver, -⟩ := exists_waiting
  have hruns : s.server () ≠ none := by
    rw [hserver]
    exact Option.some_ne_none 1
  obtain ⟨t, ht, hreported⟩ := (round_trip_iff onlyPing onlyKey hs hwaiting).mpr
    ⟨rfl, .inl hruns⟩
  exact ⟨s, t, hwaiting, ht, hreported⟩

end NetworkLabs.Ping

import NetworkLabs.Foundation.Duplex
import NetworkLabs.WeTalk.Endpoint

/-!
# How two ends come to an agreement

What an end of a chat does, without addresses and texts: it is idle, asked for a session, waiting
for the answer to a request, or connected. Requests may cross, sessions may be ended from both sides
at once, and messages may still be in flight when a session ends. Once they have been taken, the two
ends are in phases that belong together.

## Main definitions

* `Phase`, `recv`: the phases of an end; what a message changes
* `Move`, `handshake`: what an end does by itself; the protocol
* `Settled`: the phases that belong together
* `Sound`: what may be in flight

## Main results

* `Sound.step`: every step keeps it
* `settled_of_reachable`: with nothing in flight, the phases of the ends belong together
-/

namespace NetworkLabs.WeTalk

open Duplex Function Transition

/-- The phases of an end; `pending` while a request of its own is unanswered. -/
inductive Phase
  | idle
  | asked
  | pending
  | connected
  deriving DecidableEq

/-- What a message changes. -/
def recv : Phase → Kind → Phase
  | .idle, .wannatalk => .asked
  | .pending, .ok => .connected
  | .pending, .ko => .idle
  | .connected, .e => .idle
  | p, _ => p

/-- What an end does by itself, and what it sends. While its request is unanswered it only waits. -/
inductive Move : Phase → List Kind → Phase → Prop
  | dial : Move .idle [.wannatalk] .pending
  | accept : Move .asked [.ok] .connected
  | refuse : Move .asked [.ko] .idle
  | leave : Move .connected [.e] .idle
  | talk : Move .connected [.text] .connected
  | rest (p : Phase) : Move p [] p

/-- Both ends follow the same rules. -/
def handshake : Protocol Phase Kind where
  take _ p m q := q = recv p m
  move _ := Move

/-- Both ends idle, with nothing in flight. -/
def quiet : Link Phase Kind where
  party _ := .idle
  flight _ := []

/-- The phases that belong together. -/
inductive Settled : Phase → Phase → Prop
  | idle : Settled .idle .idle
  | asked : Settled .asked .pending
  | pending : Settled .pending .asked
  | crossing : Settled .pending .pending
  | connected : Settled .connected .connected

theorem Settled.symm {p q : Phase} (h : Settled p q) : Settled q p := by
  cases h <;> constructor

theorem Settled.connected_iff {p q : Phase} (h : Settled p q) :
    p = .connected ↔ q = .connected := by
  cases h <;> simp

theorem settled_asked_iff {q : Phase} : Settled .asked q ↔ q = .pending :=
  ⟨fun h => by cases h; rfl, fun h => h ▸ .asked⟩

theorem settled_connected_iff {q : Phase} : Settled .connected q ↔ q = .connected :=
  ⟨fun h => by cases h; rfl, fun h => h ▸ .connected⟩

/-- An answer to a request. -/
def Kind.IsAnswer (m : Kind) : Prop :=
  m = .ok ∨ m = .ko

instance : DecidablePred Kind.IsAnswer :=
  fun m => inferInstanceAs (Decidable (m = .ok ∨ m = .ko))

/-! ## Taking what is in flight -/

/-- Only an answer ends the wait. -/
theorem recv_eq_pending_iff {p : Phase} {m : Kind} :
    recv p m = .pending ↔ p = .pending ∧ ¬ m.IsAnswer := by
  cases p <;> cases m <;> decide

theorem recv_eq_asked_iff {p : Phase} {m : Kind} :
    recv p m = .asked ↔ p = .asked ∨ p = .idle ∧ m = .wannatalk := by
  cases p <;> cases m <;> decide

/-- A message that an end does not wait for changes nothing. -/
theorem recv_eq_self {p : Phase} {m : Kind} (hidle : p = .idle → m ≠ .wannatalk)
    (hpending : p = .pending → ¬ m.IsAnswer) (hconnected : p = .connected → m ≠ .e) :
    recv p m = p := by
  cases p <;> cases m <;> first | rfl | simp_all [Kind.IsAnswer]

theorem recv_text (p : Phase) : recv p .text = p :=
  recv_eq_self (by simp) (by simp [Kind.IsAnswer]) (by simp)

theorem foldl_recv_eq_pending_iff {p : Phase} {l : List Kind} :
    l.foldl recv p = .pending ↔ p = .pending ∧ ∀ m ∈ l, ¬ m.IsAnswer := by
  induction l generalizing p with
  | nil => simp
  | cons m l ih => rw [List.foldl_cons, ih, recv_eq_pending_iff, List.forall_mem_cons, and_assoc]

@[simp] theorem foldl_recv_asked (l : List Kind) : l.foldl recv .asked = .asked := by
  induction l with
  | nil => rfl
  | cons m l ih => cases m <;> exact ih

/-- An idle end is asked by a request, whatever else comes. -/
theorem foldl_recv_idle (l : List Kind) :
    l.foldl recv .idle = if .wannatalk ∈ l then .asked else .idle := by
  induction l with
  | nil => rfl
  | cons m l ih =>
    rw [List.foldl_cons]
    cases m with
    | wannatalk => simp [recv]
    | _ => simp [recv, ih]

/-- A connected end stays so, or goes on as an idle one: nothing is sent after a request, so that no
request comes before the end of a session. -/
theorem foldl_recv_connected {l : List Kind} (h : .wannatalk ∉ l.dropLast) :
    l.foldl recv .connected = .connected ∨ l.foldl recv .connected = l.foldl recv .idle := by
  induction l with
  | nil => exact .inl rfl
  | cons m l ih =>
    cases l with
    | nil => cases m <;> decide
    | cons m' l =>
      rw [List.dropLast_cons_cons, List.mem_cons, not_or] at h
      cases m with
      | wannatalk => exact absurd rfl h.1
      | e => exact .inr rfl
      | _ => exact ih h.2

/-! ## What may be in flight -/

/-- What may be in flight between the ends. -/
structure Sound (s : Link Phase Kind) : Prop where
  /-- Once everything has been taken, the phases belong together. -/
  settled : Settled (s.ahead recv true) (s.ahead recv false)
  /-- Only an end that waits is answered, and only once. -/
  answers : ∀ b, (s.flight (!b)).countP (·.IsAnswer) ≤ if s.party b = .pending then 1 else 0
  /-- An end that is asked has taken everything. -/
  asked : ∀ b, s.party b = .asked → s.flight (!b) = []
  /-- An end whose request is in flight waits, and is not answered. -/
  requests : ∀ b, .wannatalk ∈ s.flight b →
    s.party b = .pending ∧ ∀ m ∈ s.flight (!b), ¬ m.IsAnswer
  /-- Nothing is sent after a request. -/
  last : ∀ b, .wannatalk ∉ (s.flight b).dropLast

theorem sound_quiet : Sound quiet where
  settled := .idle
  answers _ := Nat.zero_le _
  asked _ _ := rfl
  requests _ h := absurd h List.not_mem_nil
  last _ := List.not_mem_nil

namespace Sound

variable {s : Link Phase Kind} {b : Bool}

theorem settled_not (h : Sound s) (b : Bool) : Settled (s.ahead recv b) (s.ahead recv !b) := by
  cases b
  · exact h.settled.symm
  · exact h.settled

/-- Nothing that is sent to an end answers it, unless it waits. -/
theorem not_isAnswer (h : Sound s) (hp : s.party b ≠ .pending) :
    ∀ m ∈ s.flight (!b), ¬ m.IsAnswer := by
  have hle := h.answers b
  rw [if_neg hp, Nat.le_zero, List.countP_eq_zero] at hle
  simpa using hle

/-- The end that has asked waits, and its answer is not on the way yet. -/
theorem of_asked (h : Sound s) (hp : s.party b = .asked) :
    s.ahead recv (!b) = .pending ∧ s.party (!b) = .pending ∧ ∀ m ∈ s.flight b, ¬ m.IsAnswer := by
  have hahead : s.ahead recv b = .asked := (ahead_of_empty recv s b (h.asked b hp)).trans hp
  have hpending := settled_asked_iff.mp (hahead ▸ h.settled_not b)
  have hwait := foldl_recv_eq_pending_iff.mp hpending
  rw [Bool.not_not] at hwait
  exact ⟨hpending, hwait⟩

/-- Taking a message keeps what may be in flight. -/
theorem deliver (h : Sound s) {m : Kind} {l : List Kind} (hflight : s.flight (!b) = m :: l) :
    Sound (s.deliver b (recv (s.party b) m) l) where
  settled := by
    rw [ahead_deliver recv s b hflight, ahead_deliver recv s b hflight]
    exact h.settled
  answers c := by
    obtain rfl | rfl := eq_or_eq_not c b
    · have hle := h.answers c
      rw [hflight, List.countP_cons] at hle
      simp only [Link.deliver_flight_not, Link.deliver_party_self, recv_eq_pending_iff]
      by_cases hm : m.IsAnswer
      -- the only answer has been taken
      · simp only [hm, decide_true, if_true] at hle
        simp only [hm, not_true, and_false, if_false]
        split at hle <;> omega
      · simpa [hm] using hle
    · simpa using h.answers !b
  asked c := by
    obtain rfl | rfl := eq_or_eq_not c b
    · intro hasked
      rw [Link.deliver_party_self, recv_eq_asked_iff] at hasked
      rw [Link.deliver_flight_not]
      rcases hasked with hp | ⟨-, rfl⟩
      · exact absurd (hflight.symm.trans (h.asked c hp)) (List.cons_ne_nil m l)
      -- nothing comes after the request
      · have hlast := h.last !c
        rw [hflight] at hlast
        cases l with
        | nil => rfl
        | cons m' l => exact absurd List.mem_cons_self hlast
    · simpa using h.asked !b
  requests c := by
    obtain rfl | rfl := eq_or_eq_not c b
    · intro hmem
      rw [Link.deliver_flight_self] at hmem
      rw [Link.deliver_party_self, Link.deliver_flight_not, recv_eq_pending_iff]
      obtain ⟨hp, hnone⟩ := h.requests c hmem
      rw [hflight, List.forall_mem_cons] at hnone
      exact ⟨⟨hp, hnone.1⟩, hnone.2⟩
    · intro hmem
      rw [Link.deliver_flight_not] at hmem
      rw [Link.deliver_party_not, Bool.not_not, Link.deliver_flight_self]
      have hreq := h.requests (!b) (hflight ▸ List.mem_cons_of_mem m hmem)
      rwa [Bool.not_not] at hreq
  last c := by
    obtain rfl | rfl := eq_or_eq_not c b
    · simpa using h.last c
    · intro hmem
      rw [Link.deliver_flight_not] at hmem
      apply h.last (!b)
      rw [hflight]
      cases l with
      | nil => exact absurd hmem List.not_mem_nil
      | cons m' l => exact List.mem_cons_of_mem m hmem

/-- Sending a message keeps what may be in flight: only an end that does not wait sends, only a
request makes it wait, and only an end that is asked answers. -/
theorem send (h : Sound s) {q : Phase} {m : Kind} (hp : s.party b ≠ .pending) (hq : q ≠ .asked)
    (hrequest : m = .wannatalk → q = .pending) (hanswer : m.IsAnswer → s.party b = .asked)
    (hsettled : Settled ((s.flight (!b)).foldl recv q) (recv (s.ahead recv !b) m)) :
    Sound (s.send b q [m]) where
  settled := by
    have hb : Settled ((s.send b q [m]).ahead recv b) ((s.send b q [m]).ahead recv !b) := by
      rw [ahead_send_self, ahead_send_not]
      exact hsettled
    cases b
    · exact hb.symm
    · exact hb
  answers c := by
    obtain rfl | rfl := eq_or_eq_not c b
    · rw [Link.send_flight_not, List.countP_eq_zero.mpr (by simpa using h.not_isAnswer hp)]
      exact Nat.zero_le _
    · rw [Bool.not_not, Link.send_flight_self, Link.send_party_not, List.countP_append]
      by_cases hm : m.IsAnswer
      -- the first answer to the request that has been taken
      · obtain ⟨-, hwait, hnone⟩ := h.of_asked (hanswer hm)
        rw [List.countP_eq_zero.mpr (by simpa using hnone), if_pos hwait]
        simp [hm]
      · simpa [hm] using h.answers !b
  asked c hasked := by
    obtain rfl | rfl := eq_or_eq_not c b
    · exact absurd (Link.send_party_self s c q [m] ▸ hasked) hq
    · rw [Link.send_party_not] at hasked
      have hwait := (h.of_asked hasked).2.1
      rw [Bool.not_not] at hwait
      exact absurd hwait hp
  requests c hmem := by
    obtain rfl | rfl := eq_or_eq_not c b
    · rw [Link.send_flight_self, List.mem_append, List.mem_singleton] at hmem
      rw [Link.send_party_self, Link.send_flight_not]
      rcases hmem with hmem | hm
      · exact absurd (h.requests c hmem).1 hp
      · exact ⟨hrequest hm.symm, h.not_isAnswer hp⟩
    · rw [Link.send_flight_not] at hmem
      rw [Link.send_party_not, Bool.not_not, Link.send_flight_self]
      obtain ⟨hwait, hnone⟩ := h.requests (!b) hmem
      rw [Bool.not_not] at hnone
      refine ⟨hwait, List.forall_mem_append.mpr ⟨hnone, List.forall_mem_singleton.mpr fun hm => ?_⟩⟩
      -- an end that is asked has taken the request
      rw [h.asked b (hanswer hm)] at hmem
      exact absurd hmem List.not_mem_nil
  last c := by
    obtain rfl | rfl := eq_or_eq_not c b
    · rw [Link.send_flight_self, List.dropLast_concat]
      exact fun hmem => hp (h.requests c hmem).1
    · simpa using h.last !b

/-- Whatever an end does by itself keeps what may be in flight. -/
theorem move (h : Sound s) {ms : List Kind} {q : Phase} (hmove : Move (s.party b) ms q) :
    Sound (s.send b q ms) := by
  have hnot := h.settled_not b
  rw [Link.ahead] at hnot
  generalize hp : s.party b = p at hmove hnot
  cases hmove with
  | dial =>
    have hwait := h.not_isAnswer (b := b) (by simp [hp])
    refine h.send (by simp [hp]) (by simp) (fun _ => rfl) (by simp [Kind.IsAnswer]) ?_
    rw [foldl_recv_eq_pending_iff.mpr ⟨rfl, hwait⟩]
    rw [foldl_recv_idle] at hnot
    -- either the requests cross, or the other end is idle and will be asked
    generalize s.ahead recv (!b) = q at hnot
    split at hnot <;> cases hnot
    · exact .crossing
    · exact .pending
  | accept =>
    refine h.send (by simp [hp]) (by simp) (by simp) (fun _ => hp) ?_
    rw [(h.of_asked hp).1, h.asked b hp]
    exact .connected
  | refuse =>
    refine h.send (by simp [hp]) (by simp) (by simp) (fun _ => hp) ?_
    rw [(h.of_asked hp).1, h.asked b hp]
    exact .idle
  | leave =>
    apply h.send (by simp [hp]) (by simp) (by simp) (by simp [Kind.IsAnswer])
    rcases foldl_recv_connected (h.last !b) with hstay | hidle
    -- the other end is connected too, so no request of it is in flight
    · rw [hstay, settled_connected_iff] at hnot
      have hnone : .wannatalk ∉ s.flight (!b) := by
        intro hmem
        have hwait := foldl_recv_eq_pending_iff.mpr (h.requests (!b) hmem)
        exact Phase.noConfusion (hwait.symm.trans hnot)
      rw [hnot, foldl_recv_idle, if_neg hnone]
      exact .idle
    -- the other end has ended the session as well, and may have sent a request since
    · rw [hidle, foldl_recv_idle] at hnot
      rw [foldl_recv_idle]
      generalize s.ahead recv (!b) = q at hnot
      split at hnot <;> cases hnot
      · rw [if_pos ‹_›]
        exact .asked
      · rw [if_neg ‹_›]
        exact .idle
  | talk =>
    apply h.send (by simp [hp]) (by simp) (by simp) (by simp [Kind.IsAnswer])
    rw [recv_text]
    exact hnot
  | rest =>
    obtain rfl := hp
    rwa [Link.send_nil]

/-- **Every step keeps what may be in flight.** -/
theorem step (h : Sound s) {t : Link Phase Kind} (hstep : handshake.Step s t) : Sound t := by
  cases hstep with
  | deliver b m l p hflight hp =>
    obtain rfl : p = recv (s.party b) m := hp
    exact h.deliver hflight
  | send b ms p hp => exact h.move hp

end Sound

/-- **With nothing in flight, the phases of the ends belong together.** -/
theorem settled_of_reachable {s : Link Phase Kind} (h : Reachable (· = quiet) handshake.Step s)
    (hempty : ∀ b, s.flight b = []) : Settled (s.party true) (s.party false) := by
  have hsound : Sound s :=
    h.invariant (fun _ h => h ▸ sound_quiet) fun _ _ hs hstep => hs.step hstep
  have hsettled := hsound.settled
  rwa [ahead_of_empty recv s true (hempty _), ahead_of_empty recv s false (hempty _)] at hsettled

end NetworkLabs.WeTalk

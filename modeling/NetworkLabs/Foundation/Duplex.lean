import Mathlib.Logic.Function.Basic
import NetworkLabs.Foundation.Machine

/-!
# Two parties and the channels between them

Two parties hold a state each and send messages to one another over two channels that keep their
order and lose nothing. A party takes the oldest message sent to it, or moves by itself and sends
any number of messages. What the parties agree on while messages are in flight is said of the states
they will have once these have been taken.

## Main definitions

* `Link π μ`: the states of the parties and the messages in flight
* `Protocol π μ`, `Protocol.Step`: what the parties may do; the steps of the link
* `Link.ahead`: the state of a party once everything sent to it has been taken

## Main results

* `Protocol.Step.party_invariant`: what each party keeps by itself
* `Protocol.Step.map`, `Protocol.reachable_map`: steps and runs seen through maps of states and
  messages
* `ahead_deliver`, `ahead_send_self`, `ahead_send_not`: how a step moves the states ahead
-/

namespace Duplex

open Function Transition

variable {π π' μ μ' : Type*}

/-- A party is one or the other. -/
theorem eq_or_eq_not (b c : Bool) : b = c ∨ b = !c :=
  (eq_or_ne b c).imp_right Bool.eq_not_of_ne

theorem not_ne (b : Bool) : (!b) ≠ b :=
  (Bool.not_eq_self b).mp

/-- The states of two parties, and the messages in flight from each of them. -/
@[ext] structure Link (π μ : Type*) where
  party : Bool → π
  flight : Bool → List μ

namespace Link

/-- Party `b` has taken a message; `l` is left of what was sent to it. -/
def deliver (s : Link π μ) (b : Bool) (p : π) (l : List μ) : Link π μ where
  party := update s.party b p
  flight := update s.flight (!b) l

/-- Party `b` has moved and sent messages. -/
def send (s : Link π μ) (b : Bool) (p : π) (ms : List μ) : Link π μ where
  party := update s.party b p
  flight := update s.flight b (s.flight b ++ ms)

section Simp

variable (s : Link π μ) (b : Bool) (p : π) (l ms : List μ)

@[simp] theorem deliver_party_self : (s.deliver b p l).party b = p := update_self ..

@[simp] theorem deliver_party_not : (s.deliver b p l).party (!b) = s.party (!b) :=
  update_of_ne (not_ne b) ..

@[simp] theorem deliver_flight_not : (s.deliver b p l).flight (!b) = l := update_self ..

@[simp] theorem deliver_flight_self : (s.deliver b p l).flight b = s.flight b :=
  update_of_ne (not_ne b).symm ..

@[simp] theorem send_party_self : (s.send b p ms).party b = p := update_self ..

@[simp] theorem send_party_not : (s.send b p ms).party (!b) = s.party (!b) :=
  update_of_ne (not_ne b) ..

@[simp] theorem send_flight_self : (s.send b p ms).flight b = s.flight b ++ ms := update_self ..

@[simp] theorem send_flight_not : (s.send b p ms).flight (!b) = s.flight (!b) :=
  update_of_ne (not_ne b) ..

/-- A party that stays as it is and sends nothing. -/
@[simp] theorem send_nil : s.send b (s.party b) [] = s := by
  simp [send]

end Simp

/-- The link seen through maps of states and messages. -/
def map (f : π → π') (g : μ → μ') (s : Link π μ) : Link π' μ' where
  party b := f (s.party b)
  flight b := (s.flight b).map g

theorem map_deliver (f : π → π') (g : μ → μ') (s : Link π μ) (b : Bool) (p : π) (l : List μ) :
    (s.deliver b p l).map f g = (s.map f g).deliver b (f p) (l.map g) := by
  ext c : 2
  · exact apply_update (fun _ => f) s.party b p c
  · exact apply_update (fun _ => List.map g) s.flight (!b) l c

theorem map_send (f : π → π') (g : μ → μ') (s : Link π μ) (b : Bool) (p : π) (ms : List μ) :
    (s.send b p ms).map f g = (s.map f g).send b (f p) (ms.map g) := by
  ext c : 2
  · exact apply_update (fun _ => f) s.party b p c
  · refine (apply_update (fun _ => List.map g) s.flight b _ c).trans ?_
    rw [List.map_append]
    rfl

end Link

/-- What the parties may do: take a message, and move and send messages. -/
structure Protocol (π μ : Type*) where
  take : Bool → π → μ → π → Prop
  move : Bool → π → List μ → π → Prop

namespace Protocol

/-- The steps of the link. -/
inductive Step (P : Protocol π μ) (s : Link π μ) : Link π μ → Prop
  | deliver (b : Bool) (m : μ) (l : List μ) (p : π) : s.flight (!b) = m :: l →
      P.take b (s.party b) m p → Step P s (s.deliver b p l)
  | send (b : Bool) (ms : List μ) (p : π) : P.move b (s.party b) ms p → Step P s (s.send b p ms)

variable {P : Protocol π μ} {Q : Protocol π' μ'} {s t : Link π μ}

/-- **What each party keeps by itself**, whatever it takes and however it moves. -/
theorem Step.party_invariant {I : Bool → π → Prop}
    (htake : ∀ b p m q, I b p → P.take b p m q → I b q)
    (hmove : ∀ b p ms q, I b p → P.move b p ms q → I b q)
    (h : P.Step s t) (hs : ∀ b, I b (s.party b)) (b : Bool) : I b (t.party b) := by
  cases h with
  | deliver c m l p _ hp =>
    -- the party that takes the message, and the other one
    obtain rfl | rfl := eq_or_eq_not b c
    · rw [Link.deliver_party_self]
      exact htake b _ m p (hs b) hp
    · rw [Link.deliver_party_not]
      exact hs !c
  | send c ms p hp =>
    obtain rfl | rfl := eq_or_eq_not b c
    · rw [Link.send_party_self]
      exact hmove b _ ms p (hs b) hp
    · rw [Link.send_party_not]
      exact hs !c

/-- **A step seen through maps of states and messages** is a step, if what the parties do is. -/
theorem Step.map {I : Bool → π → Prop} {f : π → π'} {g : μ → μ'}
    (htake : ∀ b p m q, I b p → P.take b p m q → Q.take b (f p) (g m) (f q))
    (hmove : ∀ b p ms q, I b p → P.move b p ms q → Q.move b (f p) (ms.map g) (f q))
    (hs : ∀ b, I b (s.party b)) (h : P.Step s t) : Q.Step (s.map f g) (t.map f g) := by
  cases h with
  | deliver b m l p hflight hp =>
    rw [Link.map_deliver]
    exact .deliver b (g m) (l.map g) (f p) (congrArg (List.map g) hflight) (htake b _ m p (hs b) hp)
  | send b ms p hp =>
    rw [Link.map_send]
    exact .send b (ms.map g) (f p) (hmove b _ ms p (hs b) hp)

/-- **A run seen through maps of states and messages** is a run, and each party keeps what the maps
rest on. -/
theorem reachable_map {I : Bool → π → Prop} {f : π → π'} {g : μ → μ'}
    (htake : ∀ b p m q, I b p → P.take b p m q → I b q ∧ Q.take b (f p) (g m) (f q))
    (hmove : ∀ b p ms q, I b p → P.move b p ms q → I b q ∧ Q.move b (f p) (ms.map g) (f q))
    {s₀ : Link π μ} (h₀ : ∀ b, I b (s₀.party b)) (h : Reachable (· = s₀) P.Step s) :
    (∀ b, I b (s.party b)) ∧ Reachable (· = s₀.map f g) Q.Step (s.map f g) := by
  induction h with
  | init h =>
    obtain rfl := h
    exact ⟨h₀, .init rfl⟩
  | step _ hstep ih =>
    obtain ⟨hparty, hreach⟩ := ih
    -- the invariant of the parties is what makes the step one of the other protocol
    constructor
    · exact hstep.party_invariant (fun b p m q hp ht => (htake b p m q hp ht).1)
        (fun b p ms q hp hm => (hmove b p ms q hp hm).1) hparty
    · exact hreach.step (hstep.map (fun b p m q hp ht => (htake b p m q hp ht).2)
        (fun b p ms q hp hm => (hmove b p ms q hp hm).2) hparty)

end Protocol

/-! ## Messages taken ahead -/

section Ahead

variable (recv : π → μ → π) (s : Link π μ) (b : Bool)

/-- The state of party `b` once everything sent to it has been taken. -/
def Link.ahead : π := (s.flight (!b)).foldl recv (s.party b)

theorem ahead_of_empty (h : s.flight (!b) = []) : s.ahead recv b = s.party b := by
  rw [Link.ahead, h]
  rfl

/-- Taking a message is what the state ahead counts on. -/
theorem ahead_deliver {m : μ} {l : List μ} (h : s.flight (!b) = m :: l) (c : Bool) :
    (s.deliver b (recv (s.party b) m) l).ahead recv c = s.ahead recv c := by
  obtain rfl | rfl := eq_or_eq_not c b
  · simp [Link.ahead, h]
  · simp [Link.ahead]

/-- A party that moves has the new state to go on from. -/
theorem ahead_send_self (p : π) (ms : List μ) :
    (s.send b p ms).ahead recv b = (s.flight (!b)).foldl recv p := by
  simp [Link.ahead]

/-- The other party takes what was sent after everything before. -/
theorem ahead_send_not (p : π) (ms : List μ) :
    (s.send b p ms).ahead recv (!b) = ms.foldl recv (s.ahead recv !b) := by
  simp [Link.ahead]

end Ahead

end Duplex

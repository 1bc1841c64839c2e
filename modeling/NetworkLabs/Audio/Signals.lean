import NetworkLabs.Audio.Client
import NetworkLabs.Foundation.Signals

/-!
# The signals of the audio programs

Both programs read their socket in a handler of SIGIO, one datagram for every signal. Two datagrams
that share a signal leave one behind.

## Main definitions

* `listening`: the handler of the client
* `controlled`: the handler of the server

## Main results

* `read_iff_apart`: when a program at rest has read its socket empty
-/

namespace NetworkLabs.Audio

open Signals Transition

/-- `packet_handler` as the handler of SIGIO: it reads while `transmitting`. -/
def listening (L : Listener) : Handler Player (List UInt8) where
  wants s := s.transmitting
  handle s d := some (packetHandler L s d).1
  wants_of_handle := by
    intro s d t h ht
    obtain rfl := Option.some.inj h
    by_contra hoff
    rw [packetHandler_of_not_transmitting L (Bool.eq_false_of_not_eq_true hoff)] at ht
    exact hoff ht

/-- `handle_sigpoll` as the handler of SIGIO: it always reads. What it does with the datagram is
left open. -/
def controlled {σ : Type*} (control : σ → List UInt8 → Option σ) : Handler σ (List UInt8) where
  wants _ := true
  handle := control
  wants_of_handle _ _ := rfl

/-- **A program at rest has read its socket empty, exactly when** no datagram has arrived while
SIGIO was pending: the client as long as it is transmitting, the server whatever its control
does. -/
theorem read_iff_apart {σ : Type*} (L : Listener) (control : σ → List UInt8 → Option σ)
    (client : Player) (server : σ) (is : List (Move (List UInt8))) :
    (∀ t o, (listening L).machine.run (Woken.start client) is = some (t, o) → t.Rests →
      t.state.transmitting = true →
        (t.queue = [] ↔
          (listening L).machine.Always (fun s i _ _ => Apart s i) (Woken.start client) is)) ∧
    ∀ t o, (controlled control).machine.run (Woken.start server) is = some (t, o) → t.Rests →
      (t.queue = [] ↔
        (controlled control).machine.Always (fun s i _ _ => Apart s i) (Woken.start server) is) :=
  ⟨fun _ _ h hrests ht => queue_eq_nil_iff h hrests ht,
    fun _ _ h hrests => queue_eq_nil_iff h hrests rfl⟩

/-- A server that does nothing with what it is sent. -/
def idle : Unit → List UInt8 → Option Unit := fun _ _ => some ()

/-- The client after `transmitting` was set. -/
def ready : Player := (Client.start fun _ => 0).toPlayer

/-- One datagram after the other, each with a signal of its own. -/
def oneByOne : List (Move (List UInt8)) :=
  [.arrive [1], .deliver, .arrive [2], .read, .finish, .deliver, .read, .finish]

theorem read_oneByOne :
    (∃ t o, (listening smallListener).machine.run (Woken.start ready) oneByOne = some (t, o) ∧
      t.queue = []) ∧
    (controlled idle).machine.Always (fun s i _ _ => Apart s i) (Woken.start ()) oneByOne := by
  obtain ⟨hclient, hserver⟩ := read_iff_apart smallListener idle ready () oneByOne
  have hread := hclient _ _ rfl ⟨rfl, rfl⟩ rfl
  refine ⟨⟨_, _, rfl, hread.mpr ?_⟩, (hserver _ _ rfl ⟨rfl, rfl⟩).mp rfl⟩
  exact .cons rfl rfl (.cons rfl trivial (.cons rfl rfl (.cons rfl trivial (.cons rfl trivial
    (.cons rfl trivial (.cons rfl trivial (.cons rfl trivial trivial)))))))

/-- Two datagrams share a signal: the client rests, and the end of the transmission is never read;
and the server rests with a message in its socket. -/
theorem not_read_burst :
    (∃ t o, (listening smallListener).machine.run (Woken.start ready)
        [.arrive [1], .arrive god, .deliver, .read, .finish] = some (t, o) ∧
      t.Rests ∧ t.state.transmitting = true ∧ t.queue = [god]) ∧
    ∃ t o, (controlled idle).machine.run (Woken.start ())
        [.arrive [81], .arrive [81], .deliver, .read, .finish] = some (t, o) ∧
      t.Rests ∧ t.queue = [[81]] :=
  ⟨⟨_, _, rfl, ⟨rfl, rfl⟩, rfl, rfl⟩, _, _, rfl, ⟨rfl, rfl⟩, rfl⟩

end NetworkLabs.Audio

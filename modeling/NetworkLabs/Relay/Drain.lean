import Mathlib.Algebra.BigOperators.Group.Finset.Basic
import NetworkLabs.Foundation.Rounds
import NetworkLabs.Relay.Chain

/-!
# Everything arrives

While both ends are silent, the parties of a chain only receive, and the relays send on what they
have received. Each datagram has a number of hops before it, and every receive takes away one of
them, whoever receives. So the receives come to an end, after a number of them that does not depend
on the order, and at their end everything has arrived.

## Main definitions

* `Chain.toGo`: the number of hops that are still before the datagrams in flight
* `Net.Receive`: one of the parties receives

## Main results

* `Net.Inv.receive`: every receive takes away one hop
* `Net.Inv.exists_receive`: what is in flight can be received
* `Net.everything_arrives`: how long the receives go on, and what they lead to
-/

namespace NetworkLabs.Relay

open CRuntime Pipelines Transition

namespace Chain

variable (C : Chain)

/-- The hops before the datagrams on the links, in both directions. -/
def toGo (l : Links) : ℕ :=
  ∑ i ∈ Finset.range (C.k + 1),
    ((C.k + 1 - i) * (C.forth l i).length + (i + 1) * (C.back l i).length)

/-- Two sums that differ in one hop. -/
theorem sum_hop {f g : ℕ → ℕ} {i : ℕ} (hi : i ≤ C.k) (hrest : ∀ j ≤ C.k, j ≠ i → g j = f j) :
    ∑ j ∈ Finset.range (C.k + 1), g j + f i = ∑ j ∈ Finset.range (C.k + 1), f j + g i := by
  have hmem : i ∈ Finset.range (C.k + 1) := Finset.mem_range_succ_iff.mpr hi
  have hsame : ∑ j ∈ (Finset.range (C.k + 1)).erase i, g j =
      ∑ j ∈ (Finset.range (C.k + 1)).erase i, f j := by
    refine Finset.sum_congr rfl fun j hj => hrest j ?_ (Finset.ne_of_mem_erase hj)
    exact Finset.mem_range_succ_iff.mp (Finset.mem_of_mem_erase hj)
  have hf := Finset.add_sum_erase _ f hmem
  have hg := Finset.add_sum_erase _ g hmem
  omega

variable {C} {l : Links} {i : ℕ} {d : List UInt8} {q rest : List (List UInt8)}

theorem toGo_eq_zero (h : ∀ a b, l a b = []) : C.toGo l = 0 := by
  refine Finset.sum_eq_zero fun i _ => ?_
  rw [forth, back, h, h]
  rfl

theorem toGo_set_forth (hi : i ≤ C.k) :
    C.toGo (l.set (C.addr i) (C.addr (i + 1)) q) + (C.k + 1 - i) * (C.forth l i).length =
      C.toGo l + (C.k + 1 - i) * q.length := by
  have hsum := C.sum_hop hi
    (f := fun j => (C.k + 1 - j) * (C.forth l j).length + (j + 1) * (C.back l j).length)
    (g := fun j => (C.k + 1 - j) *
      (C.forth (l.set (C.addr i) (C.addr (i + 1)) q) j).length +
        (j + 1) * (C.back (l.set (C.addr i) (C.addr (i + 1)) q) j).length)
    fun j hj hne => by simp only [forth_set_forth hi hj, back_set_forth hi hj, if_neg hne]
  simp only [forth_set_forth hi hi, back_set_forth hi hi, if_true] at hsum
  unfold toGo
  omega

theorem toGo_set_back (hi : i ≤ C.k) :
    C.toGo (l.set (C.addr (i + 1)) (C.addr i) q) + (i + 1) * (C.back l i).length =
      C.toGo l + (i + 1) * q.length := by
  have hsum := C.sum_hop hi
    (f := fun j => (C.k + 1 - j) * (C.forth l j).length + (j + 1) * (C.back l j).length)
    (g := fun j => (C.k + 1 - j) *
      (C.forth (l.set (C.addr (i + 1)) (C.addr i) q) j).length +
        (j + 1) * (C.back (l.set (C.addr (i + 1)) (C.addr i) q) j).length)
    fun j hj hne => by simp only [forth_set_back hi hj, back_set_back hi hj, if_neg hne]
  simp only [forth_set_back hi hi, back_set_back hi hi, if_true] at hsum
  unfold toGo
  omega

/-- A datagram that is received at the end of a hop. -/
theorem toGo_pop_forth (hi : i ≤ C.k) (h : l (C.addr i) (C.addr (i + 1)) = d :: rest) :
    C.toGo (l.set (C.addr i) (C.addr (i + 1)) rest) + (C.k + 1 - i) = C.toGo l := by
  have hset := toGo_set_forth (l := l) (q := rest) hi
  rw [forth, h, List.length_cons, Nat.mul_succ] at hset
  omega

theorem toGo_pop_back (hi : i ≤ C.k) (h : l (C.addr (i + 1)) (C.addr i) = d :: rest) :
    C.toGo (l.set (C.addr (i + 1)) (C.addr i) rest) + (i + 1) = C.toGo l := by
  have hset := toGo_set_back (l := l) (q := rest) hi
  rw [back, h, List.length_cons, Nat.mul_succ] at hset
  omega

/-- A datagram that is sent on a hop. -/
theorem toGo_push_forth (hi : i ≤ C.k) (d : List UInt8) :
    C.toGo (l.push (C.addr i) (C.addr (i + 1)) d) = C.toGo l + (C.k + 1 - i) := by
  have hset := toGo_set_forth (l := l) (q := l (C.addr i) (C.addr (i + 1)) ++ [d]) hi
  rw [forth, List.length_append, List.length_singleton, Nat.mul_succ] at hset
  unfold Links.push
  omega

theorem toGo_push_back (hi : i ≤ C.k) (d : List UInt8) :
    C.toGo (l.push (C.addr (i + 1)) (C.addr i) d) = C.toGo l + (i + 1) := by
  have hset := toGo_set_back (l := l) (q := l (C.addr (i + 1)) (C.addr i) ++ [d]) hi
  rw [back, List.length_append, List.length_singleton, Nat.mul_succ] at hset
  unfold Links.push
  omega

end Chain

namespace Net

variable (C : Chain)

/-- One of the parties receives. -/
inductive Receive : Net → Net → Prop
  | client {n src d rest} : n.link src (C.addr 0) = d :: rest →
      Receive n { n with
        clientGot := n.clientGot ++ [d]
        link := n.link.set src (C.addr 0) rest }
  | relay {n i src d rest} : i < C.k → n.link src (C.addr (i + 1)) = d :: rest →
      Receive n (n.relayRound C i (some (src, d)) (n.link.set src (C.addr (i + 1)) rest))
  | dest {n src d rest} : n.link src (C.addr (C.k + 1)) = d :: rest →
      Receive n { n with
        destGot := n.destGot ++ [d]
        heard := src :: n.heard
        link := n.link.set src (C.addr (C.k + 1)) rest }

variable {C} {n m : Net}

theorem Receive.step (h : Receive C n m) : Step C n m := by
  cases h with
  | client hq => exact .clientRecv _ _ _ _ hq
  | relay hi hq => exact .relayRecv _ _ hi _ _ _ hq
  | dest hq => exact .destRecv _ _ _ _ hq

theorem Receive.sent (h : Receive C n m) :
    m.clientSent = n.clientSent ∧ m.destSent = n.destSent := by
  cases h <;> exact ⟨rfl, rfl⟩

namespace Inv

variable (h : n.Inv C)

include h

theorem source_client {src : SockAddr} (hne : n.link src (C.addr 0) ≠ []) : src = C.addr 1 := by
  rcases (h.onChain _ _ hne).source (Nat.zero_le _) with ⟨i, -, hi, -⟩ | ⟨-, hsrc⟩
  · omega
  · exact hsrc

theorem source_dest {src : SockAddr} (hne : n.link src (C.addr (C.k + 1)) ≠ []) :
    src = C.addr C.k := by
  rcases (h.onChain _ _ hne).source le_rfl with ⟨i, -, hi, hsrc⟩ | ⟨hk, -⟩
  · obtain rfl : i = C.k := by omega
    exact hsrc
  · omega

/-- A relay that has something on the way back has a client. -/
theorem client_addr_of_back {i : ℕ} (hi : i < C.k)
    (hne : n.link (C.addr (i + 2)) (C.addr (i + 1)) ≠ []) :
    (n.relay i).client_addr = some (C.addr i) := by
  have hawake := h.awake i hi (.inr (.inl hne))
  obtain ⟨a, ha⟩ := Option.ne_none_iff_exists'.mp ((awake_iff hi).mp hawake)
  obtain rfl := h.learned i hi a ha
  exact ha

/-- **Every receive takes away one hop.** -/
theorem receive (hm : Receive C n m) : C.toGo m.link + 1 = C.toGo n.link := by
  cases hm with
  | @client src d rest hq =>
    have hne : n.link src (C.addr 0) ≠ [] := by simp [hq]
    obtain rfl := h.source_client hne
    exact Chain.toGo_pop_back (Nat.zero_le _) hq
  | @relay i src d rest hi hq =>
    have hne : n.link src (C.addr (i + 1)) ≠ [] := by simp [hq]
    have hd : d.length ≤ BUFSIZ := h.short _ _ d (by rw [hq]; exact List.mem_cons_self)
    rcases h.source_relay hi hne with rfl | rfl
    · obtain ⟨r, -, hround⟩ := relayRound_forth hi hd (h.learned i hi)
        (n.link.set (C.addr i) (C.addr (i + 1)) rest)
      have hpop := Chain.toGo_pop_forth hi.le hq
      rw [hround, Chain.toGo_push_forth hi]
      omega
    · obtain ⟨r, -, hround⟩ := relayRound_back hd (h.client_addr_of_back hi hne)
        (n.link.set (C.addr (i + 2)) (C.addr (i + 1)) rest)
      have hpop := Chain.toGo_pop_back (i := i + 1) hi hq
      rw [hround, Chain.toGo_push_back hi.le]
      omega
  | @dest src d rest hq =>
    have hne : n.link src (C.addr (C.k + 1)) ≠ [] := by simp [hq]
    obtain rfl := h.source_dest hne
    have hpop := Chain.toGo_pop_forth le_rfl hq
    rwa [Nat.add_sub_cancel_left] at hpop

/-- **What is in flight can be received.** -/
theorem exists_receive {a b : SockAddr} (hne : n.link a b ≠ []) : ∃ m, Receive C n m := by
  obtain ⟨d, rest, hq⟩ := List.exists_cons_of_ne_nil hne
  obtain ⟨i, hi, ⟨rfl, rfl⟩ | ⟨rfl, rfl⟩⟩ := h.onChain a b hne
  · rcases Nat.lt_or_eq_of_le hi with hlt | rfl
    · exact ⟨_, .relay hlt hq⟩
    · exact ⟨_, .dest hq⟩
  · cases i with
    | zero => exact ⟨_, .client hq⟩
    | succ i => exact ⟨_, .relay hi hq⟩

/-- Nothing is in flight when everything has arrived. -/
theorem link_eq_nil (hforth : n.destGot = n.clientSent) (hback : n.clientGot = n.destSent)
    (a b : SockAddr) : n.link a b = [] := by
  have hrow : row (n.forward C).queue (C.k + 1) = [] :=
    List.append_right_eq_self.mp (h.forward.trans hforth.symm)
  have hrow' : row (n.backward C).queue (C.k + 1) = [] :=
    List.append_right_eq_self.mp (h.backward.trans hback.symm)
  by_contra hne
  obtain ⟨i, hi, ⟨rfl, rfl⟩ | ⟨rfl, rfl⟩⟩ := h.onChain a b hne
  · exact hne (queue_eq_nil_of_row hrow i (Nat.lt_succ_of_le hi))
  · have hqueue := queue_eq_nil_of_row hrow' (C.k - i) (by omega)
    simp only [Net.backward, Nat.sub_sub_self hi] at hqueue
    exact hne hqueue

/-- **No party can receive exactly when everything has arrived.** -/
theorem no_receive_iff :
    (∀ m, ¬ Receive C n m) ↔ n.destGot = n.clientSent ∧ n.clientGot = n.destSent := by
  constructor
  · intro hnone
    have hlink : ∀ a b, n.link a b = [] := by
      intro a b
      by_contra hne
      obtain ⟨m, hm⟩ := h.exists_receive hne
      exact hnone m hm
    have hrow : row (n.forward C).queue (C.k + 1) = [] := row_eq_nil fun i _ => hlink _ _
    have hrow' : row (n.backward C).queue (C.k + 1) = [] := row_eq_nil fun i _ => hlink _ _
    exact ⟨(List.append_right_eq_self.mpr hrow).symm.trans h.forward,
      (List.append_right_eq_self.mpr hrow').symm.trans h.backward⟩
  · rintro ⟨hforth, hback⟩ m hm
    have hlink := h.link_eq_nil hforth hback
    cases hm with
    | client hq => exact List.cons_ne_nil _ _ (hq.symm.trans (hlink _ _))
    | relay hi hq => exact List.cons_ne_nil _ _ (hq.symm.trans (hlink _ _))
    | dest hq => exact List.cons_ne_nil _ _ (hq.symm.trans (hlink _ _))

end Inv

theorem lowers_receive : Lowers (Receive C) (fun n => n.Inv C) fun n => C.toGo n.link := by
  intro n m hn hm
  exact ⟨hn.step hm.step, Nat.lt_of_succ_le (hn.receive hm).le⟩

/-- What a row of receives does: it takes away as many hops, and nothing is sent. -/
theorem Inv.receives (h : n.Inv C) {j : ℕ} (hm : Rounds (Receive C) j n m) :
    m.Inv C ∧ j + C.toGo m.link = C.toGo n.link ∧ m.clientSent = n.clientSent ∧
      m.destSent = n.destSent := by
  induction hm with
  | nil => exact ⟨h, Nat.zero_add _, rfl, rfl⟩
  | @cons j n u m hu _ ih =>
    obtain ⟨hinv, hhops, hclient, hdest⟩ := ih (h.step hu.step)
    have hhop := h.receive hu
    obtain ⟨hclient', hdest'⟩ := hu.sent
    exact ⟨hinv, by omega, hclient.trans hclient', hdest.trans hdest'⟩

/-- A row of receives that nothing can follow has no hop left. -/
theorem Inv.toGo_eq_zero_iff (h : n.Inv C) : C.toGo n.link = 0 ↔ ∀ m, ¬ Receive C n m := by
  constructor
  · intro hzero m hm
    have hhop := h.receive hm
    omega
  · intro hnone
    obtain ⟨hforth, hback⟩ := h.no_receive_iff.mp hnone
    exact Chain.toGo_eq_zero (h.link_eq_nil hforth hback)

/-- **Everything arrives.** From any reachable state, while both ends are silent, the parties can
receive only as often as there are hops before the datagrams in flight, in any order; and when they
have received as often as that, and no earlier, none of them can receive any more, the destination
has received all that the client has sent and the client all that the destination has sent. -/
theorem everything_arrives {n : Net} (h : Reachable Initial (Step C) n) :
    (∃ m, Rounds (Receive C) (C.toGo n.link) n m) ∧
      ∀ j m, Rounds (Receive C) j n m → j ≤ C.toGo n.link ∧
        (j = C.toGo n.link ↔ ∀ u, ¬ Receive C m u) ∧
        (j = C.toGo n.link ↔ m.destGot = n.clientSent ∧ m.clientGot = n.destSent) := by
  have hinv : n.Inv C := h.invariant (fun _ hn => hn.inv) fun _ _ hn hstep => hn.step hstep
  have hend : ∀ j m, Rounds (Receive C) j n m →
      j ≤ C.toGo n.link ∧ (j = C.toGo n.link ↔ ∀ u, ¬ Receive C m u) := by
    intro j m hm
    obtain ⟨hm', hhops, -, -⟩ := hinv.receives hm
    rw [← hm'.toGo_eq_zero_iff]
    omega
  constructor
  · have hprogress : ∀ m, m.Inv C → ¬ (∀ u, ¬ Receive C m u) → ∃ u, Receive C m u :=
      fun m _ hsome => not_forall_not.mp hsome
    obtain ⟨j, m, hm, hnone⟩ := lowers_receive.exists_rounds hprogress hinv
    obtain rfl := (hend j m hm).2.mpr hnone
    exact ⟨m, hm⟩
  · intro j m hm
    obtain ⟨hle, hiff⟩ := hend j m hm
    obtain ⟨hm', -, hclient, hdest⟩ := hinv.receives hm
    have harrived := hm'.no_receive_iff
    rw [hclient, hdest] at harrived
    exact ⟨hle, hiff, hiff.trans harrived⟩

/-- One datagram before a tunnel has two hops before it. -/
theorem everything_arrives_tunnel : ∃ n : Net, n.clientSent = [[7]] ∧ tunnel.toGo n.link = 2 ∧
    (∃ m, Rounds (Receive tunnel) (tunnel.toGo n.link) n m) ∧
      ∀ j m, Rounds (Receive tunnel) j n m → j ≤ tunnel.toGo n.link ∧
        (j = tunnel.toGo n.link ↔ ∀ u, ¬ Receive tunnel m u) ∧
        (j = tunnel.toGo n.link ↔ m.destGot = n.clientSent ∧ m.clientGot = n.destSent) := by
  have h₀ : Reachable Initial (Step tunnel) fresh := .init fresh_initial
  have h₁ := h₀.step (.clientSend _ [7] (Nat.le_add_left 1 8191))
  have hhops : tunnel.toGo (fresh.link.push (tunnel.addr 0) (tunnel.addr 1) [7]) = 2 := by
    rw [Chain.toGo_push_forth (Nat.zero_le _), Chain.toGo_eq_zero fresh_initial.link]
    rfl
  refine ⟨_, rfl, ?_, everything_arrives h₁⟩
  exact hhops

end Net

end NetworkLabs.Relay

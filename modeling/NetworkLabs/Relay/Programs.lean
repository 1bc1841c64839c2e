import NetworkLabs.Runtime.Memory
import NetworkLabs.Runtime.Socket
import Mathlib.Data.List.Infix

/-!
# The relay loop

`tunneld` and `overlayrouter` relay datagrams between one client and one server. The sender of the
first datagram becomes the client, before the loop asks who it is. Afterwards what comes from the
server goes to the client, and the rest goes to the server. The loop compares the texts and the
ports of the two addresses; the texts share the static buffer of `inet_ntoa`.

## Main definitions

* `fromServer`: the comparison of a sender with the server
* `RelayState`, `sendSocketData`: one round of the relay loop
* `after`: the relay after a row of datagrams
* `WholeAddress`, `NeverBack`: what the loop is meant to do

## Main results

* `fromServer_fst`: the comparison is one of ports
* `wholeAddress_iff`: when a sender is told from the server by its whole address
* `neverBack_iff`: when no datagram of the server goes back to it
-/

namespace NetworkLabs.Relay

open CRuntime

/-- The programs with a `send_socket_data`. -/
inductive Program
  | tunneld
  | overlayrouter

/-- A datagram with its source or with its destination. -/
abbrev Packet := SockAddr × List UInt8

/-- `get_in_addr`. -/
def getInAddr (mem : Strings) (sa : SockAddr) : Strings × ℕ := inet_ntoa mem sa.sin_addr

/-- `get_in_port`, which swaps the bytes in one of the programs. -/
def getInPort : Program → SockAddr → UInt16
  | .tunneld, sa => sa.sin_port
  | .overlayrouter, sa => ntohs sa.sin_port

/-- The comparison of a sender with the server, and the memory it leaves. -/
def fromServer (program : Program) (mem : Strings) (recv_sock server_addr : SockAddr) :
    Bool × Strings :=
  let opp_hostname := getInAddr mem recv_sock
  let opp_port := ntohs (getInPort program recv_sock)
  let opp_hostname_chk := getInAddr opp_hostname.1 server_addr
  let opp_port_chk := ntohs (getInPort program server_addr)
  (strcmpEq opp_hostname_chk.1 opp_hostname.2 opp_hostname_chk.2 && opp_port == opp_port_chk,
    opp_hostname_chk.1)

/-- What the loop keeps: the strings in memory, and the address that `client_addr` points to once
it is not `NULL`. -/
structure RelayState where
  mem : Strings
  client_addr : Option SockAddr

/-- One round of `send_socket_data`: the datagram that `recvfrom` gives, `none` when it fails, and
the datagrams that are sent. -/
def sendSocketData (program : Program) (server_addr : SockAddr) (s : RelayState)
    (received : Option Packet) : RelayState × List Packet :=
  match received with
  | none => (s, [])
  | some (recv_sock, d) =>
    let buf := d.take BUFSIZ
    let test := fromServer program s.mem recv_sock server_addr
    match s.client_addr with
    | none =>
      -- the sender is the client from here on, also when the loop goes on without an answer
      (⟨test.2, some recv_sock⟩, if test.1 then [] else [(server_addr, buf)])
    | some client_addr =>
      (⟨test.2, some client_addr⟩, [(if test.1 then client_addr else server_addr, buf)])

/-- The relay after the datagrams of `packets`. -/
def after (program : Program) (server_addr : SockAddr) (s : RelayState)
    (packets : List (Option Packet)) : RelayState :=
  packets.foldl (fun s p => (sendSocketData program server_addr s p).1) s

/-- The senders of the datagrams that were received. -/
def senders (packets : List (Option Packet)) : List SockAddr := packets.filterMap (·.map Prod.fst)

/-! ## Telling the server from the others -/

variable (program : Program) (mem : Strings) {src server : SockAddr}

theorem ntohs_getInPort_inj :
    ntohs (getInPort program src) = ntohs (getInPort program server) ↔
      src.sin_port = server.sin_port := by
  cases program <;> simp [getInPort]

/-- **The comparison is one of ports**: the two texts are always equal. -/
theorem fromServer_fst (src server : SockAddr) :
    (fromServer program mem src server).1 = (src.sin_port == server.sin_port) := by
  have htexts := strcmpEq_inet_ntoa mem src.sin_addr server.sin_addr
  have hports : (ntohs (getInPort program src) == ntohs (getInPort program server)) =
      (src.sin_port == server.sin_port) := by
    rw [Bool.eq_iff_iff, beq_iff_eq, beq_iff_eq, ntohs_getInPort_inj]
  unfold fromServer getInAddr
  simp only [htexts, hports, Bool.true_and]

theorem fromServer_of_port_ne (h : src.sin_port ≠ server.sin_port) :
    (fromServer program mem src server).1 = false := by
  rw [fromServer_fst]
  exact beq_false_of_ne h

/-- A sender is told from the server by its whole address: it passes for the server exactly when it
is the server, and otherwise what it sends goes to the server. -/
def WholeAddress (server src : SockAddr) : Prop :=
  ((fromServer program mem src server).1 = true ↔
    src.sin_addr = server.sin_addr ∧ src.sin_port = server.sin_port) ∧
  (src ≠ server → ∀ client_addr d, (sendSocketData program server ⟨mem, client_addr⟩
    (some (src, d))).2 = [(server, d.take BUFSIZ)])

/-- What has another port than the server goes to the server. -/
theorem sendSocketData_of_port_ne {s : RelayState} (h : src.sin_port ≠ server.sin_port)
    (d : List UInt8) :
    (sendSocketData program server s (some (src, d))).2 = [(server, d.take BUFSIZ)] := by
  cases hc : s.client_addr <;> simp [sendSocketData, hc, fromServer_of_port_ne program s.mem h]

/-- What has the server's port goes to the client, if there is one. -/
theorem sendSocketData_of_port_eq {s : RelayState} (h : src.sin_port = server.sin_port)
    (d : List UInt8) :
    (sendSocketData program server s (some (src, d))).2 =
      s.client_addr.toList.map fun client => (client, d.take BUFSIZ) := by
  cases hc : s.client_addr <;> simp [sendSocketData, hc, fromServer_fst, h]

/-- **A sender is told from the server by its whole address exactly when it is on the server's host
or has another port.** -/
theorem wholeAddress_iff (server src : SockAddr) :
    WholeAddress program mem server src ↔
      (src.sin_port = server.sin_port → src.sin_addr = server.sin_addr) := by
  unfold WholeAddress
  rw [fromServer_fst, beq_iff_eq]
  constructor
  · rintro ⟨htest, -⟩ hport
    exact (htest.mp hport).1
  · intro h
    refine ⟨⟨fun hport => ⟨h hport, hport⟩, fun hboth => hboth.2⟩, ?_⟩
    intro hne client_addr d
    apply sendSocketData_of_port_ne
    intro hport
    apply hne
    cases src
    cases server
    exact congrArg₂ SockAddr.mk (h hport) hport

/-- A client on another host that happens to use the server's port passes for the server, and what
it sends comes back to the client. -/
theorem not_wholeAddress_samePort :
    (sendSocketData .tunneld ⟨1, 9⟩ ⟨fun _ => [], some ⟨2, 9⟩⟩ (some (⟨2, 9⟩, [7]))).2 =
        [(⟨2, 9⟩, [7])] ∧
      ¬ WholeAddress .tunneld (fun _ => []) ⟨1, 9⟩ ⟨2, 9⟩ ∧
      ¬ WholeAddress .overlayrouter (fun _ => []) ⟨1, 9⟩ ⟨2, 9⟩ := by
  have hne : (⟨2, 9⟩ : SockAddr) ≠ ⟨1, 9⟩ := by decide
  have hport : (⟨2, 9⟩ : SockAddr).sin_port = (⟨1, 9⟩ : SockAddr).sin_port := rfl
  have hback : ∀ program, ¬ WholeAddress program (fun _ => []) ⟨1, 9⟩ ⟨2, 9⟩ := by
    rintro program ⟨-, hforward⟩
    have hsent := hforward hne (some ⟨2, 9⟩) [7]
    rw [sendSocketData_of_port_eq program hport] at hsent
    exact absurd hsent (by decide)
  exact ⟨sendSocketData_of_port_eq .tunneld hport _, hback _, hback _⟩

/-! ## The client of a run -/

theorem senders_append_some (pre post : List (Option Packet)) (d : List UInt8) :
    senders (pre ++ some (src, d) :: post) = senders pre ++ src :: senders post := by
  simp [senders]

section Client

variable {s : RelayState} {packets : List (Option Packet)}

theorem sendSocketData_client_addr (p : Option Packet) :
    (sendSocketData program server s p).1.client_addr = s.client_addr.or (p.map Prod.fst) := by
  rcases p with _ | ⟨src, d⟩
  · simp [sendSocketData]
  · cases h : s.client_addr <;> simp [sendSocketData, h]

/-- The client is the sender of the first datagram. -/
theorem after_client_addr :
    (after program server s packets).client_addr = s.client_addr.or (senders packets).head? := by
  induction packets generalizing s with
  | nil => simp [after, senders]
  | cons p packets ih =>
    rw [after, List.foldl_cons, ← after, ih, sendSocketData_client_addr, Option.or_assoc]
    rcases p with _ | ⟨src, d⟩ <;> simp [senders]

end Client

/-- The first sender that is not the server. -/
def firstClient (server : SockAddr) (packets : List (Option Packet)) : Option SockAddr :=
  (senders packets).find? (· ≠ server)

/-- Whatever arrives at a fresh relay, no datagram of the server is sent to the server, and once a
client has sent a datagram, every later one of the server is sent to the first client. -/
def NeverBack (server : SockAddr) (packets : List (Option Packet)) : Prop :=
  ∀ pre d post, packets = pre ++ some (server, d) :: post →
    let sent := (sendSocketData program server (after program server ⟨mem, none⟩ pre)
      (some (server, d))).2
    (∀ p ∈ sent, p.1 ≠ server) ∧
      ∀ client, firstClient server pre = some client → sent = [(client, d.take BUFSIZ)]

/-- A later datagram of a sender, with the datagrams before it. -/
theorem exists_split_of_mem_tail {packets : List (Option Packet)} {first src : SockAddr}
    (hfirst : (senders packets).head? = some first) (h : src ∈ (senders packets).tail) :
    ∃ pre d post, packets = pre ++ some (src, d) :: post ∧ (senders pre).head? = some first := by
  induction packets with
  | nil => simp [senders] at h
  | cons p packets ih =>
    rcases p with _ | ⟨a, d₀⟩
    -- a failed call has no sender
    · obtain ⟨pre, d, post, rfl, hpre⟩ := ih hfirst h
      exact ⟨none :: pre, d, post, rfl, hpre⟩
    · obtain ⟨p, hp, hsrc⟩ := List.mem_filterMap.mp (h : src ∈ senders packets)
      obtain ⟨⟨_, d⟩, rfl, rfl⟩ := Option.map_eq_some_iff.mp hsrc
      obtain ⟨pre, post, rfl⟩ := List.append_of_mem hp
      exact ⟨some (a, d₀) :: pre, d, post, rfl, hfirst⟩

/-- **No datagram of the server goes back to it, exactly when the server is not the first of all
senders, or sends once only.** -/
theorem neverBack_iff (server : SockAddr) (packets : List (Option Packet)) :
    NeverBack program mem server packets ↔
      ((senders packets).head? = some server → server ∉ (senders packets).tail) := by
  unfold NeverBack
  simp only [sendSocketData_of_port_eq program rfl, after_client_addr, Option.none_or]
  constructor
  · intro h hfirst hmem
    -- the second datagram of the server finds the server for the client
    obtain ⟨pre, d, post, hsplit, hpre⟩ := exists_split_of_mem_tail hfirst hmem
    obtain ⟨hback, -⟩ := h pre d post hsplit
    rw [hpre] at hback
    exact hback (server, d.take BUFSIZ) (by simp) rfl
  · rintro h pre d post rfl
    rcases hpre : senders pre with _ | ⟨client, rest⟩
    · simp [firstClient, hpre]
    · rw [senders_append_some, hpre] at h
      have hne : client ≠ server := by
        rintro rfl
        exact h rfl (by simp)
      simp [firstClient, hpre, hne]

/-- A server that sends twice before any client gets its second datagram back. -/
theorem not_neverBack_serverFirst :
    ¬ NeverBack .overlayrouter (fun _ => []) ⟨1, 9⟩ [some (⟨1, 9⟩, [1]), some (⟨1, 9⟩, [2])] := by
  intro h
  obtain ⟨hback, -⟩ := h [some (⟨1, 9⟩, [1])] [2] [] rfl
  rw [sendSocketData_of_port_eq .overlayrouter rfl, after_client_addr] at hback
  exact hback (⟨1, 9⟩, [2]) (List.mem_singleton_self _) rfl

end NetworkLabs.Relay

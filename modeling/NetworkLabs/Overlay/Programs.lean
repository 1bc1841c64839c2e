import NetworkLabs.Runtime.Text
import NetworkLabs.Runtime.Tokens

/-!
# Builder and router of an overlay route

The builder sends a request that names the destination and, in reverse order, the routers on the
way. A router splits the request into its fields. With three of them it is the last hop and takes
the destination for its server; otherwise it forwards the request without its last field, which is
its own name, to the router that is named before it.

Names are resolved by a parameter of the model, since the resolver is not part of the programs.

## Main definitions

* `Resolver`: what the two resolver functions give
* `tunnelRequest`, `overlaybuild`: what the builder sends, and where to
* `Action`, `registration`: what a router does with a request
* `IsName`, `ZeroPast`: well-formed fields, and a buffer that holds zeros past a datagram

## Main results

* `registration_last`, `registration_forward`: the two branches of the router on a request
-/

namespace NetworkLabs.Overlay

open CRuntime

/-- The resolver: host names, and host names with the text of a port. -/
structure Resolver (Addr : Type*) where
  gethostbyname : List UInt8 → Option Addr
  getaddrinfo : List UInt8 → List UInt8 → Option (Addr × ℕ)

variable {Addr : Type*}

/-- The port number that `htons` is given. -/
def htons (port : ℤ) : ℕ := (port % 2 ^ 16).toNat

/-- `atoi` on a string with its terminator. -/
def atoiString (s : List UInt8) : ℤ := (atoi (s ++ [0])).getD 0

/-! ## The builder -/

/-- The message `str` of `sendMyTunnelRequest`. Each argument goes through an element of
`forwards`, which is read back in the next statement; the last ones stand behind the array. -/
def tunnelRequest (argv : List (List UInt8)) : List UInt8 :=
  (List.range' 3 (argv.length - 2 - 3)).foldl (fun str a => str ++ argv.getD a [] ++ [dollar])
    ([dollar] ++ argv.getD 1 [] ++ [dollar] ++ argv.getD 2 [] ++ [dollar])

/-- `sendMyTunnelRequest`: the address of the first router and the message, `none` when the
arguments are too few, the message overruns `str`, or the name does not resolve. What the builder
writes behind `forwards` is taken to change nothing else; `RouteFits` says that it is behind it. -/
def overlaybuild (net : Resolver Addr) (argv : List (List UInt8)) :
    Option ((Addr × ℕ) × List UInt8) :=
  let argc := argv.length
  if argc ≤ 5 then none
  else
    let num_forwards := argc - 2 - 2
    let hostname := if num_forwards = 0 then argv.getD 1 [] else argv.getD (argc - 3) []
    let port := if num_forwards = 0 then argv.getD 2 [] else argv.getD (argc - 2) []
    if (tunnelRequest argv).length < 1000 then
      (net.getaddrinfo hostname port).map fun servinfo => (servinfo, tunnelRequest argv)
    else none

/-! ## The router -/

/-- What a router does with a request, up to its first datagram downstream. -/
inductive Action (Addr : Type*)
  /-- It answers its upstream and relays to the server. -/
  | serve (response : List (Option UInt8)) (server : Addr × ℕ)
  /-- It leaves without a word. -/
  | leave
  /-- It forwards a request; without an address, to wherever `server` points. -/
  | forward (server : Option (Addr × ℕ)) (str : List UInt8)
  /-- It accesses something outside its arrays. -/
  | fault

/-- `response`, thirteen bytes with the text of the router's own new port. -/
def responseOf (rand_port : ℕ) : List (Option UInt8) :=
  (decimal rand_port ++ [0]).map some ++
    List.replicate (13 - (decimal rand_port ++ [0]).length) none

/-- The reconstruction of the message from the fields, without the last one. -/
def stripped (ch_ptrs : List (List UInt8)) : List UInt8 :=
  (List.range ch_ptrs.length).foldl (fun str x =>
    if ch_ptrs.length - 2 < x then str else str ++ ch_ptrs.getD x [] ++ [dollar]) [dollar]

/-- `registration_proc` of a router started on `myUDPport`, on the datagram `d`, received into a
buffer that holds `stack`. -/
def registration (net : Resolver Addr) (myUDPport : List UInt8) (rand_port : ℕ)
    (stack : Mem UInt8) (d : List UInt8) : Action Addr :=
  let KNOWNN_OVERLAY_PORT := atoiString myUDPport
  let buffer := (stack.recv d BUFSIZ).read BUFSIZ
  if KNOWNN_OVERLAY_PORT ≤ 0 then .leave
  -- `strlen` and `strtok` run past the buffer
  else if 0 ∉ buffer then .fault
  else
    let ch_ptrs := tokens dollar (cstring buffer)
    let a := ch_ptrs.length
    -- `ch_ptrs` has a thousand entries, the `NULL` behind the fields included
    if 1000 ≤ a then .fault
    -- the last hop: the fields are the destination, its port and this router
    else if a = 3 then
      match net.gethostbyname (ch_ptrs.getD 0 []) with
      | none => .leave
      | some hp => .serve (responseOf rand_port) (hp, htons (atoiString (ch_ptrs.getD 1 [])))
    -- `ch_ptrs[a-2]` does not exist
    else if a < 2 then .fault
    else
      let server_to_contact := ch_ptrs.getD (a - 2) []
      if (stripped ch_ptrs).length < 280 then
        .forward ((net.gethostbyname server_to_contact).map fun hp =>
          (hp, htons KNOWNN_OVERLAY_PORT)) (stripped ch_ptrs)
      else .fault

/-! ## The branches on a request -/

/-- A host name or a port: not empty, without the delimiter and without a null byte. -/
def IsName (s : List UInt8) : Prop := s ≠ [] ∧ dollar ∉ s ∧ 0 ∉ s

instance (s : List UInt8) : Decidable (IsName s) :=
  inferInstanceAs (Decidable (s ≠ [] ∧ dollar ∉ s ∧ 0 ∉ s))

/-- The receive buffer holds zeros from `n` on. -/
def ZeroPast (stack : Mem UInt8) (n : ℕ) : Prop := ∀ k, n ≤ k → k < BUFSIZ → stack k = 0

theorem zero_notMem_framed {fields : List (List UInt8)} (h : ∀ f ∈ fields, IsName f) :
    0 ∉ framed dollar fields := by
  intro hmem
  -- a byte of the message is a delimiter or a byte of a field
  rcases List.mem_cons.mp hmem with hd | hmem
  · exact absurd hd (by decide)
  · obtain ⟨f, hf, hmem⟩ := List.mem_flatMap.mp hmem
    rcases List.mem_append.mp hmem with hmem | hd
    · exact (h f hf).2.2 hmem
    · exact absurd (List.mem_singleton.mp hd) (by decide)

/-- The router finds in its buffer the fields of the request. -/
theorem tokens_received {stack : Mem UInt8} {fields : List (List UInt8)}
    (h : ∀ f ∈ fields, IsName f) (hfit : (framed dollar fields).length < BUFSIZ)
    (hstack : ZeroPast stack (framed dollar fields).length) :
    0 ∈ (stack.recv (framed dollar fields) BUFSIZ).read BUFSIZ ∧
      tokens dollar (cstring ((stack.recv (framed dollar fields) BUFSIZ).read BUFSIZ)) =
        fields := by
  obtain ⟨t, ht⟩ := Mem.read_recv_eq_append (m := stack) hfit
  rw [hstack _ le_rfl hfit] at ht
  rw [ht, cstring_append_zero (zero_notMem_framed h)]
  refine ⟨by simp, ?_⟩
  apply tokens_framed
  intro f hf
  exact ⟨(h f hf).1, (h f hf).2.1⟩

/-- The reconstruction frames the fields without the last one. -/
theorem stripped_concat {front : List (List UInt8)} (hne : front ≠ []) (own : List UInt8) :
    stripped (front ++ [own]) = framed dollar front := by
  have hpos := List.length_pos_of_ne_nil hne
  -- every index but the last is copied
  have hkeep : ∀ str : List UInt8, ∀ x ∈ List.range' 0 front.length,
      (if (front ++ [own]).length - 2 < x then str
        else str ++ (front ++ [own]).getD x [] ++ [dollar]) =
      str ++ ([] ++ front ++ [own]).getD x [] ++ [dollar] := by
    intro str x hx
    have hlt := (List.mem_range'_1.mp hx).2
    rw [if_neg (by rw [List.length_append, List.length_singleton]; omega), List.nil_append]
  have hlast : (front ++ [own]).length - 2 < front.length := by
    rw [List.length_append, List.length_singleton]
    omega
  unfold stripped
  rw [List.length_append, List.length_singleton, List.range_succ, List.foldl_append,
    List.foldl_cons, List.foldl_nil, ← List.length_singleton (a := own), ← List.length_append,
    if_pos hlast, List.range_eq_range', List.foldl_ext _ _ _ hkeep]
  exact foldl_range'_strcat dollar [] front [own] [dollar]

section Branches

variable (net : Resolver Addr) {myUDPport : List UInt8} (hport : 0 < atoiString myUDPport)
  (rand_port : ℕ) {stack : Mem UInt8}

include hport

/-- **The last hop**: a request of three fields starts the relay to the destination. -/
theorem registration_last {dst port own : List UInt8} {hp : Addr}
    (h : ∀ f ∈ [dst, port, own], IsName f)
    (hfit : (framed dollar [dst, port, own]).length < BUFSIZ)
    (hstack : ZeroPast stack (framed dollar [dst, port, own]).length)
    (hres : net.gethostbyname dst = some hp) :
    registration net myUDPport rand_port stack (framed dollar [dst, port, own]) =
      .serve (responseOf rand_port) (hp, htons (atoiString port)) := by
  obtain ⟨hmem, htokens⟩ := tokens_received h hfit hstack
  simp only [registration, htokens]
  rw [if_neg (not_le.mpr hport), if_neg (not_not.mpr hmem)]
  simp [hres]

/-- **Every other hop**: the request goes on without its last field, to the router that is named in
the field before it. -/
theorem registration_forward {front : List (List UInt8)} {next own : List UInt8}
    (hlen : 2 ≤ front.length) (hcount : front.length + 2 < 1000)
    (h : ∀ f ∈ front ++ [next, own], IsName f)
    (hfit : (framed dollar (front ++ [next, own])).length < BUFSIZ)
    (hstack : ZeroPast stack (framed dollar (front ++ [next, own])).length)
    (hstr : (framed dollar (front ++ [next])).length < 280) :
    registration net myUDPport rand_port stack (framed dollar (front ++ [next, own])) =
      .forward ((net.gethostbyname next).map fun hp => (hp, htons (atoiString myUDPport)))
        (framed dollar (front ++ [next])) := by
  obtain ⟨hmem, htokens⟩ := tokens_received h hfit hstack
  have hnext : (front ++ [next, own]).getD ((front ++ [next, own]).length - 2) [] = next := by
    simp
  have hrest : stripped (front ++ [next, own]) = framed dollar (front ++ [next]) := by
    rw [← stripped_concat (by simp) own, List.append_assoc, List.singleton_append]
  have hcount' : (front ++ [next, own]).length = front.length + 2 := by simp
  simp only [registration, htokens, hnext, hrest]
  rw [if_neg (not_le.mpr hport), if_neg (not_not.mpr hmem), if_neg (by omega),
    if_neg (by omega), if_neg (by omega), if_pos hstr]

end Branches

end NetworkLabs.Overlay

import NetworkLabs.Overlay.Programs

/-!
# A request follows its route

The message of a route of routers `r1`, …, `rk` frames the destination, its port, and `rk`, …, `r1`
in this order. Each router takes its own name off the end, so that what it sends is the message of
the route that starts at the next router. The last one finds three fields and stops.

## Main definitions

* `Route`: a destination and the routers to it
* `Route.argv`: the command line of the builder for a route
* `Route.message`: the framed fields
* `journey`: the routers that a request visits, one after the other

## Main results

* `Route.tunnelRequest_eq`: the builder's message is the message of the route
* `Route.registration_startingAt`: one hop
* `request_follows_route`: the whole route
-/

namespace NetworkLabs.Overlay

open CRuntime

/-- A route to `dst` and `port` through `routers`, the nearest of them first. -/
structure Route where
  dst : List UInt8
  port : List UInt8
  routers : List (List UInt8)
  overlay_port : List UInt8
  build_port : List UInt8
  routers_ne : routers ≠ []
  isName : ∀ f ∈ dst :: port :: routers, IsName f

namespace Route

variable {Addr : Type*} (R : Route)

/-- The command line of `overlaybuild`: the routers from the last to the first. -/
def argv (program : List UInt8) : List (List UInt8) :=
  program :: R.dst :: R.port :: (R.routers.reverse ++ [R.overlay_port, R.build_port])

/-- The fields of a request. -/
def fields : List (List UInt8) := R.dst :: R.port :: R.routers.reverse

/-- The request `$dst$port$rk$…$r1$`. -/
def message : List UInt8 := framed dollar R.fields

/-- The route that starts at the router of index `i`. -/
def startingAt (i : ℕ) (h : i < R.routers.length) : Route where
  dst := R.dst
  port := R.port
  routers := R.routers.drop i
  overlay_port := R.overlay_port
  build_port := R.build_port
  routers_ne := by
    intro hnil
    exact absurd (List.drop_eq_nil_iff.mp hnil) (not_le.mpr h)
  isName := by
    intro f hf
    apply R.isName
    rcases List.mem_cons.mp hf with rfl | hf
    · exact List.mem_cons_self
    · rcases List.mem_cons.mp hf with rfl | hf
      · exact List.mem_cons_of_mem _ List.mem_cons_self
      · exact List.mem_cons_of_mem _ (List.mem_cons_of_mem _ (List.mem_of_mem_drop hf))

/-- Where the router named `r` receives requests. -/
def listener (addr : List UInt8 → Addr) (r : List UInt8) : Addr × ℕ :=
  (addr r, htons (atoiString R.overlay_port))

/-- Every name resolves. -/
structure Resolves (net : Resolver Addr) (addr : List UInt8 → Addr) (first : Addr × ℕ) :
    Prop where
  builder : net.getaddrinfo (R.routers.head R.routers_ne) R.overlay_port = some first
  router : ∀ r ∈ R.dst :: R.routers, net.gethostbyname r = some (addr r)

/-- Every message fits the array it is built in. -/
structure Fits : Prop where
  built : R.message.length < 1000
  rebuilt : ∀ i (h : i < R.routers.length), 0 < i → (R.startingAt i h).message.length < 280

variable {R}

theorem isName_fields : ∀ f ∈ R.fields, IsName f := by
  intro f hf
  apply R.isName
  simpa [fields] using hf

variable (R) in
theorem last_lt : R.routers.length - 1 < R.routers.length := by
  have hpos := List.length_pos_of_ne_nil R.routers_ne
  omega

theorem Fits.lt (hfits : R.Fits) {i : ℕ} (h : i < R.routers.length) :
    (R.startingAt i h).message.length < 1000 := by
  rcases Nat.eq_zero_or_pos i with rfl | hpos
  · exact hfits.built
  · exact (hfits.rebuilt i h hpos).trans (by decide)

/-! ## The builder -/

/-- The builder's message is the message of the route. -/
theorem tunnelRequest_eq (program : List UInt8) : tunnelRequest (R.argv program) = R.message := by
  have hargv : R.argv program =
      [program, R.dst, R.port] ++ R.routers.reverse ++ [R.overlay_port, R.build_port] := rfl
  have hcount : (R.argv program).length - 2 - 3 = R.routers.reverse.length := by simp [argv]
  -- the arguments from the third up to the last but two are the routers
  have hloop := foldl_range'_strcat dollar [program, R.dst, R.port] R.routers.reverse
    [R.overlay_port, R.build_port] ([dollar] ++ R.dst ++ [dollar] ++ R.port ++ [dollar])
  rw [tunnelRequest, hcount]
  calc _ = _ := hloop
    _ = R.message := by simp [message, fields, framed]

/-- The builder sends the message to the first router. -/
theorem overlaybuild_eq {net : Resolver Addr} {addr : List UInt8 → Addr} {first : Addr × ℕ}
    (hres : R.Resolves net addr first) (hfits : R.Fits) (program : List UInt8) :
    overlaybuild net (R.argv program) = some (first, R.message) := by
  have hpos := List.length_pos_of_ne_nil R.routers_ne
  have hargc : (R.argv program).length = R.routers.length + 5 := by simp [argv]
  have hback : R.argv program = [program, R.dst, R.port] ++ R.routers.tail.reverse ++
      [R.routers.head R.routers_ne, R.overlay_port, R.build_port] := by
    have hsplit : R.routers.reverse = R.routers.tail.reverse ++ [R.routers.head R.routers_ne] := by
      rw [← List.reverse_cons, List.cons_head_tail]
    rw [argv, hsplit]
    simp
  have hlen : ([program, R.dst, R.port] ++ R.routers.tail.reverse).length + 3 =
      (R.argv program).length := by
    rw [hback]
    simp
  -- the first router stands in front of the two ports
  have hhost : (R.argv program).getD ((R.argv program).length - 3) [] =
      R.routers.head R.routers_ne := by
    rw [← hlen, hback]
    simp
  have hservice : (R.argv program).getD ((R.argv program).length - 2) [] = R.overlay_port := by
    rw [← hlen, hback]
    simp
  have hmany : ¬ (R.argv program).length ≤ 5 := by omega
  have hforwards : ¬ (R.argv program).length - 2 - 2 = 0 := by omega
  simp only [overlaybuild, tunnelRequest_eq, hhost, hservice, if_neg hmany, if_neg hforwards,
    if_pos hfits.built, hres.builder, Option.map_some]

/-! ## One hop -/

/-- A route of several routers ends with the next router and the present one, and the route from
the next router on lacks only the present one. -/
theorem fields_startingAt {i : ℕ} (h : i + 1 < R.routers.length) :
    ∃ front next own, 2 ≤ front.length ∧ next ∈ R.routers ∧ R.routers[i + 1] = next ∧
      (R.startingAt i (by omega)).fields = front ++ [next, own] ∧
      (R.startingAt (i + 1) h).fields = front ++ [next] := by
  refine ⟨R.dst :: R.port :: (R.routers.drop (i + 2)).reverse, R.routers[i + 1], R.routers[i],
    by simp, List.getElem_mem _, rfl, ?_, ?_⟩
  · show R.dst :: R.port :: (R.routers.drop i).reverse = _
    rw [List.drop_eq_getElem_cons (by omega), List.drop_eq_getElem_cons h, List.reverse_cons,
      List.reverse_cons, List.append_assoc]
    rfl
  · show R.dst :: R.port :: (R.routers.drop (i + 1)).reverse = _
    rw [List.drop_eq_getElem_cons h, List.reverse_cons]
    rfl

theorem fields_startingAt_last :
    (R.startingAt (R.routers.length - 1) R.last_lt).fields =
      [R.dst, R.port, R.routers.getLast R.routers_ne] := by
  show R.dst :: R.port :: (R.routers.drop (R.routers.length - 1)).reverse = _
  rw [List.drop_length_sub_one R.routers_ne, List.reverse_singleton]

section Hops

variable {net : Resolver Addr} {addr : List UInt8 → Addr} {first : Addr × ℕ}
  (hres : R.Resolves net addr first) (hfits : R.Fits) (hport : 0 < atoiString R.overlay_port)
  (rand_port : ℕ) {stack : Mem UInt8}

include hres hfits hport

/-- **A router on the way** sends the message of the rest of the route to the next router. -/
theorem registration_startingAt {i : ℕ} (h : i + 1 < R.routers.length)
    (hstack : ZeroPast stack (R.startingAt i (by omega)).message.length) :
    registration net R.overlay_port rand_port stack (R.startingAt i (by omega)).message =
      .forward (some (R.listener addr R.routers[i + 1])) (R.startingAt (i + 1) h).message := by
  obtain ⟨front, next, own, hlen, hnext, hget, hhere, hthere⟩ := fields_startingAt h
  have hnames : ∀ f ∈ front ++ [next, own], IsName f := hhere ▸ isName_fields
  have hlt := hfits.lt (i := i) (by omega)
  have hstr := hfits.rebuilt (i + 1) h (by omega)
  have hcount := lt_length_framed (d := dollar) fun f hf => (hnames f hf).1
  rw [message, hhere] at hlt hstack ⊢
  rw [message, hthere] at hstr ⊢
  rw [List.length_append, List.length_cons, List.length_singleton] at hcount
  rw [registration_forward net hport rand_port hlen (by omega) hnames
    (hlt.trans (by decide)) hstack hstr, hres.router next (List.mem_cons_of_mem _ hnext), hget]
  rfl

/-- **The last router** takes the destination for its server. -/
theorem registration_startingAt_last
    (hstack : ZeroPast stack (R.startingAt (R.routers.length - 1) R.last_lt).message.length) :
    registration net R.overlay_port rand_port stack
        (R.startingAt (R.routers.length - 1) R.last_lt).message =
      .serve (responseOf rand_port) (addr R.dst, htons (atoiString R.port)) := by
  have hlt := hfits.lt R.last_lt
  rw [message, fields_startingAt_last] at hlt hstack ⊢
  exact registration_last net hport rand_port (fields_startingAt_last ▸ isName_fields)
    (hlt.trans (by decide)) hstack (hres.router R.dst List.mem_cons_self)

end Hops

end Route

/-! ## The whole route -/

variable {Addr : Type*}

/-- What the child of a router has: the port of its new socket, and what its buffer held. -/
structure Child where
  rand_port : ℕ
  stack : Mem UInt8

/-- The routers that a request visits, the `i`-th one at `server` and at most `n` in all, and what
the last of them does with it. -/
def journey (net : Resolver Addr) (myUDPport : List UInt8) (child : ℕ → Child) :
    ℕ → ℕ → Addr × ℕ → List UInt8 → List (Addr × ℕ) × Option (Action Addr)
  | 0, _, _, _ => ([], none)
  | n + 1, i, server, d =>
    match registration net myUDPport (child i).rand_port (child i).stack d with
    | .forward (some next) str =>
      let rest := journey net myUDPport child n (i + 1) next str
      (server :: rest.1, rest.2)
    | action => ([server], some action)

section Journey

variable {net : Resolver Addr} {R : Route} {addr : List UInt8 → Addr} {first : Addr × ℕ}
  {child : ℕ → Child}

/-- From any router on, the request visits the rest of the route and stops at its end. -/
theorem journey_startingAt (hres : R.Resolves net addr first) (hfits : R.Fits)
    (hport : 0 < atoiString R.overlay_port)
    (hzero : ∀ i (h : i < R.routers.length),
      ZeroPast (child i).stack (R.startingAt i h).message.length)
    {n i : ℕ} (h : i < R.routers.length) (hn : R.routers.length ≤ i + n) (server : Addr × ℕ) :
    journey net R.overlay_port child n i server (R.startingAt i h).message =
      (server :: (R.routers.drop (i + 1)).map (R.listener addr),
        some (.serve (responseOf (child (R.routers.length - 1)).rand_port)
          (addr R.dst, htons (atoiString R.port)))) := by
  induction n generalizing i server with
  | zero => exact absurd hn (not_le.mpr h)
  | succ n ih =>
    rcases Nat.lt_or_ge (i + 1) R.routers.length with hnext | hlast
    -- there is a next router, and the request goes on to it
    · have hhop := R.registration_startingAt hres hfits hport (child i).rand_port hnext (hzero i h)
      have hrest := ih hnext (by omega) (R.listener addr R.routers[i + 1])
      rw [journey, hhop]
      simp only
      rw [hrest, List.drop_eq_getElem_cons hnext, List.map_cons]
    · obtain rfl : i = R.routers.length - 1 := by omega
      rw [journey, R.registration_startingAt_last hres hfits hport _ (hzero _ h)]
      simp only
      rw [List.drop_eq_nil_of_le hlast, List.map_nil]

/-- **A request follows its route.** The builder sends the message to the first router, every other
router receives from the one before it the message that the builder would build for the route from
there on, and the last one takes the destination for its server. So the request visits the routers
in order and stops. -/
theorem request_follows_route (child : ℕ → Child) (hres : R.Resolves net addr first)
    (hfits : R.Fits) (hport : 0 < atoiString R.overlay_port)
    (hzero : ∀ i (h : i < R.routers.length),
      ZeroPast (child i).stack (R.startingAt i h).message.length) (program : List UInt8) :
    overlaybuild net (R.argv program) = some (first, R.message) ∧
    (∀ i (h : i + 1 < R.routers.length),
      registration net R.overlay_port (child i).rand_port (child i).stack
          (tunnelRequest ((R.startingAt i (by omega)).argv program)) =
        .forward (some (R.listener addr R.routers[i + 1]))
          (tunnelRequest ((R.startingAt (i + 1) h).argv program))) ∧
    registration net R.overlay_port (child (R.routers.length - 1)).rand_port
        (child (R.routers.length - 1)).stack
        (tunnelRequest ((R.startingAt (R.routers.length - 1) R.last_lt).argv program)) =
      .serve (responseOf (child (R.routers.length - 1)).rand_port)
        (addr R.dst, htons (atoiString R.port)) ∧
    ∀ n, R.routers.length ≤ n → journey net R.overlay_port child n 0 first R.message =
      (first :: R.routers.tail.map (R.listener addr),
        some (.serve (responseOf (child (R.routers.length - 1)).rand_port)
          (addr R.dst, htons (atoiString R.port)))) := by
  refine ⟨R.overlaybuild_eq hres hfits program, ?_, ?_, ?_⟩
  · intro i h
    rw [Route.tunnelRequest_eq, Route.tunnelRequest_eq]
    exact R.registration_startingAt hres hfits hport _ h (hzero i (by omega))
  · rw [Route.tunnelRequest_eq]
    exact R.registration_startingAt_last hres hfits hport _ (hzero _ R.last_lt)
  · intro n hn
    have hpos := List.length_pos_of_ne_nil R.routers_ne
    have hall := journey_startingAt hres hfits hport hzero hpos (by omega : _ ≤ 0 + n) first
    rwa [List.drop_one] at hall

end Journey

/-- The route to `d:7` through `a` and then `b`, with the overlay on port `9`. -/
def twoRouters : Route where
  dst := [100]
  port := [55]
  routers := [[97], [98]]
  overlay_port := [57]
  build_port := [48]
  routers_ne := by decide
  isName := by decide

/-- A resolver that takes the first letter of a name for the address. -/
def letters : Resolver ℕ where
  gethostbyname s := some (s.headD 0).toNat
  getaddrinfo s port := some ((s.headD 0).toNat, htons (atoiString port))

theorem twoRouters_resolves :
    twoRouters.Resolves letters (fun s => (s.headD 0).toNat) (97, 9) where
  builder := by decide
  router := by
    intro r _
    rfl

theorem twoRouters_fits : twoRouters.Fits where
  built := by decide
  rebuilt := by
    intro i h hpos
    have hlt : i < 2 := h
    obtain rfl : i = 1 := by omega
    show (framed dollar [[100], [55], [98]]).length < 280
    decide

theorem request_follows_route_twoRouters :
    overlaybuild letters (twoRouters.argv [111]) =
      some ((97, 9), [36, 100, 36, 55, 36, 98, 36, 97, 36]) ∧
    registration letters [57] 5 (fun _ => 0) [36, 100, 36, 55, 36, 98, 36, 97, 36] =
      .forward (some (98, 9)) [36, 100, 36, 55, 36, 98, 36] ∧
    journey letters [57] (fun _ => ⟨5, fun _ => 0⟩) 2 0 (97, 9) twoRouters.message =
      ([(97, 9), (98, 9)], some (.serve (responseOf 5) (100, 7))) := by
  obtain ⟨hbuild, hhops, -, hjourney⟩ :=
    request_follows_route (fun _ => ⟨5, fun _ => 0⟩) twoRouters_resolves twoRouters_fits
      (by decide) (fun _ _ _ _ _ => rfl) [111]
  exact ⟨hbuild, hhops 0 (by decide), hjourney 2 le_rfl⟩

end NetworkLabs.Overlay

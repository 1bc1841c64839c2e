import NetworkLabs.Foundation.Machine
import NetworkLabs.Foundation.Pipeline
import NetworkLabs.Relay.Programs

/-!
# A chain of relays

Each relay of a chain has the next one, or the destination, for its server. The client sends to the
first relay, and the destination answers whom it has heard from. Datagrams travel on a queue for
every pair of addresses, and the parties take steps in any order.

The chain refines two pipelines, one in each direction. A relay that has not received anything has
not sent anything, so that nothing beyond it has received or sent anything either; hence the first
datagram of every relay comes from upstream.

## Main definitions

* `Chain`: the programs and the addresses
* `Net`, `Net.Step`: the joint state and the steps of the parties
* `Net.forward`, `Net.backward`: the two pipelines
* `Net.Inv`: the invariant

## Main results

* `Net.Inv.step`: every step keeps the invariant
* `Net.transparent`: the chain delivers in order, unchanged, and to nobody else
-/

namespace NetworkLabs.Relay

open CRuntime Pipelines Transition

/-- A chain of `k` relays, with the client at `addr 0` and the destination at `addr (k + 1)`. The
relay of index `i` is at `addr (i + 1)`. -/
structure Chain where
  k : ℕ
  k_pos : 0 < k
  program : ℕ → Program
  addr : ℕ → SockAddr
  port_inj : ∀ i j, i ≤ k + 1 → j ≤ k + 1 → (addr i).sin_port = (addr j).sin_port → i = j

/-- The datagrams in flight from an address to an address. -/
abbrev Links := SockAddr → SockAddr → List (List UInt8)

/-- One link replaced. -/
def Links.set (l : Links) (a b : SockAddr) (q : List (List UInt8)) : Links :=
  fun x y => if x = a ∧ y = b then q else l x y

/-- `sendto` of one datagram from `a` to `b`. -/
def Links.push (l : Links) (a b : SockAddr) (d : List UInt8) : Links := l.set a b (l a b ++ [d])

/-- The state of all parties and links. -/
structure Net where
  relay : ℕ → RelayState
  link : Links
  clientSent : List (List UInt8)
  clientGot : List (List UInt8)
  destSent : List (List UInt8)
  destGot : List (List UInt8)
  heard : List SockAddr

namespace Chain

variable (C : Chain)

theorem addr_inj {i j : ℕ} (hi : i ≤ C.k + 1) (hj : j ≤ C.k + 1) (h : C.addr i = C.addr j) :
    i = j :=
  C.port_inj i j hi hj (congrArg SockAddr.sin_port h)

/-- The link of the hop `i` away from the client. -/
def forth (l : Links) (i : ℕ) : List (List UInt8) := l (C.addr i) (C.addr (i + 1))

/-- The link of the hop `i` towards the client. -/
def back (l : Links) (i : ℕ) : List (List UInt8) := l (C.addr (i + 1)) (C.addr i)

/-- A link between neighbours. -/
def OnChain (a b : SockAddr) : Prop :=
  ∃ i ≤ C.k, (a = C.addr i ∧ b = C.addr (i + 1)) ∨ (a = C.addr (i + 1) ∧ b = C.addr i)

section Links

variable {C} {l : Links} {i j : ℕ} {q : List (List UInt8)}

theorem forth_set_forth (hi : i ≤ C.k) (hj : j ≤ C.k) :
    C.forth (l.set (C.addr i) (C.addr (i + 1)) q) j = if j = i then q else C.forth l j := by
  by_cases h : j = i
  · simp [forth, Links.set, h]
  · have hne : C.addr j ≠ C.addr i := fun he => h (C.addr_inj (by omega) (by omega) he)
    simp [forth, Links.set, h, hne]

theorem back_set_back (hi : i ≤ C.k) (hj : j ≤ C.k) :
    C.back (l.set (C.addr (i + 1)) (C.addr i) q) j = if j = i then q else C.back l j := by
  by_cases h : j = i
  · simp [back, Links.set, h]
  · have hne : C.addr j ≠ C.addr i := fun he => h (C.addr_inj (by omega) (by omega) he)
    simp [back, Links.set, h, hne]

/-- No link is both away from the client and towards it. -/
theorem addr_ne_crossed (hi : i ≤ C.k) (hj : j ≤ C.k) :
    ¬ (C.addr (j + 1) = C.addr i ∧ C.addr j = C.addr (i + 1)) := by
  rintro ⟨h₁, h₂⟩
  have := C.addr_inj (by omega) (by omega) h₁
  have := C.addr_inj (by omega) (by omega) h₂
  omega

theorem back_set_forth (hi : i ≤ C.k) (hj : j ≤ C.k) :
    C.back (l.set (C.addr i) (C.addr (i + 1)) q) j = C.back l j :=
  if_neg (addr_ne_crossed hi hj)

theorem forth_set_back (hi : i ≤ C.k) (hj : j ≤ C.k) :
    C.forth (l.set (C.addr (i + 1)) (C.addr i) q) j = C.forth l j :=
  if_neg fun h => addr_ne_crossed hi hj h.symm

theorem forth_push_forth (hi : i ≤ C.k) (hj : j ≤ C.k) (d : List UInt8) :
    C.forth (l.push (C.addr i) (C.addr (i + 1)) d) j =
      if j = i then C.forth l i ++ [d] else C.forth l j :=
  forth_set_forth hi hj

theorem back_push_back (hi : i ≤ C.k) (hj : j ≤ C.k) (d : List UInt8) :
    C.back (l.push (C.addr (i + 1)) (C.addr i) d) j =
      if j = i then C.back l i ++ [d] else C.back l j :=
  back_set_back hi hj

theorem back_push_forth (hi : i ≤ C.k) (hj : j ≤ C.k) (d : List UInt8) :
    C.back (l.push (C.addr i) (C.addr (i + 1)) d) j = C.back l j :=
  back_set_forth hi hj

theorem forth_push_back (hi : i ≤ C.k) (hj : j ≤ C.k) (d : List UInt8) :
    C.forth (l.push (C.addr (i + 1)) (C.addr i) d) j = C.forth l j :=
  forth_set_back hi hj

theorem onChain_forth (hi : i ≤ C.k) : C.OnChain (C.addr i) (C.addr (i + 1)) :=
  ⟨i, hi, .inl ⟨rfl, rfl⟩⟩

theorem onChain_back (hi : i ≤ C.k) : C.OnChain (C.addr (i + 1)) (C.addr i) :=
  ⟨i, hi, .inr ⟨rfl, rfl⟩⟩

/-- The neighbours of an address of the chain. -/
theorem OnChain.source (hj : j ≤ C.k + 1) {a : SockAddr} (h : C.OnChain a (C.addr j)) :
    (∃ i ≤ C.k, j = i + 1 ∧ a = C.addr i) ∨ (j ≤ C.k ∧ a = C.addr (j + 1)) := by
  obtain ⟨i, hi, ⟨rfl, hb⟩ | ⟨rfl, hb⟩⟩ := h
  · exact .inl ⟨i, hi, C.addr_inj hj (by omega) hb, rfl⟩
  · obtain rfl := C.addr_inj hj (by omega) hb
    exact .inr ⟨hi, rfl⟩

end Links

end Chain

namespace Net

variable (C : Chain)

/-- A round of the relay of index `i`, with the links as `recvfrom` has left them. -/
def relayRound (n : Net) (i : ℕ) (received : Option Packet) (link : Links) : Net :=
  let r := sendSocketData (C.program i) (C.addr (i + 2)) (n.relay i) received
  { n with
    relay := Function.update n.relay i r.1
    link := r.2.foldl (fun l p => l.push (C.addr (i + 1)) p.1 p.2) link }

/-- A step of one of the parties. -/
inductive Step : Net → Net → Prop
  | clientSend (n : Net) (d : List UInt8) (hd : d.length ≤ BUFSIZ) :
      Step n { n with
        clientSent := n.clientSent ++ [d]
        link := n.link.push (C.addr 0) (C.addr 1) d }
  | clientRecv (n : Net) (src : SockAddr) (d : List UInt8) (rest : List (List UInt8))
      (h : n.link src (C.addr 0) = d :: rest) :
      Step n { n with
        clientGot := n.clientGot ++ [d]
        link := n.link.set src (C.addr 0) rest }
  | relayRecv (n : Net) (i : ℕ) (hi : i < C.k) (src : SockAddr) (d : List UInt8)
      (rest : List (List UInt8)) (h : n.link src (C.addr (i + 1)) = d :: rest) :
      Step n (n.relayRound C i (some (src, d)) (n.link.set src (C.addr (i + 1)) rest))
  | relayFail (n : Net) (i : ℕ) (hi : i < C.k) :
      Step n (n.relayRound C i none n.link)
  | destRecv (n : Net) (src : SockAddr) (d : List UInt8) (rest : List (List UInt8))
      (h : n.link src (C.addr (C.k + 1)) = d :: rest) :
      Step n { n with
        destGot := n.destGot ++ [d]
        heard := src :: n.heard
        link := n.link.set src (C.addr (C.k + 1)) rest }
  | destSend (n : Net) (d : List UInt8) (hd : d.length ≤ BUFSIZ) (dst : SockAddr)
      (h : dst ∈ n.heard) :
      Step n { n with
        destSent := n.destSent ++ [d]
        link := n.link.push (C.addr (C.k + 1)) dst d }

/-- All relays have started their loop, and nothing has been sent. -/
structure Initial (n : Net) : Prop where
  relay : ∀ i, (n.relay i).client_addr = none
  link : ∀ a b, n.link a b = []
  clientSent : n.clientSent = []
  clientGot : n.clientGot = []
  destSent : n.destSent = []
  destGot : n.destGot = []
  heard : n.heard = []

/-- The pipeline from the client to the destination. -/
def forward (n : Net) : Pipeline (List UInt8) where
  sent := n.clientSent
  got := n.destGot
  queue i := C.forth n.link i

/-- The pipeline from the destination to the client. -/
def backward (n : Net) : Pipeline (List UInt8) where
  sent := n.destSent
  got := n.clientGot
  queue i := C.back n.link (C.k - i)

/-- The party at `addr (i + 1)` has received something. -/
def Awake (n : Net) (i : ℕ) : Prop :=
  if i < C.k then (n.relay i).client_addr ≠ none else n.heard ≠ []

/-- The party at `addr (i + 1)` has received something, or something is on the hop to it. -/
def Touched (n : Net) (i : ℕ) : Prop :=
  C.forth n.link i ≠ [] ∨ C.back n.link i ≠ [] ∨ n.Awake C i

/-- What holds in every reachable state. -/
structure Inv (n : Net) : Prop where
  forward : Conserved (C.k + 1) (n.forward C)
  backward : Conserved (C.k + 1) (n.backward C)
  onChain : ∀ a b, n.link a b ≠ [] → C.OnChain a b
  short : ∀ a b, ∀ d ∈ n.link a b, d.length ≤ BUFSIZ
  learned : ∀ i < C.k, ∀ a, (n.relay i).client_addr = some a → a = C.addr i
  heard : ∀ a ∈ n.heard, a = C.addr C.k
  awake : ∀ i < C.k, n.Touched C (i + 1) → n.Awake C i

/-! ## The rounds of a relay -/

section Rounds

variable {C} {n : Net} {i : ℕ} {d : List UInt8}

/-- A failed call changes nothing. -/
theorem relayRound_none : n.relayRound C i none n.link = n := by
  have h : Function.update n.relay i (n.relay i) = n.relay := Function.update_eq_self i n.relay
  simp only [relayRound, sendSocketData, h, List.foldl_nil]

/-- A datagram from upstream goes on downstream, and its sender is the client. -/
theorem relayRound_forth (hi : i < C.k) (hd : d.length ≤ BUFSIZ)
    (hlearned : ∀ a, (n.relay i).client_addr = some a → a = C.addr i) (l : Links) :
    ∃ r, r.client_addr = some (C.addr i) ∧ n.relayRound C i (some (C.addr i, d)) l =
      { n with
        relay := Function.update n.relay i r
        link := l.push (C.addr (i + 1)) (C.addr (i + 2)) d } := by
  have hport : (C.addr i).sin_port ≠ (C.addr (i + 2)).sin_port := by
    intro h
    have := C.port_inj _ _ (by omega) (by omega) h
    omega
  refine ⟨(sendSocketData (C.program i) (C.addr (i + 2)) (n.relay i) (some (C.addr i, d))).1,
    ?_, ?_⟩
  · rw [sendSocketData_client_addr]
    cases h : (n.relay i).client_addr with
    | none => rfl
    | some a => exact congrArg some (hlearned a h)
  · rw [relayRound, sendSocketData_of_port_ne _ hport, List.take_of_length_le hd]
    rfl

/-- A datagram from downstream goes to the client. -/
theorem relayRound_back (hd : d.length ≤ BUFSIZ)
    (hclient : (n.relay i).client_addr = some (C.addr i)) (l : Links) :
    ∃ r, r.client_addr = some (C.addr i) ∧ n.relayRound C i (some (C.addr (i + 2), d)) l =
      { n with
        relay := Function.update n.relay i r
        link := l.push (C.addr (i + 1)) (C.addr i) d } := by
  refine ⟨(sendSocketData (C.program i) (C.addr (i + 2)) (n.relay i)
    (some (C.addr (i + 2), d))).1, ?_, ?_⟩
  · rw [sendSocketData_client_addr, hclient]
    rfl
  · rw [relayRound, sendSocketData_of_port_eq _ rfl, List.take_of_length_le hd, hclient]
    rfl

end Rounds

/-! ## The invariant -/

section Invariant

variable {C} {n : Net}

theorem onChain_set {l : Links} {a b : SockAddr} (q : List (List UInt8))
    (hl : ∀ x y, l x y ≠ [] → C.OnChain x y) (h : C.OnChain a b) :
    ∀ x y, l.set a b q x y ≠ [] → C.OnChain x y := by
  intro x y hxy
  by_cases he : x = a ∧ y = b
  · rw [he.1, he.2]
    exact h
  · rw [Links.set, if_neg he] at hxy
    exact hl x y hxy

theorem short_set {l : Links} {a b : SockAddr} {q : List (List UInt8)}
    (hl : ∀ x y, ∀ d ∈ l x y, d.length ≤ BUFSIZ) (hq : ∀ d ∈ q, d.length ≤ BUFSIZ) :
    ∀ x y, ∀ d ∈ l.set a b q x y, d.length ≤ BUFSIZ := by
  intro x y d hd
  unfold Links.set at hd
  split at hd
  · exact hq d hd
  · exact hl x y d hd

theorem short_push {l : Links} (a b : SockAddr) {d : List UInt8}
    (hl : ∀ x y, ∀ e ∈ l x y, e.length ≤ BUFSIZ) (hd : d.length ≤ BUFSIZ) :
    ∀ x y, ∀ e ∈ l.push a b d x y, e.length ≤ BUFSIZ :=
  short_set hl fun e he => by
    rcases List.mem_append.mp he with he | he
    · exact hl _ _ e he
    · rwa [List.mem_singleton.mp he]

/-- A link without its first datagram. -/
theorem short_pop {l : Links} {a b : SockAddr} {d : List UInt8} {rest : List (List UInt8)}
    (hl : ∀ x y, ∀ e ∈ l x y, e.length ≤ BUFSIZ) (hq : l a b = d :: rest) :
    ∀ x y, ∀ e ∈ l.set a b rest x y, e.length ≤ BUFSIZ :=
  short_set hl fun e he => hl a b e (by rw [hq]; exact List.mem_cons_of_mem _ he)

theorem Initial.inv (h : n.Initial) : n.Inv C where
  forward := by
    have hrow := row_eq_nil (q := (n.forward C).queue) (n := C.k + 1) fun i _ => h.link _ _
    rw [Conserved, hrow, forward, h.destGot, h.clientSent]
    rfl
  backward := by
    have hrow := row_eq_nil (q := (n.backward C).queue) (n := C.k + 1) fun i _ => h.link _ _
    rw [Conserved, hrow, backward, h.clientGot, h.destSent]
    rfl
  onChain a b hab := absurd (h.link a b) hab
  short a b d hd := by simp [h.link a b] at hd
  learned i _ a ha := by simp [h.relay i] at ha
  heard a ha := by simp [h.heard] at ha
  awake i _ hw := by
    rcases hw with hf | hb | hw
    · exact absurd (h.link _ _) hf
    · exact absurd (h.link _ _) hb
    · unfold Awake at hw
      split at hw
      · exact absurd (h.relay _) hw
      · exact absurd h.heard hw

theorem awake_iff {i : ℕ} (hi : i < C.k) : n.Awake C i ↔ (n.relay i).client_addr ≠ none := by
  rw [Awake, if_pos hi]

theorem awake_k_iff : n.Awake C C.k ↔ n.heard ≠ [] := by
  rw [Awake, if_neg (lt_irrefl _)]

theorem Touched.congr {m : Net} {i : ℕ} (h : m.Touched C i)
    (hf : C.forth m.link i = C.forth n.link i) (hb : C.back m.link i = C.back n.link i)
    (ha : m.Awake C i ↔ n.Awake C i) : n.Touched C i := by
  rwa [Touched, hf, hb, ha] at h

/-- A relay with a client is awake. -/
theorem awake_update {i : ℕ} (hi : i < C.k) {r : RelayState} {a : SockAddr}
    (hr : r.client_addr = some a) {l : Links} (j : ℕ) :
    Awake C { n with relay := Function.update n.relay i r, link := l } j ↔ j = i ∨ n.Awake C j := by
  rcases eq_or_ne j i with rfl | hne
  · simp [Awake, hi, hr]
  · simp [Awake, hne]

theorem learned_update {relay : ℕ → RelayState} {i : ℕ}
    (h : ∀ j < C.k, ∀ a, (relay j).client_addr = some a → a = C.addr j) {r : RelayState}
    (hr : r.client_addr = some (C.addr i)) :
    ∀ j < C.k, ∀ a, (Function.update relay i r j).client_addr = some a → a = C.addr j := by
  intro j hj a ha
  rcases eq_or_ne j i with rfl | hne
  · rw [Function.update_self, hr] at ha
    exact (Option.some.inj ha).symm
  · rw [Function.update_of_ne hne] at ha
    exact h j hj a ha

namespace Inv

variable (h : n.Inv C)

include h

theorem clientSend {d : List UInt8} (hd : d.length ≤ BUFSIZ) :
    Inv C { n with
      clientSent := n.clientSent ++ [d]
      link := n.link.push (C.addr 0) (C.addr 1) d } where
  forward := by
    refine h.forward.step (Nat.succ_pos _) (.push d rfl rfl ?_ ?_)
    · exact (Chain.forth_push_forth (Nat.zero_le _) (Nat.zero_le _) d).trans (if_pos rfl)
    · intro i hi hne
      exact (Chain.forth_push_forth (Nat.zero_le _) (by omega) d).trans (if_neg hne)
  backward := by
    refine h.backward.step (Nat.succ_pos _) (.idle rfl rfl ?_)
    intro i _
    exact Chain.back_push_forth (Nat.zero_le _) (Nat.sub_le _ _) d
  onChain := onChain_set _ h.onChain (Chain.onChain_forth (Nat.zero_le _))
  short := short_push _ _ h.short hd
  learned := h.learned
  heard := h.heard
  awake i hi ht := h.awake i hi
    (ht.congr ((Chain.forth_push_forth (Nat.zero_le _) (by omega) d).trans (if_neg (by omega)))
      (Chain.back_push_forth (Nat.zero_le _) (by omega) d) Iff.rfl)

theorem clientRecv {src : SockAddr} {d : List UInt8} {rest : List (List UInt8)}
    (hq : n.link src (C.addr 0) = d :: rest) :
    Inv C { n with
      clientGot := n.clientGot ++ [d]
      link := n.link.set src (C.addr 0) rest } := by
  have hne : n.link src (C.addr 0) ≠ [] := by simp [hq]
  obtain rfl : src = C.addr 1 := by
    rcases (h.onChain _ _ hne).source (Nat.zero_le _) with ⟨i, _, hi, _⟩ | ⟨_, hsrc⟩
    · omega
    · exact hsrc
  constructor
  case forward =>
    refine h.forward.step (Nat.succ_pos _) (.idle rfl rfl ?_)
    intro i hi
    exact Chain.forth_set_back (i := 0) (Nat.zero_le _) (by omega)
  case backward =>
    refine h.backward.step (Nat.succ_pos _) (.pop d C.k rfl rfl rfl ?_ ?_)
    · simp only [Net.backward, Nat.sub_self]
      rw [Chain.back_set_back (i := 0) (Nat.zero_le _) (Nat.zero_le _), if_pos rfl]
      exact hq
    · intro i hi
      exact (Chain.back_set_back (i := 0) (Nat.zero_le _) (Nat.sub_le _ _)).trans
        (if_neg (by omega))
  case onChain => exact onChain_set _ h.onChain (Chain.onChain_back (Nat.zero_le _))
  case short => exact short_pop h.short hq
  case learned => exact h.learned
  case heard => exact h.heard
  case awake =>
    intro i hi ht
    exact h.awake i hi (ht.congr (Chain.forth_set_back (i := 0) (Nat.zero_le _) (by omega))
      ((Chain.back_set_back (i := 0) (Nat.zero_le _) (by omega)).trans (if_neg (by omega))) Iff.rfl)

/-- Parties stay awake, and what a step newly touches has an awake party before it. -/
theorem awake_of {m : Net} (hmono : ∀ i, n.Awake C i → m.Awake C i)
    (hnew : ∀ i < C.k, m.Touched C (i + 1) → n.Touched C (i + 1) ∨ m.Awake C i) :
    ∀ i < C.k, m.Touched C (i + 1) → m.Awake C i := by
  intro i hi ht
  rcases hnew i hi ht with ht | ha
  · exact hmono i (h.awake i hi ht)
  · exact ha

/-- What a relay receives comes from one of its neighbours. -/
theorem source_relay {i : ℕ} (hi : i < C.k) {src : SockAddr}
    (hne : n.link src (C.addr (i + 1)) ≠ []) : src = C.addr i ∨ src = C.addr (i + 2) := by
  rcases (h.onChain _ _ hne).source (by omega) with ⟨j, _, hj, hsrc⟩ | ⟨_, hsrc⟩
  · obtain rfl : i = j := by omega
    exact .inl hsrc
  · exact .inr hsrc

/-- A datagram from upstream moves on, and the relay is awake. -/
theorem relayForth {i : ℕ} (hi : i < C.k) {d : List UInt8} {rest : List (List UInt8)}
    (hq : n.link (C.addr i) (C.addr (i + 1)) = d :: rest) :
    Inv C (n.relayRound C i (some (C.addr i, d))
      (n.link.set (C.addr i) (C.addr (i + 1)) rest)) := by
  have hd : d.length ≤ BUFSIZ := h.short _ _ d (by rw [hq]; exact List.mem_cons_self)
  obtain ⟨r, hr, hround⟩ := relayRound_forth hi hd (h.learned i hi)
    (n.link.set (C.addr i) (C.addr (i + 1)) rest)
  rw [hround]
  -- the datagram leaves hop `i` and enters hop `i + 1`; the way back stays as it is
  have hforth : ∀ j ≤ C.k, C.forth ((n.link.set (C.addr i) (C.addr (i + 1)) rest).push
      (C.addr (i + 1)) (C.addr (i + 2)) d) j =
        if j = i + 1 then C.forth n.link (i + 1) ++ [d] else if j = i then rest
        else C.forth n.link j := by
    intro j hj
    rw [Chain.forth_push_forth hi hj, Chain.forth_set_forth hi.le hi, if_neg (Nat.succ_ne_self i),
      Chain.forth_set_forth hi.le hj]
  have hback : ∀ j ≤ C.k, C.back ((n.link.set (C.addr i) (C.addr (i + 1)) rest).push
      (C.addr (i + 1)) (C.addr (i + 2)) d) j = C.back n.link j := by
    intro j hj
    rw [Chain.back_push_forth hi hj, Chain.back_set_forth hi.le hj]
  constructor
  case forward =>
    refine h.forward.step (Nat.succ_pos _) (.move d i rfl rfl (by omega) ?_ ?_ ?_)
    · simp only [Net.forward, hforth i hi.le, if_neg (Nat.ne_of_lt (Nat.lt_succ_self i)), if_pos]
      exact hq
    · exact (hforth (i + 1) hi).trans (if_pos rfl)
    · intro j hj h₁ h₂
      exact (hforth j (by omega)).trans ((if_neg h₂).trans (if_neg h₁))
  case backward =>
    refine h.backward.step (Nat.succ_pos _) (.idle rfl rfl ?_)
    intro j _
    exact hback _ (Nat.sub_le _ _)
  case onChain =>
    exact onChain_set _ (onChain_set _ h.onChain (Chain.onChain_forth hi.le))
      (Chain.onChain_forth hi)
  case short => exact short_push _ _ (short_pop h.short hq) hd
  case learned => exact learned_update h.learned hr
  case heard => exact h.heard
  case awake =>
    refine h.awake_of (fun j => (awake_update hi hr j).mpr ∘ .inr) ?_
    intro j hj ht
    rcases eq_or_ne j i with rfl | hne
    · exact .inr ((awake_update hi hr j).mpr (.inl rfl))
    · left
      rcases eq_or_ne (j + 1) i with rfl | hne'
      -- the datagram that has been received was on this hop
      · exact .inl (by rw [Chain.forth, hq]; exact List.cons_ne_nil _ _)
      · refine ht.congr ?_ (hback _ hj) ((awake_update hi hr _).trans (or_iff_right hne'))
        exact (hforth _ hj).trans ((if_neg (by omega)).trans (if_neg hne'))

/-- A datagram from downstream moves on, to the client that the relay has. -/
theorem relayBack {i : ℕ} (hi : i < C.k) {d : List UInt8} {rest : List (List UInt8)}
    (hq : n.link (C.addr (i + 2)) (C.addr (i + 1)) = d :: rest) :
    Inv C (n.relayRound C i (some (C.addr (i + 2), d))
      (n.link.set (C.addr (i + 2)) (C.addr (i + 1)) rest)) := by
  have hd : d.length ≤ BUFSIZ := h.short _ _ d (by rw [hq]; exact List.mem_cons_self)
  have htouched : n.Touched C (i + 1) :=
    .inr (.inl (by rw [Chain.back, hq]; exact List.cons_ne_nil _ _))
  have hawake := h.awake i hi htouched
  obtain ⟨a, ha⟩ := Option.ne_none_iff_exists'.mp ((awake_iff hi).mp hawake)
  obtain rfl := h.learned i hi a ha
  obtain ⟨r, hr, hround⟩ := relayRound_back (C := C) hd ha
    (n.link.set (C.addr (i + 2)) (C.addr (i + 1)) rest)
  rw [hround]
  -- on the way back it leaves hop `i + 1` and enters hop `i`
  have hback : ∀ j ≤ C.k, C.back ((n.link.set (C.addr (i + 2)) (C.addr (i + 1)) rest).push
      (C.addr (i + 1)) (C.addr i) d) j =
        if j = i then C.back n.link i ++ [d] else if j = i + 1 then rest
        else C.back n.link j := by
    intro j hj
    rw [Chain.back_push_back hi.le hj, Chain.back_set_back hi hi.le,
      if_neg (Nat.succ_ne_self i).symm, Chain.back_set_back hi hj]
  have hforth : ∀ j ≤ C.k, C.forth ((n.link.set (C.addr (i + 2)) (C.addr (i + 1)) rest).push
      (C.addr (i + 1)) (C.addr i) d) j = C.forth n.link j := by
    intro j hj
    rw [Chain.forth_push_back hi.le hj, Chain.forth_set_back hi hj]
  constructor
  case forward =>
    refine h.forward.step (Nat.succ_pos _) (.idle rfl rfl ?_)
    intro j hj
    exact hforth j (by omega)
  case backward =>
    -- the queues are counted from the destination
    obtain ⟨j, hj⟩ : ∃ j, C.k = i + 1 + j := Nat.exists_eq_add_of_le hi
    have hj₁ : C.k - j = i + 1 := by omega
    have hj₂ : C.k - (j + 1) = i := by omega
    refine h.backward.step (Nat.succ_pos _) (.move d j rfl rfl (by omega) ?_ ?_ ?_)
    · simp only [Net.backward, hj₁, hback (i + 1) hi, if_neg (Nat.succ_ne_self i), if_pos]
      exact hq
    · simp only [Net.backward, hj₂, hback i hi.le, if_pos]
    · intro m hm h₁ h₂
      exact (hback _ (Nat.sub_le _ _)).trans
        ((if_neg (by omega)).trans (if_neg (by omega)))
  case onChain =>
    exact onChain_set _ (onChain_set _ h.onChain (Chain.onChain_back hi))
      (Chain.onChain_back hi.le)
  case short => exact short_push _ _ (short_pop h.short hq) hd
  case learned => exact learned_update h.learned hr
  case heard => exact h.heard
  case awake =>
    refine h.awake_of (fun j => (awake_update hi hr j).mpr ∘ .inr) ?_
    intro j hj ht
    rcases eq_or_ne j i with rfl | hne
    · exact .inl htouched
    · left
      rcases eq_or_ne (j + 1) i with rfl | hne'
      · exact .inr (.inr hawake)
      · refine ht.congr (hforth _ hj) ?_ ((awake_update hi hr _).trans (or_iff_right hne'))
        exact (hback _ hj).trans ((if_neg hne').trans (if_neg (by omega)))

theorem destRecv {src : SockAddr} {d : List UInt8} {rest : List (List UInt8)}
    (hq : n.link src (C.addr (C.k + 1)) = d :: rest) :
    Inv C { n with
      destGot := n.destGot ++ [d]
      heard := src :: n.heard
      link := n.link.set src (C.addr (C.k + 1)) rest } := by
  have hne : n.link src (C.addr (C.k + 1)) ≠ [] := by simp [hq]
  obtain rfl : src = C.addr C.k := by
    rcases (h.onChain _ _ hne).source le_rfl with ⟨i, _, hi, hsrc⟩ | ⟨hk, _⟩
    · obtain rfl : i = C.k := by omega
      exact hsrc
    · omega
  have hforth : ∀ j ≤ C.k, C.forth (n.link.set (C.addr C.k) (C.addr (C.k + 1)) rest) j =
      if j = C.k then rest else C.forth n.link j := fun j hj => Chain.forth_set_forth le_rfl hj
  constructor
  case forward =>
    refine h.forward.step (Nat.succ_pos _) (.pop d C.k rfl rfl rfl ?_ ?_)
    · simp only [Net.forward, hforth C.k le_rfl, if_pos]
      exact hq
    · intro i hi
      exact (hforth i hi.le).trans (if_neg hi.ne)
  case backward =>
    refine h.backward.step (Nat.succ_pos _) (.idle rfl rfl ?_)
    intro i _
    exact Chain.back_set_forth le_rfl (Nat.sub_le _ _)
  case onChain => exact onChain_set _ h.onChain (Chain.onChain_forth le_rfl)
  case short => exact short_pop h.short hq
  case learned => exact h.learned
  case heard =>
    intro a ha
    rcases List.mem_cons.mp ha with rfl | ha
    · rfl
    · exact h.heard a ha
  case awake =>
    refine h.awake_of ?_ ?_
    · intro i ha
      unfold Awake at ha ⊢
      split at ha
      · rwa [if_pos ‹_›]
      · rw [if_neg ‹_›]
        exact List.cons_ne_nil _ _
    · intro i hi ht
      left
      rcases eq_or_ne (i + 1) C.k with he | hne'
      -- the datagram that has been received was on this hop
      · exact .inl (by rw [Chain.forth, he, hq]; exact List.cons_ne_nil _ _)
      · have hlt : i + 1 < C.k := by omega
        exact ht.congr ((hforth _ hi).trans (if_neg hne'))
          (Chain.back_set_forth le_rfl hi) (by rw [awake_iff hlt, awake_iff hlt])

theorem destSend {d : List UInt8} (hd : d.length ≤ BUFSIZ) {dst : SockAddr} (hdst : dst ∈ n.heard) :
    Inv C { n with
      destSent := n.destSent ++ [d]
      link := n.link.push (C.addr (C.k + 1)) dst d } := by
  obtain rfl := h.heard dst hdst
  constructor
  case forward =>
    refine h.forward.step (Nat.succ_pos _) (.idle rfl rfl ?_)
    intro i hi
    exact Chain.forth_push_back le_rfl (by omega) d
  case backward =>
    refine h.backward.step (Nat.succ_pos _) (.push d rfl rfl ?_ ?_)
    · exact (Chain.back_push_back le_rfl (Nat.sub_le _ _) d).trans (if_pos (Nat.sub_zero _))
    · intro i hi hne
      exact (Chain.back_push_back le_rfl (Nat.sub_le _ _) d).trans (if_neg (by omega))
  case onChain => exact onChain_set _ h.onChain (Chain.onChain_back le_rfl)
  case short => exact short_push _ _ h.short hd
  case learned => exact h.learned
  case heard => exact h.heard
  case awake =>
    refine h.awake_of (fun _ ha => ha) ?_
    intro i hi ht
    left
    rcases eq_or_ne (i + 1) C.k with he | hne
    -- the destination sends because it has heard
    · exact .inr (.inr (by rw [he, awake_k_iff]; exact List.ne_nil_of_mem hdst))
    · exact ht.congr (Chain.forth_push_back le_rfl hi d)
        ((Chain.back_push_back le_rfl hi d).trans (if_neg hne)) Iff.rfl

/-- **Every step keeps the invariant.** -/
theorem step {m : Net} (hstep : Step C n m) : m.Inv C := by
  cases hstep with
  | clientSend d hd => exact h.clientSend hd
  | clientRecv src d rest hq => exact h.clientRecv hq
  | relayRecv i hi src d rest hq =>
    have hne : n.link src (C.addr (i + 1)) ≠ [] := by simp [hq]
    rcases h.source_relay hi hne with rfl | rfl
    · exact h.relayForth hi hq
    · exact h.relayBack hi hq
  | relayFail i hi =>
    rw [relayRound_none]
    exact h
  | destRecv src d rest hq => exact h.destRecv hq
  | destSend d hd dst hdst => exact h.destSend hd hdst

end Inv

end Invariant

/-! ## Transparency -/

variable {C}

/-- **A chain of relays is transparent.** Whatever order the parties take steps in, the destination
has received a prefix of what the client sent, the client has received a prefix of what the
destination sent, and nothing has gone to any address but the next one of the chain. -/
theorem transparent {n : Net} (h : Reachable Initial (Step C) n) :
    n.destGot <+: n.clientSent ∧ n.clientGot <+: n.destSent ∧
      ∀ a b, n.link a b ≠ [] → C.OnChain a b := by
  have hinv : n.Inv C := h.invariant (fun _ hn => hn.inv) fun _ _ hn hstep => hn.step hstep
  exact ⟨hinv.forward.delivers, hinv.backward.delivers, hinv.onChain⟩

end Net

/-! ## A tunnel -/

theorem port_ofNat_inj (i j : ℕ) (hi : i ≤ 2) (hj : j ≤ 2) (h : UInt16.ofNat i = UInt16.ofNat j) :
    i = j := by
  have hnat := congrArg UInt16.toNat h
  rw [UInt16.toNat_ofNat', UInt16.toNat_ofNat'] at hnat
  omega

/-- One `tunneld` between a client on port `0` and a destination on port `2`. -/
def tunnel : Chain where
  k := 1
  k_pos := Nat.one_pos
  program _ := .tunneld
  addr i := ⟨0, UInt16.ofNat i⟩
  port_inj := port_ofNat_inj

namespace Net

/-- Nothing has happened yet. -/
def fresh : Net where
  relay _ := ⟨fun _ => [], none⟩
  link _ _ := []
  clientSent := []
  clientGot := []
  destSent := []
  destGot := []
  heard := []

theorem fresh_initial : fresh.Initial := ⟨fun _ => rfl, fun _ _ => rfl, rfl, rfl, rfl, rfl, rfl⟩

/-- A datagram through the tunnel and its answer. -/
theorem transparent_tunnel : ∃ n : Net, n.destGot = [[7]] ∧ n.clientGot = [[8]] ∧
    n.destGot <+: n.clientSent ∧ n.clientGot <+: n.destSent ∧
      ∀ a b, n.link a b ≠ [] → tunnel.OnChain a b := by
  have h₀ : Reachable Initial (Step tunnel) fresh := .init fresh_initial
  have h₁ := h₀.step (.clientSend _ [7] (Nat.le_add_left 1 8191))
  have h₂ := h₁.step (.relayRecv _ 0 Nat.one_pos (tunnel.addr 0) [7] [] rfl)
  have h₃ := h₂.step (.destRecv _ (tunnel.addr 1) [7] [] rfl)
  have h₄ := h₃.step (.destSend _ [8] (Nat.le_add_left 1 8191) (tunnel.addr 1) (.head _))
  have h₅ := h₄.step (.relayRecv _ 0 Nat.one_pos (tunnel.addr 2) [8] [] rfl)
  have h₆ := h₅.step (.clientRecv _ (tunnel.addr 1) [8] [] rfl)
  exact ⟨_, rfl, rfl, transparent h₆⟩

end Net

end NetworkLabs.Relay

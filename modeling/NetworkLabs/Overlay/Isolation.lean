import NetworkLabs.Overlay.Route

/-!
# What a router reads of its buffer

The receive loop neither clears nor terminates its buffer, so that behind a datagram the buffer
holds what earlier requests left there. The fields of a request end at the first null byte of the
buffer. The routing decision is a function of these fields, and they are those of the datagram
itself exactly when nothing but delimiters stands between the datagram and a null byte.

## Main definitions

* `childTokens`: the fields that the child of a router finds in its buffer
* `afterRequests`: the buffer after a history of requests
* `RoutedAlike`: two contents of the buffer make no difference to a datagram
* `Undisturbed`: what stands behind a datagram holds no field

## Main results

* `registration_congr`: the routing decision depends on the fields
* `routedAlike_zero_iff`: the contents behind a datagram make no difference exactly when they are
  undisturbed
* `undisturbed_of_longest`: no request disturbs a request that is not shorter
-/

namespace NetworkLabs.Overlay

open CRuntime

/-- The fields that the child finds in its buffer, `none` when no null byte ends them. -/
def childTokens (stack : Mem UInt8) (d : List UInt8) : Option (List (List UInt8)) :=
  let buffer := (stack.recv d BUFSIZ).read BUFSIZ
  if 0 ∈ buffer then some (tokens dollar (cstring buffer)) else none

/-- The buffer after the requests of `history`. -/
def afterRequests (stack : Mem UInt8) (history : List (List UInt8)) : Mem UInt8 :=
  history.foldl (fun m d => m.recv d BUFSIZ) stack

/-- What the buffer holds behind the datagram `d`. -/
def past (stack : Mem UInt8) (d : List UInt8) : List UInt8 :=
  (stack.shift d.length).read (BUFSIZ - d.length)

/-- Nothing behind the datagram is read, or delimiters only. -/
def Undisturbed (stack : Mem UInt8) (d : List UInt8) : Prop :=
  BUFSIZ ≤ d.length ∨ 0 ∈ d ∨ 0 ∈ past stack d ∧ ∀ b ∈ cstring (past stack d), b = dollar

variable {Addr : Type*}

/-- The child finds the same fields in both buffers and does the same. -/
def RoutedAlike (net : Resolver Addr) (myUDPport : List UInt8) (rand_port : ℕ)
    (stack stack' : Mem UInt8) (d : List UInt8) : Prop :=
  childTokens stack d = childTokens stack' d ∧
    registration net myUDPport rand_port stack d = registration net myUDPport rand_port stack' d

/-! ## The decision is a function of the fields -/

theorem childTokens_eq_some_iff {stack : Mem UInt8} {d : List UInt8} {ts : List (List UInt8)} :
    childTokens stack d = some ts ↔ 0 ∈ (stack.recv d BUFSIZ).read BUFSIZ ∧
      tokens dollar (cstring ((stack.recv d BUFSIZ).read BUFSIZ)) = ts := by
  simp [childTokens]

theorem childTokens_eq_none_iff {stack : Mem UInt8} {d : List UInt8} :
    childTokens stack d = none ↔ 0 ∉ (stack.recv d BUFSIZ).read BUFSIZ := by
  simp [childTokens]

section Decision

variable (net : Resolver Addr) {myUDPport : List UInt8} (rand_port : ℕ) {stack : Mem UInt8}
  {d : List UInt8}

/-- Without a null byte in its buffer the child reads on behind it. -/
theorem registration_of_none (hport : 0 < atoiString myUDPport) (h : childTokens stack d = none) :
    registration net myUDPport rand_port stack d = .fault := by
  exact (if_neg (not_le.mpr hport)).trans (if_pos (childTokens_eq_none_iff.mp h))

/-- What the child does with the fields it finds. -/
theorem registration_of_some (hport : 0 < atoiString myUDPport) {ts : List (List UInt8)}
    (h : childTokens stack d = some ts) :
    registration net myUDPport rand_port stack d =
      if 1000 ≤ ts.length then .fault
      else if ts.length = 3 then
        match net.gethostbyname (ts.getD 0 []) with
        | none => .leave
        | some hp => .serve (responseOf rand_port) (hp, htons (atoiString (ts.getD 1 [])))
      else if ts.length < 2 then .fault
      else if (stripped ts).length < 280 then
        .forward ((net.gethostbyname (ts.getD (ts.length - 2) [])).map fun hp =>
          (hp, htons (atoiString myUDPport))) (stripped ts)
      else .fault := by
  obtain ⟨hmem, rfl⟩ := childTokens_eq_some_iff.mp h
  exact (if_neg (not_le.mpr hport)).trans (if_neg (not_not.mpr hmem))

/-- **The routing decision depends on the fields.** -/
theorem registration_congr {stack' : Mem UInt8} (h : childTokens stack d = childTokens stack' d) :
    registration net myUDPport rand_port stack d =
      registration net myUDPport rand_port stack' d := by
  rcases le_or_gt (atoiString myUDPport) 0 with hport | hport
  · simp only [registration, if_pos hport]
  · rcases hts : childTokens stack' d with _ | ts
    · rw [registration_of_none net rand_port hport (h.trans hts),
        registration_of_none net rand_port hport hts]
    · rw [registration_of_some net rand_port hport (h.trans hts),
        registration_of_some net rand_port hport hts]

end Decision

/-! ## When the fields are those of the datagram -/

theorem childTokens_of_mem {stack : Mem UInt8} {d : List UInt8} (hlen : d.length ≤ BUFSIZ)
    (h : 0 ∈ d) : childTokens stack d = some (tokens dollar (cstring d)) := by
  apply childTokens_eq_some_iff.mpr
  rw [Mem.read_recv_append stack hlen hlen, cstring_append_of_mem h]
  exact ⟨List.mem_append_left _ h, rfl⟩

/-- A datagram without a null byte runs on into what stands behind it. -/
theorem childTokens_of_notMem {stack : Mem UInt8} {d : List UInt8} (hlen : d.length ≤ BUFSIZ)
    (h : 0 ∉ d) : childTokens stack d =
      if 0 ∈ past stack d then some (tokens dollar (d ++ cstring (past stack d))) else none := by
  have hmem : 0 ∈ d ++ past stack d ↔ 0 ∈ past stack d := by simp [h]
  unfold childTokens
  rw [Mem.read_recv_append stack hlen hlen, ← past]
  simp only [cstring_append_of_notMem h, hmem]

theorem childTokens_zero {d : List UInt8} (hlen : d.length < BUFSIZ) (h : 0 ∉ d) :
    childTokens (fun _ => 0) d = some (tokens dollar d) := by
  apply childTokens_eq_some_iff.mpr
  obtain ⟨t, ht⟩ := Mem.read_recv_eq_append (m := fun _ => (0 : UInt8)) hlen
  rw [ht, cstring_append_zero h]
  exact ⟨by simp, rfl⟩

/-- The fields are those over a cleared buffer exactly when the datagram is undisturbed. -/
theorem childTokens_eq_zero_iff (stack : Mem UInt8) (d : List UInt8) :
    childTokens stack d = childTokens (fun _ => 0) d ↔ Undisturbed stack d := by
  rcases Nat.lt_or_ge d.length BUFSIZ with hlen | hlen
  · by_cases h : 0 ∈ d
    · rw [childTokens_of_mem hlen.le h, childTokens_of_mem hlen.le h]
      exact ⟨fun _ => .inr (.inl h), fun _ => rfl⟩
    · rw [childTokens_zero hlen h, childTokens_of_notMem hlen.le h, Undisturbed]
      by_cases hpast : 0 ∈ past stack d
      -- both find fields, and a suffix without fields consists of delimiters
      · rw [if_pos hpast, Option.some_inj, tokens_append_eq_iff]
        simp [not_le.mpr hlen, h, hpast]
      · simp [not_le.mpr hlen, h, hpast]
  -- a full buffer leaves nothing of what it held
  · have hsame : childTokens stack d = childTokens (fun _ => 0) d := by
      unfold childTokens
      rw [Mem.read_recv_of_le hlen]
    exact ⟨fun _ => .inl hlen, fun _ => hsame⟩

/-- **What stands behind a datagram makes no difference exactly when it holds no field.** The child
finds the same fields, contacts the same next hop and forwards the same message as over a cleared
buffer if and only if the datagram fills the buffer, or ends the string itself, or is followed by
delimiters and a null byte. -/
theorem routedAlike_zero_iff (net : Resolver Addr) (myUDPport : List UInt8) (rand_port : ℕ)
    (stack : Mem UInt8) (d : List UInt8) :
    RoutedAlike net myUDPport rand_port stack (fun _ => 0) d ↔ Undisturbed stack d := by
  rw [← childTokens_eq_zero_iff]
  exact ⟨fun h => h.1, fun h => ⟨h, registration_congr net rand_port h⟩⟩

/-- Two histories route a request alike when neither disturbs it. -/
theorem routedAlike_of_histories (net : Resolver Addr) (myUDPport : List UInt8) (rand_port : ℕ)
    {stack : Mem UInt8} {history history' : List (List UInt8)} {d : List UInt8}
    (h : Undisturbed (afterRequests stack history) d)
    (h' : Undisturbed (afterRequests stack history') d) :
    RoutedAlike net myUDPport rand_port (afterRequests stack history)
      (afterRequests stack history') d := by
  have htokens := ((childTokens_eq_zero_iff _ _).mpr h).trans
    ((childTokens_eq_zero_iff _ _).mpr h').symm
  exact ⟨htokens, registration_congr net rand_port htokens⟩

/-! ## Histories -/

theorem afterRequests_of_le {stack : Mem UInt8} {history : List (List UInt8)} {k : ℕ}
    (h : ∀ e ∈ history, e.length ≤ k) : afterRequests stack history k = stack k := by
  induction history generalizing stack with
  | nil => rfl
  | cons e history ih =>
    rw [afterRequests, List.foldl_cons, ← afterRequests,
      ih fun e' he' => h e' (List.mem_cons_of_mem _ he'),
      Mem.recv_of_length_le (h e List.mem_cons_self)]

/-- **No request disturbs a request that is not shorter.** -/
theorem undisturbed_of_longest {history : List (List UInt8)} {d : List UInt8}
    (h : ∀ e ∈ history, e.length ≤ d.length) :
    Undisturbed (afterRequests (fun _ => 0) history) d := by
  rcases Nat.lt_or_ge d.length BUFSIZ with hlen | hlen
  -- the byte behind the datagram has never been written
  · obtain ⟨n, hn⟩ : ∃ n, BUFSIZ - d.length = 1 + n := ⟨BUFSIZ - d.length - 1, by omega⟩
    obtain ⟨t, ht⟩ : ∃ t, past (afterRequests (fun _ => 0) history) d = 0 :: t := by
      rw [past, hn, Mem.read_add]
      exact ⟨_, congrArg (· :: _) (afterRequests_of_le h)⟩
    rw [Undisturbed, ht]
    exact .inr (.inr (by simp [cstring]))
  · exact .inl hlen

/-- The request `$d$7$b$a$`: to `d:7`, through `a` and then `b`. -/
def throughTwo : List UInt8 := [36, 100, 36, 55, 36, 98, 36, 97, 36]

/-- The request `$d$7$a$`: to `d:7`, through `a`. -/
def throughOne : List UInt8 := [36, 100, 36, 55, 36, 97, 36]

/-- The end of the longer request stands behind the shorter one. -/
theorem childTokens_throughOne :
    childTokens (afterRequests (fun _ => 0) [throughTwo]) throughOne =
      some [[100], [55], [97], [97]] := by
  obtain ⟨t, ht⟩ : ∃ t, past (afterRequests (fun _ => 0) [throughTwo]) throughOne =
      [97, 36] ++ 0 :: t := by
    have hlen : BUFSIZ - throughOne.length = 3 + 8182 := by decide
    have hfront : ((afterRequests (fun _ => 0) [throughTwo]).shift throughOne.length).read 3 =
        [97, 36] ++ [0] := by decide
    rw [past, hlen, Mem.read_add, hfront, List.append_assoc, List.singleton_append]
    exact ⟨_, rfl⟩
  rw [childTokens_of_notMem (by decide) (by decide), ht, cstring_append_zero (by decide),
    if_pos (by simp)]
  decide

/-- A router that has forwarded the longer request sends the shorter one back to itself, and does
not serve it. -/
theorem not_routedAlike_throughOne :
    registration letters [57] 5 (afterRequests (fun _ => 0) [throughTwo]) throughOne =
      .forward (some (97, 9)) throughOne ∧
    registration letters [57] 5 (fun _ => 0) throughOne = .serve (responseOf 5) (100, 7) ∧
    ¬ RoutedAlike letters [57] 5 (afterRequests (fun _ => 0) [throughTwo]) (fun _ => 0)
      throughOne := by
  have hport : 0 < atoiString [57] := by decide
  have hstr : stripped [[100], [55], [97], [97]] = throughOne := by decide
  have hzero : childTokens (fun _ => 0) throughOne = some [[100], [55], [97]] := by
    rw [childTokens_zero (by decide) (by decide)]
    decide
  refine ⟨?_, ?_, ?_⟩
  · rw [registration_of_some letters 5 hport childTokens_throughOne, hstr, if_neg (by decide),
      if_neg (by decide), if_neg (by decide), if_pos (by decide)]
    rfl
  · rw [registration_of_some letters 5 hport hzero, if_neg (by decide), if_pos (by decide)]
    rfl
  · rintro ⟨htokens, -⟩
    rw [childTokens_throughOne, hzero] at htokens
    exact absurd htokens (by decide)


end NetworkLabs.Overlay

import NetworkLabs.Foundation.Machine
import NetworkLabs.Overlay.Isolation
import NetworkLabs.Runtime.Strtol

/-!
# What the builder learns of a failure

A router that forwards a request waits for one datagram, for thirty seconds at most. On a timeout
and on the number `-1` it sends the failure message `A` upstream; on any other number it answers
with its own port and relays. On a text that is no number, such as the `A` of the router below, it
leaves without a word, and so does a last hop whose destination does not resolve. The builder waits
without a timeout.

The routers of a route take their steps in any order, and a waiting router takes any datagram for
the reply. Datagrams to the upstream are sent with success.

## Main definitions

* `awaitReply`: what a router does after it has forwarded
* `childRun`: a whole run of the child
* `Prepared`, `Accepts`: requests and replies that leave no child silent
* `chain`: the routers of a route

## Main results

* `answered_childRun_iff`: when a child relays or has reported
* `builder_answered`: the exact condition for a child, and what it gives for a chain
-/

namespace NetworkLabs.Overlay

open CRuntime Transition

/-- What a child prints when it gives up on a reply. -/
inductive Notice
  | notEstablished
  | corrupt (recv_response : List UInt8)

/-- How a child ends: in the relay loop, by `exit`, or outside of its arrays. -/
inductive Ending
  | relay
  | exit (printed : Option Notice)
  | fault

/-- The datagrams a child has sent upstream, and how it ends. -/
abbrev Outcome := List (List (Option UInt8)) × Ending

/-- The failure message `A`. -/
def invalid : List (Option UInt8) := [some 65]

/-- The buffer for the reply: thirteen cleared bytes. -/
def recvResponse (r : List UInt8) : List UInt8 := (Mem.recv (fun _ => 0) r 13).read 13

/-- The child after it has forwarded the request: the datagram that `recvfrom` gives, `none` after
thirty seconds. -/
def awaitReply (rand_port : ℕ) : Option (List UInt8) → Outcome
  | none => ([invalid], .exit none)
  | some r =>
    let recv_response := recvResponse r
    match isnumber recv_response with
    | none => ([], .fault)
    | some false =>
      ([], .exit (if recv_response.head? = some 65 then some .notEstablished
        else some (.corrupt recv_response)))
    | some true =>
      match atoi recv_response with
      | none => ([], .fault)
      | some z =>
        if z = -1 then ([invalid], .exit none) else ([responseOf rand_port], .relay)

variable {Addr : Type*}

/-- A router that runs: its resolver, the port it was started on, and what its child has. -/
structure Router (Addr : Type*) extends Child where
  net : Resolver Addr
  myUDPport : List UInt8
  port_pos : 0 < atoiString myUDPport

namespace Router

variable (R : Router Addr)

/-- What the child does with a request. -/
def act (d : List UInt8) : Action Addr :=
  registration R.net R.myUDPport R.rand_port R.stack d

/-- A whole run of the child, with the reply that it would get to a forwarded request. -/
def childRun (d : List UInt8) (reply : Option (List UInt8)) : Outcome :=
  match R.act d with
  | .serve response _ => ([response], .relay)
  | .leave => ([], .exit none)
  | .forward _ _ => awaitReply R.rand_port reply
  | .fault => ([], .fault)

end Router

/-- The child relays, or has sent the failure message before it ended. -/
def Answered (out : Outcome) : Prop := out.2 = .relay ∨ invalid ∈ out.1

/-- The fields of a request fit the arrays of the child, and the last hop knows the destination. -/
def Prepared (net : Resolver Addr) (ts : List (List UInt8)) : Prop :=
  ts.length < 1000 ∧ (ts.length = 3 → (net.gethostbyname (ts.getD 0 [])).isSome) ∧
    (ts.length ≠ 3 → (stripped ts).length < 280)

/-- A timeout, or a number. -/
def Accepts (reply : Option (List UInt8)) : Prop :=
  ∀ r, reply = some r → isnumber (recvResponse r) = some true

/-! ## One child -/

theorem answered_awaitReply_iff (rand_port : ℕ) (reply : Option (List UInt8)) :
    Answered (awaitReply rand_port reply) ↔ Accepts reply := by
  cases reply with
  | none => simp [Answered, awaitReply, Accepts]
  | some r =>
    rcases hnum : isnumber (recvResponse r) with _ | _ | _
    · simp [Answered, awaitReply, Accepts, hnum]
    · simp [Answered, awaitReply, Accepts, hnum]
    -- an accepted text is terminated, so that `atoi` has a value
    · obtain ⟨z, hz⟩ := Option.isSome_iff_exists.mp (atoi_isSome (zero_mem_of_isnumber hnum))
      have hdone : Answered (awaitReply rand_port (some r)) := by
        simp only [Answered, awaitReply, hnum, hz]
        split <;> simp
      simp [Accepts, hnum, hdone]

/-- **A child relays or reports exactly when its request is prepared and its reply is accepted.** -/
theorem answered_childRun_iff (R : Router Addr) {d : List UInt8} {ts : List (List UInt8)}
    (hts : childTokens R.stack d = some ts) (hlen : 3 ≤ ts.length) (reply : Option (List UInt8)) :
    Answered (R.childRun d reply) ↔ Prepared R.net ts ∧ (ts.length ≠ 3 → Accepts reply) := by
  unfold Router.childRun Router.act
  rw [registration_of_some R.net R.rand_port R.port_pos hts]
  unfold Prepared
  by_cases hmany : 1000 ≤ ts.length
  · simp [Answered, hmany, Nat.not_lt.mpr hmany]
  · rw [if_neg hmany]
    by_cases hlast : ts.length = 3
    · cases R.net.gethostbyname (ts.getD 0 []) <;> simp [Answered, hlast]
    · rw [if_neg hlast, if_neg (by omega)]
      by_cases hfit : (stripped ts).length < 280
      · simp [hmany, hlast, hfit, answered_awaitReply_iff, Nat.lt_of_not_le]
      · simp [Answered, hlast, hfit]

/-- A child that relays has sent its port upstream. -/
theorem awaitReply_sends {rand_port : ℕ} {reply : Option (List UInt8)}
    (h : (awaitReply rand_port reply).2 = .relay) : (awaitReply rand_port reply).1 ≠ [] := by
  cases reply with
  | none => cases h
  | some r =>
    simp only [awaitReply] at h ⊢
    split
    · simp_all
    · simp_all
    · split
      · simp_all
      · split <;> simp

theorem childRun_sends (R : Router Addr) {d : List UInt8} {reply : Option (List UInt8)}
    (h : (R.childRun d reply).2 = .relay) : (R.childRun d reply).1 ≠ [] := by
  unfold Router.childRun at h ⊢
  cases hact : R.act d with
  | serve response server => simp
  | leave => simp [hact] at h
  | forward server str =>
    rw [hact] at h
    exact awaitReply_sends h
  | fault => simp [hact] at h

/-! ## A chain of children -/

/-- The child of one router: not started, waiting for a reply, or at its end. -/
inductive Hop
  | idle
  | waiting
  | ended (out : Outcome)

/-- The requests that have been sent to the routers, and their children. -/
structure Hops where
  request : ℕ → Option (List UInt8)
  hop : ℕ → Hop

/-- A router receives its request, a datagram for a reply, or nothing for thirty seconds. -/
inductive Event
  | start (i : ℕ)
  | reply (i : ℕ) (r : List UInt8)
  | timeout (i : ℕ)

/-- The child of the router `i` ends; its datagrams go upstream. -/
def finish (s : Hops) (i : ℕ) (out : Outcome) : Hops × List (ℕ × List (Option UInt8)) :=
  ({ s with hop := Function.update s.hop i (.ended out) }, out.1.map fun m => (i, m))

/-- The routers of a route. The outputs are the datagrams to the upstream of each router, and those
of the router `0` go to the builder. -/
def chain (router : ℕ → Router Addr) : Machine Hops Event (ℕ × List (Option UInt8)) where
  step s e :=
    match e with
    | .start i =>
      match s.hop i, s.request i with
      | .idle, some d =>
        match (router i).act d with
        | .forward server str =>
          -- without an address the request goes wherever `server` points
          some (⟨Function.update s.request (i + 1) (server.map fun _ => str),
            Function.update s.hop i .waiting⟩, [])
        | .serve _ _ | .leave | .fault => some (finish s i ((router i).childRun d none))
      | _, _ => none
    | .reply i r =>
      match s.hop i with
      | .waiting => some (finish s i (awaitReply (router i).rand_port (some r)))
      | _ => none
    | .timeout i =>
      match s.hop i with
      | .waiting => some (finish s i (awaitReply (router i).rand_port none))
      | _ => none

/-- The builder has sent its message to the first router. -/
def started (message : List UInt8) : Hops where
  request := Function.update (fun _ => none) 0 (some message)
  hop _ := .idle

/-- The step leaves no child silent: a request that starts a child is prepared, a reply is
accepted. -/
def Sound (router : ℕ → Router Addr) (s : Hops) : Event → Prop
  | .start i => ∀ d, s.request i = some d →
    ∃ ts, childTokens (router i).stack d = some ts ∧ 3 ≤ ts.length ∧ Prepared (router i).net ts
  | .reply _ r => Accepts (some r)
  | .timeout _ => True

section Chain

variable {router : ℕ → Router Addr} {s t u : Hops} {e : Event}
  {o tr : List (ℕ × List (Option UInt8))}

/-- How a child comes to its end: at once, with a reply, or with a timeout. -/
def Ends (router : ℕ → Router Addr) (s : Hops) (e : Event) (i : ℕ) (out : Outcome) : Prop :=
  (∃ d, e = .start i ∧ s.request i = some d ∧ out = (router i).childRun d none) ∨
    (∃ r, e = .reply i r ∧ out = awaitReply (router i).rand_port (some r)) ∨
    (e = .timeout i ∧ out = awaitReply (router i).rand_port none)

/-- What a step can do: a child starts to wait, or a child ends. -/
theorem chain_step_cases (h : (chain router).step s e = some (t, o)) :
    (∃ i, t.hop = Function.update s.hop i .waiting) ∨
      ∃ i out, (t, o) = finish s i out ∧ Ends router s e i out := by
  cases e with
  | start i =>
    simp only [chain] at h
    split at h
    · next d hidle hreq =>
      split at h
      · obtain ⟨rfl, -⟩ := by simpa using h
        exact .inl ⟨i, rfl⟩
      all_goals exact .inr ⟨i, _, (Option.some.inj h).symm, .inl ⟨d, rfl, hreq, rfl⟩⟩
    · cases h
  | reply i r =>
    simp only [chain] at h
    split at h
    · exact .inr ⟨i, _, (Option.some.inj h).symm, .inr (.inl ⟨r, rfl, rfl⟩)⟩
    · cases h
  | timeout i =>
    simp only [chain] at h
    split at h
    · exact .inr ⟨i, _, (Option.some.inj h).symm, .inr (.inr ⟨rfl, rfl⟩)⟩
    · cases h

/-- A child that is at its end was there before the step, or comes to it by the step. -/
theorem ended_of_step (h : (chain router).step s e = some (t, o)) {i : ℕ} {out : Outcome}
    (hi : t.hop i = .ended out) :
    s.hop i = .ended out ∨ Ends router s e i out ∧ o = out.1.map fun m => (i, m) := by
  rcases chain_step_cases h with ⟨j, hj⟩ | ⟨j, out', hfin, hends⟩
  · rw [hj] at hi
    rcases eq_or_ne i j with rfl | hne
    · rw [Function.update_self] at hi
      cases hi
    · rw [Function.update_of_ne hne] at hi
      exact .inl hi
  · obtain ⟨rfl, rfl⟩ := Prod.ext_iff.mp hfin
    rcases eq_or_ne i j with rfl | hne
    · obtain rfl : out' = out := by simpa [finish] using hi
      exact .inr ⟨hends, rfl⟩
    · left
      simpa [finish, hne] using hi

/-- A child that ends in a sound step has answered. -/
theorem answered_of_sound (hsound : Sound router s e) {i : ℕ} {out : Outcome}
    (h : Ends router s e i out) : Answered out := by
  rcases h with ⟨d, rfl, hreq, rfl⟩ | ⟨r, rfl, rfl⟩ | ⟨rfl, rfl⟩
  · obtain ⟨ts, hts, hlen, hprep⟩ := hsound d hreq
    exact (answered_childRun_iff _ hts hlen none).mpr ⟨hprep, fun _ r hr => by cases hr⟩
  · exact (answered_awaitReply_iff _ _).mpr hsound
  · exact (answered_awaitReply_iff _ _).mpr fun r hr => by cases hr

theorem Ends.sends {i : ℕ} {out : Outcome} (h : Ends router s e i out)
    (hrelay : out.2 = .relay) : out.1 ≠ [] := by
  rcases h with ⟨d, -, -, rfl⟩ | ⟨r, -, rfl⟩ | ⟨-, rfl⟩
  · exact childRun_sends _ hrelay
  · exact awaitReply_sends hrelay
  · exact awaitReply_sends hrelay

/-- Every child that has ended has answered, and has sent something. -/
def AllAnswered (s : Hops) : Prop :=
  ∀ i out, s.hop i = .ended out → Answered out ∧ out.1 ≠ []

/-- In a run of sound steps, every child that has ended has answered. -/
theorem answered_of_always {message : List UInt8} {es : List Event}
    (hsound : (chain router).Always (fun s e _ _ => Sound router s e) (started message) es)
    (hrun : (chain router).run (started message) es = some (u, tr)) : AllAnswered u := by
  refine hsound.invariant ?_ ?_ hrun
  · intro s e t o hs hmove hq i out hi
    rcases ended_of_step hmove hi with hi | ⟨hends, -⟩
    · exact hs i out hi
    · have hdone := answered_of_sound hq hends
      refine ⟨hdone, ?_⟩
      rcases hdone with hrelay | hinvalid
      · exact hends.sends hrelay
      · exact List.ne_nil_of_mem hinvalid
  · intro i out hi
    cases hi

/-- What a child has sent upstream by its end is in the trace. -/
theorem mem_trace_of_ended {es : List Event} (hrun : (chain router).run s es = some (u, tr)) {i : ℕ}
    {out : Outcome} (hi : u.hop i = .ended out) :
    s.hop i = .ended out ∨ ∀ m ∈ out.1, (i, m) ∈ tr := by
  induction es generalizing s tr with
  | nil =>
    obtain ⟨rfl, rfl⟩ := by simpa using hrun
    exact .inl hi
  | cons e es ih =>
    obtain ⟨t, o, o', hmove, hrest, rfl⟩ := Machine.run_cons_eq_some_iff.mp hrun
    rcases ih hrest with ht | hmem
    · rcases ended_of_step hmove ht with hs | ⟨-, rfl⟩
      · exact .inl hs
      · right
        intro m hm
        exact List.mem_append_left _ (List.mem_map.mpr ⟨m, hm, rfl⟩)
    · exact .inr fun m hm => List.mem_append_right _ (hmem m hm)

end Chain

/-- **Failures reach the builder exactly when no request outgrows the arrays, the last hop knows the
destination and every reply is a number.** A child relays or has sent the failure message exactly
under this condition on its request and its reply. In a run of a chain whose steps all meet it, in
whatever order the routers time out and reply, every child that has ended has answered its upstream;
so the builder has an answer once the first child has ended. -/
theorem builder_answered :
    (∀ (R : Router Addr) (d : List UInt8) (ts : List (List UInt8)) (reply : Option (List UInt8)),
      childTokens R.stack d = some ts → 3 ≤ ts.length →
        (Answered (R.childRun d reply) ↔
          Prepared R.net ts ∧ (ts.length ≠ 3 → Accepts reply))) ∧
    ∀ (router : ℕ → Router Addr) (message : List UInt8) (es : List Event) (s : Hops)
      (tr : List (ℕ × List (Option UInt8))),
      (chain router).run (started message) es = some (s, tr) →
      (chain router).Always (fun s e _ _ => Sound router s e) (started message) es →
        (∀ i out, s.hop i = .ended out → Answered out) ∧
          ∀ out, s.hop 0 = .ended out → ∃ m, (0, m) ∈ tr := by
  refine ⟨fun R d ts reply hts hlen => answered_childRun_iff R hts hlen reply, ?_⟩
  intro router message es s tr hrun hsound
  have hall := answered_of_always hsound hrun
  refine ⟨fun i out hi => (hall i out hi).1, ?_⟩
  intro out hi
  obtain ⟨m, hm⟩ := List.exists_mem_of_ne_nil _ (hall 0 out hi).2
  rcases mem_trace_of_ended hrun hi with h | hmem
  · cases h
  · exact ⟨m, hmem m hm⟩

theorem nine_pos : 0 < atoiString [57] := by decide

/-- A router on port `9` with a cleared buffer. -/
def onNine : Router ℕ where
  rand_port := 5
  stack := fun _ => 0
  net := letters
  myUDPport := [57]
  port_pos := nine_pos

/-- The request `$d$7$b$a$e$`, one router longer than `throughTwo`. -/
def throughThree : List UInt8 := [36, 100, 36, 55, 36, 98, 36, 97, 36, 101, 36]

theorem act_onNine {d : List UInt8} {ts : List (List UInt8)} {hp : ℕ} {str : List UInt8}
    (hzero : 0 ∉ d) (hlen : d.length < BUFSIZ) (hts : tokens dollar d = ts)
    (hcount : 3 < ts.length ∧ ts.length < 1000)
    (hres : letters.gethostbyname (ts.getD (ts.length - 2) []) = some hp)
    (hstr : stripped ts = str) (hfit : str.length < 280) :
    onNine.act d = .forward (some (hp, htons (atoiString [57]))) str := by
  have htokens : childTokens onNine.stack d = some ts := by
    rw [show onNine.stack = fun _ => 0 from rfl, childTokens_zero hlen hzero, hts]
  rw [Router.act, registration_of_some onNine.net onNine.rand_port onNine.port_pos htokens,
    if_neg (by omega), if_neg (by omega), if_neg (by omega), hstr, if_pos hfit,
    show onNine.net = letters from rfl, hres]
  rfl

theorem onNine_forwards :
    onNine.act throughThree = .forward (some (97, htons (atoiString [57]))) throughTwo ∧
      onNine.act throughTwo =
        .forward (some (98, htons (atoiString [57]))) [36, 100, 36, 55, 36, 98, 36] :=
  ⟨act_onNine (by decide) (by decide) rfl (by decide) rfl (by decide) (by decide),
    act_onNine (by decide) (by decide) rfl (by decide) rfl (by decide) (by decide)⟩

/-- Of three routers the second waits in vain, and so does the first; a first router that is told
`-1` answers as well. -/
theorem builder_answered_throughThree :
    Answered (onNine.childRun throughThree (some [45, 49, 0])) ∧
    ∃ s tr, (chain fun _ => onNine).run (started throughThree)
        [.start 0, .start 1, .timeout 1, .timeout 0] = some (s, tr) ∧
      s.hop 0 = .ended ([invalid], .exit none) ∧ ∃ m, (0, m) ∈ tr := by
  obtain ⟨hfirst, hsecond⟩ := onNine_forwards
  have htimeout : awaitReply onNine.rand_port none = ([invalid], .exit none) := rfl
  have htokens : ∀ d ts, 0 ∉ d → d.length < BUFSIZ → tokens dollar d = ts →
      childTokens onNine.stack d = some ts := by
    intro d ts hzero hlen hts
    rw [show onNine.stack = fun _ => 0 from rfl, childTokens_zero hlen hzero, hts]
  have hthree := htokens throughThree _ (by decide) (by decide) rfl
  have htwo := htokens throughTwo _ (by decide) (by decide) rfl
  have hlong : Prepared onNine.net [[100], [55], [98], [97], [101]] :=
    ⟨by decide, fun h => absurd h (by decide), fun _ => by decide⟩
  have hshort : Prepared onNine.net [[100], [55], [98], [97]] :=
    ⟨by decide, fun h => absurd h (by decide), fun _ => by decide⟩
  refine ⟨(builder_answered.1 onNine throughThree _ _ hthree (by decide)).mpr
    ⟨hlong, fun _ r hr => ?_⟩, ?_⟩
  · cases hr
    decide
  · have hrun : ∃ s tr, (chain fun _ => onNine).run (started throughThree)
        [.start 0, .start 1, .timeout 1, .timeout 0] = some (s, tr) ∧
        s.hop 0 = .ended ([invalid], .exit none) := by
      simp [Machine.run, chain, started, hfirst, hsecond, finish, htimeout]
    obtain ⟨s, tr, hrun, hend⟩ := hrun
    have hsound : (chain fun _ => onNine).Always (fun s e _ _ => Sound (fun _ => onNine) s e)
        (started throughThree) [.start 0, .start 1, .timeout 1, .timeout 0] := by
      intro t o hstep
      refine ⟨?_, ?_⟩
      · intro d hd
        obtain rfl : throughThree = d := by simpa [started] using hd
        exact ⟨_, hthree, by decide, hlong⟩
      · obtain rfl : t = ⟨Function.update (started throughThree).request 1 (some throughTwo),
            Function.update (fun _ => .idle) 0 .waiting⟩ := by
          have hmove : (chain fun _ => onNine).step (started throughThree) (.start 0) =
              some (⟨Function.update (started throughThree).request 1 (some throughTwo),
                Function.update (fun _ => .idle) 0 .waiting⟩, []) := by
            simp [chain, started, hfirst]
          exact (Prod.mk.inj (Option.some.inj (hstep.symm.trans hmove))).1
        intro t o _
        refine ⟨?_, fun _ _ _ => ⟨trivial, fun _ _ _ => ⟨trivial, trivial⟩⟩⟩
        intro d hd
        obtain rfl : throughTwo = d := by simpa [started] using hd
        exact ⟨_, htwo, by decide, hshort⟩
    exact ⟨s, tr, hrun, hend, (builder_answered.2 _ _ _ _ _ hrun hsound).2 _ hend⟩

/-- The second router of three waits in vain and reports it; the first one takes the report for a
corrupt reply, and the builder waits for ever. -/
theorem not_answered_throughThree :
    ¬ Answered (onNine.childRun throughThree (some [65])) ∧
    ∃ s tr, (chain fun _ => onNine).run (started throughThree)
        [.start 0, .start 1, .timeout 1, .reply 0 [65]] = some (s, tr) ∧
      s.hop 0 = .ended ([], .exit (some .notEstablished)) ∧ ∀ m, (0, m) ∉ tr := by
  obtain ⟨hfirst, hsecond⟩ := onNine_forwards
  have htimeout : awaitReply onNine.rand_port none = ([invalid], .exit none) := rfl
  have hreply : awaitReply onNine.rand_port (some [65]) = ([], .exit (some .notEstablished)) := by
    rfl
  constructor
  · simp [Router.childRun, hfirst, hreply, Answered]
  · simp [Machine.run, chain, started, hfirst, hsecond, finish, htimeout, hreply]

end NetworkLabs.Overlay

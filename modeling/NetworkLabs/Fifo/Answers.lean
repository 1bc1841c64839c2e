import NetworkLabs.Fifo.Delivery

/-!
# The answers of the command server

A child of the server opens the FIFO that its request names and lets the command write to it. The
client reads from its FIFO once, as much as there is in it, and waits while there is nothing and
somebody can still write. All children run at the same time, each writing its output in pieces of
any length.

## Main definitions

* `Replies`, `Replies.Step`: the children, the FIFOs of the clients, and what these have read
* `Replies.Sound`: the invariant

## Main results

* `cfifo_path_injective`: clients with different process numbers wait at different FIFOs
* `Replies.Sound.step`: one step of a child or a client
* `Replies.exists_response`: a client whose child has something to write can read it
* `responses_own`: every client reads the output of its own child
-/

namespace NetworkLabs.Fifo

open CRuntime Records Transition

/-! ## The FIFOs of the clients -/

theorem decimal_injective : Function.Injective decimal := by
  intro m n h
  have hvalue := congrArg digitsValue h
  rwa [digitsValue_decimal, digitsValue_decimal] at hvalue

/-- **Clients with different process numbers wait at different FIFOs.** -/
theorem cfifo_path_injective {ι : Type*} {client : ι → Client}
    (hpid : Function.Injective fun i => (client i).pid) :
    Function.Injective fun i => (client i).cfifo_path := by
  intro i j h
  exact hpid (decimal_injective (List.append_cancel_left h))

/-- The children with the FIFO that each has opened and what it has left to write; the contents of
the FIFOs; and what the clients have read. -/
structure Replies (ι : Type*) where
  child : ℕ → Option (List UInt8 × List UInt8)
  fifo : List UInt8 → List UInt8
  response : ι → Option (List UInt8)

variable {ι : Type*}

namespace Replies

/-- No child runs, and no client has read. -/
def init : Replies ι where
  child _ := none
  fifo _ := []
  response _ := none

/-- What the `k`-th child has not written. -/
def pending (output : ℕ → List UInt8) (s : Replies ι) (k : ℕ) : List UInt8 :=
  (s.child k).elim (output k) Prod.snd

section Step

variable [DecidableEq ι] (client : ι → Client) (children : List (Option (List UInt8 × Answer)))
  (output : ℕ → List UInt8)

/-- A step of a child, which writes `output` in all, or of a client. -/
inductive Step : Replies ι → Replies ι → Prop
  | fork {s k cfifopid answer} : children[k]? = some (some (cfifopid, answer)) →
      s.child k = none →
      Step s { s with child := Function.update s.child k (some (cfifopid, output k)) }
  | write {s k cfifopid left} (n : ℕ) : s.child k = some (cfifopid, left) →
      Step s { s with
        child := Function.update s.child k (some (cfifopid, left.drop n))
        fifo := Function.update s.fifo cfifopid (s.fifo cfifopid ++ left.take n) }
  | read {s i} : s.response i = none →
      s.fifo (client i).cfifo_path ≠ [] ∨ (∃ k, s.child k = some ((client i).cfifo_path, [])) →
      Step s { s with
        fifo := Function.update s.fifo (client i).cfifo_path
          ((s.fifo (client i).cfifo_path).drop BUFSIZ)
        response := Function.update s.response i
          (some ((s.fifo (client i).cfifo_path).take BUFSIZ)) }

end Step

/-- The children are those of the clients in `order`. What a child has written its client has read
or is in its FIFO, and nothing else is. -/
structure Sound (client : ι → Client) (order : List ι) (output : ℕ → List UInt8)
    (s : Replies ι) : Prop where
  child : ∀ k c, s.child k = some c → ∃ i, order[k]? = some i ∧ c.1 = (client i).cfifo_path
  written : ∀ k i, order[k]? = some i →
    (s.response i).getD [] ++ s.fifo (client i).cfifo_path ++ s.pending output k = output k
  others : ∀ i, i ∉ order → s.response i = none ∧ s.fifo (client i).cfifo_path = []

variable {client : ι → Client} {order : List ι} {output : ℕ → List UInt8} {s t : Replies ι}

theorem Sound.init : Sound client order output (Replies.init : Replies ι) where
  child _ _ h := by cases h
  written _ _ _ := rfl
  others _ _ := ⟨rfl, rfl⟩

theorem pending_of_child {k : ℕ} {c : List UInt8 × List UInt8} (h : s.child k = some c) :
    s.pending output k = c.2 := by
  rw [pending, h, Option.elim_some]

theorem pending_congr {k : ℕ} (h : t.child k = s.child k) :
    t.pending output k = s.pending output k := by
  rw [pending, h, pending]

/-- A child starts or goes on, and the others are as they were. -/
theorem child_update {child : ℕ → Option (List UInt8 × List UInt8)}
    {P : ℕ → List UInt8 × List UInt8 → Prop} (hs : ∀ k c, child k = some c → P k c) {k : ℕ}
    {c : List UInt8 × List UInt8} (hc : P k c) :
    ∀ k' c', Function.update child k (some c) k' = some c' → P k' c' := by
  rw [Function.forall_update_iff child fun k o => ∀ c', o = some c' → P k c']
  refine ⟨?_, fun k' _ => hs k'⟩
  intro c' h
  obtain rfl := Option.some.inj h
  exact hc

/-- Two children are those of two clients. -/
theorem eq_of_getElem? (hnodup : order.Nodup) {k k' : ℕ} {i : ι} (h : order[k]? = some i)
    (h' : order[k']? = some i) : k = k' := by
  obtain ⟨hlt, hi⟩ := List.getElem?_eq_some_iff.mp h
  obtain ⟨hlt', hi'⟩ := List.getElem?_eq_some_iff.mp h'
  exact (hnodup.getElem_inj_iff).mp (hi.trans hi'.symm)

/-- A client reads only when it has a child. -/
theorem Sound.mem_of_ready (hpath : Function.Injective fun i => (client i).cfifo_path)
    (hs : Sound client order output s) {i : ι}
    (h : s.fifo (client i).cfifo_path ≠ [] ∨ ∃ k, s.child k = some ((client i).cfifo_path, [])) :
    i ∈ order := by
  rcases h with hne | ⟨k, hchild⟩
  · by_contra hnot
    exact hne (hs.others i hnot).2
  · obtain ⟨i', hi', hsame⟩ := hs.child k _ hchild
    obtain rfl := hpath hsame
    exact List.mem_of_getElem? hi'

/-- **One step of a child or a client.** -/
theorem Sound.step [DecidableEq ι] (hpath : Function.Injective fun i => (client i).cfifo_path)
    (hnodup : order.Nodup) (hs : Sound client order output s)
    (h : Step client (order.map fun i => some ((client i).cfifo_path, .exec CMD)) output s t) :
    Sound client order output t := by
  cases h with
  | @fork k cfifopid answer hchild hnone =>
    rw [List.getElem?_map] at hchild
    obtain ⟨i, hi, heq⟩ := Option.map_eq_some_iff.mp hchild
    obtain ⟨rfl, -⟩ := Prod.mk.inj (Option.some.inj heq)
    refine ⟨child_update hs.child ⟨i, hi, rfl⟩, ?_, hs.others⟩
    intro k' i' hi'
    have hwritten := hs.written k' i' hi'
    rcases eq_or_ne k' k with rfl | hne
    · rw [pending, hnone, Option.elim_none] at hwritten
      rwa [pending_of_child (Function.update_self ..)]
    · rwa [pending_congr (Function.update_of_ne hne ..)]
  | @write k cfifopid left n hchild =>
    obtain ⟨i, hi, rfl⟩ := hs.child k _ hchild
    refine ⟨child_update hs.child ⟨i, hi, rfl⟩, ?_, ?_⟩
    · intro k' i' hi'
      have hwritten := hs.written k' i' hi'
      rcases eq_or_ne k' k with rfl | hne
      · obtain rfl := Option.some.inj (hi'.symm.trans hi)
        rw [pending_of_child hchild] at hwritten
        rw [pending_of_child (Function.update_self ..)]
        simp only [Function.update_self]
        rw [List.append_assoc, List.append_assoc, List.take_append_drop, ← List.append_assoc]
        exact hwritten
      · have hother : i' ≠ i := by
          rintro rfl
          exact hne (eq_of_getElem? hnodup hi' hi)
        rw [pending_congr (Function.update_of_ne hne ..)]
        simp only [Function.update_of_ne (hpath.ne hother)]
        exact hwritten
    · intro i' hnot
      have hother : i' ≠ i := by
        rintro rfl
        exact hnot (List.mem_of_getElem? hi)
      simp only [Function.update_of_ne (hpath.ne hother)]
      exact hs.others i' hnot
  | @read i hnone hready =>
    have hmem := hs.mem_of_ready hpath hready
    refine ⟨hs.child, ?_, ?_⟩
    · intro k' i' hi'
      have hwritten := hs.written k' i' hi'
      rcases eq_or_ne i' i with rfl | hother
      · rw [hnone, Option.getD_none, List.nil_append] at hwritten
        simp only [Function.update_self, Option.getD_some, List.take_append_drop]
        exact hwritten
      · simp only [Function.update_of_ne (hpath.ne hother), Function.update_of_ne hother]
        exact hwritten
    · intro i' hnot
      have hother : i' ≠ i := fun heq => hnot (heq ▸ hmem)
      simp only [Function.update_of_ne (hpath.ne hother), Function.update_of_ne hother]
      exact hs.others i' hnot

/-- A client that has a child with something to write can read it. -/
theorem exists_response [DecidableEq ι] {children : List (Option (List UInt8 × Answer))} {k : ℕ}
    {i : ι} {answer : Answer} (hchild : children[k]? = some (some ((client i).cfifo_path, answer)))
    (houtput : output k ≠ []) :
    ∃ s r, Reachable (· = .init) (Step client children output) s ∧ s.response i = some r := by
  have hstart : Reachable (· = .init) (Step client children output) .init := .init rfl
  have hforked := hstart.step (.fork hchild rfl)
  have hwritten := hforked.step (.write 1 (Function.update_self ..))
  have hread := hwritten.step (.read (i := i) rfl (.inl (by simp [Replies.init, houtput])))
  exact ⟨_, _, hread, Function.update_self ..⟩

end Replies

/-- **Every client reads the output of its own child.** When no client writes its request while
another is writing, and every `read` of the server gets a whole message, a client that has read
anything has read a beginning of what the only child that was started for it writes, however the
children and the clients take turns. -/
theorem responses_own [DecidableEq ι] (client : ι → Client)
    (hpid : Function.Injective fun i => (client i).pid) (buf : Mem UInt8) {is : List (Move ι)}
    {t : Channel ι UInt8} {gots : List (List UInt8)}
    (hrun : (writers client).machine.run (writers client).start is = some (t, gots))
    (hwhole : (writers client).machine.Always (fun s m _ _ => (writers client).Whole s m)
      (writers client).start is) (output : ℕ → List UInt8) {s : Replies ι}
    (h : Reachable (· = .init) (Replies.Step client (fifoserver buf gots) output) s) {i : ι}
    {r : List UInt8} (hr : s.response i = some r) :
    ∃ k, r <+: output k ∧ ∀ k', (fifoserver buf gots)[k']? =
      some (some ((client i).cfifo_path, .exec CMD)) ↔ k' = k := by
  obtain ⟨order, hnodup, rfl, -⟩ := Writers.reads_records hrun hwhole
  have hpath := cfifo_path_injective hpid
  rw [fifoserver_map] at h ⊢
  have hs : s.Sound client order output := by
    refine h.invariant ?_ ?_
    · rintro s rfl
      exact .init
    · intro s t hs hst
      exact hs.step hpath hnodup hst
  have hmem : i ∈ order := by
    by_contra hnot
    rw [(hs.others i hnot).1] at hr
    cases hr
  obtain ⟨k, hk⟩ := List.mem_iff_getElem?.mp hmem
  have hwritten := hs.written k i hk
  rw [hr, Option.getD_some, List.append_assoc] at hwritten
  refine ⟨k, ⟨_, hwritten⟩, fun k' => ?_⟩
  rw [List.getElem?_map]
  constructor
  · intro hchild
    obtain ⟨i', hi', heq⟩ := Option.map_eq_some_iff.mp hchild
    obtain rfl := hpath (Prod.mk.inj (Option.some.inj heq)).1
    exact Replies.eq_of_getElem? hnodup hi' hk
  · rintro rfl
    rw [hk, Option.map_some]

/-- The children write a letter each. -/
def oneLetter (k : ℕ) : List UInt8 := if k = 0 then [97] else [98]

theorem oneLetter_ne_nil (k : ℕ) : oneLetter k ≠ [] := by
  unfold oneLetter
  split <;> exact List.cons_ne_nil _ _

/-- The clients that write in turn: the second one reads the letter of the second child. -/
theorem responses_own_inTurn : ∃ (s : Replies Bool) (r : List UInt8), s.response false = some r ∧
    r <+: oneLetter 1 := by
  obtain ⟨t, hrun, hwhole, -⟩ := run_inTurn
  have hpid : Function.Injective fun i => (two i).pid := by decide
  have hchildren : fifoserver (fun _ => 0) [(two true).message, (two false).message] =
      [some ((two true).cfifo_path, .exec CMD), some ((two false).cfifo_path, .exec CMD)] := by
    have hmap := fifoserver_map two (fun _ => 0) [true, false]
    simpa only [List.map_cons, List.map_nil, writers_record] using hmap
  have hchild : (fifoserver (fun _ => 0) [(two true).message, (two false).message])[1]? =
      some (some ((two false).cfifo_path, .exec CMD)) := by
    rw [hchildren]
    rfl
  obtain ⟨s, r, hs, hresponse⟩ := Replies.exists_response hchild (oneLetter_ne_nil 1)
  obtain ⟨k, hprefix, honly⟩ := responses_own two hpid _ hrun hwhole _ hs hresponse
  have hk : 1 = k := (honly 1).mp hchild
  rw [← hk] at hprefix
  exact ⟨s, r, hresponse, hprefix⟩

end NetworkLabs.Fifo

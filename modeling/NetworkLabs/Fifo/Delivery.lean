import NetworkLabs.Foundation.Records
import NetworkLabs.Runtime.Text
import NetworkLabs.Runtime.Tokens

/-!
# The command server on a FIFO

Every client writes its request to one FIFO, in an array of `BUFSIZ` bytes of which the request is
the start. The server reads up to `BUFSIZ` bytes at a time and takes whatever it gets for a request.

## Main definitions

* `Client`, `Client.message`: a client, and the bytes it writes
* `handle`, `fifoserver`: the child for a request, and the loop around `read`
* `writers`: the clients as the writers of the FIFO
* `Served`: every client is served once

## Main results

* `handle_message`: a message that is read whole is handled as the client meant it
* `served_of_whole`: what is needed for the service
-/

namespace NetworkLabs.Fifo

open CRuntime Records Transition

/-! ## The client -/

/-- `"/tmp/cfifo"`. -/
def fcfifo : List UInt8 := [47, 116, 109, 112, 47, 99, 102, 105, 102, 111]

/-- `CMD`, which is `"ls"`. -/
def CMD : List UInt8 := [108, 115]

/-- A client: its process number, and what its stack holds where `str` will be. -/
structure Client where
  pid : ℕ
  stack : Mem UInt8
  pid_lt : pid < 2 ^ 31

/-- `cfifo_path`, where the client waits for the answer. -/
def Client.cfifo_path (c : Client) : List UInt8 := fcfifo ++ decimal c.pid

/-- `sprintf(str, "$%d$", getpid())` and `strcat(str, CMD)`. -/
def Client.request (c : Client) : List UInt8 := dollar :: decimal c.pid ++ dollar :: CMD

/-- `str`. -/
def Client.str (c : Client) : Mem UInt8 := c.stack.store 0 (c.request ++ [0])

/-- The bytes of `write(client_to_server, str, sizeof(str))`. -/
def Client.message (c : Client) : List UInt8 := c.str.read BUFSIZ

/-! ## The server -/

/-- What a child answers: the output of a command, or that the command is invalid. -/
inductive Answer
  | exec (command : List UInt8)
  | invalid
  deriving DecidableEq

/-- The child for the contents of `buf`: the FIFO it opens and what it answers. It is `none` where
the code reads or writes outside an object, or through `NULL`. -/
def handle (buf : List UInt8) : Option (List UInt8 × Answer) :=
  if 0 ∈ buf then
    let first := strtok dollar (cstring buf)
    match first.1, (strtok dollar first.2).1 with
    | some pid, some command =>
      -- `cfifopid` has 1024 bytes
      if fcfifo.length + pid.length < 1024 then
        some (fcfifo ++ pid, if command = [108, 115] then .exec command else .invalid)
      else none
    | _, _ => none
  else none

/-- The loop, on the bytes that its calls of `read` get: the children. A call that gets none leaves
the cleared buffer as it is, and nothing is done. -/
def fifoserver (buf : Mem UInt8) : List (List UInt8) → List (Option (List UInt8 × Answer))
  | [] => []
  | got :: gots =>
    let buf := buf.recv got BUFSIZ
    (if buf 0 ≠ 0 then [handle (buf.read BUFSIZ)] else []) ++ fifoserver (buf.fill BUFSIZ 0) gots

/-! ## One message -/

theorem BUFSIZ_eq : BUFSIZ = 8192 := rfl

theorem zero_notMem_decimal (n : ℕ) : 0 ∉ decimal n := fun h =>
  absurd (isDigit_of_mem_decimal h) (by decide)

theorem dollar_notMem_decimal (n : ℕ) : dollar ∉ decimal n := fun h =>
  absurd (isDigit_of_mem_decimal h) (by decide)

theorem length_decimal_pid (c : Client) : (decimal c.pid).length ≤ 10 :=
  (length_decimal_le (by omega)).mpr (by have := c.pid_lt; omega)

theorem zero_notMem_request (c : Client) : 0 ∉ c.request := by
  simp only [Client.request, List.cons_append, List.mem_cons, List.mem_append, not_or]
  exact ⟨by decide, zero_notMem_decimal c.pid, by decide, by decide⟩

theorem length_request_le (c : Client) : c.request.length ≤ 14 := by
  have h := length_decimal_pid c
  simp [Client.request, CMD]
  omega

/-- Behind the terminator of the request the message holds what was on the stack. -/
theorem exists_message_eq (c : Client) : ∃ rest, c.message = c.request ++ 0 :: rest := by
  have hle : (c.request ++ [0]).length ≤ BUFSIZ := by
    have h := length_request_le c
    rw [List.length_append, BUFSIZ_eq, List.length_singleton]
    omega
  -- the message begins with what was stored
  have hstored : c.str.read (c.request ++ [0]).length = c.request ++ [0] := by
    have hread := c.stack.read_store 0 (c.request ++ [0])
    rwa [Nat.zero_add] at hread
  have hmessage := Mem.read_append_drop c.str hle
  rw [hstored] at hmessage
  exact ⟨_, hmessage.symm.trans (List.append_cons ..).symm⟩

/-- The bytes of a message behind the request are those on the stack. -/
theorem getElem?_message (c : Client) {k : ℕ} (hk : 15 ≤ k) (hlt : k < BUFSIZ) :
    c.message[k]? = some (c.stack k) := by
  have hlength : (c.request ++ [0]).length ≤ k := by
    have h := length_request_le c
    rw [List.length_append, List.length_singleton]
    omega
  have hread : k < (c.str.read BUFSIZ).length := by rwa [Mem.length_read]
  rw [Client.message, List.getElem?_eq_getElem hread, Mem.getElem_read, Client.str, Mem.store,
    if_pos (Nat.zero_le k), Nat.sub_zero, List.getD_eq_default _ _ hlength]

/-- The request in front of a terminator is handled as the client meant it, whatever follows. -/
theorem handle_request (c : Client) (rest : List UInt8) :
    handle (c.request ++ 0 :: rest) = some (c.cfifo_path, .exec CMD) := by
  have hfirst : strtok dollar c.request = (some (decimal c.pid), CMD) := by
    rw [Client.request, List.cons_append, strtok_cons_self]
    exact strtok_append_cons (decimal_ne_nil c.pid) (dollar_notMem_decimal c.pid) CMD
  have hsecond : strtok dollar CMD = (some CMD, []) := by decide
  have hlength : fcfifo.length + (decimal c.pid).length < 1024 := by
    have h := length_decimal_pid c
    have hpath : fcfifo.length = 10 := rfl
    omega
  -- the string ends with the request
  rw [handle, if_pos (by simp), cstring_append_zero (zero_notMem_request c), hfirst]
  simp only [hsecond, if_pos hlength]
  rfl

/-- **A message that is read whole is handled as the client meant it.** -/
theorem handle_message (c : Client) : handle c.message = some (c.cfifo_path, .exec CMD) := by
  obtain ⟨rest, h⟩ := exists_message_eq c
  rw [h, handle_request]

@[simp] theorem length_message (c : Client) : c.message.length = BUFSIZ := Mem.length_read ..

/-! ## The loop -/

/-- There is at most one child for a call of `read`, and none when the bytes it gets begin with a
terminator. -/
theorem length_fifoserver_le (buf : Mem UInt8) (gots : List (List UInt8)) :
    (fifoserver buf gots).length ≤ (gots.filter fun got => got.head? != some 0).length := by
  induction gots generalizing buf with
  | nil => exact Nat.le_refl _
  | cons got gots ih =>
    have hrest := ih ((buf.recv got BUFSIZ).fill BUFSIZ 0)
    rw [fifoserver, List.length_append]
    by_cases hzero : got.head? = some 0
    -- the buffer then holds the empty string
    · obtain ⟨bs, rfl⟩ := List.head?_eq_some_iff.mp hzero
      have hfirst : buf.recv (0 :: bs) BUFSIZ 0 = 0 :=
        Mem.recv_of_lt (d := 0 :: bs) (Nat.zero_lt_succ _) (by decide)
      rw [if_neg (not_not_intro hfirst), List.filter_cons_of_neg (by simp), List.length_nil]
      omega
    · have hone : (if buf.recv got BUFSIZ 0 ≠ 0 then [handle ((buf.recv got BUFSIZ).read BUFSIZ)]
          else []).length ≤ 1 := by
        split
        · exact Nat.le_refl 1
        · exact Nat.zero_le 1
      rw [List.filter_cons_of_pos (by simpa using hzero), List.length_cons]
      omega

/-- Bytes that are a message give the child of its client. -/
theorem fifoserver_message_cons (buf : Mem UInt8) (c : Client) (gots : List (List UInt8)) :
    ∃ buf', fifoserver buf (c.message :: gots) =
      some (c.cfifo_path, .exec CMD) :: fifoserver buf' gots := by
  have hread : (buf.recv c.message BUFSIZ).read BUFSIZ = c.message := by
    have h := Mem.read_recv (m := buf) (length_message c).le
    rwa [length_message] at h
  have hfirst : buf.recv c.message BUFSIZ 0 = dollar := by
    obtain ⟨rest, hmessage⟩ := exists_message_eq c
    rw [hmessage]
    exact Mem.recv_of_lt (d := c.request ++ 0 :: rest) (Nat.zero_lt_succ _) (by decide)
  have hne : dollar ≠ 0 := by decide
  refine ⟨(buf.recv c.message BUFSIZ).fill BUFSIZ 0, ?_⟩
  simp only [fifoserver, hfirst, hread, handle_message, if_pos hne, List.singleton_append]

/-! ## Many clients -/

variable {ι : Type*}

/-- The clients as the writers of the FIFO. -/
def writers (client : ι → Client) : Writers ι UInt8 where
  size := BUFSIZ
  record i := (client i).message
  size_pos := by decide
  length_record i := length_message (client i)

@[simp] theorem writers_record (client : ι → Client) (i : ι) :
    (writers client).record i = (client i).message := by
  rw [writers]

/-- The children are those of different clients, each as its client meant it; and when the FIFO is
empty, no client that has written its request is missing. -/
def Served (client : ι → Client) (t : Channel ι UInt8)
    (children : List (Option (List UInt8 × Answer))) : Prop :=
  ∃ order : List ι, order.Nodup ∧
    children = order.map (fun i => some ((client i).cfifo_path, .exec CMD)) ∧
      (t.pipe = [] → ∀ i, t.left i = [] → i ∈ order)

/-- Messages that are read whole are all handled. -/
theorem fifoserver_map (client : ι → Client) (buf : Mem UInt8) (order : List ι) :
    fifoserver buf (order.map (writers client).record) =
      order.map fun i => some ((client i).cfifo_path, .exec CMD) := by
  induction order generalizing buf with
  | nil => rfl
  | cons i order ih =>
    obtain ⟨buf', h⟩ := fifoserver_message_cons buf (client i) (order.map (writers client).record)
    rw [List.map_cons, writers_record, h, ih buf', List.map_cons]

/-- **Every client is served once** in a run in which no client writes while another has written a
part of its message, and every call of `read` gets `BUFSIZ` bytes. -/
theorem served_of_whole [DecidableEq ι] (client : ι → Client) (buf : Mem UInt8)
    {is : List (Move ι)} {t : Channel ι UInt8} {gots : List (List UInt8)}
    (hrun : (writers client).machine.run (writers client).start is = some (t, gots))
    (hwhole : (writers client).machine.Always (fun s m _ _ => (writers client).Whole s m)
      (writers client).start is) :
    Served client t (fifoserver buf gots) := by
  obtain ⟨order, hnodup, rfl, hdrained⟩ := Writers.reads_records hrun hwhole
  exact ⟨order, hnodup, fifoserver_map client buf order, hdrained⟩

/-- A client on a stack of zeros. -/
def onZeros (pid : ℕ) (h : pid < 2 ^ 31) : Client := ⟨pid, fun _ => 0, h⟩

/-- Two clients. -/
def two : Bool → Client := fun i => if i then onZeros 7 (by omega) else onZeros 8 (by omega)

/-- One client writes its message in two pieces, and after it the other one. -/
def inTurn : List (Move Bool) :=
  [.write true 4096, .write true 4096, .write false BUFSIZ, .read BUFSIZ, .read BUFSIZ]

theorem run_inTurn : ∃ t, (writers two).machine.run (writers two).start inTurn =
      some (t, [(two true).message, (two false).message]) ∧
    (writers two).machine.Always (fun s m _ _ => (writers two).Whole s m)
      (writers two).start inTurn ∧ t.pipe = [] ∧ ∀ i, t.left i = [] := by
  let s₁ := (writers two).start.write true 4096
  let s₂ := s₁.write true 4096
  let s₃ := s₂.write false BUFSIZ
  let s₄ : Channel Bool UInt8 := { s₃ with pipe := s₃.pipe.drop BUFSIZ }
  let s₅ : Channel Bool UInt8 := { s₄ with pipe := s₄.pipe.drop BUFSIZ }
  have hsize : ∀ i, (two i).message.length = BUFSIZ := fun i => length_message (two i)
  have hpipe₂ : s₂.pipe = (two true).message := by
    have hrest : ((two true).message.drop 4096).take 4096 = (two true).message.drop 4096 :=
      List.take_of_length_le (by rw [List.length_drop, hsize, BUFSIZ_eq])
    simp only [s₂, s₁, Channel.write_pipe, Channel.write_left_self, Writers.start, writers_record,
      List.nil_append, hrest, List.take_append_drop]
  have hpipe : s₃.pipe = (two true).message ++ (two false).message := by
    have hother : s₂.left false = (two false).message := by
      simp only [s₂, s₁, Channel.write_left_of_ne _ Bool.false_ne_true, Writers.start,
        writers_record]
    simp only [s₃, Channel.write_pipe, hpipe₂, hother, List.take_of_length_le (hsize false).le]
  have hlength₃ : BUFSIZ ≤ s₃.pipe.length := by
    rw [hpipe, List.length_append, hsize]
    exact Nat.le_add_right _ _
  have hpipe₄ : s₄.pipe = (two false).message := by
    simp only [s₄, hpipe, List.drop_left' (hsize true)]
  have hgot : s₃.pipe.take BUFSIZ = (two true).message := by
    rw [hpipe, List.take_left' (hsize true)]
  have hgot₄ : s₄.pipe.take BUFSIZ = (two false).message := by
    rw [hpipe₄]
    exact List.take_of_length_le (hsize false).le
  have hmove₁ := Writers.machine_write (writers two) (s := (writers two).start) (i := true)
    (n := 4096) (by decide) (by simp [Writers.start, BUFSIZ_eq])
  have hmove₂ := Writers.machine_write (writers two) (s := s₁) (i := true) (n := 4096) (by decide)
    (by simp [s₁, Writers.start, BUFSIZ_eq])
  have hmove₃ := Writers.machine_write (writers two) (s := s₂) (i := false) (n := BUFSIZ)
    (by decide) (by simp [s₂, s₁, Writers.start, Channel.write])
  have hmove₄ := Writers.machine_read (writers two) (n := BUFSIZ) (by decide) (Nat.le_refl _)
    hlength₃
  have hlength₄ : BUFSIZ ≤ s₄.pipe.length := by rw [hpipe₄, hsize]
  have hmove₅ := Writers.machine_read (writers two) (n := BUFSIZ) (by decide) (Nat.le_refl _)
    hlength₄
  rw [hgot] at hmove₄
  rw [hgot₄] at hmove₅
  refine ⟨s₅, Machine.run_cons hmove₁ (Machine.run_cons hmove₂ (Machine.run_cons hmove₃
    (Machine.run_cons hmove₄ (Machine.run_cons hmove₅ (Machine.run_nil _))))), ?_, ?_, ?_⟩
  · have hread : ∀ s : Channel Bool UInt8, (writers two).Whole s (.read BUFSIZ) := fun _ => rfl
    have hunwritten : ∀ j, (writers two).start.left j = (writers two).record j := by
      intro j
      simp only [Writers.start]
    have hfirst : (writers two).Whole (writers two).start (.write true 4096) :=
      fun j _ => .inr (hunwritten j)
    have hsecond : (writers two).Whole s₁ (.write true 4096) :=
      fun j hj => .inr ((Channel.write_left_of_ne _ hj 4096).trans (hunwritten j))
    have hwritten : (writers two).Whole s₂ (.write false BUFSIZ) := by
      intro j hj
      obtain rfl := Bool.eq_true_of_not_eq_false hj
      left
      simp [s₂, s₁, Writers.start, Channel.write, BUFSIZ_eq]
    -- the first client writes before the second has begun, and the second when it is done
    exact .cons hmove₁ hfirst (.cons hmove₂ hsecond (.cons hmove₃ hwritten
      (.cons hmove₄ (hread s₃) (.cons hmove₅ (hread s₄) trivial))))
  · simp only [s₅, hpipe₄, List.drop_of_length_le (hsize false).le]
  · intro i
    cases i with
    | false => simp [s₅, s₄, s₃, s₂, s₁, Writers.start, Channel.write]
    | true => simp [s₅, s₄, s₃, s₂, s₁, Writers.start, Channel.write, BUFSIZ_eq]

/-- Both clients are served, and nothing is left to write or to read. -/
theorem served_inTurn : ∃ t gots,
    (writers two).machine.run (writers two).start inTurn = some (t, gots) ∧
      Served two t (fifoserver (fun _ => 0) gots) ∧ t.pipe = [] ∧ ∀ i, t.left i = [] := by
  obtain ⟨t, hrun, hwhole, hpipe, hleft⟩ := run_inTurn
  exact ⟨t, _, hrun, served_of_whole two _ hrun hwhole, hpipe, hleft⟩

/-- The second client writes its message while the first is inside its own. -/
def overlapping : List (Move Bool) :=
  [.write true 4096, .write false BUFSIZ, .write true 4096, .read BUFSIZ, .read BUFSIZ]

/-- The second call of `read` begins in the stack of the second client. -/
theorem run_overlapping : ∃ t got bs,
    (writers two).machine.run (writers two).start overlapping = some (t, [got, 0 :: bs]) ∧
      t.pipe = [] ∧ ∀ i, t.left i = [] := by
  let s₁ := (writers two).start.write true 4096
  let s₂ := s₁.write false BUFSIZ
  let s₃ := s₂.write true 4096
  let s₄ : Channel Bool UInt8 := { s₃ with pipe := s₃.pipe.drop BUFSIZ }
  let s₅ : Channel Bool UInt8 := { s₄ with pipe := s₄.pipe.drop BUFSIZ }
  have hpipe : s₃.pipe = (two true).message.take 4096 ++
      ((two false).message ++ (two true).message.drop 4096) := by
    simp [s₃, s₂, s₁, Writers.start, Channel.write, List.take_of_length_le, BUFSIZ_eq]
  have hlength : s₃.pipe.length = BUFSIZ + BUFSIZ := by
    rw [hpipe]
    simp [BUFSIZ_eq]
  have hlength₃ : BUFSIZ ≤ s₃.pipe.length := by omega
  have hlength₄ : s₄.pipe.length = BUFSIZ := by
    rw [List.length_drop, hlength, Nat.add_sub_cancel]
  obtain ⟨bs, hbs⟩ : ∃ bs, s₄.pipe.take BUFSIZ = 0 :: bs := by
    have hbyte : (two false).message[4096]? = some 0 :=
      getElem?_message (two false) (by omega) (by decide)
    -- the first half of the first message and the first half of the second are gone
    apply List.head?_eq_some_iff.mp
    rw [List.head?_eq_getElem?, List.getElem?_take_of_lt (by decide), List.getElem?_drop, hpipe,
      List.getElem?_append_right (by simp [BUFSIZ_eq]),
      List.getElem?_append_left (by simp [BUFSIZ_eq])]
    simpa [BUFSIZ_eq] using hbyte
  have hrun : (writers two).machine.run (writers two).start overlapping =
      some (s₅, [s₃.pipe.take BUFSIZ, s₄.pipe.take BUFSIZ]) :=
    Machine.run_cons (Writers.machine_write _ (by decide) (by simp [Writers.start, BUFSIZ_eq]))
      (Machine.run_cons
        (Writers.machine_write _ (by decide) (by simp [Writers.start, Channel.write]))
        (Machine.run_cons
          (Writers.machine_write _ (by decide) (by simp [Writers.start, Channel.write, BUFSIZ_eq]))
          (Machine.run_cons (Writers.machine_read _ (by decide) (Nat.le_refl _) hlength₃)
            (Machine.run_cons (Writers.machine_read _ (by decide) (Nat.le_refl _) hlength₄.ge)
              (Machine.run_nil _)))))
  have hempty : s₅.pipe = [] := by simp [s₅, hlength₄]
  rw [hbs] at hrun
  refine ⟨s₅, _, bs, hrun, hempty, fun i => ?_⟩
  cases i with
  | false => simp [s₅, s₄, s₃, s₂, s₁, Writers.start, Channel.write]
  | true => simp [s₅, s₄, s₃, s₂, s₁, Writers.start, Channel.write, BUFSIZ_eq]

/-- Both clients have written, and there is one child at most. -/
theorem not_served_overlapping : ∃ t gots,
    (writers two).machine.run (writers two).start overlapping = some (t, gots) ∧
      ¬ Served two t (fifoserver (fun _ => 0) gots) := by
  obtain ⟨t, got, bs, hrun, hpipe, hleft⟩ := run_overlapping
  refine ⟨t, _, hrun, ?_⟩
  rintro ⟨order, -, hchildren, hdrained⟩
  have hmem : ∀ i, i ∈ order := fun i => hdrained hpipe i (hleft i)
  have hle : order.length ≤ 1 := by
    have hcount := length_fifoserver_le (fun _ => 0) [got, 0 :: bs]
    rw [hchildren, List.length_map] at hcount
    apply hcount.trans
    cases hgot : got.head? != some 0 <;> simp [hgot]
  match order, hle with
  | [], _ => exact absurd (hmem true) List.not_mem_nil
  | [i], _ =>
    have htrue := List.mem_singleton.mp (hmem true)
    have hfalse := List.mem_singleton.mp (hmem false)
    exact Bool.noConfusion (htrue.trans hfalse.symm)

end NetworkLabs.Fifo

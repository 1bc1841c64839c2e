import NetworkLabs.Audio.Client
import NetworkLabs.Runtime.Text

/-!
# The audio server

Every expiry of the server's timer sends one datagram. `packet_transfer` reads up to `pySz` bytes of
the file into a buffer on its stack and hands the buffer to `send_socket_data`, which takes it for a
string: the datagram ends where the memory holds its first null byte, inside the block or behind it.
At the end of the file three datagrams `"GOD"` are sent, with their length.

## Main definitions

* `Streamer`, `packetTransfer`, `audiostreamd`: the file as it is read, and the sending of it
* `Carries`: the data datagrams are the file
* `KeepsTransmitting`: no data datagram is taken for the end

## Main results

* `carries_iff`: the files and memories with which the datagrams are the file
* `always_keepsTransmitting_iff`: those with which the client goes on
-/

namespace NetworkLabs.Audio

open CRuntime Blocks Transition

/-! ## The sending -/

/-- `STATES`. -/
inductive States
  | BUSY
  | READY
  deriving DecidableEq

/-- The variables of the sending: the file from where it is read on, `none` for `NULL`. -/
structure Streamer where
  file : Option (List UInt8)
  state : States
  deriving DecidableEq

/-- A datagram, with the place that sends it. -/
inductive Sent
  | data (d : List UInt8)
  | closing (d : List UInt8)
  deriving DecidableEq

/-- `lastThreeBytes`. -/
def lastThreeBytes : List UInt8 := [71, 79, 68]

/-- What the memory from `buf` on holds after `fread`; `frame` is what it held before, the array and
what lies behind it. -/
def afterRead (pySz : ℕ) (rest frame : List UInt8) : List UInt8 :=
  rest.take pySz ++ frame.drop (rest.take pySz).length

/-- `packet_transfer`; `none` when `strlen` runs past the memory. -/
def packetTransfer (pySz : ℕ) (s : Streamer) (frame : List UInt8) :
    Option (Streamer × List Sent) :=
  match s.file with
  | none => some (s, [])
  | some rest =>
    if rest.take pySz ≠ [] then
      if 0 ∈ afterRead pySz rest frame then
        some ({ s with file := some (rest.drop pySz) },
          [.data (cstring (afterRead pySz rest frame))])
      else none
    else
      some ({ s with file := none, state := .READY }, List.replicate 3 (.closing lastThreeBytes))

/-- The server of one client, call by call. -/
def audiostreamd (pySz : ℕ) : Machine Streamer (List UInt8) Sent where
  step := packetTransfer pySz

/-- The server when it begins to send. -/
def Streamer.start (content : List UInt8) : Streamer := ⟨some content, .BUSY⟩

/-- The contents of the data datagrams. -/
def dataOf (evs : List Sent) : List UInt8 :=
  evs.flatMap fun
    | .data d => d
    | .closing _ => []

@[simp] theorem dataOf_append (evs evs' : List Sent) :
    dataOf (evs ++ evs') = dataOf evs ++ dataOf evs' := List.flatMap_append

@[simp] theorem dataOf_data (d : List UInt8) : dataOf [.data d] = d := by
  simp [dataOf]

section Steps

variable {pySz : ℕ} {content rest frame : List UInt8} {frames : List (List UInt8)}
  {s t : Streamer} {o : List Sent}

/-- **What a call can do.** -/
theorem audiostreamd_step_cases (h : (audiostreamd pySz).step s frame = some (t, o)) :
    (s.file = none ∧ t = s ∧ o = []) ∨
      (∃ rest, s.file = some rest ∧ rest.take pySz ≠ [] ∧ 0 ∈ afterRead pySz rest frame ∧
        t = { s with file := some (rest.drop pySz) } ∧
        o = [.data (cstring (afterRead pySz rest frame))]) ∨
      (∃ rest, s.file = some rest ∧ rest.take pySz = [] ∧ t = ⟨none, .READY⟩ ∧
        o = List.replicate 3 (.closing lastThreeBytes)) := by
  change packetTransfer pySz s frame = _ at h
  unfold packetTransfer at h
  split at h
  · next hnone =>
    obtain ⟨rfl, rfl⟩ := Prod.mk.inj (Option.some.inj h)
    exact .inl ⟨hnone, rfl, rfl⟩
  · next rest hsome =>
    split at h
    · next hblock =>
      split at h
      · next hzero =>
        obtain ⟨rfl, rfl⟩ := Prod.mk.inj (Option.some.inj h)
        exact .inr (.inl ⟨rest, hsome, hblock, hzero, rfl, rfl⟩)
      · cases h
    · next hblock =>
      obtain ⟨rfl, rfl⟩ := Prod.mk.inj (Option.some.inj h)
      exact .inr (.inr ⟨rest, hsome, not_not.mp hblock, rfl, rfl⟩)

/-- No datagram holds a null byte. -/
theorem zero_notMem_dataOf (h : (audiostreamd pySz).run s frames = some (t, o)) :
    0 ∉ dataOf o := by
  have hall := Machine.forall_mem_of_run (M := audiostreamd pySz)
    (P := fun e => ∀ d, e = .data d → 0 ∉ d) (fun s frame t o hstep e he d hd => ?_) h
  · intro hmem
    obtain ⟨e, he, hzero⟩ := List.mem_flatMap.mp hmem
    cases e with
    | data d => exact hall _ he d rfl hzero
    | closing d => cases hzero
  · rcases audiostreamd_step_cases hstep with ⟨-, -, rfl⟩ | ⟨rest, -, -, -, -, rfl⟩ |
      ⟨rest, -, -, -, rfl⟩
    · cases he
    · obtain rfl := List.mem_singleton.mp he
      obtain rfl := Sent.data.inj hd
      exact zero_notMem_cstring _
    · rw [List.eq_of_mem_replicate he] at hd
      cases hd

theorem take_eq_nil_iff_of_pos (hp : 1 ≤ pySz) : rest.take pySz = [] ↔ rest = [] := by
  rw [List.take_eq_nil_iff]
  exact or_iff_right (Nat.one_le_iff_ne_zero.mp hp)

/-- Once the file is closed nothing is sent. -/
theorem run_closed (hs : s.file = none) (frames : List (List UInt8)) :
    (audiostreamd pySz).run s frames = some (s, []) := by
  induction frames with
  | nil => rfl
  | cons frame frames ih =>
    have hstep : (audiostreamd pySz).step s frame = some (s, []) := by
      simp [audiostreamd, packetTransfer, hs]
    exact Machine.run_cons hstep ih

/-- A call on a block without a null byte: the memory behind it is sent up to the first one. -/
theorem cstring_afterRead (hrest : 0 ∉ rest) : cstring (afterRead pySz rest frame) =
    rest.take pySz ++ cstring (frame.drop (rest.take pySz).length) :=
  cstring_append_of_notMem (fun h => hrest (List.mem_of_mem_take h)) _

/-- What is sent is never less than the file. -/
theorem length_le_length_dataOf (hp : 1 ≤ pySz) (hrest : 0 ∉ rest) (hs : s.file = some rest)
    (h : (audiostreamd pySz).run s frames = some (t, o)) (ht : t.file = none) :
    rest.length ≤ (dataOf o).length := by
  induction frames generalizing s rest o with
  | nil =>
    obtain ⟨rfl, rfl⟩ := by simpa using h
    rw [hs] at ht
    cases ht
  | cons frame frames ih =>
    obtain ⟨u, o₁, o₂, hstep, hrun, rfl⟩ := Machine.run_cons_eq_some_iff.mp h
    rcases audiostreamd_step_cases hstep with ⟨hnone, -, -⟩ | ⟨r, hr, -, -, rfl, rfl⟩ |
      ⟨r, hr, hempty, rfl, rfl⟩
    · rw [hs] at hnone
      cases hnone
    · obtain rfl := Option.some.inj (hs.symm.trans hr)
      have hle := ih (fun hmem => hrest (List.mem_of_mem_drop hmem)) rfl hrun
      rw [List.length_drop] at hle
      rw [dataOf_append, dataOf_data, cstring_afterRead hrest]
      simp only [List.length_append, List.length_take]
      omega
    · obtain rfl := Option.some.inj (hs.symm.trans hr)
      have hnil : rest = [] := (take_eq_nil_iff_of_pos hp).mp hempty
      rw [hnil]
      exact Nat.zero_le _

end Steps

/-! ## The file as it arrives -/

/-- All calls up to the end of the file are completed, and the data datagrams, one after the other,
are the file. -/
def Carries (pySz : ℕ) (content : List UInt8) (frames : List (List UInt8)) : Prop :=
  ∃ t o, (audiostreamd pySz).run (Streamer.start content) frames = some (t, o) ∧
    t.file = none ∧ dataOf o = content

/-- In every call that reads a block, the byte behind the block is a null byte. -/
def Terminated (pySz : ℕ) : List UInt8 → List (List UInt8) → Prop
  | _, [] => True
  | rest, frame :: frames => rest ≠ [] →
      frame[(rest.take pySz).length]? = some 0 ∧ Terminated pySz (rest.drop pySz) frames

section Carried

variable {pySz : ℕ} {rest frame : List UInt8} {frames : List (List UInt8)}

/-- A call on a block that a null byte follows sends the block. -/
theorem step_of_terminated (hrest : 0 ∉ rest) (hne : rest.take pySz ≠ [])
    (hend : frame[(rest.take pySz).length]? = some 0) (st : States) :
    (audiostreamd pySz).step ⟨some rest, st⟩ frame =
      some (⟨some (rest.drop pySz), st⟩, [.data (rest.take pySz)]) := by
  have hdrop : 0 ∈ frame.drop (rest.take pySz).length := by
    rw [← List.head?_drop] at hend
    exact List.mem_of_mem_head? hend
  have hzero : 0 ∈ afterRead pySz rest frame := List.mem_append_right _ hdrop
  have hnil := (cstring_eq_nil_iff hdrop).mpr (List.head?_drop.trans hend)
  have hsent : cstring (afterRead pySz rest frame) = rest.take pySz := by
    rw [cstring_afterRead hrest, hnil, List.append_nil]
  show packetTransfer pySz ⟨some rest, st⟩ frame = _
  simp only [packetTransfer]
  rw [if_pos hne, if_pos hzero, hsent]

/-- When a call and those after it have sent what was left of the file, the call has sent nothing
but its block, and the others the rest. -/
theorem terminated_of_carried (hp : 1 ≤ pySz) (hrest : 0 ∉ rest)
    (hzero : 0 ∈ afterRead pySz rest frame) {s t : Streamer} {o : List Sent}
    (hs : s.file = some (rest.drop pySz))
    (hrun : (audiostreamd pySz).run s frames = some (t, o)) (ht : t.file = none)
    (ho : cstring (afterRead pySz rest frame) ++ dataOf o = rest) :
    frame[(rest.take pySz).length]? = some 0 ∧ dataOf o = rest.drop pySz := by
  -- what is sent behind the block would make the whole too long
  have hlong := length_le_length_dataOf hp (fun h => hrest (List.mem_of_mem_drop h)) hs hrun ht
  rw [cstring_afterRead hrest, List.append_assoc] at ho
  have hsplit := List.append_cancel_left (ho.trans (List.take_append_drop pySz rest).symm)
  have hextra : cstring (frame.drop (rest.take pySz).length) = [] := by
    have hlen := congrArg List.length hsplit
    rw [List.length_append] at hlen
    exact List.eq_nil_of_length_eq_zero (by omega)
  have hdrop : 0 ∈ frame.drop (rest.take pySz).length :=
    (List.mem_append.mp hzero).resolve_left fun h => hrest (List.mem_of_mem_take h)
  rw [hextra, List.nil_append] at hsplit
  exact ⟨List.head?_drop.symm.trans ((cstring_eq_nil_iff hdrop).mp hextra), hsplit⟩

/-- **A file without null bytes arrives exactly when every block is terminated.** -/
theorem carried_iff_terminated (hp : 1 ≤ pySz) (hrest : 0 ∉ rest)
    (hcalls : numBlocks rest.length pySz < frames.length) (st : States) :
    (∃ t o, (audiostreamd pySz).run ⟨some rest, st⟩ frames = some (t, o) ∧ t.file = none ∧
      dataOf o = rest) ↔ Terminated pySz rest frames := by
  induction frames generalizing rest with
  | nil => exact absurd hcalls (Nat.not_lt_zero _)
  | cons frame frames ih =>
    by_cases hnil : rest = []
    -- the end of the file
    · refine iff_of_true ?_ fun hne => absurd hnil hne
      have hstep : (audiostreamd pySz).step ⟨some rest, st⟩ frame =
          some (⟨none, .READY⟩, List.replicate 3 (.closing lastThreeBytes)) := by
        simp [audiostreamd, packetTransfer, hnil]
      refine ⟨_, _, Machine.run_cons hstep (run_closed rfl frames), rfl, ?_⟩
      rw [hnil]
      rfl
    · have hne : rest.take pySz ≠ [] := fun h => hnil ((take_eq_nil_iff_of_pos hp).mp h)
      have hrest' : 0 ∉ rest.drop pySz := fun h => hrest (List.mem_of_mem_drop h)
      have hcalls' : numBlocks (rest.drop pySz).length pySz < frames.length := by
        have hpos : 1 ≤ rest.length := List.length_pos_iff.mpr hnil
        rw [numBlocks_sub hp hpos, List.length_cons] at hcalls
        rw [List.length_drop]
        omega
      have hiff := ih hrest' hcalls'
      constructor
      · rintro ⟨t, o, hrun, ht, ho⟩ -
        obtain ⟨u, o₁, o₂, hstep, hmore, rfl⟩ := Machine.run_cons_eq_some_iff.mp hrun
        rcases audiostreamd_step_cases hstep with ⟨hnone, -, -⟩ | ⟨r, hr, -, hzero, rfl, rfl⟩ |
          ⟨r, hr, hempty, -, -⟩
        · cases hnone
        · obtain rfl := Option.some.inj hr
          rw [dataOf_append, dataOf_data] at ho
          obtain ⟨hend, hsplit⟩ := terminated_of_carried hp hrest hzero (by exact rfl) hmore ht ho
          exact ⟨hend, hiff.mp ⟨t, o₂, hmore, ht, hsplit⟩⟩
        · obtain rfl := Option.some.inj hr
          exact absurd hempty hne
      · intro hterm
        obtain ⟨hend, hterm'⟩ := hterm hnil
        obtain ⟨t, o, hrun, ht, ho⟩ := hiff.mpr hterm'
        refine ⟨t, _, Machine.run_cons (step_of_terminated hrest hne hend st) hrun, ht, ?_⟩
        rw [dataOf_append, dataOf_data, ho, List.take_append_drop]

end Carried

/-- **The data datagrams are the file exactly when** the file has no null byte and in every call the
memory has one just behind the block. -/
theorem carries_iff (pySz : ℕ) (hp : 1 ≤ pySz) (content : List UInt8)
    (frames : List (List UInt8)) (hcalls : numBlocks content.length pySz < frames.length) :
    Carries pySz content frames ↔ 0 ∉ content ∧ Terminated pySz content frames := by
  constructor
  · rintro ⟨t, o, hrun, ht, ho⟩
    have hzero : 0 ∉ content := ho ▸ zero_notMem_dataOf hrun
    exact ⟨hzero, (carried_iff_terminated hp hzero hcalls .BUSY).mp ⟨t, o, hrun, ht, ho⟩⟩
  · rintro ⟨hzero, hterm⟩
    exact (carried_iff_terminated hp hzero hcalls .BUSY).mpr hterm

/-- Three bytes in blocks of two, each with a null byte behind it. -/
theorem carries_threeBytes : Carries 2 [1, 2, 3] [[9, 9, 0], [9, 0], []] :=
  (carries_iff 2 (by decide) [1, 2, 3] [[9, 9, 0], [9, 0], []] (by decide)).mpr
    ⟨by decide, by simp [Terminated]⟩

/-- A null byte in the file ends its datagram, and what follows in the block is never sent. -/
theorem not_carries_nullByte : ¬ Carries 3 [1, 0, 2] [[0, 0, 0, 0], [0, 0, 0, 0]] := by
  rintro ⟨t, o, hrun, -, ho⟩
  have hsent : (audiostreamd 3).run (Streamer.start [1, 0, 2]) [[0, 0, 0, 0], [0, 0, 0, 0]] =
      some (⟨none, .READY⟩, .data [1] :: List.replicate 3 (.closing lastThreeBytes)) := by
    decide
  obtain ⟨-, rfl⟩ := Prod.mk.inj (Option.some.inj (hrun.symm.trans hsent))
  exact absurd ho (by decide)

/-! ## The end of the transmission -/

/-- A client that is transmitting goes on after every data datagram. -/
def KeepsTransmitting (L : Listener) (_ : Streamer) (_ : List UInt8) (_ : Streamer)
    (o : List Sent) : Prop :=
  ∀ d, .data d ∈ o → ∀ c : Player, c.transmitting = true →
    (packetHandler L c d).1.transmitting = true

/-- What the server has in memory reads like the end of the transmission: it begins with `"GOD"`,
and the client receives no byte more. -/
def ReadsLikeEnd (pyld_sz : ℕ) (memory : List UInt8) : Prop :=
  god <+: memory ∧ 3 ≤ pyld_sz ∧ (pyld_sz = 3 ∨ memory[3]? = some 0)

/-- No block, with what lies behind it, reads like the end. -/
def Distinct (pySz pyld_sz : ℕ) (s : Streamer) (frame : List UInt8) : Prop :=
  ∀ rest, s.file = some rest → rest.take pySz ≠ [] →
    ¬ ReadsLikeEnd pyld_sz (afterRead pySz rest frame)

section Ends

variable {pySz : ℕ} {L : Listener}

/-- The client stops on a datagram exactly when the datagram, cut to its buffer, is `"GOD"`. -/
theorem transmitting_packetHandler_iff {c : Player} (hc : c.transmitting = true)
    (d : List UInt8) : (packetHandler L c d).1.transmitting = true ↔ d.take L.pyld_sz ≠ god := by
  by_cases hd : d.take L.pyld_sz = god
  · rw [packetHandler_of_god L hc hd]
    simp [hd]
  · rw [packetHandler_of_data L hc hd]
    exact iff_of_true hc hd

theorem take_cstring_eq_god_iff {memory : List UInt8} (hzero : 0 ∈ memory) (n : ℕ) :
    (cstring memory).take n = god ↔ ReadsLikeEnd n memory := by
  obtain ⟨t, ht⟩ := exists_eq_cstring_append hzero
  have hnul := zero_notMem_cstring memory
  generalize cstring memory = text at ht hnul
  subst ht
  constructor
  · intro htake
    have hlen := congrArg List.length htake
    have hgod : god.length = 3 := rfl
    rw [List.length_take, hgod] at hlen
    refine ⟨(htake ▸ List.take_prefix n text).trans (List.prefix_append ..), by omega, ?_⟩
    by_cases hn : n = 3
    · exact .inl hn
    · have htext : text.length = 3 := by omega
      exact .inr (by simp [← htext])
  · rintro ⟨hpre, hn, hend⟩
    -- the marker lies before the null byte
    have hlong : god.length ≤ text.length := by
      by_contra hshort
      have hle : (text ++ [0]).length ≤ god.length := by
        rw [List.length_append, List.length_singleton]
        omega
      have hzero' : text ++ [0] <+: text ++ 0 :: t :=
        (List.prefix_append_right_inj text).mpr ⟨t, rfl⟩
      have hin := (List.prefix_of_prefix_length_le hzero' hpre hle).subset
        (List.mem_append_right _ (List.mem_singleton_self 0))
      exact absurd hin (by decide)
    obtain ⟨more, rfl⟩ := List.prefix_of_prefix_length_le hpre (List.prefix_append ..) hlong
    rcases hend with rfl | hend
    · exact List.take_left' rfl
    · cases more with
      | nil => exact List.take_of_length_le hn
      | cons b more =>
        obtain rfl : b = 0 := by simpa [god] using hend
        exact absurd (by simp) hnul

/-- **The client takes no data for the end, exactly when** no block of the file, together with what
the memory holds behind it, reads like the end. -/
theorem always_keepsTransmitting_iff (pySz : ℕ) (L : Listener) (content : List UInt8)
    (frames : List (List UInt8)) :
    (audiostreamd pySz).Always (KeepsTransmitting L) (Streamer.start content) frames ↔
      (audiostreamd pySz).Always (fun s frame _ _ => Distinct pySz L.pyld_sz s frame)
        (Streamer.start content) frames := by
  refine Machine.always_congr (I := fun _ => True)
    (fun s frame t o _ hstep => ⟨?_, fun _ => trivial⟩) trivial frames
  rcases audiostreamd_step_cases hstep with ⟨hnone, rfl, rfl⟩ |
    ⟨rest, hsome, hne, hzero, rfl, rfl⟩ | ⟨rest, hsome, hempty, rfl, rfl⟩
  · refine iff_of_true (fun d hd => absurd hd List.not_mem_nil) fun rest hrest => ?_
    rw [hnone] at hrest
    cases hrest
  · constructor
    · intro hkeeps r hr _ hlike
      obtain rfl := Option.some.inj (hsome.symm.trans hr)
      have hon := hkeeps _ (List.mem_singleton_self _) ⟨true, 0, fun _ => 0, 0⟩ rfl
      rw [transmitting_packetHandler_iff rfl, Ne, take_cstring_eq_god_iff hzero] at hon
      exact hon hlike
    · intro hdistinct d hd c hc
      obtain rfl := Sent.data.inj (List.mem_singleton.mp hd)
      rw [transmitting_packetHandler_iff hc, Ne, take_cstring_eq_god_iff hzero]
      exact hdistinct rest hsome hne
  · refine iff_of_true (fun d hd => ?_) fun r hr hne => ?_
    · exact Sent.noConfusion (List.eq_of_mem_replicate hd)
    · obtain rfl := Option.some.inj (hsome.symm.trans hr)
      exact absurd hempty hne

/-- A block whose fourth byte is null is sent as `"GOD"`, with four bytes of the file to come. -/
theorem not_always_keepsTransmitting_god : ¬ (audiostreamd 4).Always
    (KeepsTransmitting { smallListener with pyld_sz := 4 })
    (Streamer.start [71, 79, 68, 0, 1, 2, 3, 4]) [[0, 0, 0, 0, 0]] := by
  intro h
  have hkeeps := (h _ _ rfl).1
  have hon := hkeeps god (List.mem_singleton_self _) ⟨true, 0, fun _ => 0, 0⟩ rfl
  exact Bool.noConfusion hon

end Ends

end NetworkLabs.Audio

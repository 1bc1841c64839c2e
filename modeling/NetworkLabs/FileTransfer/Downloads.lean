import Mathlib.Logic.Function.Basic
import NetworkLabs.FileTransfer.Transfer
import NetworkLabs.Foundation.Machine
import NetworkLabs.Runtime.Files

/-!
# Clients that store the same file

A client looks whether there is a file of the name that it asks for, and ends if there is. It
creates the file only when the first bytes have arrived, without cutting it off, so that clients
that are started together all write to one file, each at its own offset. When its stream has ended,
a client reads the file back byte by byte and checks the sum, while others may still be writing.

When all of them get the same stream this does no harm: the file is at any time a beginning of the
stream, and no client finds anything wrong.

## Main definitions

* `Download`: a client of `fileclient`
* `Directory`, `Directory.Step`: the file and all clients
* `Directory.Stored`: the invariant

## Main results

* `Directory.Stored.step`: one step of any client
* `Directory.exists_finished`: a client that has received everything can come to a verdict
* `downloads_agree`: what the clients find of a file that they store together
-/

namespace NetworkLabs.FileTransfer

open CRuntime Transition TrailerSum

/-! ## The clients -/

/-- The end of `validateCheckSum`, behind its loop. -/
def compareCheckSum (stack : Mem UInt8) (check_sum : BitVec 64) (file : List UInt8) : Bool :=
  let last8 := if 8 ≤ file.length then file.drop (file.length - 8) else stack.read 8
  let rhs := last8.foldl (fun s c => s - signedChar c) check_sum
  let lhs := be64toh (value64 last8)
  lhs == rhs

theorem validateCheckSum_eq_compare (stack : Mem UInt8) (file : List UInt8) :
    validateCheckSum stack file = compareCheckSum stack (weigh signedChar file) file := by
  rw [validateCheckSum, foldl_add_eq, zero_add, compareCheckSum]

/-- A client: before it looks for the file, refused, connected, with the offset of what it has
stored, in the loop of `validateCheckSum` and behind it, with its verdict, and stopped on the way by
a failure or a signal. -/
inductive Download
  | idle
  | refused
  | connected
  | storing (offset : ℕ)
  | checking (offset : ℕ) (check_sum : BitVec 64)
  | summed (check_sum : BitVec 64)
  | finished (verdict : Bool)
  | stopped

/-- The file of the name that is asked for, and the clients. -/
structure Directory where
  file : Option (List UInt8)
  client : ℕ → Download

namespace Directory

/-- No client has started, and there is no file. -/
def init : Directory where
  file := none
  client _ := .idle

/-- What a descriptor of the file reads. -/
def contents (s : Directory) : List UInt8 := s.file.getD []

section Step

variable (stream : List UInt8)

/-- A step of a client; what it reads from its connection comes in pieces of any length. -/
inductive Step : Directory → Directory → Prop
  | start {s j} : s.client j = .idle →
      Step s { s with
        client := Function.update s.client j (if s.file.isSome then .refused else .connected) }
  | create {s j} : s.client j = .connected →
      Step s { file := some s.contents, client := Function.update s.client j (.storing 0) }
  | write {s j offset} (k : ℕ) : s.client j = .storing offset → offset + k ≤ stream.length →
      Step s {
        file := some (pwrite s.contents offset ((stream.drop offset).take k))
        client := Function.update s.client j (.storing (offset + k)) }
  | check {s j} : s.client j = .storing stream.length →
      Step s { s with client := Function.update s.client j (.checking 0 0) }
  | read {s j offset check_sum c} : s.client j = .checking offset check_sum →
      s.contents[offset]? = some c →
      Step s { s with
        client := Function.update s.client j (.checking (offset + 1) (check_sum + signedChar c)) }
  | eof {s j offset check_sum} : s.client j = .checking offset check_sum →
      s.contents[offset]? = none →
      Step s { s with client := Function.update s.client j (.summed check_sum) }
  | compare {s j check_sum} (stack : Mem UInt8) : s.client j = .summed check_sum →
      Step s { s with
        client := Function.update s.client j
          (.finished (compareCheckSum stack check_sum s.contents)) }
  | stop {s j} : Step s { s with client := Function.update s.client j .stopped }

/-- What is true of a client when the first `m` bytes of the stream are stored. -/
def Fits (m : ℕ) : Download → Prop
  | .storing offset => offset ≤ m
  | .checking offset check_sum => m = stream.length ∧ offset ≤ stream.length ∧
      check_sum = weigh signedChar (stream.take offset)
  | .summed check_sum => m = stream.length ∧ check_sum = weigh signedChar stream
  | .finished verdict => m = stream.length ∧ verdict = true
  | _ => True

/-- The file is a beginning of the stream, at least as far as every client has come. -/
structure Stored (s : Directory) (m : ℕ) : Prop where
  le : m ≤ stream.length
  contents : s.contents = stream.take m
  client : ∀ j, Fits stream m (s.client j)

end Step

variable {stream : List UInt8} {s t : Directory} {m n : ℕ}

theorem Stored.init : Stored stream Directory.init 0 where
  le := Nat.zero_le _
  contents := rfl
  client _ := trivial

/-- More of the stream is stored. -/
theorem Fits.mono {c : Download} (h : Fits stream m c) (hle : m ≤ n) (hn : n ≤ stream.length) :
    Fits stream n c := by
  cases c with
  | storing offset => exact le_trans h hle
  | checking offset check_sum => exact ⟨hn.antisymm (h.1 ▸ hle), h.2⟩
  | summed check_sum => exact ⟨hn.antisymm (h.1 ▸ hle), h.2⟩
  | finished verdict => exact ⟨hn.antisymm (h.1 ▸ hle), h.2⟩
  | _ => trivial

/-- A client moves, and the others are as they were. -/
theorem fits_update {client : ℕ → Download} (hs : ∀ i, Fits stream m (client i)) {j : ℕ}
    {c : Download} (hc : Fits stream m c) :
    ∀ i, Fits stream m (Function.update client j c i) := by
  rw [Function.forall_update_iff client fun _ c => Fits stream m c]
  exact ⟨hc, fun i _ => hs i⟩

/-- A step of a client that leaves the file alone. -/
theorem Stored.move (hs : Stored stream s m) {j : ℕ} {c : Download} (hc : Fits stream m c) :
    Stored stream { s with client := Function.update s.client j c } m where
  le := hs.le
  contents := hs.contents
  client := fits_update hs.client hc

/-- **One step of any client**, where the stream ends in its sum. -/
theorem Stored.step {p : List UInt8} (hs : Stored (withCheckSum p) s m)
    (h : Step (withCheckSum p) s t) : ∃ n, m ≤ n ∧ Stored (withCheckSum p) t n := by
  cases h with
  | start hidle =>
    refine ⟨m, le_rfl, hs.move ?_⟩
    split_ifs <;> trivial
  | create hconnected =>
    exact ⟨m, le_rfl, hs.le, hs.contents, fits_update hs.client (Nat.zero_le m)⟩
  | @write j offset k hstoring hk =>
    have hoffset : offset ≤ m := by
      have hj := hs.client j
      rwa [hstoring] at hj
    have hle := le_max_left m (offset + k)
    have hmax : max m (offset + k) ≤ (withCheckSum p).length := max_le hs.le hk
    refine ⟨_, hle, hmax, ?_, ?_⟩
    · have hwritten := pwrite_pieces hoffset hs.le hk
      rwa [← hs.contents] at hwritten
    · exact fits_update (fun i => (hs.client i).mono hle hmax) (le_max_right m (offset + k))
  | @check j hstored =>
    have hall := hs.client j
    rw [hstored] at hall
    refine ⟨m, le_rfl, hs.move ⟨hs.le.antisymm hall, Nat.zero_le _, ?_⟩⟩
    rw [List.take_zero]
    rfl
  | @read j offset check_sum c hchecking hread =>
    have hj := hs.client j
    rw [hchecking] at hj
    obtain ⟨rfl, -, rfl⟩ := hj
    rw [hs.contents, List.take_length] at hread
    obtain ⟨hlt, rfl⟩ := List.getElem?_eq_some_iff.mp hread
    refine ⟨_, le_rfl, hs.move ⟨rfl, hlt, ?_⟩⟩
    rw [← List.take_append_getElem hlt, weigh_append]
    simp [weigh]
  | @eof j offset check_sum hchecking hread =>
    have hj := hs.client j
    rw [hchecking] at hj
    obtain ⟨rfl, -, rfl⟩ := hj
    rw [hs.contents, List.take_length, List.getElem?_eq_none_iff] at hread
    refine ⟨_, le_rfl, hs.move ⟨rfl, ?_⟩⟩
    rw [List.take_of_length_le hread]
  | @compare j check_sum stack hsummed =>
    have hj := hs.client j
    rw [hsummed] at hj
    obtain ⟨rfl, rfl⟩ := hj
    refine ⟨_, le_rfl, hs.move ⟨rfl, ?_⟩⟩
    have hlen : 8 ≤ (withCheckSum p).length := by
      rw [length_withCheckSum]
      exact Nat.le_add_left ..
    rw [hs.contents, List.take_length, ← validateCheckSum_eq_compare, validateCheckSum_iff _ hlen]
    exact ⟨p, rfl⟩
  | stop => exact ⟨m, le_rfl, hs.move trivial⟩

/-- What is stored is stored in every state that follows. -/
theorem Stored.of_reachable {p : List UInt8} (hs : Stored (withCheckSum p) s m)
    (h : Reachable (· = s) (Step (withCheckSum p)) t) :
    ∃ n, m ≤ n ∧ Stored (withCheckSum p) t n := by
  induction h with
  | init heq =>
    obtain rfl := heq
    exact ⟨m, le_rfl, hs⟩
  | step _ hst ih =>
    obtain ⟨n, hle, ht⟩ := ih
    obtain ⟨k, hle', hu⟩ := ht.step hst
    exact ⟨k, hle.trans hle', hu⟩

/-- When all of the stream is stored, it is the file. -/
theorem Stored.file_eq {p : List UInt8}
    (hs : Stored (withCheckSum p) s (withCheckSum p).length) : s.file = some (withCheckSum p) := by
  have hcontents : s.file.getD [] = withCheckSum p := by
    have h := hs.contents
    rwa [List.take_length] at h
  cases hfile : s.file with
  | none =>
    -- the sum is always there, so that the stream is not empty
    rw [hfile] at hcontents
    exact absurd hcontents.symm (withCheckSum_ne_nil p)
  | some g =>
    rw [hfile] at hcontents
    exact congrArg some hcontents

/-- A client that has received everything can sum up any beginning of the file, -/
theorem exists_checking {p : List UInt8} {j : ℕ} (hfile : s.file = some (withCheckSum p))
    (hall : s.client j = .storing (withCheckSum p).length) (hn : n ≤ (withCheckSum p).length) :
    ∃ check_sum, Reachable (· = s) (Step (withCheckSum p))
      { s with client := Function.update s.client j (.checking n check_sum) } := by
  induction n with
  | zero =>
    have hself : Reachable (· = s) (Step (withCheckSum p)) s := .init rfl
    exact ⟨0, hself.step (.check hall)⟩
  | succ n ih =>
    obtain ⟨check_sum, hreach⟩ := ih (Nat.le_of_succ_le hn)
    have hread : s.contents[n]? = some ((withCheckSum p).get ⟨n, hn⟩) := by
      rw [contents, hfile, Option.getD_some, List.get_eq_getElem]
      exact List.getElem?_eq_getElem hn
    have hnext := hreach.step (.read (j := j) (Function.update_self ..) hread)
    rw [Function.update_idem] at hnext
    exact ⟨_, hnext⟩

/-- and so come to a verdict, while the others wait. -/
theorem exists_finished {p : List UInt8} {j : ℕ} (hfile : s.file = some (withCheckSum p))
    (hall : s.client j = .storing (withCheckSum p).length) :
    ∃ verdict, Reachable (· = s) (Step (withCheckSum p))
      { s with client := Function.update s.client j (.finished verdict) } := by
  obtain ⟨check_sum, hreach⟩ := exists_checking hfile hall le_rfl
  have hend : s.contents[(withCheckSum p).length]? = none := by
    rw [contents, hfile, Option.getD_some]
    exact List.getElem?_eq_none le_rfl
  have hsummed := hreach.step (.eof (j := j) (Function.update_self ..) hend)
  have hfinished := hsummed.step (.compare (j := j) (fun _ => 0) (Function.update_self ..))
  rw [Function.update_idem, Function.update_idem] at hfinished
  exact ⟨_, hfinished⟩

end Directory

/-- **Clients that store the same file together** do no harm. In any interleaving of their reads and
writes, with clients that stop on the way, the file is a beginning of the stream; when a client has
received all of it, the file is the whole stream, then and in every state that follows; and no
client comes to a verdict but a match. -/
theorem downloads_agree (p : List UInt8) {s : Directory}
    (h : Reachable (· = .init) (Directory.Step (withCheckSum p)) s) :
    (∃ m, s.contents = (withCheckSum p).take m) ∧
      (∀ j, s.client j = .storing (withCheckSum p).length →
        ∀ t, Reachable (· = s) (Directory.Step (withCheckSum p)) t →
          t.file = some (withCheckSum p)) ∧
      ∀ j verdict, s.client j = .finished verdict →
        verdict = true ∧ s.file = some (withCheckSum p) := by
  obtain ⟨m, -, hs⟩ := Directory.Stored.init.of_reachable h
  refine ⟨⟨m, hs.contents⟩, ?_, ?_⟩
  · intro j hall t ht
    have hj := hs.client j
    rw [hall] at hj
    obtain ⟨n, hle, hn⟩ := hs.of_reachable ht
    obtain rfl := hn.le.antisymm (le_trans hj hle)
    exact hn.file_eq
  · intro j verdict hfinished
    have hj := hs.client j
    rw [hfinished] at hj
    obtain ⟨rfl, hmatch⟩ := hj
    exact ⟨hmatch, hs.file_eq⟩

/-- Two clients store the sum of an empty file; one of them has checked it while the other has
written three bytes of it. -/
theorem downloads_agree_two : ∃ s : Directory, s.client 0 = .finished true ∧
    s.client 1 = .storing 3 ∧ s.file = some (withCheckSum []) := by
  have hstart : Reachable (· = .init) (Directory.Step (withCheckSum [])) .init := .init rfl
  have hboth := (hstart.step (.start (j := 0) rfl)).step (.start (j := 1) rfl)
  have hcreated := (hboth.step (.create (j := 0) rfl)).step (.create (j := 1) rfl)
  have hbegun := hcreated.step (.write (j := 1) 3 rfl (by decide))
  have hstored := hbegun.step (.write (j := 0) (withCheckSum []).length rfl (by decide))
  have hfile := (downloads_agree [] hstored).2.1 0 rfl _ (.init rfl)
  obtain ⟨verdict, hchecked⟩ := Directory.exists_finished (j := 0) hfile rfl
  have hfinished := hstored.trans hchecked
  obtain ⟨rfl, hwhole⟩ := (downloads_agree [] hfinished).2.2 0 verdict rfl
  exact ⟨_, rfl, rfl, hwhole⟩

end NetworkLabs.FileTransfer

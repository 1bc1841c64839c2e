import NetworkLabs.FileTransfer.Programs

/-!
# A file from a server to a client

Any of the servers works with any of the clients: what one writes is what the other expects behind
a file, whichever way the file and the stream are cut into pieces.

A failed read of the file ends the C server's loop by its condition, like the end of the file, and
the test for the failure inside the loop is never true. What was read so far is sent with a correct
checksum, and the client accepts it.

## Main definitions

* `ServerProgram`, `ClientProgram`: the programs that can be paired
* `FileReads`: the reads of a file, which may end in a failure
* `NeverShort`: no accepted file is shorter than the server's

## Main results

* `transfer_interoperates`: every pairing, without failures
* `neverShort_iff`: the C programs, with failures
-/

namespace NetworkLabs.FileTransfer

open CRuntime TrailerSum Streams

/-! ## Without failures -/

/-- `fileserver.c` and `FileServer.java`. -/
inductive ServerProgram
  | fileserver
  | FileServer

/-- `fileclient.c` and `FileClient.java`. -/
inductive ClientProgram
  | fileclient
  | FileClient

/-- What a server writes to the socket. -/
def ServerProgram.stream : ServerProgram → List ReadResult → Option (List UInt8)
  | .fileserver => FileTransfer.fileserver
  | .FileServer => Java.fileServer

/-- What a client does with the socket; `stack` is what the C client's `last8` holds. -/
def ClientProgram.run (stack : Mem UInt8) : ClientProgram → List ReadResult → Option ClientEnd
  | .fileclient => FileTransfer.fileclient stack
  | .FileClient => Java.makeConnection

theorem withCheckSum_ne_nil (p : List UInt8) : withCheckSum p ≠ [] := by
  intro h
  have hlen := length_withCheckSum p
  rw [h] at hlen
  exact absurd hlen (by simp)

/-- Every server sends the file with its checksum, for every way it reads the file. -/
theorem stream_eq (server : ServerProgram) {B : ℕ} {p : List UInt8} (reads : Segmentation B p) :
    server.stream (results reads .eof) = some (withCheckSum p) := by
  cases server with
  | fileserver => exact fileserver_eq reads (by decide)
  | FileServer => exact Java.fileServer_eq reads

/-- The C client accepts a file with its checksum. -/
theorem fileclient_withCheckSum (stack : Mem UInt8) {B : ℕ} {p : List UInt8}
    (arrival : Segmentation B (withCheckSum p)) :
    fileclient stack (results arrival .eof) =
      some (.verdict (withCheckSum p) true (withCheckSum p).length) := by
  have hlen : 8 ≤ (withCheckSum p).length := by
    rw [length_withCheckSum]
    omega
  rw [fileclient_eq stack arrival (withCheckSum_ne_nil p),
    (validateCheckSum_iff stack hlen).mpr ⟨p, rfl⟩]

/-- **Every server works with every client.** The client stores the file with the big-endian sum of
its signed bytes behind it, and accepts it. -/
theorem transfer_interoperates (server : ServerProgram) (client : ClientProgram)
    {p : List UInt8} (hp : p.length < 2 ^ 31 - 8) {B : ℕ} (reads : Segmentation B p)
    (stack : Mem UInt8) :
    ∃ stream, server.stream (results reads .eof) = some stream ∧
      ∀ {B' : ℕ} (arrival : Segmentation B' stream), ∃ total,
        client.run stack (results arrival .eof) =
          some (.verdict (p ++ (bytes64 (weigh signedChar p)).reverse) true total) := by
  refine ⟨withCheckSum p, stream_eq server reads, ?_⟩
  intro B' arrival
  have hlen := length_withCheckSum p
  -- the writer is the same for all, so only the reader matters
  cases client with
  | fileclient => exact ⟨_, fileclient_withCheckSum stack arrival⟩
  | FileClient =>
    have hmin : 8 ≤ (withCheckSum p).length := by omega
    have hint : (withCheckSum p).length < 2 ^ 31 := by omega
    obtain ⟨verdict, hverdict, haccepts⟩ := Java.validateCheckSum_eq hmin hint
    rw [haccepts.mpr ⟨p, rfl⟩] at hverdict
    exact ⟨_, Java.makeConnection_eq arrival (withCheckSum_ne_nil p) hverdict⟩

/-- Two bytes read one at a time, one of them negative as a `char`. -/
def twoBytes : Segmentation 1 ([200, 1] : List UInt8) where
  pieces := [[200], [1]]
  flatten_eq := rfl
  ne_nil := by decide
  length_le := by decide

theorem transfer_interoperates_twoBytes :
    ∃ stream, Java.fileServer (results twoBytes .eof) = some stream ∧
      ∀ {B : ℕ} (arrival : Segmentation B stream), ∃ total,
        fileclient (fun _ => 0) (results arrival .eof) =
          some (.verdict [200, 1, 255, 255, 255, 255, 255, 255, 255, 201] true total) :=
  transfer_interoperates .FileServer .fileclient (by decide) twoBytes fun _ => 0

/-! ## With failures -/

/-- The reads of a file of content `p`: what they gave before the last one, which gives the end of
the file or fails. -/
structure FileReads (B : ℕ) (p : List UInt8) where
  content : List UInt8
  isPrefix : content <+: p
  seg : Segmentation B content
  failed : Bool
  complete : failed = false → content = p

/-- The results of these reads. -/
def FileReads.results {B : ℕ} {p : List UInt8} (reads : FileReads B p) : List ReadResult :=
  FileTransfer.results reads.seg (if reads.failed then .error else .eof)

/-- The client accepts no stored file whose payload is shorter than the file of the server. -/
def NeverShort {B : ℕ} {p : List UInt8} (reads : FileReads B p) : Prop :=
  ∀ stream, fileserver reads.results = some stream →
    ∀ (B' : ℕ) (arrival : Segmentation B' stream) stack stored total,
      fileclient stack (results arrival .eof) = some (.verdict stored true total) →
        p.length ≤ stored.length - 8

/-- A failure changes nothing of what the server sends for what it has read. -/
theorem fileserver_fileReads {B : ℕ} {p : List UInt8} (reads : FileReads B p) :
    fileserver reads.results = some (withCheckSum reads.content) := by
  apply fileserver_eq reads.seg
  split
  · exact (by decide : (-1 : ℤ) ≤ 0)
  · exact le_refl (0 : ℤ)

/-- **A failed read goes unnoticed exactly when it comes before the end of the file.** -/
theorem neverShort_iff {B : ℕ} {p : List UInt8} (reads : FileReads B p) :
    NeverShort reads ↔ reads.content = p := by
  constructor
  -- the client accepts what the server has read, which is then all of the file
  · intro h
    have hne := withCheckSum_ne_nil reads.content
    have hlen := h _ (fileserver_fileReads reads) _ (Segmentation.whole hne) (fun _ => 0) _ _
      (fileclient_withCheckSum _ _)
    rw [length_withCheckSum, Nat.add_sub_cancel] at hlen
    exact reads.isPrefix.eq_of_length (le_antisymm reads.isPrefix.length_le hlen)
  · intro hall stream hstream B' arrival stack stored total hclient
    rw [fileserver_fileReads, Option.some_inj] at hstream
    subst hstream
    rw [fileclient_withCheckSum, Option.some_inj, ClientEnd.verdict.injEq] at hclient
    rw [← hclient.1, length_withCheckSum, hall, Nat.add_sub_cancel]

/-- A file of one byte of which the first read fails. -/
def failedAtOnce : FileReads 1 [7] where
  content := []
  isPrefix := List.nil_prefix
  seg := ⟨[], rfl, by decide, by decide⟩
  failed := true
  complete := by decide

/-- The client accepts eight zeros for it. -/
theorem failedAtOnce_not_neverShort : ¬ NeverShort failedAtOnce := by
  intro h
  have hne := withCheckSum_ne_nil []
  have hlen := h _ (fileserver_fileReads failedAtOnce) _ (Segmentation.whole hne) (fun _ => 0) _ _
    (fileclient_withCheckSum _ _)
  rw [length_withCheckSum] at hlen
  exact absurd hlen (by decide)

end NetworkLabs.FileTransfer

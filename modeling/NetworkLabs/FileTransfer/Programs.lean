import NetworkLabs.FileTransfer.CheckSum
import NetworkLabs.Foundation.Segmentation

/-!
# The loops of the file transfer programs

A server reads the file, writes what it reads to the socket and puts the checksum behind it; a
client reads the socket until it ends and checks the file that it has stored. There are two of
each, in C and in Java. A `read` of the C programs returns `0` at the end and `-1` on a failure;
the Java method returns `-1` at the end and throws on a failure.

## Main definitions

* `ReadResult`: what one call of `read` gives
* `fileserver`, `Java.fileServer`: the stream that a server writes
* `fileclient`, `Java.makeConnection`: what a client does with the stream

## Main results

* `fileserver_eq`, `Java.fileServer_eq`: the stream, for every way the file is read
* `fileclient_eq`, `Java.makeConnection_eq`: the stored file, for every way the stream is read
-/

namespace NetworkLabs.FileTransfer

open CRuntime TrailerSum Streams

/-- What one call of `read` gives: some bytes, the end, or a failure. -/
inductive ReadResult
  | bytes (bs : List UInt8)
  | eof
  | error

namespace ReadResult

/-- The value that `read` of the C library returns. -/
def num_read : ReadResult → ℤ
  | .bytes bs => bs.length
  | .eof => 0
  | .error => -1

/-- What `read` has put into the buffer. -/
def data : ReadResult → List UInt8
  | .bytes bs => bs
  | _ => []

end ReadResult

/-! ## The servers -/

/-- The variables of a server's loop: the running sum, and what was written to the socket. -/
structure Sending where
  check_sum : BitVec 64
  sent : List UInt8

/-- How a server's loop ends: its condition fails, the program leaves it from the body, or the last
call of `read` has not returned. -/
inductive SendingEnd
  | left (st : Sending)
  | returned (st : Sending)
  | reading (st : Sending)

/-- The bytes of one read are summed and written. -/
def Sending.send (st : Sending) (buf : List UInt8) : Sending where
  check_sum := buf.foldl (fun s c => s + signedChar c) st.check_sum
  sent := st.sent ++ buf

/-- The loop of `fileserver`: `num_read` is tested by its condition and again in its body. -/
def fileserverLoop (st : Sending) : List ReadResult → SendingEnd
  | [] => .reading st
  | r :: rs =>
    if 0 < r.num_read then
      -- the report of a failed read, inside the condition that excludes it
      if r.num_read = -1 then .returned st else fileserverLoop (st.send r.data) rs
    else .left st

/-- What `fileserver` writes to the socket before it closes it. -/
def fileserver (reads : List ReadResult) : Option (List UInt8) :=
  match fileserverLoop ⟨0, []⟩ reads with
  | .left st => some (st.sent ++ bytes64 (htobe64 st.check_sum))
  | .returned st => some st.sent
  | .reading _ => none

/-! ## The clients -/

/-- What a client comes to: no response, a failed read, the verdict on the stored file with the
number of bytes that it counted, or an exception that ends it. -/
inductive ClientEnd
  | noFile
  | readFailed (stored : List UInt8)
  | verdict (stored : List UInt8) (accepted : Bool) (total : ℤ)
  | thrown (stored : List UInt8)

/-- The variables of a client's loop: what was written to the file, and the count of the bytes. -/
structure Receiving where
  stored : List UInt8
  total : ℤ

/-- The bytes of one read are stored and counted. -/
def Receiving.receive (st : Receiving) (buf : List UInt8) : Receiving where
  stored := st.stored ++ buf
  total := st.total + buf.length

/-- The loop of the subsequent reads of `fileclient`, with the last value of `numReadBytes`. -/
def fileclientLoop (st : Receiving) : List ReadResult → Option (Receiving × ℤ)
  | [] => none
  | r :: rs =>
    if 0 < r.num_read then fileclientLoop (st.receive r.data) rs else some (st, r.num_read)

/-- `fileclient` on the results of its reads of the socket. -/
def fileclient (stack : Mem UInt8) : List ReadResult → Option ClientEnd
  | [] => none
  | r :: rs =>
    if 0 < r.num_read then
      match fileclientLoop (Receiving.receive ⟨[], 0⟩ r.data) rs with
      | none => none
      | some (st, numReadBytes) =>
        -- this client does look at the value that has ended its loop
        if numReadBytes < 0 then some (.readFailed st.stored)
        else some (.verdict st.stored (validateCheckSum stack st.stored) st.total)
    else some .noFile

namespace Java

/-- The loop of `WorkerRunnable.run`; a failed read leaves it, and the method, by an exception. -/
def fileServerLoop (st : Sending) : List ReadResult → SendingEnd
  | [] => .reading st
  | .bytes buf :: rs => if 0 < buf.length then fileServerLoop (st.send buf) rs else .left st
  | .eof :: _ => .left st
  | .error :: _ => .returned st

/-- What `WorkerRunnable.run` writes to the socket before it is closed. -/
def fileServer (reads : List ReadResult) : Option (List UInt8) :=
  match fileServerLoop ⟨0, []⟩ reads with
  | .left st => some (st.sent ++ longToBytes st.check_sum)
  | .returned st => some st.sent
  | .reading _ => none

/-- The endless loop of `makeConnection`. At the end of the stream `read` gives `-1`, which is
counted, and `write` throws on the negative length; a failed read throws itself. -/
def makeConnectionLoop (st : Receiving) : List ReadResult → Option Receiving
  | [] => none
  | .bytes buffer :: rs => makeConnectionLoop (st.receive buffer) rs
  | .eof :: _ => some { st with total := st.total - 1 }
  | .error :: _ => some st

/-- `makeConnection` on the results of its reads of the socket. -/
def makeConnection : List ReadResult → Option ClientEnd
  | [] => none
  | .bytes buffer :: rs =>
    if buffer.length ≤ 0 then some .noFile
    else
      match makeConnectionLoop (Receiving.receive ⟨[], 0⟩ buffer) rs with
      | none => none
      | some st =>
        match validateCheckSum st.stored with
        | none => some (.thrown st.stored)
        | some accepted => some (.verdict st.stored accepted st.total)
  | _ => some .noFile

end Java

/-! ## What a server writes -/

/-- The results of the reads of a stream, with the one that ends them. -/
def results {B : ℕ} {s : List UInt8} (seg : Segmentation B s) (last : ReadResult) :
    List ReadResult :=
  seg.pieces.map .bytes ++ [last]

theorem num_read_bytes_pos {q : List UInt8} (hq : q ≠ []) : 0 < (ReadResult.bytes q).num_read :=
  Int.natCast_pos.mpr (List.length_pos_iff.mpr hq)

section Servers

variable {B : ℕ} {p : List UInt8}

theorem send_nil (st : Sending) : st.send [] = st := by
  simp [Sending.send]

theorem send_append (st : Sending) (a b : List UInt8) :
    st.send (a ++ b) = (st.send a).send b := by
  simp [Sending.send]

/-- The loop has sent and summed the whole of what it read. -/
theorem fileserverLoop_eq (seg : Segmentation B p) (st : Sending) (rs : List ReadResult) :
    fileserverLoop st (seg.pieces.map .bytes ++ rs) = fileserverLoop (st.send p) rs := by
  refine seg.loop_eq ?_ send_nil send_append st rs
  intro st q rs hq
  have hpos := num_read_bytes_pos hq
  rw [fileserverLoop, if_pos hpos, if_neg (by omega)]
  rfl

theorem Java.fileServerLoop_eq (seg : Segmentation B p) (st : Sending) (rs : List ReadResult) :
    fileServerLoop st (seg.pieces.map .bytes ++ rs) = fileServerLoop (st.send p) rs := by
  refine seg.loop_eq ?_ send_nil send_append st rs
  intro st q rs hq
  rw [fileServerLoop, if_pos (List.length_pos_iff.mpr hq)]

theorem check_sum_send (p : List UInt8) :
    ((⟨0, []⟩ : Sending).send p).check_sum = weigh signedChar p := by
  show p.foldl (fun s c => s + signedChar c) 0 = _
  rw [foldl_add_eq, zero_add]

/-- The C server sends what it has read with its sum, however the loop was left. -/
theorem fileserver_eq (seg : Segmentation B p) {last : ReadResult} (hlast : last.num_read ≤ 0) :
    fileserver (results seg last) = some (withCheckSum p) := by
  rw [fileserver, results, fileserverLoop_eq, fileserverLoop, if_neg (not_lt.mpr hlast)]
  show some (p ++ bytes64 (htobe64 _)) = _
  rw [check_sum_send, bytes64_htobe64]
  rfl

theorem Java.fileServer_eq (seg : Segmentation B p) :
    fileServer (results seg .eof) = some (withCheckSum p) := by
  rw [fileServer, results, fileServerLoop_eq, fileServerLoop]
  show some (p ++ longToBytes _) = _
  rw [check_sum_send]
  rfl

end Servers

/-! ## What a client stores -/

section Clients

variable {B : ℕ} {s : List UInt8}

theorem receive_nil (st : Receiving) : st.receive [] = st := by
  simp [Receiving.receive]

theorem receive_append (st : Receiving) (a b : List UInt8) :
    st.receive (a ++ b) = (st.receive a).receive b := by
  simp [Receiving.receive, add_assoc]

theorem fileclientLoop_bytes (st : Receiving) (q : List UInt8) (rs : List ReadResult)
    (hq : q ≠ []) : fileclientLoop st (.bytes q :: rs) = fileclientLoop (st.receive q) rs := by
  rw [fileclientLoop, if_pos (num_read_bytes_pos hq)]
  rfl

/-- The C client stores the stream and looks at what has ended it. -/
theorem fileclient_results (stack : Mem UInt8) (seg : Segmentation B s) (hs : s ≠ [])
    {last : ReadResult} (hlast : last.num_read ≤ 0) :
    fileclient stack (results seg last) =
      if last.num_read < 0 then some (.readFailed s)
      else some (.verdict s (validateCheckSum stack s) s.length) := by
  have hloop : fileclientLoop ⟨[], 0⟩ (results seg last) = some (⟨s, s.length⟩, last.num_read) := by
    rw [results, seg.loop_eq fileclientLoop_bytes receive_nil receive_append, fileclientLoop,
      if_neg (not_lt.mpr hlast)]
    simp [Receiving.receive]
  unfold results at hloop ⊢
  -- the first read is not empty, and joins the loop
  obtain ⟨q, qs, hpieces, hq⟩ := seg.exists_cons hs
  rw [hpieces, List.map_cons, List.cons_append, fileclientLoop_bytes _ _ _ hq] at hloop
  rw [hpieces, List.map_cons, List.cons_append, fileclient, if_pos (num_read_bytes_pos hq)]
  simp only [ReadResult.data, hloop]

/-- The C client takes the verdict on a stream that ends. -/
theorem fileclient_eq (stack : Mem UInt8) (seg : Segmentation B s) (hs : s ≠ []) :
    fileclient stack (results seg .eof) =
      some (.verdict s (validateCheckSum stack s) s.length) := by
  have hend : ReadResult.eof.num_read ≤ 0 := le_refl (0 : ℤ)
  exact (fileclient_results stack seg hs hend).trans (if_neg (lt_irrefl (0 : ℤ)))

/-- Of a stream of which nothing has come a client sees the end alone. -/
theorem results_nil (seg : Segmentation B []) (last : ReadResult) : results seg last = [last] := by
  rw [results, seg.pieces_eq_nil_iff.mpr rfl, List.map_nil, List.nil_append]

theorem Java.makeConnectionLoop_bytes (st : Receiving) (q : List UInt8) (rs : List ReadResult)
    (_ : q ≠ []) :
    makeConnectionLoop st (.bytes q :: rs) = makeConnectionLoop (st.receive q) rs := rfl

/-- The Java client takes the verdict on what its loop has stored. -/
theorem Java.makeConnection_of_loop (seg : Segmentation B s) (hs : s ≠ []) {last : ReadResult}
    {total : ℤ} (hloop : makeConnectionLoop ⟨[], 0⟩ (results seg last) = some ⟨s, total⟩)
    {accepted : Bool} (haccepted : validateCheckSum s = some accepted) :
    makeConnection (results seg last) = some (.verdict s accepted total) := by
  unfold results at hloop ⊢
  obtain ⟨q, qs, hpieces, hq⟩ := seg.exists_cons hs
  have hpos : ¬ q.length ≤ 0 := not_le.mpr (List.length_pos_iff.mpr hq)
  rw [hpieces, List.map_cons, List.cons_append, makeConnectionLoop_bytes _ _ _ hq] at hloop
  rw [hpieces, List.map_cons, List.cons_append, makeConnection, if_neg hpos]
  simp only [hloop, haccepted]

/-- At the end of the stream it counts one byte less. -/
theorem Java.makeConnection_eq (seg : Segmentation B s) (hs : s ≠ []) {accepted : Bool}
    (haccepted : validateCheckSum s = some accepted) :
    makeConnection (results seg .eof) = some (.verdict s accepted (s.length - 1)) := by
  refine makeConnection_of_loop seg hs ?_ haccepted
  rw [results, seg.loop_eq makeConnectionLoop_bytes receive_nil receive_append]
  simp [makeConnectionLoop, Receiving.receive]

/-- A failed read ends the loop like the end of the stream. -/
theorem Java.makeConnection_error (seg : Segmentation B s) (hs : s ≠ []) {accepted : Bool}
    (haccepted : validateCheckSum s = some accepted) :
    makeConnection (results seg .error) = some (.verdict s accepted s.length) := by
  refine makeConnection_of_loop seg hs ?_ haccepted
  rw [results, seg.loop_eq makeConnectionLoop_bytes receive_nil receive_append]
  simp [makeConnectionLoop, Receiving.receive]

end Clients

end NetworkLabs.FileTransfer

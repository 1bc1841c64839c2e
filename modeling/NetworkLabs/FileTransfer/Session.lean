import Mathlib.Data.List.DropRight
import NetworkLabs.FileTransfer.Transfer
import NetworkLabs.Request.Delivery
import NetworkLabs.Request.Filter

/-!
# A session of the file transfer

A client that has passed its checks connects, writes its request and reads until the connection
ends; the server decides on the request and writes the file. The C server decides on what its one
`read` has got of the request, the Java server on the whole line. Each server works with each
client; what the C server makes of a request that comes in parts is a file with a shorter name. It
then closes the connection with the rest of the request unread, and the connection may be reset
before the client has got all.

## Main definitions

* `fileserverDecision`, `Java.fileServerDecision`: what the servers do with a request
* `Cuts`: the ways in which request, file and stream come in pieces, or the connection is reset
* `session`: the client's end of a session
* `Plain`: the requests that all servers understand

## Main results

* `decode_take`: the fields that a part of a request holds
* `session_outcome`: the outcome of a session for every pair of programs
* `session_cut_iff`: what a client accepts of the C server, however its request is cut and wherever
  the connection is reset
-/

namespace NetworkLabs.FileTransfer

open CRuntime Request Streams

/-! ## The decisions of the servers -/

/-- What a server does with a connection: it sends the file of this name and closes it, it just
closes it, or it leaves it open. -/
inductive Decision
  | serve (filename : List UInt8)
  | close
  | abandon
  deriving DecidableEq

/-- The child of `fileserver` on what its `read` has got; `none` when it passes on `NULL`. -/
def fileserverDecision (secretKeyGiven : List UInt8) (access : List UInt8 → Bool)
    (requestBuf : List UInt8) : Option Decision :=
  match (decode requestBuf).1 with
  | none => none
  | some secretKey =>
    if secretKey = secretKeyGiven then
      match (decode requestBuf).2 with
      | none => none
      | some filename =>
        if validateFile access filename then some (.serve filename) else some .close
    else some .close

namespace Java

/-- `readLine`: the characters up to the end of the line. Here and in what follows each byte stands
for the character of its code, which is right in every default charset for the codes below 128. -/
def readLine (s : List UInt8) : List UInt8 := s.takeWhile fun c => c != 10 && c != 13

/-- `split("[$]")`: the fields between the delimiters, without the empty ones at the end. -/
def split (s : List UInt8) : List (List UInt8) := (s.splitOn dollar).rdropWhile List.isEmpty

/-- `trim`: no characters up to the blank at either end. -/
def trim (s : List UInt8) : List UInt8 := (s.dropWhile (· ≤ 32)).rdropWhile (· ≤ 32)

/-- `WorkerRunnable.run` on a request. An exception, also that of an array index or of the check of
the name, leaves the connection open. -/
def fileServerDecision (secretKeyGiven : List UInt8) (isFile : List UInt8 → Bool)
    (commandRequest : List UInt8) : Decision :=
  let tokens := split (readLine commandRequest)
  match tokens[1]?, tokens[2]? with
  | some secretKey, some filename =>
    if trim secretKey = trim secretKeyGiven then
      match Request.Java.validateFileName isFile filename with
      | .error _ => .abandon
      | .ok true => .serve filename
      | .ok false => .close
    else .close
  | _, _ => .abandon

end Java

/-- The decision on a request that comes in these pieces. -/
def ServerProgram.decide (secretKeyGiven : List UInt8) (access : List UInt8 → Bool)
    {text : List UInt8} (request : Segmentation BUFSIZ text) : ServerProgram → Option Decision
  | .fileserver => fileserverDecision secretKeyGiven access request.first
  | .FileServer => some (Java.fileServerDecision secretKeyGiven access text)

/-- The keys that a server takes for its own. -/
def ServerProgram.Matches (secretKeyGiven key : List UInt8) : ServerProgram → Prop
  | .fileserver => key = secretKeyGiven
  | .FileServer => Java.trim key = Java.trim secretKeyGiven

/-- The server may leave a part of the request unread: what the one `read` of the C server has not
got, or what comes behind the line. -/
def ServerProgram.Unread {text : List UInt8} (request : Segmentation BUFSIZ text) :
    ServerProgram → Prop
  | .fileserver => request.first.length < text.length
  | .FileServer => Java.readLine text ≠ text

/-- How the request, the file and the stream come in pieces. A connection that is closed with a part
of the request unread may be reset: some of the stream comes, and then a read fails. -/
structure Cuts (server : ServerProgram) (B B' : ℕ) (text : List UInt8) where
  request : Segmentation BUFSIZ text
  file : ∀ p : List UInt8, Segmentation B p
  stream : ∀ s : List UInt8, Segmentation B' s
  reset : Option ℕ
  unread_of_reset : reset ≠ none → server.Unread request

/-- The results of the client's reads of what the server has written. -/
def Cuts.arrival {server : ServerProgram} {B B' : ℕ} {text : List UInt8}
    (cuts : Cuts server B B' text) (stream : List UInt8) : List ReadResult :=
  match cuts.reset with
  | none => results (cuts.stream stream) .eof
  | some n => results (cuts.stream (stream.take n)) .error

/-- What a session comes to for the client; `none` when it never ends or the server passes on
`NULL`. The directory of the server is `filedeposit`: what is a directory itself the C server takes
for an empty file, since every `read` of it fails, and the Java server for none. -/
def session (server : ServerProgram) (client : ClientProgram) (stack : Mem UInt8)
    (secretKeyGiven : List UInt8) (filedeposit : List UInt8 → Option (List UInt8)) {B B' : ℕ}
    {text : List UInt8} (cuts : Cuts server B B' text) : Option ClientEnd :=
  match server.decide secretKeyGiven (fun f => (filedeposit f).isSome) cuts.request with
  | some (.serve filename) => do
    let p ← filedeposit filename
    let stream ← server.stream (results (cuts.file p) .eof)
    client.run stack (cuts.arrival stream)
  | some .close => client.run stack (cuts.arrival [])
  | _ => none

/-! ## The fields of a request, and of a part of it -/

section Fields

variable {r : ClientArgs} {key filename : List UInt8}

/-- A key and a name without a delimiter are the fields of their request. -/
theorem decode_fields (hkey : key ≠ []) (hkeyDollar : dollar ∉ key) (hname : filename ≠ [])
    (hnameDollar : dollar ∉ filename) (hnul : 0 ∉ dollar :: key ++ dollar :: filename) :
    decode (dollar :: key ++ dollar :: filename) = (some key, some filename) := by
  have hfirst : strtok dollar (dollar :: key ++ dollar :: filename) = (some key, filename) := by
    rw [List.cons_append, strtok_cons_self]
    exact strtok_append_cons hkey hkeyDollar filename
  rw [decode, cstring_eq_self hnul, hfirst]
  show (some key, (strtok dollar filename).1) = _
  rw [strtok_of_notMem hname hnameDollar]

/-- A part of a request that ends before the name has no second field. -/
theorem decode_snd_of_le (hkey : dollar ∉ r.key) {n : ℕ} (hn : n ≤ r.key.length + 2) :
    (decode (r.text.take n)).2 = none := by
  have hnul : 0 ∉ r.text.take n := fun h => zero_notMem_text r (List.mem_of_mem_take h)
  have hpart : r.text.take n = (dollar :: r.key ++ [dollar]).take n := by
    have htext : r.text = (dollar :: r.key ++ [dollar]) ++ r.filename := by
      simp [ClientArgs.text]
    rw [htext]
    exact List.take_append_of_le_length (by simpa using hn)
  rw [decode, cstring_eq_self hnul, hpart]
  -- what the first call leaves is empty
  have hrest : (strtok dollar ((dollar :: r.key ++ [dollar]).take n)).2 = [] := by
    cases n with
    | zero => rfl
    | succ m =>
      rw [List.cons_append, List.take_succ_cons, strtok_cons_self]
      rcases Nat.lt_or_ge r.key.length m with hlt | hle
      · have hall : (r.key ++ [dollar]).take m = r.key ++ dollar :: [] :=
          List.take_of_length_le (by simpa using hlt)
        rw [hall, strtok_append_cons (key_ne_nil r) hkey]
      · rw [List.take_append_of_le_length hle]
        by_cases hempty : r.key.take m = []
        · rw [hempty, strtok_nil]
        · rw [strtok_of_notMem hempty fun h => hkey (List.mem_of_mem_take h)]
  show (strtok dollar (strtok dollar ((dollar :: r.key ++ [dollar]).take n)).2).1 = none
  rw [hrest, strtok_nil]

/-- **A part of a request** that reaches into the name has the key and a beginning of the name. -/
theorem decode_take (hkey : dollar ∉ r.key) (hname : dollar ∉ r.filename) {n : ℕ} (hn : 0 < n)
    (hne : r.filename ≠ []) :
    decode (r.text.take (r.key.length + 2 + n)) = (some r.key, some (r.filename.take n)) := by
  have hpart : r.text.take (r.key.length + 2 + n) =
      dollar :: r.key ++ dollar :: r.filename.take n := by
    have htext : r.text = (dollar :: r.key ++ [dollar]) ++ r.filename := by
      simp [ClientArgs.text]
    have hlen : (dollar :: r.key ++ [dollar]).length = r.key.length + 2 := by simp
    rw [htext, ← hlen, List.take_length_add_append]
    simp
  have hnul : 0 ∉ r.text.take (r.key.length + 2 + n) := fun h =>
    zero_notMem_text r (List.mem_of_mem_take h)
  rw [hpart] at hnul ⊢
  refine decode_fields (key_ne_nil r) hkey ?_ (fun h => hname (List.mem_of_mem_take h)) hnul
  rw [Ne, List.take_eq_nil_iff, not_or]
  exact ⟨Nat.pos_iff_ne_zero.mp hn, hne⟩

end Fields

/-! ## A request that is decided on -/

section Decisions

variable {r : ClientArgs} {secretKeyGiven : List UInt8} {access : List UInt8 → Bool}

/-- The name of a client's request passes the check of the C server. -/
theorem validateFile_filename (r : ClientArgs) (access : List UInt8 → Bool) :
    validateFile access r.filename = access r.filename := by
  rw [validateFile, r.filename_valid]

theorem Java.validateFileName_filename (r : ClientArgs) (isFile : List UInt8 → Bool) :
    Request.Java.validateFileName isFile r.filename = .ok (isFile r.filename) := by
  obtain ⟨hlen, hchars⟩ := checkFileName_eq_ok_iff.mp r.filename_valid
  have hrow : ¬ invalid_filename_characters <:+: r.filename := fun h =>
    hchars slash (h.subset (by decide)) (by decide)
  rw [Request.Java.validateFileName, Request.Java.checkFileName_eq_ok_iff.mpr ⟨hlen, hrow⟩]

/-- The C server on a request whose fields it has got. -/
theorem fileserverDecision_of_decode {requestBuf : List UInt8}
    (h : decode requestBuf = (some r.key, some r.filename)) :
    fileserverDecision secretKeyGiven access requestBuf =
      some (if r.key = secretKeyGiven ∧ access r.filename = true then .serve r.filename
        else .close) := by
  rw [fileserverDecision, h]
  dsimp only
  rw [validateFile_filename]
  by_cases hkey : r.key = secretKeyGiven
  · by_cases hfile : access r.filename = true
    · simp [hkey, hfile]
    · simp [hkey, hfile]
  · simp [hkey]

/-- The characters that end a line. -/
def lineEnds : List UInt8 := [10, 13]

/-- The requests that all servers understand: one delimiter before the key and one behind it, a name
and no line end, in characters below 128. -/
structure Plain (r : ClientArgs) : Prop where
  key_noDollar : dollar ∉ r.key
  filename_noDollar : dollar ∉ r.filename
  filename_ne_nil : r.filename ≠ []
  noLineEnd : ∀ c ∈ lineEnds, c ∉ r.text
  ascii : ∀ c ∈ r.text, c < 128

theorem Plain.readLine_text (h : Plain r) : Java.readLine r.text = r.text := by
  rw [Java.readLine, List.takeWhile_eq_self_iff]
  intro c hc
  have h₁ : c ≠ 10 := fun heq => h.noLineEnd 10 (by decide) (heq ▸ hc)
  have h₂ : c ≠ 13 := fun heq => h.noLineEnd 13 (by decide) (heq ▸ hc)
  simp [h₁, h₂]

theorem splitOn_of_notMem {f : List UInt8} (hf : dollar ∉ f) : f.splitOn dollar = [f] := by
  rw [List.splitOn_eq_splitOnP]
  apply List.splitOnP_eq_singleton
  intro c hc
  exact beq_eq_false_iff_ne.mpr fun heq => hf (heq ▸ hc)

theorem splitOn_append_cons {f : List UInt8} (hf : dollar ∉ f) (t : List UInt8) :
    (f ++ dollar :: t).splitOn dollar = f :: t.splitOn dollar := by
  rw [List.splitOn_eq_splitOnP, List.splitOn_eq_splitOnP]
  apply List.splitOnP_append_cons_of_forall_mem
  · intro c hc
    exact beq_eq_false_iff_ne.mpr fun heq => hf (heq ▸ hc)
  · exact beq_self_eq_true dollar

/-- The Java server finds an empty field, the key and the name. -/
theorem Plain.split_text (h : Plain r) : Java.split r.text = [[], r.key, r.filename] := by
  have hsplit : r.text.splitOn dollar = [[], r.key, r.filename] := by
    have hfirst := splitOn_append_cons (f := []) List.not_mem_nil (r.key ++ dollar :: r.filename)
    have hsecond := splitOn_append_cons h.key_noDollar r.filename
    rw [splitOn_of_notMem h.filename_noDollar] at hsecond
    rw [hsecond] at hfirst
    exact hfirst
  have hlast : ¬ List.isEmpty r.filename = true := by
    rw [List.isEmpty_iff]
    exact h.filename_ne_nil
  rw [Java.split, hsplit]
  exact List.rdropWhile_concat_neg _ [[], r.key] r.filename hlast

/-- The Java server on a request. -/
theorem Plain.fileServerDecision (h : Plain r) :
    Java.fileServerDecision secretKeyGiven access r.text =
      if Java.trim r.key = Java.trim secretKeyGiven ∧ access r.filename = true then
        .serve r.filename
      else .close := by
  simp only [Java.fileServerDecision, h.readLine_text, h.split_text]
  dsimp only [List.getElem?_cons_succ, List.getElem?_cons_zero]
  rw [Java.validateFileName_filename]
  by_cases hkey : Java.trim r.key = Java.trim secretKeyGiven
  · by_cases hfile : access r.filename = true
    · simp [hkey, hfile]
    · simp [hkey, hfile]
  · simp [hkey]

end Decisions

/-! ## A session of any two programs -/

section Sessions

variable {server : ServerProgram} {client : ClientProgram} {stack : Mem UInt8}
  {secretKeyGiven : List UInt8} {filedeposit : List UInt8 → Option (List UInt8)} {B B' : ℕ}
  {text filename p : List UInt8} {cuts : Cuts server B B' text}

/-- Both clients accept a file with its checksum. -/
theorem run_withCheckSum (client : ClientProgram) (stack : Mem UInt8)
    (hp : p.length < 2 ^ 31 - 8) (arrival : Segmentation B (withCheckSum p)) :
    ∃ total, client.run stack (results arrival .eof) =
      some (.verdict (withCheckSum p) true total) := by
  cases client with
  | fileclient => exact ⟨_, fileclient_withCheckSum stack arrival⟩
  | FileClient =>
    have hlen := length_withCheckSum p
    obtain ⟨accepted, hverdict, haccepts⟩ :=
      Java.validateCheckSum_eq (hlen ▸ Nat.le_add_left 8 p.length) (by omega)
    rw [haccepts.mpr ⟨p, rfl⟩] at hverdict
    exact ⟨_, Java.makeConnection_eq arrival (withCheckSum_ne_nil p) hverdict⟩

/-- Both clients take a connection on which nothing comes for a missing file. -/
theorem run_arrival_nil (client : ClientProgram) (stack : Mem UInt8)
    (cuts : Cuts server B B' text) : client.run stack (cuts.arrival []) = some .noFile := by
  have hend : client.run stack [.eof] = some .noFile := by cases client <;> rfl
  have herror : client.run stack [.error] = some .noFile := by cases client <;> rfl
  unfold Cuts.arrival
  cases cuts.reset with
  | none =>
    dsimp only
    rwa [results_nil]
  | some n =>
    dsimp only
    rwa [List.take_nil, results_nil]

theorem session_eq_run (hdecide : server.decide secretKeyGiven
      (fun f => (filedeposit f).isSome) cuts.request = some (.serve filename))
    (hfile : filedeposit filename = some p) :
    session server client stack secretKeyGiven filedeposit cuts =
      client.run stack (cuts.arrival (withCheckSum p)) := by
  simp only [session, hdecide, hfile, Option.bind_eq_bind, Option.bind_some, stream_eq]

theorem session_of_close (hdecide : server.decide secretKeyGiven
      (fun f => (filedeposit f).isSome) cuts.request = some .close) :
    session server client stack secretKeyGiven filedeposit cuts = some .noFile := by
  simp only [session, hdecide]
  exact run_arrival_nil client stack cuts

end Sessions

/-- The request reaches the C server as far as it looks at it. -/
def ServerProgram.Received {text : List UInt8} (request : Segmentation BUFSIZ text) :
    ServerProgram → Prop
  | .fileserver => fieldsEnd text ≤ request.first.length
  | .FileServer => True

/-- What the C server makes of a plain request that it has received. -/
theorem Plain.decode_first {r : ClientArgs} (h : Plain r) {request : Segmentation BUFSIZ r.text}
    (hreceived : ServerProgram.fileserver.Received request) :
    decode request.first = (some r.key, some r.filename) := by
  obtain ⟨u, hu⟩ := request.exists_append
  have hnul : 0 ∉ request.first ++ u := hu ▸ zero_notMem_text r
  have hpart := (decode_append_iff hnul).mpr (by rw [← hu]; exact hreceived)
  rw [hpart, ← hu]
  have hfields := decode_fields (key_ne_nil r) h.key_noDollar h.filename_ne_nil
    h.filename_noDollar (zero_notMem_text r)
  exact hfields

/-- A part of a plain request that has both fields is all of it. -/
theorem Plain.length_le_of_decode {r : ClientArgs} (h : Plain r) {m : ℕ}
    (hdecode : decode (r.text.take m) = (some r.key, some r.filename)) : r.text.length ≤ m := by
  by_contra hlt
  have hlen : r.text.length = r.key.length + 2 + r.filename.length := by
    rw [ClientArgs.text, List.cons_append, List.length_cons, List.length_append, List.length_cons]
    omega
  rcases Nat.lt_or_ge (r.key.length + 2) m with hname | hle
  -- the name is cut short
  · obtain ⟨n, rfl⟩ := Nat.exists_eq_add_of_lt hname
    rw [Nat.add_assoc, decode_take h.key_noDollar h.filename_noDollar (Nat.succ_pos n)
      h.filename_ne_nil, Prod.mk.injEq, Option.some_inj, Option.some_inj,
      List.take_eq_self_iff] at hdecode
    omega
  · have hnone := decode_snd_of_le h.key_noDollar hle
    rw [hdecode] at hnone
    cases hnone

/-- A plain request that is received leaves nothing unread. -/
theorem Plain.reset_eq_none {r : ClientArgs} (h : Plain r) {server : ServerProgram} {B B' : ℕ}
    (cuts : Cuts server B B' r.text) (hreceived : server.Received cuts.request) :
    cuts.reset = none := by
  by_contra hreset
  have hunread := cuts.unread_of_reset hreset
  cases server with
  | fileserver =>
    have hdecode := h.decode_first hreceived
    rw [← cuts.request.take_length_first] at hdecode
    exact absurd hunread (not_lt.mpr (h.length_le_of_decode hdecode))
  | FileServer => exact hunread h.readLine_text

/-- All servers decide alike on a plain request, each by its own comparison of the keys. -/
theorem Plain.decide {r : ClientArgs} (h : Plain r) (server : ServerProgram)
    (secretKeyGiven : List UInt8) (access : List UInt8 → Bool)
    {request : Segmentation BUFSIZ r.text} (hreceived : server.Received request) :
    (server.Matches secretKeyGiven r.key ∧ access r.filename = true →
      server.decide secretKeyGiven access request = some (.serve r.filename)) ∧
    (¬ (server.Matches secretKeyGiven r.key ∧ access r.filename = true) →
      server.decide secretKeyGiven access request = some .close) := by
  cases server with
  | fileserver =>
    have hdecode := h.decode_first hreceived
    constructor
    · intro hserve
      exact (fileserverDecision_of_decode hdecode).trans (congrArg some (if_pos hserve))
    · intro hclose
      exact (fileserverDecision_of_decode hdecode).trans (congrArg some (if_neg hclose))
  | FileServer =>
    constructor
    · intro hserve
      exact congrArg some (h.fileServerDecision.trans (if_pos hserve))
    · intro hclose
      exact congrArg some (h.fileServerDecision.trans (if_neg hclose))

/-- What a client accepts of a stream: all of it when it ends. When a read of it fails, the C client
accepts nothing, and the Java client what has come, if that is itself a file with its sum. -/
def ClientProgram.Accepts (reset : Option ℕ) (stream stored : List UInt8) : ClientProgram → Prop
  | .fileclient => reset = none ∧ stored = stream
  | .FileClient => match reset with
    | none => stored = stream
    | some n => stored = stream.take n ∧ ∃ q, stored = withCheckSum q

section Accepts

variable {client : ClientProgram} {server : ServerProgram} {stack : Mem UInt8} {B B' : ℕ}
  {text p stored : List UInt8}

/-- The C client accepts nothing of a stream of which a read fails. -/
theorem fileclient_error (stack : Mem UInt8) {s : List UInt8} (seg : Segmentation B s) (total : ℤ) :
    fileclient stack (results seg .error) ≠ some (.verdict stored true total) := by
  intro h
  by_cases hs : s = []
  · obtain rfl := hs
    rw [results_nil] at h
    cases h
  · have hlast : ReadResult.error.num_read < 0 := Int.negSucc_lt_zero 0
    rw [fileclient_results stack seg hs hlast.le, if_pos hlast] at h
    cases h

/-- The Java client takes the verdict on what has come. -/
theorem Java.makeConnection_error_iff {s : List UInt8} (seg : Segmentation B s)
    (hs : s.length < 2 ^ 31) :
    (∃ total, makeConnection (results seg .error) = some (.verdict stored true total)) ↔
      stored = s ∧ ∃ q, stored = withCheckSum q := by
  by_cases hnil : s = []
  · obtain rfl := hnil
    rw [results_nil]
    refine iff_of_false ?_ ?_
    · rintro ⟨total, h⟩
      cases h
    · rintro ⟨rfl, q, hq⟩
      exact withCheckSum_ne_nil q hq.symm
  · obtain ⟨accepted, hverdict, haccepts⟩ := validateCheckSum_of_lt hs
    rw [makeConnection_error seg hnil hverdict]
    constructor
    · rintro ⟨total, h⟩
      rw [Option.some_inj, ClientEnd.verdict.injEq] at h
      obtain ⟨rfl, htrue, -⟩ := h
      exact ⟨rfl, haccepts.mp htrue⟩
    · rintro ⟨rfl, hq⟩
      rw [haccepts.mpr hq]
      exact ⟨_, rfl⟩

/-- **What a client accepts** of a file with its checksum, wherever the connection is reset. -/
theorem run_arrival_iff (hp : p.length < 2 ^ 31 - 8) (cuts : Cuts server B B' text) :
    (∃ total, client.run stack (cuts.arrival (withCheckSum p)) =
        some (.verdict stored true total)) ↔
      client.Accepts cuts.reset (withCheckSum p) stored := by
  unfold Cuts.arrival
  cases cuts.reset with
  | none =>
    have haccepts : client.Accepts none (withCheckSum p) stored ↔ stored = withCheckSum p := by
      cases client with
      | fileclient => exact and_iff_right rfl
      | FileClient => exact Iff.rfl
    rw [haccepts]
    obtain ⟨total, hrun⟩ := run_withCheckSum client stack hp (cuts.stream (withCheckSum p))
    dsimp only
    rw [hrun]
    constructor
    · rintro ⟨total', h⟩
      rw [Option.some_inj, ClientEnd.verdict.injEq] at h
      exact h.1.symm
    · rintro rfl
      exact ⟨total, rfl⟩
  | some n =>
    dsimp only
    cases client with
    | fileclient =>
      refine iff_of_false ?_ ?_
      · rintro ⟨total, h⟩
        exact fileclient_error stack _ total h
      · rintro ⟨hnone, -⟩
        cases hnone
    | FileClient =>
      have hlen := length_withCheckSum p
      have hle : ((withCheckSum p).take n).length ≤ (withCheckSum p).length :=
        List.length_take_le' n _
      exact Java.makeConnection_error_iff _ (by omega)

end Accepts

section Parts

variable {r : ClientArgs} {secretKeyGiven : List UInt8} {access : List UInt8 → Bool}

/-- A beginning of the name passes the check as the name does. -/
theorem validateFile_take (r : ClientArgs) (access : List UInt8 → Bool) (n : ℕ) :
    validateFile access (r.filename.take n) = access (r.filename.take n) := by
  obtain ⟨hlen, hchars⟩ := checkFileName_eq_ok_iff.mp r.filename_valid
  have hvalid : checkFileName (r.filename.take n) = .ok () :=
    checkFileName_eq_ok_iff.mpr ⟨(List.length_take_le' n r.filename).trans hlen,
      fun c hc => hchars c (List.mem_of_mem_take hc)⟩
  rw [validateFile, hvalid]

/-- What the C server serves, however much of the request it has got. -/
theorem fileserverDecision_take_iff (hkey : dollar ∉ r.key) (hname : dollar ∉ r.filename)
    {m : ℕ} (hm : m ≤ r.text.length) (filename : List UInt8) :
    fileserverDecision secretKeyGiven access (r.text.take m) = some (.serve filename) ↔
      r.key = secretKeyGiven ∧ ∃ n, 0 < n ∧ m = r.key.length + 2 + n ∧
        filename = r.filename.take n ∧ access filename = true := by
  rcases Nat.lt_or_ge (r.key.length + 2) m with hlt | hle
  · obtain ⟨n, rfl⟩ := Nat.exists_eq_add_of_lt hlt
    have hne : r.filename ≠ [] := by
      intro hnil
      have hlen : r.text.length = r.key.length + 2 := by simp [ClientArgs.text, hnil]
      omega
    rw [Nat.add_assoc, fileserverDecision, decode_take hkey hname (Nat.succ_pos n) hne]
    dsimp only
    rw [validateFile_take]
    constructor
    · intro h
      by_cases hmatch : r.key = secretKeyGiven
      · rw [if_pos hmatch] at h
        by_cases haccess : access (r.filename.take (n + 1)) = true
        · rw [if_pos haccess] at h
          obtain rfl := Decision.serve.inj (Option.some.inj h)
          exact ⟨hmatch, n + 1, Nat.succ_pos n, rfl, rfl, haccess⟩
        · rw [if_neg haccess] at h
          cases h
      · rw [if_neg hmatch] at h
        cases h
    · rintro ⟨hmatch, n', -, heq, rfl, haccess⟩
      obtain rfl : n' = n + 1 := (Nat.add_left_cancel heq).symm
      rw [if_pos hmatch, if_pos haccess]
  -- no second field
  · refine iff_of_false (fun h => ?_) ?_
    · rw [fileserverDecision, decode_snd_of_le hkey hle] at h
      split at h
      · cases h
      · split at h
        · cases h
        · cases h
    · rintro ⟨-, n, hn, rfl, -⟩
      omega

end Parts

/-- The request in one piece. -/
def abcWhole : Cuts .FileServer 1 1 abc.text where
  request := {
    pieces := [abc.text]
    flatten_eq := by decide
    ne_nil := by decide
    length_le := by decide }
  file := .single Nat.one_pos
  stream := .single Nat.one_pos
  reset := none
  unread_of_reset h := absurd rfl h

/-- The request with a cut in the name. -/
def abcInName (reset : Option ℕ) : Cuts .fileserver 1 1 abc.text where
  request := {
    pieces := [dollar :: abc.key ++ [dollar, 97, 98], [99]]
    flatten_eq := by decide
    ne_nil := by decide
    length_le := by decide }
  file := .single Nat.one_pos
  stream := .single Nat.one_pos
  reset := reset
  unread_of_reset _ := by
    show _ < abc.text.length
    decide

/-- One file of two bytes. -/
def oneFile (name : List UInt8) : List UInt8 → Option (List UInt8) :=
  fun filename => if filename = name then some [1, 2] else none

theorem length_of_oneFile {name filename p : List UInt8} (h : oneFile name filename = some p) :
    p.length < 2 ^ 31 - 8 := by
  obtain ⟨-, h⟩ := Option.ite_none_right_eq_some.mp h
  obtain rfl := Option.some.inj h
  norm_num

end NetworkLabs.FileTransfer

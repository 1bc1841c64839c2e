import Mathlib.Data.List.DropRight
import NetworkLabs.Foundation.Segmentation
import NetworkLabs.Runtime.Numbers
import NetworkLabs.Runtime.Text
import NetworkLabs.Runtime.Tokens

/-!
# The handshake of the audio stream

Before the stream the client writes its port and the name of a file over a connection, and the
server answers `"OK"` with its own port, or `"KO"`. Both put their texts together in small arrays,
take apart what one `read` has got, and cut at blanks; the server also takes white space off the end
of the name. A name with a blank in it, or with white space at its end, is the name of another file.

## Main definitions

* `portPath`, `registration`, `okport`, `listenReply`: the two messages, written and read
* `handshake`: what the parties take from the connection

## Main results

* `trimwhitespace_eq_self_iff`: the texts that the server leaves as they are
* `registration_take_iff`: when the server has the port and the name that were sent
* `handshake_iff`: when both parties have the same file and the same ports
-/

namespace NetworkLabs.Audio

open CRuntime Streams

/-! ## The messages -/

/-- `port_path` of the client; `none` when it does not fit its 50 bytes. -/
def portPath (client_udp_port filename : List UInt8) : Option (List UInt8) :=
  let port_path := client_udp_port ++ 32 :: filename
  if port_path.length < 50 then some port_path else none

/-- `trimwhitespace`, as it leaves the string that it is given: the leading white space is skipped
in a copy of the pointer, the one at the end is cut off. -/
def trimwhitespace (str : List UInt8) : List UInt8 :=
  let rest := str.dropWhile isSpace
  if rest = [] then str else str.takeWhile isSpace ++ rest.rdropWhile isSpace

/-- `client_port_r` and `client_path_r` of the server; `none` when a token is `NULL`. -/
def registration (buf : List UInt8) : Option (List UInt8 × List UInt8) :=
  let first := strtok 32 (cstring buf)
  match first.1, (strtok 32 first.2).1 with
  | some client_port_r, some client_path_r =>
    some (trimwhitespace client_port_r, trimwhitespace client_path_r)
  | _, _ => none

/-- `"OK"`. -/
def ok : List UInt8 := [79, 75]

/-- The answer of the server; `none` when `okport` does not fit its 15 bytes. -/
def okport (udpPort : List UInt8) (fileExists : Bool) : Option (List UInt8) :=
  if fileExists then
    let okport := ok ++ 32 :: udpPort
    if okport.length < 15 then some okport else none
  -- `"KO"`
  else some [75, 79]

/-- `server_port_r` of the client, if the answer is `"OK"`; the outer `none` when a token is
`NULL`. -/
def listenReply (buf : List UInt8) : Option (Option (List UInt8)) :=
  let first := strtok 32 (cstring buf)
  match first.1 with
  | none => none
  | some server_status_r =>
    if server_status_r = ok then
      match (strtok 32 first.2).1 with
      | none => none
      | some server_port_r => some (some server_port_r)
    else some none

/-- The file that the server has opened, and the ports that the parties have of each other. -/
structure Terms where
  client_path_r : List UInt8
  client_port_r : List UInt8
  server_port_r : List UInt8
  deriving DecidableEq

/-- The handshake, where a text comes in the pieces that `request` and `reply` cut it into: the
terms, or none for a client that leaves. The outer `none` is an array that is left, or `NULL`. -/
def handshake (access : List UInt8 → Bool) (client_udp_port filename udpPort : List UInt8)
    (request : ∀ s : List UInt8, Segmentation 8192 s)
    (reply : ∀ s : List UInt8, Segmentation 1024 s) : Option (Option Terms) := do
  let port_path ← portPath client_udp_port filename
  let r ← registration (request port_path).first
  let answer ← okport udpPort (access r.2)
  let server_port_r ← listenReply (reply answer).first
  return server_port_r.map fun p => ⟨r.2, r.1, p⟩

/-! ## White space at the end -/

/-- White space behind something else. -/
def TrailingSpace (s : List UInt8) : Prop :=
  (∃ c ∈ s, isSpace c = false) ∧ ∃ c, s.getLast? = some c ∧ isSpace c = true

theorem length_trimwhitespace_le (s : List UInt8) : (trimwhitespace s).length ≤ s.length := by
  have hsplit := congrArg List.length (List.takeWhile_append_dropWhile (p := isSpace) (l := s))
  have hle := (List.rdropWhile_prefix (p := isSpace) (s.dropWhile isSpace)).length_le
  unfold trimwhitespace
  dsimp only
  split_ifs
  · exact le_rfl
  · rw [List.length_append] at hsplit ⊢
    omega

/-- **The server leaves a text as it is** unless there is white space at its end. -/
theorem trimwhitespace_eq_self_iff {s : List UInt8} : trimwhitespace s = s ↔ ¬ TrailingSpace s := by
  unfold trimwhitespace
  dsimp only
  by_cases hall : s.dropWhile isSpace = []
  -- nothing but white space
  · rw [if_pos hall]
    refine iff_of_true rfl ?_
    rintro ⟨⟨c, hc, hother⟩, -⟩
    rw [List.dropWhile_eq_nil_iff.mp hall c hc] at hother
    cases hother
  · have hother : ∃ c ∈ s, isSpace c = false := by
      by_contra hnone
      simp only [not_exists, not_and, Bool.not_eq_false] at hnone
      exact hall (List.dropWhile_eq_nil_iff.mpr hnone)
    have hlast : s.getLast? = some ((s.dropWhile isSpace).getLast hall) := by
      rw [← List.getLast?_eq_some_getLast hall]
      conv_lhs => rw [← List.takeWhile_append_dropWhile (p := isSpace) (l := s)]
      exact List.getLast?_append_of_ne_nil _ hall
    have hself : s.takeWhile isSpace ++ (s.dropWhile isSpace).rdropWhile isSpace = s ↔
        (s.dropWhile isSpace).rdropWhile isSpace = s.dropWhile isSpace := by
      constructor
      · intro h
        exact List.append_cancel_left (h.trans List.takeWhile_append_dropWhile.symm)
      · intro h
        rw [h, List.takeWhile_append_dropWhile]
    rw [if_neg hall, hself, List.rdropWhile_eq_self_iff]
    constructor
    · rintro h ⟨-, c, hc, hspace⟩
      obtain rfl := Option.some.inj (hlast.symm.trans hc)
      exact h hall hspace
    · intro h _ hspace
      exact h ⟨hother, _, hlast, hspace⟩

/-! ## What the server reads -/

section Registration

variable {client_udp_port filename : List UInt8}

/-- The text of a port number. -/
def IsPort (s : List UInt8) : Prop := s ≠ [] ∧ ∀ c ∈ s, isDigit c = true

theorem IsPort.notMem {s : List UInt8} (h : IsPort s) {c : UInt8} (hc : isDigit c = false) :
    c ∉ s := by
  intro hmem
  rw [h.2 c hmem] at hc
  cases hc

/-- No white space comes off a number. -/
theorem IsPort.trimwhitespace {s : List UInt8} (h : IsPort s) : trimwhitespace s = s := by
  rw [trimwhitespace_eq_self_iff]
  rintro ⟨-, c, hc, hspace⟩
  have hdigit := h.2 c (List.mem_of_getLast? hc)
  rw [isSpace_of_isDigit hdigit] at hspace
  cases hspace

/-- A name that the server takes for itself: it is not empty, has no blank, and has no white space
at its end unless it is nothing but white space, which `trimwhitespace` leaves alone. -/
structure PlainName (filename : List UInt8) : Prop where
  ne_nil : filename ≠ []
  noBlank : 32 ∉ filename
  noTrailingSpace : ¬ TrailingSpace filename

/-- The second token, without white space at its end, is the name only when it is all of it. -/
theorem token_eq_iff {n : ℕ} :
    ((strtok 32 (filename.take n)).1.map trimwhitespace = some filename) ↔
      filename.length ≤ n ∧ PlainName filename := by
  constructor
  · intro h
    obtain ⟨t, ht, htrim⟩ := Option.map_eq_some_iff.mp h
    have htoken : strtok 32 (filename.take n) = (some t, (strtok 32 (filename.take n)).2) :=
      Prod.ext ht rfl
    obtain ⟨hne, hblank⟩ := of_strtok_eq_some htoken
    have hsub := sublist_of_strtok htoken
    -- neither the cut nor the token nor the white space has taken anything off
    have hle := hsub.length_le
    have htake := List.length_take_le n filename
    have hlen := length_trimwhitespace_le t
    rw [htrim] at hlen
    rw [List.length_take] at hle
    have hn : filename.length ≤ n := by omega
    rw [List.take_of_length_le hn] at hsub
    obtain rfl := hsub.eq_of_length_le hlen
    exact ⟨hn, hne, hblank, trimwhitespace_eq_self_iff.mp htrim⟩
  · rintro ⟨hn, hne, hblank, htrailing⟩
    rw [List.take_of_length_le hn, strtok_of_notMem hne hblank, Option.map_some,
      trimwhitespace_eq_self_iff.mpr htrailing]

/-- A text without a blank has no second token. -/
theorem strtok_snd_of_noBlank {s : List UInt8} (h : 32 ∉ s) :
    (strtok 32 (strtok 32 s).2).1 = none := by
  by_cases hnil : s = []
  · rw [hnil]
    rfl
  · rw [strtok_of_notMem hnil h, strtok_nil]

/-- Two texts with a blank between them, as far as they are there. -/
theorem take_append_blank (first second : List UInt8) (n : ℕ) :
    (first ++ 32 :: second).take (first.length + 1 + n) = first ++ 32 :: second.take n := by
  rw [Nat.add_assoc, List.take_length_add_append, Nat.add_comm 1 n, List.take_succ_cons]

/-- **The server has the port and the name that were sent** when it has read all of them, and the
name is plain. -/
theorem registration_take_iff (hport : IsPort client_udp_port) (hnul : 0 ∉ filename) {m : ℕ}
    (hm : m ≤ (client_udp_port ++ 32 :: filename).length) :
    registration ((client_udp_port ++ 32 :: filename).take m) = some (client_udp_port, filename) ↔
      m = (client_udp_port ++ 32 :: filename).length ∧ PlainName filename := by
  have hnone : 0 ∉ (client_udp_port ++ 32 :: filename).take m := by
    intro h
    rcases List.mem_append.mp (List.mem_of_mem_take h) with h | h
    · exact hport.notMem rfl h
    · exact hnul ((List.mem_cons.mp h).resolve_left (by decide))
  have hlen : (client_udp_port ++ 32 :: filename).length =
      client_udp_port.length + 1 + filename.length := by
    rw [List.length_append, List.length_cons]
    omega
  unfold registration
  rw [cstring_eq_self hnone]
  rcases Nat.lt_or_ge client_udp_port.length m with hlt | hle
  · obtain ⟨n, rfl⟩ := Nat.exists_eq_add_of_le (Nat.succ_le_of_lt hlt)
    have htoken : (strtok 32 (filename.take n)).1.map trimwhitespace = some filename ↔
        filename.length ≤ n ∧ PlainName filename := token_eq_iff
    rw [take_append_blank, strtok_append_cons hport.1 (hport.notMem rfl)]
    dsimp only
    cases hsecond : (strtok 32 (filename.take n)).1 with
    | none =>
      rw [hsecond] at htoken
      refine iff_of_false (by simp) fun h => ?_
      cases htoken.mpr ⟨by omega, h.2⟩
    | some t =>
      rw [hsecond, Option.map_some, Option.some_inj] at htoken
      rw [Option.some_inj, Prod.mk.injEq, hport.trimwhitespace, and_iff_right rfl, htoken]
      exact and_congr_left fun _ => by omega
  -- the read ends inside the port
  · have hpart : (client_udp_port ++ 32 :: filename).take m = client_udp_port.take m :=
      List.take_append_of_le_length hle
    have hblank : 32 ∉ client_udp_port.take m := fun h =>
      hport.notMem rfl (List.mem_of_mem_take h)
    rw [hpart]
    dsimp only
    rw [strtok_snd_of_noBlank hblank]
    refine iff_of_false ?_ fun h => ?_
    · cases (strtok 32 (client_udp_port.take m)).1 <;> simp
    · omega

end Registration

/-! ## What the client reads -/

section Replies

variable {udpPort : List UInt8}

/-- **The client has the port of the server** when it has read all of the answer. -/
theorem listenReply_take_iff (hudp : IsPort udpPort) {m : ℕ}
    (hm : m ≤ (ok ++ 32 :: udpPort).length) :
    listenReply ((ok ++ 32 :: udpPort).take m) = some (some udpPort) ↔
      m = (ok ++ 32 :: udpPort).length := by
  have hnone : 0 ∉ (ok ++ 32 :: udpPort).take m := by
    intro h
    rcases List.mem_append.mp (List.mem_of_mem_take h) with h | h
    · exact absurd h (by decide)
    · exact hudp.notMem rfl ((List.mem_cons.mp h).resolve_left (by decide))
  have hok : ok.length = 2 := rfl
  have hlen : (ok ++ 32 :: udpPort).length = 3 + udpPort.length := by
    rw [List.length_append, List.length_cons]
    omega
  unfold listenReply
  rw [cstring_eq_self hnone]
  rcases Nat.lt_or_ge ok.length m with hlt | hle
  · obtain ⟨n, rfl⟩ := Nat.exists_eq_add_of_le (Nat.succ_le_of_lt hlt)
    have hnodigits : 32 ∉ udpPort.take n := fun h => hudp.notMem rfl (List.mem_of_mem_take h)
    rw [take_append_blank, strtok_append_cons (by decide) (by decide)]
    dsimp only
    rw [if_pos rfl]
    by_cases hnil : udpPort.take n = []
    · rw [hnil, strtok_nil]
      refine iff_of_false (by simp) fun h => ?_
      have hpos := List.length_pos_iff.mpr hudp.1
      have hzero := congrArg List.length hnil
      rw [List.length_take, List.length_nil] at hzero
      omega
    · rw [strtok_of_notMem hnil hnodigits]
      dsimp only
      rw [Option.some_inj, Option.some_inj, List.take_eq_self_iff]
      omega
  -- no port has arrived
  · have hpart : (ok ++ 32 :: udpPort).take m = ok.take m := List.take_append_of_le_length hle
    have hblank : 32 ∉ ok.take m := fun h => absurd (List.mem_of_mem_take h) (by decide)
    rw [hpart]
    dsimp only
    rw [strtok_snd_of_noBlank hblank]
    refine iff_of_false ?_ (by omega)
    cases (strtok 32 (ok.take m)).1 with
    | none => simp
    | some t =>
      dsimp only
      split_ifs <;> simp

/-- The first read of an answer gives something. -/
theorem length_first_pos {B : ℕ} {s : List UInt8} (seg : Segmentation B s) (hs : s ≠ []) :
    0 < seg.first.length := by
  obtain ⟨q, qs, hpieces, hq⟩ := seg.exists_cons hs
  rw [Segmentation.first, hpieces]
  exact List.length_pos_iff.mpr hq

/-- On `"KO"` the client leaves, also when only its first character has arrived. -/
theorem listenReply_ko (seg : Segmentation 1024 ([75, 79] : List UInt8)) :
    listenReply seg.first = some none := by
  have hpos := length_first_pos seg (List.cons_ne_nil _ _)
  have hle := seg.length_first_le
  rw [List.length_cons, List.length_singleton] at hle
  rw [← seg.take_length_first]
  rcases (by omega : seg.first.length = 1 ∨ seg.first.length = 2) with h | h
  · rw [h]
    rfl
  · rw [h]
    rfl

end Replies

/-! ## The agreement -/

section Agreement

variable {access : List UInt8 → Bool} {client_udp_port filename udpPort : List UInt8}
  {request : ∀ s : List UInt8, Segmentation 8192 s}
  {reply : ∀ s : List UInt8, Segmentation 1024 s}

/-- The request reaches the server as it was meant: it fits, its name is plain, and it is read
whole. -/
def Understood (client_udp_port filename : List UInt8)
    (request : ∀ s : List UInt8, Segmentation 8192 s) : Prop :=
  client_udp_port.length + 1 + filename.length < 50 ∧ PlainName filename ∧
    (request (client_udp_port ++ 32 :: filename)).first.length =
      (client_udp_port ++ 32 :: filename).length

theorem length_request (client_udp_port filename : List UInt8) :
    (client_udp_port ++ 32 :: filename).length = client_udp_port.length + 1 + filename.length := by
  rw [List.length_append, List.length_cons]
  omega

/-- The server's part in the handshake. -/
theorem understood_iff (hport : IsPort client_udp_port) (hnul : 0 ∉ filename) :
    Understood client_udp_port filename request ↔
      ∃ port_path, portPath client_udp_port filename = some port_path ∧
        registration (request port_path).first = some (client_udp_port, filename) := by
  have hlen := length_request client_udp_port filename
  have hread := registration_take_iff hport hnul
    (request (client_udp_port ++ 32 :: filename)).length_first_le
  rw [Segmentation.take_length_first] at hread
  unfold Understood portPath
  dsimp only
  rw [hlen]
  by_cases hfits : client_udp_port.length + 1 + filename.length < 50
  · rw [if_pos hfits, and_iff_right hfits, ← hlen, and_comm, ← hread]
    simp
  · rw [if_neg hfits]
    simp [hfits]

/-- Both parties' terms, from the parts of the handshake. -/
theorem handshake_eq_some_iff : handshake access client_udp_port filename udpPort request reply =
      some (some ⟨filename, client_udp_port, udpPort⟩) ↔
    ∃ port_path answer, portPath client_udp_port filename = some port_path ∧
      registration (request port_path).first = some (client_udp_port, filename) ∧
      okport udpPort (access filename) = some answer ∧
      listenReply (reply answer).first = some (some udpPort) := by
  simp only [handshake, Option.bind_eq_bind, Option.bind_eq_some_iff]
  constructor
  · rintro ⟨port_path, hpath, ⟨client_port_r, client_path_r⟩, hr, answer, hanswer, server_port_r,
      hport, h⟩
    obtain ⟨p, rfl, hterms⟩ := Option.map_eq_some_iff.mp (Option.some.inj h)
    obtain ⟨rfl, rfl, rfl⟩ := Terms.mk.inj hterms
    exact ⟨port_path, answer, hpath, hr, hanswer, hport⟩
  · rintro ⟨port_path, answer, hpath, hr, hanswer, hport⟩
    exact ⟨port_path, hpath, _, hr, answer, hanswer, _, hport, rfl⟩

/-- The client's part in the handshake. -/
theorem answered_iff (hudp : IsPort udpPort) :
    (∃ answer, okport udpPort (access filename) = some answer ∧
      listenReply (reply answer).first = some (some udpPort)) ↔
    access filename = true ∧ 3 + udpPort.length < 15 ∧
      (reply (ok ++ 32 :: udpPort)).first.length = (ok ++ 32 :: udpPort).length := by
  have hlen : (ok ++ 32 :: udpPort).length = 3 + udpPort.length := by
    have hok : ok.length = 2 := rfl
    rw [List.length_append, List.length_cons]
    omega
  have hread := listenReply_take_iff hudp (reply (ok ++ 32 :: udpPort)).length_first_le
  rw [Segmentation.take_length_first] at hread
  unfold okport
  dsimp only
  rw [← hread, hlen]
  cases access filename with
  | true =>
    rw [if_pos rfl]
    by_cases hfits : 3 + udpPort.length < 15
    · rw [if_pos hfits]
      simp [hfits]
    · rw [if_neg hfits]
      simp [hfits]
  | false =>
    refine iff_of_false ?_ fun h => Bool.noConfusion h.1
    rintro ⟨answer, hanswer, hreply⟩
    obtain rfl : [75, 79] = answer := by simpa using hanswer
    rw [listenReply_ko] at hreply
    cases hreply

end Agreement

/-- **The parties agree on the file and on each other's ports exactly when** the request is
understood, the file exists, and the answer fits and is read whole. When the file does not exist the
client leaves. -/
theorem handshake_iff (access : List UInt8 → Bool) (client_udp_port filename udpPort : List UInt8)
    (hport : IsPort client_udp_port) (hudp : IsPort udpPort) (hnul : 0 ∉ filename)
    (request : ∀ s : List UInt8, Segmentation 8192 s)
    (reply : ∀ s : List UInt8, Segmentation 1024 s) :
    (handshake access client_udp_port filename udpPort request reply =
        some (some ⟨filename, client_udp_port, udpPort⟩) ↔
      Understood client_udp_port filename request ∧ access filename = true ∧
        3 + udpPort.length < 15 ∧
        (reply (ok ++ 32 :: udpPort)).first.length = (ok ++ 32 :: udpPort).length) ∧
    (Understood client_udp_port filename request → access filename = false →
      handshake access client_udp_port filename udpPort request reply = some none) := by
  constructor
  · rw [handshake_eq_some_iff, understood_iff hport hnul, ← answered_iff hudp]
    constructor
    · rintro ⟨port_path, answer, hpath, hr, hanswer, hreply⟩
      exact ⟨⟨port_path, hpath, hr⟩, answer, hanswer, hreply⟩
    · rintro ⟨⟨port_path, hpath, hr⟩, answer, hanswer, hreply⟩
      exact ⟨port_path, answer, hpath, hr, hanswer, hreply⟩
  · intro hunderstood hmissing
    obtain ⟨port_path, hpath, hr⟩ := (understood_iff hport hnul).mp hunderstood
    have hko : okport udpPort false = some [75, 79] := rfl
    simp only [handshake, hpath, hr, hmissing, hko, Option.bind_eq_bind, Option.bind_some,
      listenReply_ko]
    rfl

/-- The port of the example in the source. -/
def examplePort : List UInt8 := [53, 54, 54, 53]

/-- A client that asks for `a`. -/
theorem handshake_a : handshake (fun _ => true) examplePort [97] examplePort
    (.atOnce (by decide)) (.atOnce (by decide)) = some (some ⟨[97], examplePort, examplePort⟩) := by
  have hdigits : examplePort.all (fun c => isDigit c) = true := rfl
  have hport : IsPort examplePort := ⟨List.cons_ne_nil _ _, List.all_eq_true.mp hdigits⟩
  have hplain : PlainName [97] := by
    refine ⟨by decide, by decide, ?_⟩
    rintro ⟨-, c, hc, hspace⟩
    obtain rfl := Option.some.inj hc
    cases hspace
  obtain ⟨hagree, -⟩ := handshake_iff (fun _ => true) examplePort [97] examplePort hport hport
    (by decide) (.atOnce (by decide)) (.atOnce (by decide))
  exact hagree.mpr ⟨⟨by decide, hplain, by decide⟩, rfl, by decide, by decide⟩

end NetworkLabs.Audio

import NetworkLabs.Runtime.Text
import NetworkLabs.Runtime.Tokens

/-!
# The request of a file transfer

A client asks for a file with `"$key$filename"`. It checks both arguments first; the server splits
the request with two calls of `strtok_r`. The stream server and the datagram server share the
format and the code for it, and so do their clients.

## Main definitions

* `validateSecretKey`, `checkFileName`, `validateFileName`, `validateFile`: the checks
* `ClientArgs`, `ClientArgs.text`: a client that has passed the checks, and what it sends
* `decode`: the two calls of `strtok_r`

## Main results

* `decode_text_iff`: the requests that are split into what they were made of
-/

namespace NetworkLabs.Request

open CRuntime

/-- `isascii`. -/
def isascii (c : UInt8) : Bool := c < 128

/-- `validateSecretKey`: it stops with the text of an error. -/
def validateSecretKey (secretKey : List UInt8) : Except String Unit :=
  if secretKey.length < 10 ∨ secretKey.length > 20 then
    .error "Secret Key must be at least length 10 but not more than 20"
  -- the loop runs up to the terminator
  else if (secretKey ++ [0]).all isascii then .ok ()
  else .error "Secret Key must be ASCII representable."

/-- `" \n\t//"`. -/
def invalid_filename_characters : List UInt8 := [32, 10, 9, 47, 47]

/-- The check of the length and of the characters, in `validateFileName` and `validateFile`. -/
def checkFileName (filename : List UInt8) : Except String Unit :=
  let message := "Filename cannot contain spaces or forward slashes ('/'), " ++
    "and it must not exceed 16 ASCII characters."
  -- `filename_len >= 0` holds of every `size_t`
  if filename.length ≤ 16 ∧ 0 ≤ filename.length then
    if filename.any fun c => invalid_filename_characters.contains c then .error message
    else .ok ()
  else .error message

/-- `validateFileName` of the client, where `access` tells which files exist. -/
def validateFileName (access : List UInt8 → Bool) (filename : List UInt8) : Except String Unit :=
  match checkFileName filename with
  | .error message => .error message
  | .ok () =>
    if access filename then .error "-- File already exists! Delete and retry-- \n" else .ok ()

/-- `validateFile` of the server, where `access` tells which files exist. -/
def validateFile (access : List UInt8 → Bool) (filename : List UInt8) : Bool :=
  match checkFileName filename with
  | .error _ => false
  | .ok () => access filename

/-- The arguments of a client that has passed the checks. -/
structure ClientArgs where
  key : List UInt8
  filename : List UInt8
  key_noNul : 0 ∉ key
  filename_noNul : 0 ∉ filename
  key_valid : validateSecretKey key = .ok ()
  filename_valid : checkFileName filename = .ok ()

/-- The request: `sprintf(str, "$%s$", key)` and `strcat(str, filename)`. -/
def ClientArgs.text (r : ClientArgs) : List UInt8 := dollar :: r.key ++ dollar :: r.filename

/-- The two calls of `strtok_r` on what was received: the secret key and the file name. -/
def decode (received : List UInt8) : Option (List UInt8) × Option (List UInt8) :=
  let first := strtok dollar (cstring received)
  (first.1, (strtok dollar first.2).1)

/-! ## What the checks admit -/

theorem length_key_pos (r : ClientArgs) : 0 < r.key.length := by
  have h := r.key_valid
  unfold validateSecretKey at h
  split at h
  · cases h
  · omega

theorem key_ne_nil (r : ClientArgs) : r.key ≠ [] := List.length_pos_iff.mp (length_key_pos r)

/-- No byte of a request is a terminator. -/
theorem zero_notMem_text (r : ClientArgs) : 0 ∉ r.text := by
  have hd : (0 : UInt8) ≠ dollar := by decide
  simp only [ClientArgs.text, List.cons_append, List.mem_cons, List.mem_append, not_or]
  exact ⟨hd, r.key_noNul, hd, r.filename_noNul⟩

/-! ## The round trip -/

/-- A token that `strtok_r` gives is not empty and holds no delimiter. -/
theorem of_decode_eq_some {received k f : List UInt8} (h : decode received = (some k, some f)) :
    dollar ∉ k ∧ dollar ∉ f ∧ f ≠ [] := by
  obtain ⟨hk, hf⟩ := Prod.mk.inj h
  have hk' := of_strtok_eq_some (Prod.ext hk rfl)
  have hf' := of_strtok_eq_some (Prod.ext hf rfl)
  exact ⟨hk'.2, hf'.2, hf'.1⟩

/-- **The request is split into the key and the file name exactly** when neither holds a `'$'` and
there is a file name. -/
theorem decode_text_iff (r : ClientArgs) :
    decode r.text = (some r.key, some r.filename) ↔
      dollar ∉ r.key ∧ dollar ∉ r.filename ∧ r.filename ≠ [] := by
  constructor
  · exact of_decode_eq_some
  · rintro ⟨hkey, hname, hne⟩
    -- the first call stops at the `'$'` behind the key, the second reads to the end
    have hfirst : strtok dollar r.text = (some r.key, r.filename) := by
      rw [ClientArgs.text, List.cons_append, strtok_cons_self]
      exact strtok_append_cons (key_ne_nil r) hkey r.filename
    rw [decode, cstring_eq_self (zero_notMem_text r), hfirst]
    show (some r.key, (strtok dollar r.filename).1) = _
    rw [strtok_of_notMem hne hname]

/-- A request for the empty file name, which the checks admit. -/
def emptyName : ClientArgs where
  key := [48, 49, 50, 51, 52, 53, 54, 55, 56, 57]
  filename := []
  key_noNul := by decide
  filename_noNul := by decide
  key_valid := by decide
  filename_valid := by decide

/-- The second call of `strtok_r` gives `NULL`. -/
theorem decode_emptyName :
    decode emptyName.text ≠ (some emptyName.key, some emptyName.filename) := by
  decide

end NetworkLabs.Request

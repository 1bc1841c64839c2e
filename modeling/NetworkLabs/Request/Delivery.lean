import NetworkLabs.Foundation.Segmentation
import NetworkLabs.Request.Format

/-!
# The request in a stream

The stream server reads once and decodes what that read has given. The rest of the request, if it
comes later, is never read: a field that the first read has cut short is taken for the whole field.

## Main definitions

* `fileserverDecode`: what the server makes of the results of its reads
* `fieldsEnd`: how much of a request the two calls of `strtok_r` look at

## Main results

* `decode_append_iff`: a prefix is decoded like the whole exactly when it contains the fields
* `fileserverDecode_iff`: the segmentations that do not change the decision
-/

namespace NetworkLabs.Request

open CRuntime Streams

/-- `fileserver` decodes the result of its one call of `read`, into `BUFSIZ` bytes. -/
def fileserverDecode {s : List UInt8} (seg : Segmentation BUFSIZ s) :
    Option (List UInt8) × Option (List UInt8) :=
  decode seg.first

/-- The end of the last field that the two calls find. -/
def fieldsEnd (s : List UInt8) : ℕ :=
  let rest := (strtok dollar s).2
  if tokenEnd dollar rest = 0 then tokenEnd dollar s
  else consumed dollar s + tokenEnd dollar rest

/-- **A prefix is decoded like the whole exactly when it contains the fields.** -/
theorem decode_append_iff {s u : List UInt8} (h : 0 ∉ s ++ u) :
    decode s = decode (s ++ u) ↔ fieldsEnd (s ++ u) ≤ s.length := by
  have hs : 0 ∉ s := fun hmem => h (List.mem_append_left _ hmem)
  have hle := tokenEnd_le_consumed dollar (s ++ u)
  rw [decode, decode, cstring_eq_self hs, cstring_eq_self h, Prod.mk.injEq, eq_comm,
    strtok_append_eq_iff]
  have hfields : fieldsEnd (s ++ u) ≤ s.length ↔ tokenEnd dollar (s ++ u) ≤ s.length ∧
      (tokenEnd dollar (strtok dollar (s ++ u)).2 = 0 ∨
        consumed dollar (s ++ u) + tokenEnd dollar (strtok dollar (s ++ u)).2 ≤ s.length) := by
    unfold fieldsEnd
    simp only
    split <;> omega
  rw [hfields]
  refine and_congr_right fun hfirst => ?_
  rw [strtok_snd_of_append hfirst, strtok_snd_eq_drop dollar (s ++ u)]
  rcases Nat.lt_or_ge s.length (consumed dollar (s ++ u)) with hlt | hge
  -- the prefix ends inside the first field: there is no second one in it
  · rw [List.drop_eq_nil_of_le hlt.le, strtok_nil, eq_comm, strtok_fst_eq_none_iff]
    omega
  -- the second call starts at the same place, inside the prefix
  · rw [List.drop_append_of_le_length hge, eq_comm, strtok_append_eq_iff, List.length_drop]
    omega

/-- **The decision depends on the first read alone**: it is the decision on the whole request
exactly when that read reaches the end of the last field. -/
theorem fileserverDecode_iff (r : ClientArgs) (seg : Segmentation BUFSIZ r.text) :
    fileserverDecode seg = decode r.text ↔ fieldsEnd r.text ≤ seg.first.length := by
  obtain ⟨u, hu⟩ := seg.exists_append
  have hnul : 0 ∉ seg.first ++ u := hu ▸ zero_notMem_text r
  have h := decode_append_iff hnul
  rwa [← hu] at h

/-- A request for `abc`. -/
def abc : ClientArgs where
  key := emptyName.key
  filename := [97, 98, 99]
  key_noNul := emptyName.key_noNul
  filename_noNul := by decide
  key_valid := emptyName.key_valid
  filename_valid := by decide

/-- The first segment ends before the file name. -/
def abcSplit : Segmentation BUFSIZ abc.text where
  pieces := [dollar :: abc.key ++ [dollar], [97, 98, 99]]
  flatten_eq := by decide
  ne_nil := by decide
  length_le := by decide

/-- The server takes the file name for missing. -/
theorem fileserverDecode_abcSplit : fileserverDecode abcSplit ≠ decode abc.text := by decide

end NetworkLabs.Request

import Mathlib.Data.List.Basic
import Mathlib.Data.List.TakeWhile

/-!
# Splitting a string at a delimiter

`strtok_r` with one delimiter, on a string given as the list of its characters: leading delimiters
are skipped, the token ends at the next one, and the saved pointer stands behind that. Once a call
finds only delimiters, the saved pointer is at the end of the string and every later call returns
`NULL` too.

## Main definitions

* `strtok d s`: one call, with the token and the string at the saved pointer
* `tokens d s`: the tokens of the calls up to the first `NULL`
* `tokenEnd d s`, `consumed d s`: how far one call reads
* `strtokIn d z s`: one call on an object, whose string ends at the first `z`

## Main results

* `strtok_append_eq_iff`: a prefix has the same first token exactly when it contains it
* `tokens_framed`: delimited fields are split into themselves
* `tokens_append_eq_iff`: when a suffix does not matter
-/

namespace CRuntime

variable {α : Type*} [DecidableEq α]

omit [DecidableEq α] in
/-- What is taken goes up to the first character that does not belong. -/
theorem takeWhile_append_cons {p : α → Bool} {f : List α} (hf : ∀ b ∈ f, p b = true) {c : α}
    (hc : p c = false) (r : List α) : (f ++ c :: r).takeWhile p = f := by
  rw [List.takeWhile_append_of_pos hf, List.takeWhile_cons_of_neg (by simp [hc]), List.append_nil]

omit [DecidableEq α] in
theorem dropWhile_append_cons {p : α → Bool} {f : List α} (hf : ∀ b ∈ f, p b = true) {c : α}
    (hc : p c = false) (r : List α) : (f ++ c :: r).dropWhile p = c :: r := by
  rw [List.dropWhile_append_of_pos hf, List.dropWhile_cons_of_neg (by simp [hc])]

/-- One call of `strtok_r`: the token, `none` for `NULL`, and the string at the saved pointer. -/
def strtok (d : α) (s : List α) : Option (List α) × List α :=
  match s.dropWhile (· == d) with
  | [] => (none, [])
  | c :: t => (some (c :: t.takeWhile (· != d)), (t.dropWhile (· != d)).tail)

/-- The tokens of at most `n` calls of `strtok_r`, up to the first `NULL`. -/
def tokensN (d : α) : ℕ → List α → List (List α)
  | 0, _ => []
  | n + 1, s =>
    match strtok d s with
    | (none, _) => []
    | (some t, r) => t :: tokensN d n r

/-- The tokens of all calls of `strtok_r` on a string. -/
def tokens (d : α) (s : List α) : List (List α) := tokensN d s.length s

/-- Every field followed by the delimiter, with one delimiter in front. -/
def framed (d : α) (fields : List (List α)) : List α := d :: fields.flatMap (· ++ [d])

@[simp] theorem strtok_nil (d : α) : strtok d [] = (none, []) := rfl

@[simp] theorem strtok_cons_self (d : α) (s : List α) : strtok d (d :: s) = strtok d s := by
  simp [strtok]

theorem strtok_cons_of_ne {d c : α} (h : c ≠ d) (s : List α) :
    strtok d (c :: s) = (some (c :: s.takeWhile (· != d)), (s.dropWhile (· != d)).tail) := by
  simp [strtok, h]

/-- A field in front of a delimiter is the first token, and the rest is left for the next call. -/
theorem strtok_append_cons {d : α} {f : List α} (hne : f ≠ []) (hf : d ∉ f) (r : List α) :
    strtok d (f ++ d :: r) = (some f, r) := by
  obtain ⟨c, f, rfl⟩ := List.exists_cons_of_ne_nil hne
  have hmem : ∀ x ∈ f, (x != d) = true := fun x hx => by
    simpa using fun h : x = d => hf (by simp [← h, hx])
  rw [List.cons_append, strtok_cons_of_ne (fun h => hf (by simp [h])),
    takeWhile_append_cons hmem (by simp), dropWhile_append_cons hmem (by simp), List.tail_cons]

/-- A field at the end of the string is a token. -/
theorem strtok_of_notMem {d : α} {f : List α} (hne : f ≠ []) (hf : d ∉ f) :
    strtok d f = (some f, []) := by
  obtain ⟨c, f, rfl⟩ := List.exists_cons_of_ne_nil hne
  have hmem : ∀ x ∈ f, (x != d) = true := fun x hx => by
    simpa using fun h : x = d => hf (by simp [← h, hx])
  rw [strtok_cons_of_ne (fun h => hf (by simp [h])), List.takeWhile_eq_self_iff.mpr hmem,
    List.dropWhile_eq_nil_iff.mpr hmem]
  rfl

/-- A token is not empty and holds no delimiter. -/
theorem of_strtok_eq_some {d : α} {s t r : List α} (h : strtok d s = (some t, r)) :
    t ≠ [] ∧ d ∉ t := by
  induction s with
  | nil => simp at h
  | cons c s ih =>
    by_cases hc : c = d
    -- a leading delimiter is skipped
    · subst hc
      exact ih (by rwa [strtok_cons_self] at h)
    · obtain ⟨rfl, -⟩ := by simpa [strtok_cons_of_ne hc] using h
      refine ⟨by simp, fun hmem => ?_⟩
      rcases List.mem_cons.mp hmem with rfl | ht
      · exact hc rfl
      · simpa using List.mem_takeWhile_imp ht

/-- A token is a part of the string. -/
theorem sublist_of_strtok {d : α} {s t r : List α} (h : strtok d s = (some t, r)) :
    t.Sublist s := by
  induction s with
  | nil => simp at h
  | cons c s ih =>
    by_cases hc : c = d
    · subst hc
      exact (ih (by rwa [strtok_cons_self] at h)).cons c
    · obtain ⟨rfl, -⟩ := by simpa [strtok_cons_of_ne hc] using h
      exact (List.takeWhile_sublist _).cons_cons c

/-- A token takes at least one character off the string. -/
theorem length_lt_of_strtok {d : α} {s t r : List α} (h : strtok d s = (some t, r)) :
    r.length < s.length := by
  induction s with
  | nil => simp at h
  | cons c s ih =>
    by_cases hc : c = d
    · subst hc
      have hlt := ih (by rwa [strtok_cons_self] at h)
      rw [List.length_cons]
      omega
    · obtain ⟨-, rfl⟩ := by simpa [strtok_cons_of_ne hc] using h
      have hle := (List.dropWhile_suffix (l := s) (· != d)).length_le
      rw [List.length_tail, List.length_cons]
      omega

/-! ## All tokens -/

theorem tokensN_congr (d : α) {m n : ℕ} {s : List α} (hm : s.length ≤ m) (hn : s.length ≤ n) :
    tokensN d m s = tokensN d n s := by
  induction m generalizing n s with
  | zero =>
    obtain rfl := List.length_eq_zero_iff.mp (Nat.le_zero.mp hm)
    cases n <;> rfl
  | succ m ih =>
    cases n with
    | zero =>
      obtain rfl := List.length_eq_zero_iff.mp (Nat.le_zero.mp hn)
      rfl
    | succ n =>
      unfold tokensN
      split
      · rfl
      · next t r h =>
        -- every call shortens the string, so the number of calls does not matter
        have hlt := length_lt_of_strtok h
        rw [ih (by omega : r.length ≤ m) (by omega : r.length ≤ n)]

theorem tokens_of_strtok_eq_some {d : α} {s t r : List α} (h : strtok d s = (some t, r)) :
    tokens d s = t :: tokens d r := by
  have hlt := length_lt_of_strtok h
  obtain ⟨n, hn⟩ := Nat.exists_eq_add_of_lt hlt
  have hstep : tokens d s = t :: tokensN d (r.length + n) r := by
    rw [tokens, hn, tokensN, h]
  rw [hstep, tokens, tokensN_congr d (by omega) le_rfl]

theorem tokens_of_strtok_eq_none {d : α} {s r : List α} (h : strtok d s = (none, r)) :
    tokens d s = [] := by
  unfold tokens
  cases s.length with
  | zero => rfl
  | succ n => rw [tokensN, h]

@[simp] theorem tokens_nil (d : α) : tokens d [] = [] := rfl

@[simp] theorem tokens_cons_self (d : α) (s : List α) : tokens d (d :: s) = tokens d s := by
  rcases h : strtok d s with ⟨_ | t, r⟩
  · rw [tokens_of_strtok_eq_none h, tokens_of_strtok_eq_none ((strtok_cons_self d s).trans h)]
  · rw [tokens_of_strtok_eq_some h, tokens_of_strtok_eq_some ((strtok_cons_self d s).trans h)]

/-- **Delimited fields are split into themselves.** -/
theorem tokens_framed {d : α} {fields : List (List α)} (h : ∀ f ∈ fields, f ≠ [] ∧ d ∉ f) :
    tokens d (framed d fields) = fields := by
  rw [framed, tokens_cons_self]
  induction fields with
  | nil => rfl
  | cons f fs ih =>
    obtain ⟨hne, hf⟩ := h f (by simp)
    have hstep : strtok d ((f :: fs).flatMap (· ++ [d])) = (some f, fs.flatMap (· ++ [d])) := by
      simpa using strtok_append_cons hne hf (fs.flatMap (· ++ [d]))
    rw [tokens_of_strtok_eq_some hstep, ih fun g hg => h g (by simp [hg])]

theorem tokens_cons_of_ne {d c : α} (h : c ≠ d) (s : List α) :
    tokens d (c :: s) =
      (c :: s.takeWhile (· != d)) :: tokens d (s.dropWhile (· != d)).tail :=
  tokens_of_strtok_eq_some (strtok_cons_of_ne h s)

/-- Induction along the calls of `strtok_r`: past a delimiter, or past a token. -/
theorem tokens_induction (d : α) {P : List α → Prop} (nil : P [])
    (self : ∀ s, P s → P (d :: s))
    (token : ∀ c s, c ≠ d → P (s.dropWhile (· != d)).tail → P (c :: s)) (s : List α) : P s := by
  induction h : s.length using Nat.strong_induction_on generalizing s with
  | _ n ih =>
    cases s with
    | nil => exact nil
    | cons c s =>
      by_cases hc : c = d
      · subst hc
        exact self s (ih s.length (by simp [← h]) s rfl)
      · have hlt := length_lt_of_strtok (strtok_cons_of_ne hc s)
        exact token c s hc (ih _ (h ▸ hlt) _ rfl)

omit [DecidableEq α] in
theorem takeWhile_append_filter_tail_dropWhile (p : α → Bool) (s : List α) :
    s.takeWhile p ++ (s.dropWhile p).tail.filter p = s.filter p := by
  induction s with
  | nil => rfl
  | cons c s ih =>
    cases hc : p c with
    | true =>
      rw [List.takeWhile_cons_of_pos hc, List.dropWhile_cons_of_pos hc, List.filter_cons_of_pos hc,
        List.cons_append, ih]
    | false => simp [hc]

/-- The tokens hold every character that is no delimiter, in order. -/
theorem flatten_tokens (d : α) (s : List α) : (tokens d s).flatten = s.filter (· != d) := by
  induction s using tokens_induction d with
  | nil => rfl
  | self s ih => rw [tokens_cons_self, ih, List.filter_cons_of_neg (by simp)]
  | token c s hc ih =>
    rw [tokens_cons_of_ne hc, List.flatten_cons, ih, List.cons_append,
      takeWhile_append_filter_tail_dropWhile, List.filter_cons_of_pos (by simpa using hc)]

theorem takeWhile_concat_self (d : α) (s : List α) :
    (s ++ [d]).takeWhile (· != d) = s.takeWhile (· != d) := by
  induction s with
  | nil => simp
  | cons c s ih =>
    by_cases hc : c = d
    · simp [hc]
    · simp [hc, ih]

theorem dropWhile_concat_self (d : α) (s : List α) :
    (s ++ [d]).dropWhile (· != d) = s.dropWhile (· != d) ++ [d] := by
  induction s with
  | nil => simp
  | cons c s ih =>
    by_cases hc : c = d
    · simp [hc]
    · simp [hc, ih]

/-- A delimiter at the end makes no token. -/
theorem tokens_concat_self (d : α) (s : List α) : tokens d (s ++ [d]) = tokens d s := by
  induction s using tokens_induction d with
  | nil => exact tokens_cons_self d []
  | self s ih => rw [List.cons_append, tokens_cons_self, tokens_cons_self, ih]
  | token c s hc ih =>
    rw [List.cons_append, tokens_cons_of_ne hc, tokens_cons_of_ne hc,
      takeWhile_concat_self, dropWhile_concat_self]
    -- `s` ends with the token, or the token ends inside `s`
    rcases hr : s.dropWhile (· != d) with _ | ⟨e, r⟩
    · rfl
    · rw [hr] at ih
      exact congrArg _ ih

/-- **What follows a string leaves its tokens as they are exactly when it holds only
delimiters.** -/
theorem tokens_append_eq_iff (d : α) (s u : List α) :
    tokens d (s ++ u) = tokens d s ↔ ∀ c ∈ u, c = d := by
  constructor
  · intro h c hc
    -- another character would be a character of the tokens
    have hflat := congrArg (fun ts : List (List α) => ts.flatten.length) h
    simp only [flatten_tokens, List.filter_append, List.length_append] at hflat
    have hnil : u.filter (· != d) = [] := List.length_eq_zero_iff.mp (by omega)
    simpa using List.filter_eq_nil_iff.mp hnil c hc
  · intro h
    induction u generalizing s with
    | nil => rw [List.append_nil]
    | cons e u ih =>
      obtain rfl := h e List.mem_cons_self
      rw [List.append_cons, ih _ fun c hc => h c (List.mem_cons_of_mem _ hc), tokens_concat_self]

omit [DecidableEq α] in
/-- The fields that come from an index range of `args`, each appended with a delimiter. -/
theorem foldl_range'_strcat (d : α) (front args back : List (List α)) (str : List α) :
    (List.range' front.length args.length).foldl
      (fun str a => str ++ (front ++ args ++ back).getD a [] ++ [d]) str =
    str ++ args.flatMap (· ++ [d]) := by
  induction args generalizing front str with
  | nil => simp
  | cons f args ih =>
    have hget : (front ++ f :: args ++ back).getD front.length [] = f := by simp
    have hshift : front ++ f :: args ++ back = (front ++ [f]) ++ args ++ back := by simp
    have hrest := ih (front ++ [f]) (str ++ f ++ [d])
    rw [List.length_append, List.length_singleton, ← hshift] at hrest
    rw [List.length_cons, List.range'_succ, List.foldl_cons, hget, hrest, List.flatMap_cons]
    simp only [List.append_assoc]

omit [DecidableEq α] in
/-- A framed string is longer than twice the number of its fields. -/
theorem lt_length_framed {d : α} {fields : List (List α)} (h : ∀ f ∈ fields, f ≠ []) :
    2 * fields.length < (framed d fields).length := by
  rw [framed, List.length_cons]
  induction fields with
  | nil => simp
  | cons f fs ih =>
    have hrest := ih fun g hg => h g (List.mem_cons_of_mem f hg)
    have hpos := List.length_pos_of_ne_nil (h f List.mem_cons_self)
    rw [List.flatMap_cons, List.length_append, List.length_append, List.length_singleton,
      List.length_cons]
    omega

/-! ## How far one call reads -/

/-- The number of characters up to the end of the first token, `0` when there is none. -/
def tokenEnd (d : α) : List α → ℕ
  | [] => 0
  | c :: s =>
    if c = d then if tokenEnd d s = 0 then 0 else tokenEnd d s + 1
    else (s.takeWhile (· != d)).length + 1

/-- The number of characters the saved pointer has passed after one call. -/
def consumed (d : α) : List α → ℕ
  | [] => 0
  | c :: s => if c = d then consumed d s + 1 else (s.takeWhile (· != d)).length + 2

theorem strtok_fst_eq_none_iff (d : α) (s : List α) :
    (strtok d s).1 = none ↔ tokenEnd d s = 0 := by
  induction s with
  | nil => simp [tokenEnd]
  | cons c s ih =>
    by_cases hc : c = d
    · subst hc
      rw [strtok_cons_self, ih, tokenEnd, if_pos rfl]
      split <;> simp_all
    · simp [strtok_cons_of_ne hc, tokenEnd, hc]

theorem strtok_snd_eq_drop (d : α) (s : List α) : (strtok d s).2 = s.drop (consumed d s) := by
  induction s with
  | nil => rfl
  | cons c s ih =>
    by_cases hc : c = d
    · subst hc
      rw [strtok_cons_self, ih, consumed, if_pos rfl, List.drop_succ_cons]
    -- the token ends at the next delimiter, which is passed over
    · have hdrop : s.drop (s.takeWhile (· != d)).length = s.dropWhile (· != d) :=
        calc s.drop (s.takeWhile (· != d)).length
            = (s.takeWhile (· != d) ++ s.dropWhile (· != d)).drop
                (s.takeWhile (· != d)).length := by rw [List.takeWhile_append_dropWhile]
          _ = s.dropWhile (· != d) := List.drop_left ..
      rw [strtok_cons_of_ne hc, consumed, if_neg hc, List.drop_succ_cons, ← List.drop_drop, hdrop,
        List.drop_one]

theorem tokenEnd_le_consumed (d : α) (s : List α) : tokenEnd d s ≤ consumed d s := by
  induction s with
  | nil => exact le_rfl
  | cons c s ih =>
    unfold tokenEnd consumed
    split
    · split <;> omega
    · omega

omit [DecidableEq α] in
theorem takeWhile_append_eq_iff (p : α → Bool) (s u : List α) :
    (s ++ u).takeWhile p = s.takeWhile p ↔ ((s ++ u).takeWhile p).length ≤ s.length := by
  constructor
  · intro h
    rw [h]
    exact (List.takeWhile_prefix p).length_le
  · intro h
    rw [List.takeWhile_append] at h ⊢
    split
    -- all of `s` is taken, and by the bound nothing of `u`
    · next hs =>
      have hall : s.takeWhile p = s := (List.takeWhile_prefix p).eq_of_length hs
      rw [if_pos hs, List.length_append] at h
      rw [List.length_eq_zero_iff.mp (by omega : (u.takeWhile p).length = 0), hall,
        List.append_nil]
    · rfl

/-- **A prefix of a string has the same first token exactly when it contains it.** -/
theorem strtok_append_eq_iff (d : α) (s u : List α) :
    (strtok d (s ++ u)).1 = (strtok d s).1 ↔ tokenEnd d (s ++ u) ≤ s.length := by
  induction s with
  | nil => simp [strtok_fst_eq_none_iff]
  | cons c s ih =>
    by_cases hc : c = d
    · subst hc
      rw [List.cons_append, strtok_cons_self, strtok_cons_self, ih, tokenEnd, if_pos rfl,
        List.length_cons]
      split <;> omega
    · rw [List.cons_append, strtok_cons_of_ne hc, strtok_cons_of_ne hc, tokenEnd, if_neg hc,
        Option.some_inj, List.cons_inj_right, takeWhile_append_eq_iff, List.length_cons]
      omega

theorem tokenEnd_le_length (d : α) (s : List α) : tokenEnd d s ≤ s.length := by
  induction s with
  | nil => exact le_rfl
  | cons c s ih =>
    have htake := (List.takeWhile_prefix (l := s) (· != d)).length_le
    unfold tokenEnd
    rw [List.length_cons]
    split
    · split <;> omega
    · omega

/-- A field in front of a delimiter ends with it. -/
theorem tokenEnd_append_cons {d : α} {f : List α} (hne : f ≠ []) (hf : d ∉ f) (r : List α) :
    tokenEnd d (f ++ d :: r) = f.length := by
  obtain ⟨c, f, rfl⟩ := List.exists_cons_of_ne_nil hne
  have hc : c ≠ d := fun h => hf (h ▸ List.mem_cons_self)
  have hmem : ∀ x ∈ f, (x != d) = true := fun x hx => by
    simpa using fun h : x = d => hf (h ▸ List.mem_cons_of_mem c hx)
  rw [List.cons_append, tokenEnd, if_neg hc, takeWhile_append_cons hmem (by simp),
    List.length_cons]

/-- A first token that ends before the string does stays the first token. -/
theorem strtok_append_of_lt {d : α} {s : List α} (hpos : tokenEnd d s ≠ 0)
    (hlt : tokenEnd d s < s.length) (u : List α) : (strtok d (s ++ u)).1 = (strtok d s).1 := by
  induction s with
  | nil => exact absurd rfl hpos
  | cons c s ih =>
    rw [List.length_cons] at hlt
    by_cases hc : c = d
    · subst hc
      rw [tokenEnd, if_pos rfl] at hpos hlt
      rw [List.cons_append, strtok_cons_self, strtok_cons_self]
      split at hlt
      · next hzero => exact absurd (if_pos hzero) hpos
      · next hzero => exact ih hzero (by omega)
    · rw [tokenEnd, if_neg hc] at hlt
      rw [List.cons_append, strtok_cons_of_ne hc, strtok_cons_of_ne hc, Option.some_inj,
        List.cons_inj_right, takeWhile_append_eq_iff, List.takeWhile_append,
        if_neg (by omega)]
      omega

/-- A first token that goes on to the end of the string goes on behind it. -/
theorem strtok_append_of_eq {d : α} {s : List α} (hne : s ≠ []) (heq : tokenEnd d s = s.length)
    (u : List α) :
    (strtok d (s ++ u)).1 = (strtok d s).1.map (· ++ u.takeWhile (· != d)) := by
  induction s with
  | nil => exact absurd rfl hne
  | cons c s ih =>
    rw [List.length_cons] at heq
    by_cases hc : c = d
    · subst hc
      rw [tokenEnd, if_pos rfl] at heq
      rw [List.cons_append, strtok_cons_self, strtok_cons_self]
      split at heq
      · omega
      · next hpos =>
        refine ih ?_ (by omega)
        rintro rfl
        exact hpos rfl
    · rw [tokenEnd, if_neg hc] at heq
      have hall : s.takeWhile (· != d) = s :=
        (List.takeWhile_prefix _).eq_of_length (Nat.succ.inj heq)
      rw [List.cons_append, strtok_cons_of_ne hc, strtok_cons_of_ne hc, List.takeWhile_append,
        if_pos (Nat.succ.inj heq), hall]
      rfl

/-- A prefix that contains the first token leaves the same rest, as far as the prefix goes. -/
theorem strtok_snd_of_append {d : α} {s u : List α} (h : tokenEnd d (s ++ u) ≤ s.length) :
    (strtok d s).2 = s.drop (consumed d (s ++ u)) := by
  rw [strtok_snd_eq_drop]
  induction s with
  | nil => simp
  | cons c s ih =>
    rw [List.cons_append] at h ⊢
    unfold tokenEnd at h
    unfold consumed
    split
    · rw [if_pos ‹_›, List.length_cons] at h
      rw [List.drop_succ_cons, List.drop_succ_cons]
      exact ih (by split at h <;> omega)
    · rw [if_neg ‹_›, List.length_cons] at h
      rw [(takeWhile_append_eq_iff _ s u).mpr (by omega)]

/-! ## A string in its object -/

/-- One call of `strtok_r` on an object of the cells `s`, whose string ends at the first `z`; `none`
when the call reads past the object. -/
def strtokIn (d z : α) (s : List α) : Option (Option (List α) × List α) :=
  match s.dropWhile (· == d) with
  | [] => none
  | c :: t =>
    if c = z then some (none, c :: t)
    else
      match t.dropWhile (fun b => b != d && b != z) with
      | [] => none
      | e :: r =>
        -- a token at the end of the string leaves the saved pointer at the terminator
        some (some (c :: t.takeWhile fun b => b != d && b != z), if e = z then e :: r else r)

@[simp] theorem strtokIn_cons_self (d z : α) (s : List α) :
    strtokIn d z (d :: s) = strtokIn d z s := by
  simp [strtokIn]

/-- A field in front of a delimiter is the first token, whatever lies behind the delimiter. -/
theorem strtokIn_append_cons {d z : α} (hdz : d ≠ z) {f : List α} (hne : f ≠ []) (hd : d ∉ f)
    (hz : z ∉ f) (r : List α) : strtokIn d z (f ++ d :: r) = some (some f, r) := by
  obtain ⟨c, f, rfl⟩ := List.exists_cons_of_ne_nil hne
  obtain ⟨hcd, hd⟩ := List.ne_and_not_mem_of_not_mem_cons hd
  obtain ⟨hcz, hz⟩ := List.ne_and_not_mem_of_not_mem_cons hz
  have hmem : ∀ b ∈ f, (b != d && b != z) = true := fun b hb => by
    rw [Bool.and_eq_true, bne_iff_ne, bne_iff_ne]
    exact ⟨ne_of_mem_of_not_mem hb hd, ne_of_mem_of_not_mem hb hz⟩
  have hskip : (c :: f ++ d :: r).dropWhile (· == d) = c :: (f ++ d :: r) :=
    List.dropWhile_cons_of_neg (by simpa using hcd.symm)
  have htake := takeWhile_append_cons hmem (c := d) (by simp) r
  have hdrop := dropWhile_append_cons hmem (c := d) (by simp) r
  simp only [strtokIn, hskip, htake, hdrop, if_neg hcz.symm, if_neg hdz]

end CRuntime

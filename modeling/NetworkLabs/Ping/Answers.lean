import NetworkLabs.Ping.Programs

/-!
# The pings that are answered

The counter of the server depends on the number of datagrams alone, so that exactly every fourth is
dropped. Of the others the full ones are judged by their first token. A token that ends inside the
buffer is the first token of the datagram; one that goes on to the end of the buffer is continued by
what happens to lie behind it, and can be taken for the key or lost to it.

## Main definitions

* `ShouldAnswer`, `AnswersRightly`: the pings that deserve an answer, and a run that answers them
* `EndsInside`: the first token ends before the buffer does

## Main results

* `run_startServer`: the counter after any datagrams
* `strtok_request_of_endsInside`, `strtok_request_of_not_endsInside`: what the server compares
* `answersRightly_iff`: the sequences of datagrams that are answered rightly
-/

namespace NetworkLabs.Ping

open CRuntime Transition

/-! ## What is answered -/

/-- The `n`-th datagram is not dropped, fills the buffer and has the key as its first token. -/
def ShouldAnswer (K : Key) (n : ℕ) (d : List UInt8) : Prop :=
  ¬ 4 ∣ n ∧ MAX_BUF ≤ d.length ∧ firstToken d = some K.text

instance (K : Key) (n : ℕ) (d : List UInt8) : Decidable (ShouldAnswer K n d) :=
  inferInstanceAs (Decidable (_ ∧ _))

/-- The server reads every datagram and answers those that it should, with one `"terve"` each. -/
def AnswersRightly (K : Key) (xs : List Arrival) : Prop :=
  ∀ before x after, xs = before ++ x :: after →
    ∃ request_number tr next, (startServer K.text).run 1 before = some (request_number, tr) ∧
      serve K.text request_number x =
        some (next, if ShouldAnswer K (before.length + 1) x.datagram then [terve] else [])

/-- A datagram that fills the buffer has a first token. -/
def HasToken (d : List UInt8) : Prop := MAX_BUF ≤ d.length → firstToken d ≠ none

/-- The first token ends before the buffer does, at a terminator or a `'$'`. -/
def EndsInside (d : List UInt8) : Prop :=
  0 ∈ d.take MAX_BUF ∨ tokenEnd dollar (d.take MAX_BUF) < MAX_BUF

/-! ## What the server compares -/

section Request

variable {x : Arrival}

/-- A datagram that fills the buffer is followed by what lies behind. -/
theorem request_eq (hfull : MAX_BUF ≤ x.datagram.length) :
    x.request = cstring (x.datagram.take MAX_BUF ++ x.behind) := by
  rw [Arrival.request, Mem.read_recv_take _ hfull le_rfl]

theorem length_take (hfull : MAX_BUF ≤ x.datagram.length) :
    (x.datagram.take MAX_BUF).length = MAX_BUF := by
  rw [List.length_take, Nat.min_eq_left hfull]

theorem tokenEnd_ne_zero {s : List UInt8} (h : (strtok dollar s).1 ≠ none) :
    tokenEnd dollar s ≠ 0 := fun hzero => h ((strtok_fst_eq_none_iff dollar s).mpr hzero)

/-- A token that ends inside the buffer is what the server compares. -/
theorem strtok_request_of_endsInside (hfull : MAX_BUF ≤ x.datagram.length)
    (htoken : firstToken x.datagram ≠ none) (hends : EndsInside x.datagram) :
    (strtok dollar x.request).1 = firstToken x.datagram := by
  rw [request_eq hfull, firstToken]
  by_cases hnul : 0 ∈ x.datagram.take MAX_BUF
  · rw [cstring_append_of_mem hnul]
  · rw [firstToken, cstring_eq_self hnul] at htoken
    rw [cstring_append_of_notMem hnul, cstring_eq_self hnul]
    have hlt := hends.resolve_left hnul
    exact strtok_append_of_lt (tokenEnd_ne_zero htoken) (by rwa [length_take hfull]) _

/-- A token that goes on to the end of the buffer is continued behind it. -/
theorem strtok_request_of_not_endsInside (hfull : MAX_BUF ≤ x.datagram.length)
    (hends : ¬ EndsInside x.datagram) :
    (strtok dollar x.request).1 =
      (firstToken x.datagram).map (· ++ (cstring x.behind).takeWhile (· != dollar)) := by
  have hMAX : MAX_BUF = 1000 := rfl
  obtain ⟨hnul, hge⟩ := not_or.mp hends
  have hlen := length_take hfull
  have hle := tokenEnd_le_length dollar (x.datagram.take MAX_BUF)
  have hne : x.datagram.take MAX_BUF ≠ [] := List.ne_nil_of_length_pos (by omega)
  rw [request_eq hfull, firstToken, cstring_append_of_notMem hnul, cstring_eq_self hnul]
  exact strtok_append_of_eq hne (by omega) _

/-- The server finds a token in every datagram that has one. -/
theorem strtok_request_ne_none (hfull : MAX_BUF ≤ x.datagram.length)
    (htoken : firstToken x.datagram ≠ none) : (strtok dollar x.request).1 ≠ none := by
  by_cases hends : EndsInside x.datagram
  · rwa [strtok_request_of_endsInside hfull htoken hends]
  · rw [strtok_request_of_not_endsInside hfull hends]
    simpa using htoken

end Request

/-! ## The counter -/

/-- A datagram with a token moves the counter, and the answer is decided by the comparison. -/
theorem serve_eq (K : Key) (request_number : ℕ) {x : Arrival} (htoken : HasToken x.datagram) :
    serve K.text request_number x =
      some (if request_number = 4 then 1 else request_number + 1,
        if request_number ≠ 4 ∧ MAX_BUF ≤ x.datagram.length ∧
            (strtok dollar x.request).1 = some K.text then [terve] else []) := by
  unfold serve
  by_cases hdrop : request_number = 4
  · simp only [hdrop, ne_eq, not_true_eq_false, false_and, if_true, if_false]
  · by_cases hfull : MAX_BUF ≤ x.datagram.length
    · obtain ⟨t, ht⟩ := Option.ne_none_iff_exists'.mp (strtok_request_ne_none hfull (htoken hfull))
      simp only [Nat.min_eq_right hfull, if_true, if_false, ht, ne_eq, hdrop, not_false_eq_true,
        hfull, true_and, Option.some_inj]
    · have hshort : min x.datagram.length MAX_BUF ≠ MAX_BUF := by
        rw [Nat.min_eq_left (not_le.mp hfull).le]
        exact (not_le.mp hfull).ne
      simp only [hdrop, hshort, hfull, false_and, and_false, if_false]

/-- **The counter** after any datagrams depends on their number alone. -/
theorem run_startServer (K : Key) {xs : List Arrival} (hxs : ∀ x ∈ xs, HasToken x.datagram) :
    ∃ tr, (startServer K.text).run 1 xs = some (xs.length % 4 + 1, tr) := by
  have hstep : ∀ (h : List Arrival) (s : ℕ) (x : Arrival), s = h.length % 4 + 1 →
      HasToken x.datagram → ∃ t o, (startServer K.text).step s x = some (t, o) ∧
        t = (h ++ [x]).length % 4 + 1 := by
    intro h s x hs hx
    have hserve := serve_eq K s hx
    refine ⟨_, _, hserve, ?_⟩
    rw [List.length_append, List.length_singleton]
    split <;> omega
  obtain ⟨s, tr, hrun, hs⟩ := Machine.exists_run_of_step hstep (h := []) (s := 1) rfl hxs
  rw [hs, List.nil_append] at hrun
  exact ⟨tr, hrun⟩

theorem counter_ne_four_iff (n : ℕ) : n % 4 + 1 ≠ 4 ↔ ¬ 4 ∣ n + 1 := by omega

theorem answer_eq_iff {p q : Prop} [Decidable p] [Decidable q] :
    (if p then [terve] else []) = (if q then [terve] else []) ↔ (p ↔ q) := by
  have hne : [terve] ≠ [] := List.cons_ne_nil _ _
  by_cases hp : p <;> by_cases hq : q <;> simp [hp, hq]

/-- The turn of a datagram after any others. -/
theorem run_turn (K : Key) {before : List Arrival} {x : Arrival}
    (hbefore : ∀ y ∈ before, HasToken y.datagram) (hx : HasToken x.datagram) :
    ∃ request_number tr next, (startServer K.text).run 1 before = some (request_number, tr) ∧
      serve K.text request_number x = some (next,
        if ¬ 4 ∣ before.length + 1 ∧ MAX_BUF ≤ x.datagram.length ∧
            (strtok dollar x.request).1 = some K.text then [terve] else []) := by
  obtain ⟨tr, hrun⟩ := run_startServer K hbefore
  have hserve := serve_eq K (before.length % 4 + 1) hx
  simp only [counter_ne_four_iff] at hserve
  exact ⟨_, tr, _, hrun, hserve⟩

/-- A run is right when every comparison that is made comes out as it should. -/
theorem answersRightly_iff_compared (K : Key) {xs : List Arrival}
    (hxs : ∀ x ∈ xs, HasToken x.datagram) :
    AnswersRightly K xs ↔
      ∀ before x after, xs = before ++ x :: after → ¬ 4 ∣ before.length + 1 →
        MAX_BUF ≤ x.datagram.length →
        ((strtok dollar x.request).1 = some K.text ↔ firstToken x.datagram = some K.text) := by
  unfold AnswersRightly
  refine forall_congr' fun before => forall_congr' fun x => forall_congr' fun after =>
    forall_congr' fun hsplit => ?_
  subst hsplit
  obtain ⟨r, tr, next, hrun, hserve⟩ := run_turn K
    (fun y hy => hxs y (List.mem_append_left _ hy)) (hxs x (by simp))
  constructor
  · rintro ⟨r', tr', next', hrun', hserve'⟩ hkept hfull
    obtain ⟨rfl, -⟩ := Prod.mk.inj (Option.some.inj (hrun.symm.trans hrun'))
    have hanswer := (Prod.mk.inj (Option.some.inj (hserve.symm.trans hserve'))).2
    rw [answer_eq_iff] at hanswer
    constructor
    · intro hcompared
      exact (hanswer.mp ⟨hkept, hfull, hcompared⟩).2.2
    · intro hfirst
      exact (hanswer.mpr ⟨hkept, hfull, hfirst⟩).2.2
  · intro h
    refine ⟨r, tr, next, hrun, hserve.trans ?_⟩
    have hanswer : (¬ 4 ∣ before.length + 1 ∧ MAX_BUF ≤ x.datagram.length ∧
        (strtok dollar x.request).1 = some K.text) ↔
          ShouldAnswer K (before.length + 1) x.datagram :=
      and_congr_right fun hkept => and_congr_right fun hfull => h hkept hfull
    rw [answer_eq_iff.mpr hanswer]

/-! ## Pings -/

theorem endsInside_pingMessage (K : Key) (rand : ℕ → ℕ) : EndsInside (pingMessage K.text rand) := by
  have hle := K.le
  have hpos := K.pos
  have hMAX : MAX_BUF = 1000 := rfl
  right
  rw [List.take_of_length_le (length_pingMessage K rand).le, pingMessage_eq, tokenEnd, if_pos rfl,
    tokenEnd_append_cons K.text_ne_nil K.noDollar]
  split <;> omega

/-- Every ping of a client that holds the key is answered, unless it is a fourth datagram. -/
def PingsAnswered (K : Key) (xs : List Arrival) : Prop :=
  ∀ before x after rand, xs = before ++ x :: after → x.datagram = pingMessage K.text rand →
    ∃ request_number tr next, (startServer K.text).run 1 before = some (request_number, tr) ∧
      serve K.text request_number x =
        some (next, if 4 ∣ before.length + 1 then [] else [terve])

/-- **Pings are answered** whatever other datagrams there are, and whatever lies behind the
buffer. -/
theorem pingsAnswered (K : Key) {xs : List Arrival} (hxs : ∀ x ∈ xs, HasToken x.datagram) :
    PingsAnswered K xs := by
  intro before x after rand hsplit hping
  subst hsplit
  have hx : HasToken x.datagram := hxs x (by simp)
  obtain ⟨r, tr, next, hrun, hserve⟩ := run_turn K
    (fun y hy => hxs y (List.mem_append_left _ hy)) hx
  have hfull : MAX_BUF ≤ x.datagram.length := by
    rw [hping]
    exact (length_pingMessage K rand).ge
  have hfirst : firstToken x.datagram = some K.text := by
    rw [hping]
    exact firstToken_pingMessage K rand
  have hends : EndsInside x.datagram := by
    rw [hping]
    exact endsInside_pingMessage K rand
  have hcompared := (strtok_request_of_endsInside hfull (hx hfull) hends).trans hfirst
  refine ⟨r, tr, next, hrun, hserve.trans ?_⟩
  by_cases hdrop : 4 ∣ before.length + 1
  · rw [if_neg fun h => h.1 hdrop, if_pos hdrop]
  · rw [if_pos ⟨hdrop, hfull, hcompared⟩, if_neg hdrop]

/-! ## The tokens that the buffer does not end -/

/-- A first token that goes on to the end of the buffer is compared as it should, whatever lies
behind, exactly when it is not the start of the key. -/
theorem compared_iff_of_not_endsInside (K : Key) {d t : List UInt8} (hfull : MAX_BUF ≤ d.length)
    (ht : firstToken d = some t) (hends : ¬ EndsInside d) :
    (∀ x : Arrival, x.datagram = d →
      ((strtok dollar x.request).1 = some K.text ↔ firstToken d = some K.text)) ↔
      ¬ t <+: K.text := by
  constructor
  · rintro h ⟨r, hr⟩
    by_cases hnil : r = []
    -- the token is the key, and a character behind it takes that away
    · have hkey : t = K.text := by rw [← hr, hnil, List.append_nil]
      have hx := h ⟨d, [1, 0], by simp⟩ rfl
      rw [strtok_request_of_not_endsInside hfull hends, ht] at hx
      have hlonger := hx.mpr (congrArg some hkey)
      rw [hkey] at hlonger
      simp [cstring, dollar] at hlonger
    -- the rest of the key lies behind
    · have hnul : 0 ∉ r := fun hmem => K.noNul (hr ▸ List.mem_append_right t hmem)
      have hdollar : dollar ∉ r := fun hmem => K.noDollar (hr ▸ List.mem_append_right t hmem)
      have hall : r.takeWhile (· != dollar) = r := by
        rw [List.takeWhile_eq_self_iff]
        intro c hc
        simpa using fun he : c = dollar => hdollar (he ▸ hc)
      have hx := h ⟨d, r ++ [0], by simp⟩ rfl
      rw [strtok_request_of_not_endsInside hfull hends, ht] at hx
      have hfound := hx.mp (by rw [Option.map_some, cstring_append_zero hnul, hall, hr])
      rw [Option.some_inj, ← hr, List.self_eq_append_right] at hfound
      exact hnil hfound
  · rintro hprefix x rfl
    rw [strtok_request_of_not_endsInside hfull hends, ht, Option.map_some, Option.some_inj,
      Option.some_inj]
    constructor
    · intro h
      exact absurd ⟨_, h⟩ hprefix
    · intro h
      exact absurd (h ▸ List.prefix_rfl) hprefix

/-- The comparison of one datagram comes out as it should, whatever lies behind. -/
theorem compared_iff (K : Key) {d : List UInt8} (hfull : MAX_BUF ≤ d.length) (hd : HasToken d) :
    (∀ x : Arrival, x.datagram = d →
      ((strtok dollar x.request).1 = some K.text ↔ firstToken d = some K.text)) ↔
      EndsInside d ∨ ∀ t, firstToken d = some t → ¬ t <+: K.text := by
  obtain ⟨t, ht⟩ := Option.ne_none_iff_exists'.mp (hd hfull)
  by_cases hends : EndsInside d
  · simp only [hends, true_or, iff_true]
    rintro x rfl
    rw [strtok_request_of_endsInside hfull (hd hfull) hends]
  · rw [compared_iff_of_not_endsInside K hfull ht hends]
    simp only [hends, false_or, ht, Option.some_inj, forall_eq']

/-- Datagrams with the same bytes behind them as `x` has. -/
def Arrival.alike (x : Arrival) (ds : List (List UInt8)) : List Arrival :=
  ds.map fun d => ⟨d, x.behind, x.terminated⟩

theorem Arrival.map_datagram_alike (x : Arrival) (ds : List (List UInt8)) :
    (x.alike ds).map Arrival.datagram = ds := by
  rw [alike, List.map_map]
  exact List.map_id ds

theorem Arrival.length_alike (x : Arrival) (ds : List (List UInt8)) :
    (x.alike ds).length = ds.length := List.length_map ..

/-- **A sequence of datagrams is answered rightly**, whatever lies behind the buffer, exactly when
of each full datagram that is not dropped the first token ends inside the buffer or is not the start
of the key. -/
theorem answersRightly_iff (K : Key) (ds : List (List UInt8)) (hds : ∀ d ∈ ds, HasToken d) :
    ((∀ xs : List Arrival, xs.map Arrival.datagram = ds →
        AnswersRightly K xs ∧ PingsAnswered K xs) ∧
      ∀ rand, (pingMessage K.text rand).length = MAX_BUF ∧
        firstToken (pingMessage K.text rand) = some K.text) ↔
      ∀ before d after, ds = before ++ d :: after → ¬ 4 ∣ before.length + 1 →
        MAX_BUF ≤ d.length → EndsInside d ∨ ∀ t, firstToken d = some t → ¬ t <+: K.text := by
  have hpings : ∀ rand, (pingMessage K.text rand).length = MAX_BUF ∧
      firstToken (pingMessage K.text rand) = some K.text :=
    fun rand => ⟨length_pingMessage K rand, firstToken_pingMessage K rand⟩
  have hdomain : ∀ xs : List Arrival, xs.map Arrival.datagram = ds →
      ∀ x ∈ xs, HasToken x.datagram := by
    rintro xs rfl x hx
    exact hds _ (List.mem_map_of_mem hx)
  rw [and_iff_left hpings]
  constructor
  · rintro h before d after rfl hkept hfull
    rw [← compared_iff K hfull (hds d (by simp))]
    rintro x rfl
    -- what lies behind is the same for all other datagrams
    have hxs : (x.alike before ++ x :: x.alike after).map Arrival.datagram =
        before ++ x.datagram :: after := by
      rw [List.map_append, List.map_cons, x.map_datagram_alike, x.map_datagram_alike]
    have hright := (answersRightly_iff_compared K (hdomain _ hxs)).mp (h _ hxs).1
    exact hright _ x _ rfl (by rwa [x.length_alike]) hfull
  · rintro h xs hxs
    refine ⟨(answersRightly_iff_compared K (hdomain xs hxs)).mpr ?_,
      pingsAnswered K (hdomain xs hxs)⟩
    rintro before x after rfl hkept hfull
    have hx : HasToken x.datagram := hdomain _ hxs x (by simp)
    have hsplit : ds = before.map Arrival.datagram ++ x.datagram :: after.map Arrival.datagram := by
      rw [← hxs, List.map_append, List.map_cons]
    have hcond := h _ _ _ hsplit (by rwa [List.length_map]) hfull
    exact (compared_iff K hfull hx).mpr hcond x rfl

/-- The key `"A"`. -/
def shortKey : Key where
  text := [65]
  pos := by decide
  le := by decide
  noDollar := by decide
  noNul := by decide

/-- A ping of a client that holds the key. -/
def shortPing : List UInt8 := pingMessage shortKey.text fun _ => 0

/-- A ping of a client that holds the key `"B"`. -/
def foreignKey : Key where
  text := [66]
  pos := by decide
  le := by decide
  noDollar := by decide
  noNul := by decide

/-- A datagram of `'$'` signs that ends in the key. -/
def keyAtEnd : List UInt8 := List.replicate 999 dollar ++ shortKey.text

theorem dropWhile_replicate_append {a : UInt8} {n : ℕ} {s : List UInt8} :
    (List.replicate n a ++ s).dropWhile (· == a) = s.dropWhile (· == a) :=
  List.dropWhile_append_of_pos fun c hc => by simp [(List.mem_replicate.mp hc).2]

theorem length_keyAtEnd : keyAtEnd.length = MAX_BUF := by
  rw [keyAtEnd, List.length_append, List.length_replicate]
  rfl

theorem zero_notMem_keyAtEnd : 0 ∉ keyAtEnd := by
  intro h
  rcases List.mem_append.mp h with h | h
  · exact absurd (List.mem_replicate.mp h).2 (by decide)
  · exact absurd h (by decide)

theorem strtok_keyAtEnd (s : List UInt8) :
    strtok dollar (keyAtEnd ++ s) = strtok dollar (shortKey.text ++ s) := by
  unfold strtok
  rw [keyAtEnd, List.append_assoc, dropWhile_replicate_append]

theorem firstToken_keyAtEnd : firstToken keyAtEnd = some shortKey.text := by
  have h := strtok_keyAtEnd []
  rw [List.append_nil, List.append_nil] at h
  rw [firstToken, List.take_of_length_le length_keyAtEnd.le, cstring_eq_self zero_notMem_keyAtEnd,
    h]
  rfl

theorem hasToken_pingMessage (K : Key) (rand : ℕ → ℕ) : HasToken (pingMessage K.text rand) := by
  intro _
  rw [firstToken_pingMessage]
  exact Option.some_ne_none _

theorem hasToken_keyAtEnd : HasToken keyAtEnd := fun _ => by
  rw [firstToken_keyAtEnd]
  exact Option.some_ne_none _

/-- A ping, a datagram of two bytes, a ping with another key, a datagram that only the counter saves
from the comparison, and a ping again. -/
def mixed : List (List UInt8) :=
  [shortPing, [36, 65], pingMessage foreignKey.text fun _ => 0, keyAtEnd, shortPing]

theorem hasToken_mixed : ∀ d ∈ mixed, HasToken d := by
  have hshort : HasToken [36, 65] := fun h => absurd h (by decide)
  simp only [mixed, List.forall_mem_cons, List.not_mem_nil, false_imp_iff, implies_true, and_true]
  exact ⟨hasToken_pingMessage shortKey _, hshort, hasToken_pingMessage foreignKey _,
    hasToken_keyAtEnd, hasToken_pingMessage shortKey _⟩

/-- The same with a `'B'` behind the buffer. -/
def beforeB : List Arrival := mixed.map fun d => ⟨d, [66, 0], by decide⟩

theorem map_datagram_beforeB : beforeB.map Arrival.datagram = mixed := by
  rw [beforeB, List.map_map]
  exact List.map_id mixed

/-- They are answered rightly. -/
theorem answersRightly_beforeB :
    AnswersRightly shortKey beforeB ∧ PingsAnswered shortKey beforeB := by
  refine ((answersRightly_iff shortKey mixed hasToken_mixed).mpr ?_).1 beforeB map_datagram_beforeB
  intro before d after hsplit hkept hfull
  have hget : mixed[before.length]? = some d := by
    rw [hsplit, List.getElem?_append_right le_rfl, Nat.sub_self]
    rfl
  have hping : ∀ (K : Key) rand, pingMessage K.text rand = d → EndsInside d := by
    rintro K rand rfl
    exact endsInside_pingMessage K rand
  rcases hn : before.length with _ | _ | _ | _ | _ | n <;> rw [hn] at hget hkept
  · exact .inl (hping shortKey _ (Option.some.inj hget))
  · rw [← Option.some.inj hget] at hfull
    exact absurd hfull (by decide)
  · exact .inl (hping foreignKey _ (Option.some.inj hget))
  -- the fourth datagram is dropped
  · exact absurd (by decide) hkept
  · exact .inl (hping shortKey _ (Option.some.inj hget))
  · cases hget

/-- The first token of `keyAtEnd` is the key, and the server misses it when a `'B'` follows the
buffer. -/
theorem keyAtEnd_not_answersRightly :
    HasToken keyAtEnd ∧ firstToken keyAtEnd = some shortKey.text ∧
      ¬ AnswersRightly shortKey [⟨keyAtEnd, [66, 0], by decide⟩] := by
  refine ⟨hasToken_keyAtEnd, firstToken_keyAtEnd, fun h => ?_⟩
  rw [answersRightly_iff_compared shortKey (by simpa using hasToken_keyAtEnd)] at h
  have hcompared := (h [] _ [] rfl (by decide) length_keyAtEnd.ge).mpr firstToken_keyAtEnd
  rw [request_eq length_keyAtEnd.ge, List.take_of_length_le length_keyAtEnd.le,
    cstring_append_of_notMem zero_notMem_keyAtEnd, strtok_keyAtEnd] at hcompared
  exact absurd hcompared (by decide)

end NetworkLabs.Ping

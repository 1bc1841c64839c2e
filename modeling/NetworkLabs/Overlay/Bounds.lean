import NetworkLabs.Overlay.Isolation

/-!
# The arrays of the overlay programs

The child of a router keeps the fields of a request in a table of a thousand pointers and rebuilds
the message in an array of 280 bytes; only a request of three fields takes another branch. The
builder writes its message into an array of 1000 bytes, and each router argument into an element
of `forwards` whose index starts at 3.

## Main definitions

* `Access`, `childAccesses`: the accesses of the child that a request decides
* `Survives`: all of them are in bounds
* `relayed`: the messages that the routers on a way rebuild
* `RouteFits`: `forwards` is indexed in bounds, and every router has room for its message

## Main results

* `registration_ne_fault_iff`, `registration_zeros_ne_fault_iff`: the router of the model faults
  exactly when an access is outside
* `survives_iff`: the requests that a router survives
* `not_routeFits`: `forwards` is always too short
* `relayed_fits_iff`: the first router decides whether all have room
-/

namespace NetworkLabs.Overlay

open CRuntime

/-! ## The accesses of the child -/

/-- An access of the child. -/
inductive Access
  /-- `ch_ptrs[i]` is written or read. -/
  | table (i : ℤ)
  /-- `gethostbyname` or `atoi` reads a string; `none` for a pointer that is not one of a field. -/
  | name (s : Option (List UInt8))
  /-- `strcpy` or `strcat` writes to the first `n` bytes of `str`. -/
  | str (n : ℕ)
  deriving DecidableEq

/-- The access stays in the table of a thousand entries, reads a field, or stays in `str[280]`. -/
def Access.InBounds : Access → Prop
  | .table i => 0 ≤ i ∧ i < 1000
  | .name s => s.isSome
  | .str n => n ≤ 280

instance : DecidablePred Access.InBounds
  | .table i => inferInstanceAs (Decidable (0 ≤ i ∧ i < 1000))
  | .name s => inferInstanceAs (Decidable (s.isSome = true))
  | .str n => inferInstanceAs (Decidable (n ≤ 280))

theorem Access.inBounds_table (i : ℤ) : (Access.table i).InBounds ↔ 0 ≤ i ∧ i < 1000 := Iff.rfl

theorem Access.inBounds_name (s : Option (List UInt8)) :
    (Access.name s).InBounds ↔ s.isSome = true := Iff.rfl

theorem Access.inBounds_str (n : ℕ) : (Access.str n).InBounds ↔ n ≤ 280 := Iff.rfl

/-- The field that `ch_ptrs[i]` points to. -/
def chPtr (ts : List (List UInt8)) (i : ℤ) : Option (List UInt8) :=
  if 0 ≤ i then ts[i.toNat]? else none

/-- The two calls of `strcat` for each of the entries from `x` on, when `str` holds `len` bytes. -/
def catAccesses : ℕ → ℕ → List (List UInt8) → List Access
  | _, _, [] => []
  | x, len, t :: ts =>
    .table x :: .str (len + t.length + 1) :: .str (len + t.length + 2) ::
      catAccesses (x + 1) (len + t.length + 1) ts

/-- The accesses of the child on a request with the fields `ts`. -/
def childAccesses (ts : List (List UInt8)) : List Access :=
  let a := ts.length
  -- the fields, and the `NULL` behind them
  (List.range (a + 1)).map (fun i : ℕ => .table i) ++
    if a = 3 then [.table 0, .name (chPtr ts 0), .table 1, .name (chPtr ts 1)]
    else
      -- `server_to_contact` is read first, and looked up after the message is rebuilt
      .str 2 :: .table (a - 2 : ℤ) :: catAccesses 0 1 ts.dropLast ++ [.name (chPtr ts (a - 2))]

/-- The fields of a datagram that zeros follow in memory. -/
def zeroFields (d : List UInt8) : List (List UInt8) :=
  tokens dollar (cstring (d.take BUFSIZ ++ [0]))

/-- The child survives the datagram. -/
def Survives (d : List UInt8) : Prop := ∀ x ∈ childAccesses (zeroFields d), x.InBounds

section Child

variable {ts : List (List UInt8)}

/-- Rebuilding needs room for all the entries with their delimiters, and the terminator. -/
theorem catAccesses_inBounds_iff (x len : ℕ) (ts : List (List UInt8)) :
    (∀ e ∈ catAccesses x len ts, e.InBounds) ↔
      ts = [] ∨ x + ts.length ≤ 1000 ∧ len + (ts.flatMap (· ++ [dollar])).length < 280 := by
  induction ts generalizing x len with
  | nil => simp [catAccesses]
  | cons t ts ih =>
    have hnil : ts = [] → ts.length = 0 ∧ (ts.flatMap (· ++ [dollar])).length = 0 := by
      rintro rfl
      exact ⟨rfl, rfl⟩
    rw [catAccesses]
    simp only [List.forall_mem_cons, ih, Access.inBounds_table, Access.inBounds_str,
      List.flatMap_cons, List.length_append, List.length_cons, List.length_nil, reduceCtorEq,
      false_or]
    constructor
    -- the room for the last entry is the room for all of them
    · rintro ⟨hx, -, hstr, hrest⟩
      rcases hrest with h | h
      · have hzero := hnil h
        omega
      · omega
    · rintro ⟨hx, hstr⟩
      exact ⟨by omega, by omega, by omega, .inr (by omega)⟩

/-- **The accesses are in bounds exactly when** there are two fields at least, the table holds all
of them, and the message without its last field fits, unless the fields are three. -/
theorem childAccesses_inBounds_iff (ts : List (List UInt8)) :
    (∀ e ∈ childAccesses ts, e.InBounds) ↔ 2 ≤ ts.length ∧ ts.length < 1000 ∧
      (ts.length = 3 ∨ (framed dollar ts.dropLast).length < 280) := by
  have htable : (∀ e ∈ (List.range (ts.length + 1)).map (fun i : ℕ => Access.table i),
      e.InBounds) ↔ ts.length < 1000 := by
    simp only [List.forall_mem_map, List.mem_range, Access.inBounds_table]
    constructor
    · intro h
      have hlast := h ts.length (Nat.lt_succ_self _)
      omega
    · intro h i hi
      omega
  simp only [childAccesses, List.forall_mem_append, htable]
  split
  · next hthree =>
    obtain ⟨t, u, v, rfl⟩ := List.length_eq_three.mp hthree
    simp [Access.InBounds, chPtr]
  · next hthree =>
    have hdrop : ts.dropLast = [] ↔ ts.length - 1 = 0 := by
      rw [← List.length_dropLast, List.length_eq_zero_iff]
    have hname : (chPtr ts (ts.length - 2)).isSome ↔ 2 ≤ ts.length := by
      unfold chPtr
      split
      · rw [isSome_getElem?]
        omega
      · exact iff_of_false (by simp) (by omega)
    simp only [List.cons_append, List.forall_mem_cons, List.forall_mem_append,
      List.not_mem_nil, false_imp_iff, implies_true, and_true, catAccesses_inBounds_iff,
      Access.inBounds_table, Access.inBounds_name, Access.inBounds_str, hname, hdrop, framed,
      List.length_cons, List.length_dropLast]
    omega

/-- A router rebuilds the message of all fields but the last. -/
theorem stripped_eq_framed_dropLast (h : 2 ≤ ts.length) :
    stripped ts = framed dollar ts.dropLast := by
  have hne : ts ≠ [] := by
    rintro rfl
    exact absurd h (by decide)
  have hfront : ts.dropLast ≠ [] := by
    rw [← List.length_pos_iff, List.length_dropLast]
    omega
  rw [← stripped_concat hfront (ts.getLast hne), List.dropLast_append_getLast]

/-- The router of the model faults exactly when an access of its child is outside. -/
theorem registration_ne_fault_iff {Addr : Type*} (net : Resolver Addr) {myUDPport : List UInt8}
    (hport : 0 < atoiString myUDPport) (rand_port : ℕ) {stack : Mem UInt8} {d : List UInt8}
    (h : childTokens stack d = some ts) :
    registration net myUDPport rand_port stack d ≠ .fault ↔
      ∀ e ∈ childAccesses ts, e.InBounds := by
  rw [registration_of_some net rand_port hport h, childAccesses_inBounds_iff]
  by_cases hmany : 1000 ≤ ts.length
  · rw [if_pos hmany]
    exact iff_of_false (fun h => h rfl) (by omega)
  · rw [if_neg hmany]
    by_cases hthree : ts.length = 3
    · rw [if_pos hthree]
      refine iff_of_true ?_ ⟨by omega, by omega, .inl hthree⟩
      split <;> simp
    · rw [if_neg hthree]
      by_cases hfew : ts.length < 2
      · rw [if_pos hfew]
        exact iff_of_false (fun h => h rfl) (by omega)
      -- the last field is taken off
      · rw [if_neg hfew, stripped_eq_framed_dropLast (by omega)]
        by_cases hstr : (framed dollar ts.dropLast).length < 280
        · rw [if_pos hstr]
          exact iff_of_true (by simp) ⟨by omega, by omega, .inr hstr⟩
        · rw [if_neg hstr]
          exact iff_of_false (fun h => h rfl) (by omega)

/-- **A router survives a request exactly when** it has between 2 and 999 fields and, without its
last one, fits the array of 280 bytes, or has just three. -/
theorem survives_iff (d : List UInt8) :
    Survives d ↔ 2 ≤ (zeroFields d).length ∧ (zeroFields d).length < 1000 ∧
      ((zeroFields d).length = 3 ∨ (framed dollar (zeroFields d).dropLast).length < 280) :=
  childAccesses_inBounds_iff (zeroFields d)

/-- A request without fields makes the child read `ch_ptrs[-2]`. -/
theorem delimiter_not_survives : ¬ Survives [dollar] := by
  intro h
  exact absurd (h (.table (-2)) (by decide)) (by decide)

/-- Over zeros the child finds the fields of the datagram itself. -/
theorem childTokens_zeros {d : List UInt8} (h : d.length < BUFSIZ ∨ d.length = BUFSIZ ∧ 0 ∈ d) :
    childTokens (fun _ => 0) d = some (zeroFields d) := by
  have hlen : d.length ≤ BUFSIZ := by omega
  rw [zeroFields, List.take_of_length_le hlen]
  by_cases hmem : 0 ∈ d
  · rw [childTokens_of_mem hlen hmem, cstring_append_of_mem hmem]
  · have hlt : d.length < BUFSIZ := h.resolve_right fun hfull => hmem hfull.2
    rw [childTokens_zero hlt hmem, cstring_append_zero hmem]

/-- Over zeros the router of the model faults exactly on the requests that a child does not
survive. -/
theorem registration_zeros_ne_fault_iff {Addr : Type*} (net : Resolver Addr)
    {myUDPport : List UInt8} (hport : 0 < atoiString myUDPport) (rand_port : ℕ) {d : List UInt8}
    (h : d.length < BUFSIZ ∨ d.length = BUFSIZ ∧ 0 ∈ d) :
    registration net myUDPport rand_port (fun _ => 0) d ≠ .fault ↔ Survives d :=
  registration_ne_fault_iff net hport rand_port (childTokens_zeros h)

end Child

/-! ## The routers on a way -/

/-- The messages that at most `n` routers rebuild on the way of the request `d`. -/
def relayed : ℕ → List UInt8 → List (List UInt8)
  | 0, _ => []
  | n + 1, d =>
    let ts := zeroFields d
    if ts.length = 3 ∨ ts.length < 2 then [] else stripped ts :: relayed n (stripped ts)

/-- The array `forwards` is indexed in bounds, and every router on the way has room in its `str`. -/
def RouteFits (argv : List (List UInt8)) : Prop :=
  (∀ a ∈ List.range' 3 (argv.length - 2 - 3), a < argv.length - 2 - 2) ∧
    ∀ n, ∀ str ∈ relayed n (tunnelRequest argv), str.length < 280

/-- **The array `forwards` is always too short**: it has `argc - 4` elements, and the last router
is put into the one of index `argc - 3`. -/
theorem not_routeFits (argv : List (List UInt8)) (hargc : 6 ≤ argv.length) : ¬ RouteFits argv := by
  rintro ⟨hforwards, -⟩
  have hlast := hforwards (argv.length - 3) (List.mem_range'_1.mpr (by omega))
  omega

theorem not_routeFits_twoRouters : ¬ RouteFits (twoRouters.argv [111]) :=
  not_routeFits (twoRouters.argv [111]) (by decide)

/-- Two routers, the first of which is put into `forwards[3]` of an array of three. -/
theorem twoRouters_overruns : 6 ≤ (twoRouters.argv [111]).length ∧
    (tunnelRequest (twoRouters.argv [111])).length < 1000 ∧
      ¬ RouteFits (twoRouters.argv [111]) := by
  refine ⟨by decide, by decide, fun h => ?_⟩
  exact absurd (h.1 3 (by decide)) (by decide)

section Relay

variable {fs : List (List UInt8)}

theorem zeroFields_framed (h : ∀ f ∈ fs, IsName f) (hlen : (framed dollar fs).length ≤ BUFSIZ) :
    zeroFields (framed dollar fs) = fs := by
  rw [zeroFields, List.take_of_length_le hlen, cstring_append_zero (zero_notMem_framed h)]
  exact tokens_framed fun f hf => ⟨(h f hf).1, (h f hf).2.1⟩

/-- A router takes the last field off. -/
theorem relayed_succ_framed (h : ∀ f ∈ fs, IsName f) (hlen : (framed dollar fs).length ≤ BUFSIZ)
    (hcount : 4 ≤ fs.length) (n : ℕ) :
    relayed (n + 1) (framed dollar fs) =
      framed dollar fs.dropLast :: relayed n (framed dollar fs.dropLast) := by
  simp only [relayed, zeroFields_framed h hlen]
  rw [if_neg (by omega), stripped_eq_framed_dropLast (by omega)]

/-- The last hop sends nothing on. -/
theorem relayed_framed_three (h : ∀ f ∈ fs, IsName f) (hlen : (framed dollar fs).length ≤ BUFSIZ)
    (hcount : fs.length = 3) (n : ℕ) : relayed n (framed dollar fs) = [] := by
  cases n with
  | zero => rfl
  | succ n =>
    simp only [relayed, zeroFields_framed h hlen]
    exact if_pos (.inl hcount)

theorem length_framed_dropLast_le (fs : List (List UInt8)) :
    (framed dollar fs.dropLast).length ≤ (framed dollar fs).length := by
  rcases List.eq_nil_or_concat fs with rfl | ⟨front, f, rfl⟩
  · exact le_rfl
  · rw [List.concat_eq_append, List.dropLast_concat, framed, framed, List.flatMap_append,
      List.length_cons, List.length_cons, List.length_append]
    omega

/-- With room for what the first router rebuilds there is room for all the rest. -/
theorem length_relayed_lt (h : ∀ f ∈ fs, IsName f) (hlen : (framed dollar fs).length ≤ BUFSIZ)
    (hcount : 3 ≤ fs.length) (hstr : (framed dollar fs.dropLast).length < 280) (n : ℕ) :
    ∀ str ∈ relayed n (framed dollar fs), str.length < 280 := by
  induction n generalizing fs with
  | zero => simp [relayed]
  | succ n ih =>
    rcases hcount.eq_or_lt with hthree | hmore
    · rw [relayed_framed_three h hlen hthree.symm]
      simp
    · rw [relayed_succ_framed h hlen hmore]
      refine List.forall_mem_cons.mpr ⟨hstr, ih ?_ ?_ ?_ ?_⟩
      · exact fun f hf => h f (List.mem_of_mem_dropLast hf)
      · exact (length_framed_dropLast_le fs).trans hlen
      · rw [List.length_dropLast]
        omega
      · exact (length_framed_dropLast_le _).trans_lt hstr

/-- **Every router on a route has room exactly when** the first one has, or is the only one. -/
theorem relayed_fits_iff (R : Route) (hbuilt : R.message.length < 1000) :
    (∀ n, ∀ str ∈ relayed n R.message, str.length < 280) ↔
      R.routers.length = 1 ∨ (framed dollar R.fields.dropLast).length < 280 := by
  have hnames : ∀ f ∈ R.fields, IsName f := Route.isName_fields
  have hcount : R.fields.length = R.routers.length + 2 := by simp [Route.fields]
  have hpos := List.length_pos_of_ne_nil R.routers_ne
  have hlen : R.message.length ≤ BUFSIZ := hbuilt.le.trans (by decide)
  constructor
  -- the first router rebuilds all fields but the last, unless it is the last hop
  · intro h
    by_cases hone : R.routers.length = 1
    · exact .inl hone
    · have hfirst := h 1
      rw [Route.message, relayed_succ_framed hnames hlen (by omega)] at hfirst
      exact .inr (hfirst _ List.mem_cons_self)
  · rintro (hone | hstr) n
    · rw [Route.message, relayed_framed_three hnames hlen (by omega)]
      simp
    · exact length_relayed_lt hnames hlen (by omega) hstr n

end Relay

end NetworkLabs.Overlay

import NetworkLabs.Request.Format

/-!
# The file names that the servers let through

The C server tests every character of a file name against the characters that it does not allow;
the Java server, translated from it, tests whether the name contains all of them, in a row. A name
with a slash passes the Java server unless it has that row in it.

## Main definitions

* `Java.checkFileName`, `Java.validateFileName`: the checks of the Java server
* `FiltersAgree`: both servers let the same name through, and no name with a slash

## Main results

* `checkFileName_eq_ok_iff`, `Java.checkFileName_eq_ok_iff`: what each server lets through
* `filtersAgree_iff`: the names on which they agree
* `validateFileName_iff_validateFile`: on these names the servers behave alike
-/

namespace NetworkLabs.Request

/-- The character `'/'`. -/
def slash : UInt8 := 47

namespace Java

/-- The check of the length and of the characters in `validateFileName` of the Java server:
`contains` looks for the whole string. -/
def checkFileName (filename : List UInt8) : Except String Unit :=
  let message := "Filename cannot contain spaces or forward slashes ('/'), " ++
    "and it must not exceed 16 ASCII characters."
  if filename.length ≤ 16 ∧ 0 ≤ filename.length then
    if invalid_filename_characters <:+: filename then .error message else .ok ()
  else .error message

/-- `validateFileName` of the Java server, where `isFile` tells which names are files. -/
def validateFileName (isFile : List UInt8 → Bool) (filename : List UInt8) : Except String Bool :=
  match checkFileName filename with
  | .error message => .error message
  | .ok () => .ok (isFile filename)

end Java

/-! ## What the servers let through -/

/-- A test with one error is passed exactly when none of its conditions fails. -/
theorem ite_error_eq_ok_iff {p q : Prop} [Decidable p] [Decidable q] {message : String} :
    (if p then if q then Except.error message else Except.ok () else Except.error message) =
      .ok () ↔ p ∧ ¬ q := by
  by_cases hp : p
  · by_cases hq : q <;> simp [hp, hq]
  · simp [hp]

/-- The C server lets short names through that have none of the characters. -/
theorem checkFileName_eq_ok_iff {filename : List UInt8} :
    checkFileName filename = .ok () ↔
      filename.length ≤ 16 ∧ ∀ c ∈ filename, c ∉ invalid_filename_characters := by
  simp only [checkFileName, ite_error_eq_ok_iff, Nat.zero_le, and_true, List.any_eq_true,
    List.contains_iff_mem, not_exists, not_and]

/-- The Java server lets short names through that do not have all of them in a row. -/
theorem Java.checkFileName_eq_ok_iff {filename : List UInt8} :
    checkFileName filename = .ok () ↔
      filename.length ≤ 16 ∧ ¬ invalid_filename_characters <:+: filename := by
  simp only [checkFileName, ite_error_eq_ok_iff, Nat.zero_le, and_true]

/-! ## Agreement -/

/-- Both servers let the name through or neither does, they do for a short name without the
characters, and a name that the Java server lets through has no slash. -/
def FiltersAgree (filename : List UInt8) : Prop :=
  (Java.checkFileName filename = .ok () ↔ checkFileName filename = .ok ()) ∧
    (Java.checkFileName filename = .ok () ↔
      filename.length ≤ 16 ∧ ∀ c ∈ filename, c ∉ invalid_filename_characters) ∧
    (Java.checkFileName filename = .ok () → slash ∉ filename)

/-- **The filters agree exactly** on names that are too long, on names without any of the
characters, and on names that contain all of them in a row. -/
theorem filtersAgree_iff (filename : List UInt8) :
    FiltersAgree filename ↔
      16 < filename.length ∨ (∀ c ∈ filename, c ∉ invalid_filename_characters) ∨
        invalid_filename_characters <:+: filename := by
  have hrow : invalid_filename_characters <:+: filename →
      ¬ ∀ c ∈ filename, c ∉ invalid_filename_characters := by
    intro h hall
    exact hall slash (h.subset (by decide)) (by decide)
  unfold FiltersAgree
  rw [checkFileName_eq_ok_iff, Java.checkFileName_eq_ok_iff]
  constructor
  · rintro ⟨hsame, -, -⟩
    by_contra hnone
    simp only [not_or, not_lt] at hnone
    obtain ⟨hshort, hchars, hnorow⟩ := hnone
    -- a short name with some of the characters: only the Java server lets it through
    exact hchars (hsame.mp ⟨hshort, hnorow⟩).2
  · intro h
    have hsame : (filename.length ≤ 16 ∧ ¬ invalid_filename_characters <:+: filename) ↔
        filename.length ≤ 16 ∧ ∀ c ∈ filename, c ∉ invalid_filename_characters := by
      rcases h with hlong | hclean | hcontains
      · simp only [not_le.mpr hlong, false_and]
      · have hnorow : ¬ invalid_filename_characters <:+: filename := fun h => hrow h hclean
        simp only [hnorow, not_false_eq_true, iff_true_intro hclean]
      · simp only [hcontains, not_true_eq_false, hrow hcontains]
    refine ⟨hsame, hsame, fun hjava hslash => ?_⟩
    exact (hsame.mp hjava).2 slash hslash (by decide)

theorem validateFile_eq_true_iff {access : List UInt8 → Bool} {filename : List UInt8} :
    validateFile access filename = true ↔
      checkFileName filename = .ok () ∧ access filename = true := by
  unfold validateFile
  cases checkFileName filename with
  | error message => simp
  | ok u => simp

theorem Java.validateFileName_eq_ok_iff {isFile : List UInt8 → Bool} {filename : List UInt8} :
    validateFileName isFile filename = .ok true ↔
      checkFileName filename = .ok () ∧ isFile filename = true := by
  unfold validateFileName
  cases checkFileName filename with
  | error message => simp
  | ok u => simp

/-- Where the filters agree, two servers with the same files serve the same names. -/
theorem validateFileName_iff_validateFile {filename : List UInt8} (h : FiltersAgree filename)
    (files : List UInt8 → Bool) :
    Java.validateFileName files filename = .ok true ↔ validateFile files filename = true := by
  rw [Java.validateFileName_eq_ok_iff, validateFile_eq_true_iff, h.1]

/-- The name of a file outside the directory. -/
def parentName : List UInt8 := [46, 46, 47, 120]

/-- The Java server lets `"../x"` through, the C server does not. -/
theorem parentName_not_filtersAgree : parentName.all isascii ∧ ¬ FiltersAgree parentName := by
  refine ⟨by decide, fun h => ?_⟩
  have hjava : Java.checkFileName parentName = .ok () :=
    Java.checkFileName_eq_ok_iff.mpr ⟨by decide, by decide⟩
  exact h.2.2 hjava (by decide)

end NetworkLabs.Request

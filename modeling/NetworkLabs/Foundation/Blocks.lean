import Mathlib.Algebra.Order.BigOperators.Group.Finset
import Mathlib.Tactic.Linarith

/-!
# A sequence cut into blocks

`N` items are cut into blocks of `B`, the last of which may be short. A receiver that collects the
blocks in any order and counts the items of those it has can decide from the count alone whether
it has all of them: the blocks are not empty, so the count is full only when no block is missing.

## Main definitions

* `numBlocks N B`, `blockLen N B s`: the number of blocks, and the length of one

## Main results

* `sum_blockLen`: the lengths of all blocks add up to `N`
* `le_sum_blockLen_iff`: the lengths of some blocks reach `N` exactly when they are all blocks
* `exists_block`: every item lies in a block
-/

namespace Blocks

variable {N B s : ℕ}

/-- The number of blocks of `B` items that `N` items need. -/
def numBlocks (N B : ℕ) : ℕ := (N + B - 1) / B

/-- The number of items in block `s`. -/
def blockLen (N B s : ℕ) : ℕ := min B (N - s * B)

theorem lt_numBlocks_iff (hB : 1 ≤ B) : s < numBlocks N B ↔ s * B < N := by
  rw [numBlocks, Nat.lt_iff_add_one_le, Nat.le_div_iff_mul_le hB, Nat.add_mul, Nat.one_mul]
  omega

theorem numBlocks_pos (hB : 1 ≤ B) (hN : 1 ≤ N) : 1 ≤ numBlocks N B :=
  (lt_numBlocks_iff hB).mpr (by omega)

theorem numBlocks_le (hB : 1 ≤ B) : numBlocks N B ≤ N := by
  by_contra h
  have hlt := (lt_numBlocks_iff hB).mp (not_le.mp h)
  exact absurd (Nat.le_mul_of_pos_right N hB) (not_le.mpr hlt)

/-- What fits into one block takes one at most. -/
theorem numBlocks_le_one (hB : 1 ≤ B) (hN : N ≤ B) : numBlocks N B ≤ 1 := by
  by_contra hlt
  have := (lt_numBlocks_iff hB).mp (not_le.mp hlt)
  omega

/-- Without the items of the first block there is a block less. -/
theorem numBlocks_sub (hB : 1 ≤ B) (hN : 1 ≤ N) : numBlocks N B = numBlocks (N - B) B + 1 := by
  rcases Nat.lt_or_ge B N with hlt | hge
  · have hsum : N + B - 1 = N - B + B - 1 + B := by omega
    rw [numBlocks, numBlocks, hsum, Nat.add_div_right _ hB]
  · have hzero : numBlocks (N - B) B ≤ N - B := numBlocks_le hB
    have hone := numBlocks_le_one hB hge
    have hpos := numBlocks_pos hB hN
    omega

theorem blockLen_pos (hB : 1 ≤ B) (hs : s < numBlocks N B) : 0 < blockLen N B s := by
  have := (lt_numBlocks_iff hB).mp hs
  unfold blockLen
  omega

theorem blockLen_le : blockLen N B s ≤ B := Nat.min_le_left ..

theorem mul_add_blockLen_le (hB : 1 ≤ B) (hs : s < numBlocks N B) :
    s * B + blockLen N B s ≤ N := by
  have := (lt_numBlocks_iff hB).mp hs
  unfold blockLen
  omega

/-- A block that is not the last is full. -/
theorem blockLen_of_succ_lt (hB : 1 ≤ B) (hs : s + 1 < numBlocks N B) : blockLen N B s = B := by
  have := (lt_numBlocks_iff hB).mp hs
  rw [Nat.add_mul, Nat.one_mul] at this
  unfold blockLen
  omega

/-- The last block has what is left. -/
theorem blockLen_of_succ_eq (hB : 1 ≤ B) (hs : s + 1 = numBlocks N B) :
    blockLen N B s = N - s * B := by
  have hlast : ¬ (s + 1) * B < N := fun h => by
    have := (lt_numBlocks_iff hB).mpr h
    omega
  rw [Nat.add_mul, Nat.one_mul] at hlast
  unfold blockLen
  omega

theorem sum_blockLen_range (m : ℕ) : ∑ s ∈ Finset.range m, blockLen N B s = min (m * B) N := by
  induction m with
  | zero => simp
  | succ m ih =>
    rw [Finset.sum_range_succ, ih, blockLen, Nat.add_mul, Nat.one_mul]
    omega

/-- **The lengths of all blocks add up.** -/
theorem sum_blockLen (hB : 1 ≤ B) : ∑ s ∈ Finset.range (numBlocks N B), blockLen N B s = N := by
  have hall : ¬ numBlocks N B * B < N := fun h => by
    have := (lt_numBlocks_iff hB).mpr h
    omega
  rw [sum_blockLen_range]
  omega

/-- Positive weights of a subset reach the weight of the whole exactly when the subset is all. -/
theorem sum_le_sum_iff_of_subset {ι : Type*} {w : ι → ℕ} {S T : Finset ι} (hST : S ⊆ T)
    (hw : ∀ i ∈ T, 0 < w i) : ∑ i ∈ T, w i ≤ ∑ i ∈ S, w i ↔ S = T := by
  refine ⟨fun hle => ?_, fun h => by rw [h]⟩
  by_contra hne
  -- an item that is left out takes its weight away
  obtain ⟨i, hiT, hiS⟩ := Finset.exists_of_ssubset (hST.ssubset_of_ne hne)
  have hlt := Finset.sum_lt_sum_of_subset hST hiT hiS (hw i hiT) fun _ _ _ => Nat.zero_le _
  omega

/-- **The count is full exactly when no block is missing.** -/
theorem le_sum_blockLen_iff (hB : 1 ≤ B) {S : Finset ℕ} (hS : S ⊆ Finset.range (numBlocks N B)) :
    N ≤ ∑ s ∈ S, blockLen N B s ↔ S = Finset.range (numBlocks N B) := by
  rw [← sum_le_sum_iff_of_subset hS fun s hs => blockLen_pos hB (Finset.mem_range.mp hs),
    sum_blockLen hB]

/-- Every item lies in a block. -/
theorem exists_block (hB : 1 ≤ B) {i : ℕ} (hi : i < N) :
    ∃ s < numBlocks N B, ∃ k < blockLen N B s, i = s * B + k := by
  -- item `i` is the item `i % B` of block `i / B`
  have hdiv : B * (i / B) + i % B = i := Nat.div_add_mod i B
  have hmod : i % B < B := Nat.mod_lt _ hB
  rw [Nat.mul_comm] at hdiv
  refine ⟨i / B, (lt_numBlocks_iff hB).mpr (by omega), i % B, ?_, hdiv.symm⟩
  unfold blockLen
  omega

end Blocks

import Ggmk.Alloc.Block
import Ggmk.Lifecycle.Host

/-! The rounding to powers of two (`platform.h`) and the bins of the block allocator
(`alloc_block.c`) are tight. -/
namespace Ggmk
open Word BitSmear Lifecycle

variable {x size : ℕ}

/-- A power of two is not smaller than `x` if its exponent is above the highest bit of `x - 1`. -/
theorem le_two_pow_iff (h1 : 1 < x) (k : ℕ) : x ≤ 2 ^ k ↔ (x - 1).log2 < k := by
  rw [Nat.log2_lt (by omega)]
  omega

theorem gmkNextPow2_isLeast (h1 : 1 ≤ x) (hx : x ≤ 2 ^ 31) :
    IsLeast {p | (∃ k, p = 2 ^ k) ∧ x ≤ p} (gmkNextPow2 x) := by
  rcases h1.eq_or_lt with rfl | hlt
  · refine ⟨⟨⟨0, rfl⟩, le_rfl⟩, ?_⟩
    rintro p ⟨-, hp⟩
    exact hp
  · rw [gmkNextPow2_eq hlt hx]
    refine ⟨⟨⟨_, rfl⟩, (le_two_pow_iff hlt _).mpr (Nat.lt_succ_self _)⟩, ?_⟩
    rintro p ⟨⟨k, rfl⟩, hp⟩
    exact Nat.pow_le_pow_right (by norm_num) ((le_two_pow_iff hlt k).mp hp)

theorem gmkIsPowerOfTwo_iff (x : ℕ) : gmkIsPowerOfTwo x = true ↔ ∃ k, x = 2 ^ k := by
  rw [gmkIsPowerOfTwo, Bool.and_eq_true, bne_iff_ne, beq_iff_eq]
  exact Nat.ne_zero_and_sub_one_eq_zero_iff_isPowerOfTwo

/-- Above the smallest size the bin counts how far the highest bit of `size - 1` is above it. -/
theorem binIndex_eq (hmin : gmkBlockMinSize < size) (hmax : size ≤ gmkBlockMaxSize) :
    binIndex size = ((size - 1).log2 - 4 : ℕ) ∧ 5 ≤ (size - 1).log2 ∧ (size - 1).log2 ≤ 15 := by
  unfold gmkBlockMinSize at hmin
  unfold gmkBlockMaxSize at hmax
  have hlow : 5 ≤ (size - 1).log2 := (Nat.le_log2 (by omega)).mpr (by omega)
  have hhigh : (size - 1).log2 < 16 := (Nat.log2_lt (by omega)).mpr (by omega)
  refine ⟨?_, hlow, by omega⟩
  rw [binIndex, if_neg (by unfold gmkBlockMinSize; omega), if_neg (by unfold gmkBlockMaxSize; omega)]
  dsimp only
  rw [gmkNextPow2_eq (by omega) (by omega), ctz_two_pow (by omega)]
  unfold gmkBlockBins
  split_ifs <;> omega

/-- The bin of a size is the least one whose objects are large enough. -/
theorem binIndex_isLeast (hmax : size ≤ gmkBlockMaxSize) :
    ∃ i : ℕ, binIndex size = i ∧ IsLeast {i | i ≤ 11 ∧ size ≤ 32 * 2 ^ i} i := by
  by_cases hmin : gmkBlockMinSize < size
  · obtain ⟨hidx, hlow, hhigh⟩ := binIndex_eq hmin hmax
    have h1 : 1 < size := lt_of_le_of_lt (by decide) hmin
    have hsize : ∀ i, size ≤ 32 * 2 ^ i ↔ (size - 1).log2 < i + 5 := by
      intro i
      have hpow : 32 * 2 ^ i = 2 ^ (i + 5) := by ring
      rw [← le_two_pow_iff h1, hpow]
    refine ⟨_, hidx, ⟨by omega, (hsize _).mpr (by omega)⟩, ?_⟩
    rintro i ⟨-, hi⟩
    have hlog := (hsize i).mp hi
    omega
  · refine ⟨0, if_pos (not_lt.mp hmin), ⟨Nat.zero_le _, not_lt.mp hmin⟩, ?_⟩
    rintro i -
    exact Nat.zero_le i

theorem binIndex_eq_neg_one_iff : binIndex size = -1 ↔ gmkBlockMaxSize < size := by
  constructor
  · intro h
    by_contra hle
    obtain ⟨i, hi, -⟩ := binIndex_isLeast (not_lt.mp hle)
    omega
  · intro h
    have hmin : ¬ size ≤ gmkBlockMinSize := not_le.mpr (lt_trans (by decide) h)
    rw [binIndex, if_neg hmin, if_pos h]

/-- The rounding gives the least power of two, the test recognises the powers of two, and the bin
is the least one that fits. -/
theorem sizeClass_tight :
    (∀ x, 1 ≤ x → x ≤ 2 ^ 31 →
      IsLeast {p | (∃ k, p = 2 ^ k) ∧ x ≤ p} (gmkNextPow2 x) ∧
        (gmkIsPowerOfTwo x = true ↔ ∃ k, x = 2 ^ k)) ∧
      ∀ size, 1 ≤ size → size < 2 ^ 32 →
        (binIndex size = -1 ↔ 65536 < size) ∧
          (size ≤ 65536 → ∃ i : ℕ, binIndex size = i ∧
            IsLeast {i | i ≤ 11 ∧ size ≤ 32 * 2 ^ i} i) := by
  refine ⟨fun x h1 hx => ⟨gmkNextPow2_isLeast h1 hx, gmkIsPowerOfTwo_iff x⟩, ?_⟩
  rintro size - -
  exact ⟨binIndex_eq_neg_one_iff, binIndex_isLeast⟩

theorem sizeClass_tight_33 : IsLeast {i | i ≤ 11 ∧ 33 ≤ 32 * 2 ^ i} 1 := by
  obtain ⟨i, hi, hleast⟩ := (sizeClass_tight.2 33 (by norm_num) (by norm_num)).2 (by norm_num)
  obtain rfl : i = 1 := by
    have hbin : binIndex 33 = 1 := by decide
    omega
  exact hleast

end Ggmk

import Mathlib

/-! Rounding up to a power of two by smearing the highest bit downwards, and counting
trailing zeros. -/
namespace BitSmear

/-- Copy every bit onto the one `w` places below it. -/
def smear (w n : ℕ) : ℕ := n ||| n >>> w

/-- The five doubling smears of a 32-bit word. -/
def smear32 (n : ℕ) : ℕ := smear 16 (smear 8 (smear 4 (smear 2 (smear 1 n))))

/-- `m` has the bits of `n` copied onto the `w - 1` places below them. -/
def Smeared (n w m : ℕ) : Prop := ∀ i, m.testBit i = true ↔ ∃ j < w, n.testBit (i + j) = true

theorem smeared_one (n : ℕ) : Smeared n 1 n := by
  intro i
  constructor
  · intro h
    exact ⟨0, Nat.one_pos, h⟩
  · rintro ⟨j, hj, h⟩
    rwa [Nat.lt_one_iff.mp hj] at h

theorem Smeared.step {n w m : ℕ} (h : Smeared n w m) : Smeared n (2 * w) (smear w m) := by
  intro i
  rw [smear, Nat.testBit_or, Nat.testBit_shiftRight, Bool.or_eq_true, h i, h (w + i)]
  constructor
  · rintro (⟨j, hj, hb⟩ | ⟨j, hj, hb⟩)
    · exact ⟨j, by omega, hb⟩
    · exact ⟨w + j, by omega, by rwa [show i + (w + j) = w + i + j by omega]⟩
  · rintro ⟨j, hj, hb⟩
    by_cases hjw : j < w
    · exact Or.inl ⟨j, hjw, hb⟩
    · exact Or.inr ⟨j - w, by omega, by rwa [show w + i + (j - w) = i + j by omega]⟩

theorem smear32_smeared (n : ℕ) : Smeared n 32 (smear32 n) :=
  (smeared_one n).step.step.step.step.step

/-- All bits up to the highest one are set. -/
theorem smear32_eq {n : ℕ} (h0 : n ≠ 0) (hn : n < 2 ^ 32) :
    smear32 n = 2 ^ (n.log2 + 1) - 1 := by
  have hlog : n.log2 < 32 := (Nat.log2_lt h0).mpr hn
  apply Nat.eq_of_testBit_eq
  intro i
  rw [Nat.testBit_two_pow_sub_one, Bool.eq_iff_iff, smear32_smeared n i, decide_eq_true_eq]
  constructor
  · rintro ⟨j, -, hb⟩
    by_contra hi
    have hlt : n < 2 ^ (i + j) :=
      Nat.lt_log2_self.trans_le (Nat.pow_le_pow_right (by norm_num) (by omega))
    rw [Nat.testBit_lt_two_pow hlt] at hb
    exact Bool.false_ne_true hb
  · intro hi
    refine ⟨n.log2 - i, by omega, ?_⟩
    rw [Nat.add_sub_of_le (by omega)]
    exact Nat.testBit_log2 h0

/-- Trailing zero bits, at most `fuel` of them. -/
def ctz : ℕ → ℕ → ℕ
  | 0, _ => 0
  | fuel + 1, n => if n % 2 = 1 then 0 else ctz fuel (n / 2) + 1

theorem ctz_two_pow {fuel k : ℕ} (h : k < fuel) : ctz fuel (2 ^ k) = k := by
  induction fuel generalizing k with
  | zero => exact absurd h (Nat.not_lt_zero k)
  | succ fuel ih =>
    cases k with
    | zero => simp [ctz]
    | succ k =>
      have hhalf : 2 ^ (k + 1) / 2 = 2 ^ k := by rw [pow_succ, Nat.mul_div_cancel _ (by norm_num)]
      have heven : ¬ 2 ^ (k + 1) % 2 = 1 := by rw [pow_succ, Nat.mul_mod_left]; norm_num
      rw [ctz, if_neg heven, hhalf, ih (by omega)]

end BitSmear

import Mathlib

/-! Words to which a shifted copy of themselves is added without carries. The map forgets
nothing: each bit is the sum of itself and of one that has been recovered before it. -/
namespace XorShift

variable {w k x y : ℕ}

/-- `x ^ (x << k)` on words of `w` bits. -/
def xorLeft (w k x : ℕ) : ℕ := x ^^^ (x <<< k) % 2 ^ w

/-- `x ^ (x >> k)`. -/
def xorRight (k x : ℕ) : ℕ := x ^^^ x >>> k

theorem xorLeft_lt (hx : x < 2 ^ w) : xorLeft w k x < 2 ^ w :=
  Nat.xor_lt_two_pow hx (Nat.mod_lt _ (by positivity))

theorem xorRight_lt (hx : x < 2 ^ w) : xorRight k x < 2 ^ w :=
  Nat.xor_lt_two_pow hx ((Nat.shiftRight_le x k).trans_lt hx)

theorem testBit_xorLeft {i : ℕ} (hi : i < w) :
    (xorLeft w k x).testBit i = (x.testBit i ^^ (decide (k ≤ i) && x.testBit (i - k))) := by
  rw [xorLeft, Nat.testBit_xor, Nat.testBit_mod_two_pow, Nat.testBit_shiftLeft]
  simp [hi]

theorem testBit_xorRight (i : ℕ) :
    (xorRight k x).testBit i = (x.testBit i ^^ x.testBit (k + i)) := by
  rw [xorRight, Nat.testBit_xor, Nat.testBit_shiftRight]

/-- The bits are recovered from the lowest one up. -/
theorem xorLeft_inj (hk : 0 < k) (hx : x < 2 ^ w) (hy : y < 2 ^ w)
    (h : xorLeft w k x = xorLeft w k y) : x = y := by
  have hbits : ∀ i, i < w → x.testBit i = y.testBit i := by
    intro i
    induction i using Nat.strongRecOn with
    | ind i ih =>
      intro hi
      have hbit := congrArg (Nat.testBit · i) h
      simp only [testBit_xorLeft hi] at hbit
      by_cases hki : k ≤ i
      · rw [ih (i - k) (by omega) (by omega)] at hbit
        exact Bool.xor_left_inj.mp hbit
      · simpa [hki] using hbit
  apply Nat.eq_of_testBit_eq
  intro i
  rcases lt_or_ge i w with hi | hi
  · exact hbits i hi
  · have hpow : 2 ^ w ≤ 2 ^ i := Nat.pow_le_pow_right (by norm_num) hi
    rw [Nat.testBit_lt_two_pow (hx.trans_le hpow), Nat.testBit_lt_two_pow (hy.trans_le hpow)]

/-- The bits are recovered from the highest one down. -/
theorem xorRight_inj (hk : 0 < k) (hx : x < 2 ^ w) (hy : y < 2 ^ w)
    (h : xorRight k x = xorRight k y) : x = y := by
  apply Nat.eq_of_testBit_eq
  intro i
  induction hd : w - i using Nat.strongRecOn generalizing i with
  | ind d ih =>
    rcases lt_or_ge i w with hi | hi
    · have hbit := congrArg (Nat.testBit · i) h
      simp only [testBit_xorRight] at hbit
      rw [ih (w - (k + i)) (by omega) (k + i) rfl] at hbit
      exact Bool.xor_left_inj.mp hbit
    · have hpow : 2 ^ w ≤ 2 ^ i := Nat.pow_le_pow_right (by norm_num) hi
      rw [Nat.testBit_lt_two_pow (hx.trans_le hpow), Nat.testBit_lt_two_pow (hy.trans_le hpow)]

end XorShift

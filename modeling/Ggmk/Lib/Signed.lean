import Ggmk.Lib.Word

/-! Differences of 32-bit words that are read as signed before they are subtracted, and when such
a difference leaves the signed range. -/
namespace Word

/-- The integers that a signed 32-bit word holds. -/
def Fits32 (z : ℤ) : Prop := -2 ^ 31 ≤ z ∧ z < 2 ^ 31

instance (z : ℤ) : Decidable (Fits32 z) := inferInstanceAs (Decidable (_ ∧ _))

/-- Where the difference of the signed readings fits, it is the signed reading of the difference. -/
theorem sdiff32_eq_of_fits {a b : ℕ} (ha : a < 2 ^ 32) (hb : b < 2 ^ 32)
    (h : Fits32 (int32 a - int32 b)) : sdiff32 a b = int32 a - int32 b := by
  unfold Fits32 int32 at h
  unfold sdiff32 int32 sub32
  rw [u32_of_lt ha, u32_of_lt hb] at *
  unfold u32 at *
  split_ifs at * <;> omega

theorem fits32_self (n : ℕ) : Fits32 (int32 n - int32 n) := by
  rw [sub_self]
  decide

/-- A word that is `d` behind another one is subtracted safely unless the sign boundary lies
between them. -/
theorem fits32_behind_iff {n d : ℕ} (hn : n < 2 ^ 32) (h0 : 0 < d) (hd : d < 2 ^ 31) :
    Fits32 (int32 n - int32 (u32 (n + d))) ↔ ¬ (n < 2 ^ 31 ∧ 2 ^ 31 ≤ u32 (n + d)) := by
  unfold Fits32 int32
  rw [u32_u32, u32_of_lt hn]
  unfold u32
  split_ifs <;> omega

end Word

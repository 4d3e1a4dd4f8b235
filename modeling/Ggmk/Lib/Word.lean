import Mathlib

/-! Arithmetic of wrapping 32-bit counters, masks and signed differences.
A counter is a natural number below `2 ^ 32`; its true value is only known
modulo that word size. -/
namespace Word

/-- Truncation of an unbounded counter to an unsigned 32-bit word. -/
def u32 (n : ℕ) : ℕ := n % 2 ^ 32

/-- Truncation to an unsigned 16-bit word. -/
def u16 (n : ℕ) : ℕ := n % 2 ^ 16

/-- Truncation to an unsigned 64-bit word. -/
def uint64 (n : ℕ) : ℕ := n % 2 ^ 64

/-- The two's-complement reading of a 32-bit word. -/
def int32 (n : ℕ) : ℤ :=
  if u32 n < 2 ^ 31 then (u32 n : ℤ) else (u32 n : ℤ) - 2 ^ 32

/-- Unsigned 32-bit subtraction. -/
def sub32 (a b : ℕ) : ℕ := u32 (a + (2 ^ 32 - u32 b))

/-- The difference of two words read as signed, taken modulo `2 ^ 32`. -/
def sdiff32 (a b : ℕ) : ℤ := int32 (sub32 a b)

theorem u32_lt (n : ℕ) : u32 n < 2 ^ 32 := Nat.mod_lt _ (by norm_num)

theorem u32_of_lt {n : ℕ} (h : n < 2 ^ 32) : u32 n = n := Nat.mod_eq_of_lt h

theorem int32_eq_self_iff {n : ℕ} : int32 n = n ↔ n < 2 ^ 31 := by
  unfold int32 u32
  constructor
  · intro h
    split at h <;> omega
  · intro h
    rw [if_pos (by omega), Nat.mod_eq_of_lt (by omega)]

@[simp] theorem u32_u32_add (n d : ℕ) : u32 (u32 n + d) = u32 (n + d) := by
  unfold u32; omega

@[simp] theorem u32_u32 (n : ℕ) : u32 (u32 n) = u32 n := by
  unfold u32; omega

@[simp] theorem u16_u16_add (n d : ℕ) : u16 (u16 n + d) = u16 (n + d) := by
  unfold u16; omega

theorem u16_of_lt {n : ℕ} (h : n < 2 ^ 16) : u16 n = n := Nat.mod_eq_of_lt h

theorem uint64_of_lt {n : ℕ} (h : n < 2 ^ 64) : uint64 n = n := Nat.mod_eq_of_lt h

theorem u16_succ_ne (n : ℕ) : u16 (n + 1) ≠ u16 n := by
  unfold u16; omega

/-- Masking a wrapped counter by a power of two forgets the wrap. -/
theorem u32_and_mask (n : ℕ) {k : ℕ} (hk : k ≤ 31) : u32 n &&& (2 ^ k - 1) = n % 2 ^ k := by
  rw [Nat.and_two_pow_sub_one_eq_mod, u32]
  exact Nat.mod_mod_of_dvd _ (pow_dvd_pow 2 (by omega))

theorem sub32_add_left {n d : ℕ} (hd : d < 2 ^ 32) : sub32 (u32 (n + d)) (u32 n) = d := by
  unfold sub32 u32; omega

theorem sdiff32_self (n : ℕ) : sdiff32 (u32 n) (u32 n) = 0 := by
  have h : sub32 (u32 n) (u32 n) = 0 := by simpa using sub32_add_left (n := n) (d := 0) (by norm_num)
  rw [sdiff32, h]; decide

theorem sdiff32_behind {n d : ℕ} (h0 : 0 < d) (hd : d ≤ 2 ^ 31) :
    sdiff32 (u32 n) (u32 (n + d)) < 0 := by
  have h : sub32 (u32 n) (u32 (n + d)) = 2 ^ 32 - d := by unfold sub32 u32; omega
  rw [sdiff32, h, int32, u32_of_lt (by omega), if_neg (by omega)]
  omega

theorem sdiff32_ahead {n d : ℕ} (h0 : 0 < d) (hd : d < 2 ^ 31) :
    0 < sdiff32 (u32 (n + d)) (u32 n) := by
  rw [sdiff32, sub32_add_left (by omega), int32, u32_of_lt (by omega), if_pos (by omega)]
  omega

theorem u32_eq_of_sdiff32 {a b : ℕ} (h : sdiff32 a b = 0) : u32 a = u32 b := by
  have hlt := u32_lt (sub32 a b)
  have hzero : u32 (sub32 a b) = 0 := by
    unfold sdiff32 int32 at h
    split at h <;> omega
  rw [sub32, u32_u32] at hzero
  unfold u32 at *
  omega

/-- Counters less than a word apart are told apart by their words. -/
theorem eq_of_u32_eq {a b : ℕ} (h : u32 a = u32 b) (hab : a < b + 2 ^ 32) (hba : b < a + 2 ^ 32) :
    a = b := by
  unfold u32 at h
  omega

/-- Offsets below a common modulus name distinct slots. -/
theorem add_mod_inj {h c i j : ℕ} (hi : i < c) (hj : j < c)
    (he : (h + i) % c = (h + j) % c) : i = j := by
  have hm : i % c = j % c := Nat.ModEq.add_left_cancel' h he
  rwa [Nat.mod_eq_of_lt hi, Nat.mod_eq_of_lt hj] at hm

end Word

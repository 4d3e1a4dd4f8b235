import Mathlib

/-! Memory as bytes, read and written in little-endian words. -/
namespace ByteMem

abbrev Mem := ℕ → UInt8

/-- The word of `n` bytes at `a`. -/
def readLe (m : Mem) (a : ℕ) : ℕ → ℕ
  | 0 => 0
  | n + 1 => (m a).toNat + 256 * readLe m (a + 1) n

def writeLe (m : Mem) (a : ℕ) : ℕ → ℕ → Mem
  | 0, _ => m
  | n + 1, w => writeLe (Function.update m a (UInt8.ofNat w)) (a + 1) n (w / 256)

/-- `n` zero bytes from `a` on. -/
def clear (m : Mem) (a n : ℕ) : Mem := fun b => if a ≤ b ∧ b < a + n then 0 else m b

variable {m m' : Mem} {a b n w : ℕ}

theorem readLe_congr (h : ∀ b, a ≤ b → b < a + n → m' b = m b) : readLe m' a n = readLe m a n := by
  induction n generalizing a with
  | zero => rfl
  | succ n ih =>
    rw [readLe, readLe, h a le_rfl (by omega), ih]
    intro b hab hb
    exact h b (by omega) (by omega)

theorem writeLe_of_notMem (h : b < a ∨ a + n ≤ b) : writeLe m a n w b = m b := by
  induction n generalizing a w m with
  | zero => rfl
  | succ n ih =>
    rw [writeLe, ih (by omega), Function.update_of_ne (by omega)]

/-- A word is read as it was written. -/
theorem readLe_writeLe_self (m : Mem) (a n w : ℕ) :
    readLe (writeLe m a n w) a n = w % 256 ^ n := by
  induction n generalizing a w m with
  | zero => simp [readLe, Nat.mod_one]
  | succ n ih =>
    rw [readLe, writeLe, ih, writeLe_of_notMem (by omega), Function.update_self, pow_succ,
      Nat.mul_comm (256 ^ n) 256, Nat.mod_mul]
    simp

theorem readLe_writeLe_of_disjoint {k : ℕ} (h : a + n ≤ b ∨ b + k ≤ a) :
    readLe (writeLe m a n w) b k = readLe m b k := by
  apply readLe_congr
  intro c hc1 hc2
  exact writeLe_of_notMem (by omega)

theorem readLe_zero (a n : ℕ) : readLe (fun _ => 0) a n = 0 := by
  induction n generalizing a with
  | zero => rfl
  | succ n ih =>
    rw [readLe, ih]
    rfl

theorem readLe_clear (h1 : a ≤ b) {k : ℕ} (h2 : b + k ≤ a + n) : readLe (clear m a n) b k = 0 := by
  induction k generalizing b with
  | zero => rfl
  | succ k ih =>
    rw [readLe, ih (by omega) (by omega), clear, if_pos (by omega)]
    rfl

theorem readLe_clear_of_disjoint {k : ℕ} (h : a + n ≤ b ∨ b + k ≤ a) :
    readLe (clear m a n) b k = readLe m b k := by
  apply readLe_congr
  intro c hc1 hc2
  exact if_neg (by omega)

end ByteMem

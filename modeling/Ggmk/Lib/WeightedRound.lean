import Ggmk.Lib.Tally

/-! Weighted rounds: queue `q` may be served `w q` times before the counters `c` are reset, and
the queues are tried in order. How often the others can be served before a queue that waits. -/
namespace WeightedRound
open Finset

variable {n p x : ℕ} {w c : ℕ → ℕ}

/-- What the queues of `s` may still take before a reset. -/
def credit (s : Finset ℕ) (w c : ℕ → ℕ) : ℕ := ∑ q ∈ s, (w q - c q)

/-- The others ahead of queue `p`: those before it while it has quota left, else all of them and
after the reset once more those before it. -/
def ahead (n : ℕ) (w c : ℕ → ℕ) (p : ℕ) : ℕ :=
  if c p < w p then credit (range p) w c
  else credit ((range n).erase p) w c + ∑ q ∈ range p, w q

def bound (n : ℕ) (w : ℕ → ℕ) (p : ℕ) : ℕ := ∑ q ∈ (range n).erase p, w q + ∑ q ∈ range p, w q

theorem credit_le (s : Finset ℕ) (w c : ℕ → ℕ) : credit s w c ≤ ∑ q ∈ s, w q :=
  sum_le_sum fun q _ => Nat.sub_le (w q) (c q)

theorem ahead_le_bound (n : ℕ) (w c : ℕ → ℕ) (p : ℕ) : ahead n w c p ≤ bound n w p := by
  unfold ahead bound
  split
  · exact (credit_le _ w c).trans (Nat.le_add_left _ _)
  · exact Nat.add_le_add_right (credit_le _ w c) _

/-- Serving a queue of `s` that has quota left takes one from the credit. -/
theorem credit_serve {s : Finset ℕ} (hp : p ∈ s) (hc : c p < w p) :
    credit s w (Function.update c p (c p + 1)) + 1 = credit s w c := by
  have hfun : (fun q => w q - Function.update c p (c p + 1) q) =
      Function.update (fun q => w q - c q) p (w p - (c p + 1)) := by
    funext q
    by_cases hq : q = p
    · subst hq
      simp only [Function.update_self]
    · simp only [Function.update_of_ne hq]
  have hsum := Tally.sum_update_add s id (fun q => w q - c q) hp (w p - (c p + 1))
  simp only [id_eq, ← hfun] at hsum
  unfold credit
  omega

/-- Within a round, serving another queue brings `x` nearer. -/
theorem ahead_serve (hpn : p < n) (hc : c p < w p) (hpx : p ≠ x) (horder : c x < w x → p < x) :
    ahead n w (Function.update c p (c p + 1)) x + 1 ≤ ahead n w c x := by
  unfold ahead
  rw [Function.update_of_ne hpx.symm]
  split
  next hx => exact (credit_serve (mem_range.mpr (horder hx)) hc).le
  next hx =>
    have hmem : p ∈ (range n).erase x := mem_erase.mpr ⟨hpx, mem_range.mpr hpn⟩
    have hs := credit_serve hmem hc
    omega

/-- So does the first service after a reset. -/
theorem ahead_reset (hpx : p < x) (hx : ¬ c x < w x) (hwp : 0 < w p) (hwx : 0 < w x) :
    ahead n w (Function.update (fun _ => 0) p 1) x + 1 ≤ ahead n w c x := by
  have hne : x ≠ p := by omega
  have hs := credit_serve (w := w) (c := fun _ => 0) (mem_range.mpr hpx) hwp
  have hle := credit_le (range x) w (fun _ => 0)
  unfold ahead
  rw [Function.update_of_ne hne, if_pos hwx, if_neg hx]
  simp only [Nat.zero_add] at hs
  omega

end WeightedRound

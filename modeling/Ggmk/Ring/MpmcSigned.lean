import Ggmk.Lib.Signed
import Ggmk.Ring.MpmcMoves

/-! The comparisons of `gmk_ring_mpmc_push` and `gmk_ring_mpmc_pop` as `ring_mpmc.c` writes them.
Both words are cast to `int32_t` first and then subtracted, so the difference is one of signed
integers and overflows when the sign boundary lies between the stamp and the position. -/
namespace Ggmk
open Word

namespace RingMpmc
variable {α : Type*} {r : RingMpmc α} {q : List α}

/-- `(int32_t)seq - (int32_t)tail`, as an exact integer. -/
def pushDiff (r : RingMpmc α) : ℤ := int32 (r.seq (r.tail &&& r.mask)) - int32 r.tail

/-- `(int32_t)seq - (int32_t)(head + 1)`, as an exact integer. -/
def popDiff (r : RingMpmc α) : ℤ := int32 (r.seq (r.head &&& r.mask)) - int32 (u32 (r.head + 1))

/-- Neither subtraction leaves the range of `int32_t`. -/
def NoOverflow (r : RingMpmc α) : Prop := Fits32 r.pushDiff ∧ Fits32 r.popDiff

namespace Holds

theorem tail_lt (h : r.Holds q) : r.tail < 2 ^ 32 := h.tail_eq ▸ u32_lt _

/-- The stamp that a push meets: the tail itself, or the one of the oldest element. -/
theorem tail_stamp (h : r.Holds q) :
    r.seq (r.tail &&& r.mask) = if q.length = r.cap then u32 (r.head + 1) else r.tail := by
  rw [h.tail_and_mask]
  split_ifs with hfull
  · have hpos := h.cap_pos
    rw [hfull, Nat.add_mod_right]
    exact (h.filled 0 (by omega)).1
  · have hroom := h.room
    rw [h.free q.length le_rfl (by omega), h.tail_eq]

/-- The stamp that a pop meets: the next position, or the one of an empty cell. -/
theorem head_stamp (h : r.Holds q) :
    r.seq (r.head &&& r.mask) = if q.length = 0 then r.head else u32 (r.head + 1) := by
  rw [h.head_and_mask]
  split_ifs with hempty
  · have hseq := h.free 0 hempty.le h.cap_pos
    rwa [Nat.add_zero, u32_of_lt h.head_lt] at hseq
  · exact (h.filled 0 (by omega)).1

/-- A full ring compares the stamp of its oldest element with a tail `cap - 1` ahead of it. -/
theorem fits_push_iff (h : r.Holds q) (htwo : 2 ≤ r.cap) :
    Fits32 r.pushDiff ↔
      ¬ (q.length = r.cap ∧ u32 (r.head + 1) < 2 ^ 31 ∧ 2 ^ 31 ≤ r.tail) := by
  have hcap := h.cap_le
  rw [pushDiff, h.tail_stamp]
  split_ifs with hfull
  · have htail : r.tail = u32 (u32 (r.head + 1) + (r.cap - 1)) := by
      rw [h.tail_eq, hfull, u32_u32_add]
      congr 1
      omega
    have hiff := fits32_behind_iff (u32_lt (r.head + 1)) (show 0 < r.cap - 1 by omega) (by omega)
    rw [← htail] at hiff
    rw [hiff]
    tauto
  · exact iff_of_true (fits32_self _) fun hc => hfull hc.1

/-- An empty ring compares the head with the position after it. -/
theorem fits_pop_iff (h : r.Holds q) :
    Fits32 r.popDiff ↔ ¬ (q.length = 0 ∧ r.head = 2 ^ 31 - 1) := by
  rw [popDiff, h.head_stamp]
  split_ifs with hempty
  · rw [fits32_behind_iff h.head_lt one_pos (by norm_num)]
    have hhead := h.head_lt
    unfold u32
    omega
  · exact iff_of_true (fits32_self _) fun hc => hempty hc.1

/-- Where nothing overflows the wrapping differences of the model are the exact ones. -/
theorem sdiff_eq (h : r.Holds q) (hno : r.NoOverflow) :
    sdiff32 (r.seq (r.tail &&& r.mask)) r.tail = r.pushDiff ∧
      sdiff32 (r.seq (r.head &&& r.mask)) (u32 (r.head + 1)) = r.popDiff := by
  have htail : r.seq (r.tail &&& r.mask) < 2 ^ 32 := by
    rw [h.tail_stamp]
    split_ifs
    · exact u32_lt _
    · exact h.tail_lt
  have hhead : r.seq (r.head &&& r.mask) < 2 ^ 32 := by
    rw [h.head_stamp]
    split_ifs
    · exact h.head_lt
    · exact u32_lt _
  exact ⟨sdiff32_eq_of_fits htail h.tail_lt hno.1, sdiff32_eq_of_fits hhead (u32_lt _) hno.2⟩

end Holds

/-- In every state that pushes and pops reach, the differences are exact and in range unless a full
ring has its oldest stamp and its tail on different sides of the sign boundary, or an empty one has
its head right before it. -/
theorem noOverflow_iff [Inhabited α] {k : ℕ} (hk : 1 ≤ k ∧ k ≤ 31)
    (hmoves : (gmkRingMpmcInit (2 ^ k)).Moves r) :
    r.NoOverflow ↔
      ¬ (gmkRingMpmcCount r = r.cap ∧ u32 (r.head + 1) < 2 ^ 31 ∧ 2 ^ 31 ≤ r.tail) ∧
      ¬ (gmkRingMpmcCount r = 0 ∧ r.head = 2 ^ 31 - 1) := by
  have htwo : 2 ≤ (gmkRingMpmcInit (2 ^ k) : RingMpmc α).cap :=
    Nat.pow_le_pow_right (n := 2) (by norm_num) hk.1
  obtain ⟨q, hq, hcap⟩ := hmoves.holds (init_holds hk.2) htwo
  rw [hq.count_eq, NoOverflow, hq.fits_push_iff (hcap ▸ htwo), hq.fits_pop_iff]

theorem noOverflow_of_init :
    (gmkRingMpmcInit (2 ^ 1) : RingMpmc ℕ).NoOverflow :=
  (noOverflow_iff (by decide) Relation.ReflTransGen.refl).mpr (by decide)

/-- One element in and out moves an empty ring's head on by one. -/
theorem Holds.push_pop (h : r.Holds []) (x : α) :
    ∃ r', r.Moves r' ∧ r'.Holds [] ∧ r'.head = u32 (r.head + 1) := by
  obtain ⟨r₁, hpush, h₁, -⟩ := h.push_ok x h.cap_pos
  obtain ⟨r₂, hpop, h₂, -⟩ := h₁.pop_ok
  refine ⟨r₂, (Relation.ReflTransGen.single (.inl ⟨x, hpush⟩)).tail (.inr ⟨x, hpop⟩), h₂, ?_⟩
  rw [h.push_of_stamp x (h.free 0 le_rfl h.cap_pos)] at hpush
  obtain rfl : _ = r₁ := by simpa only [PushResult.ok.injEq] using hpush
  simp only [gmkRingMpmcPop] at hpop
  split_ifs at hpop
  obtain ⟨-, rfl⟩ : _ ∧ _ = r₂ := by simpa only [PopResult.ok.injEq] using hpop
  rfl

/-- The head of an empty ring reaches every position. -/
theorem exists_empty_at [Inhabited α] {k : ℕ} (hk : k ≤ 31) (n : ℕ) :
    ∃ r : RingMpmc α, (gmkRingMpmcInit (2 ^ k)).Moves r ∧ r.Holds [] ∧ r.head = u32 n := by
  induction n with
  | zero => exact ⟨_, .refl, init_holds hk, rfl⟩
  | succ n ih =>
    obtain ⟨r, hmoves, hr, hhead⟩ := ih
    obtain ⟨r', hstep, hr', hhead'⟩ := hr.push_pop default
    exact ⟨r', hmoves.trans hstep, hr', by rw [hhead', hhead, u32_u32_add]⟩

/-- After `2 ^ 31 - 1` elements have gone through a ring of two cells, the next pop computes
`(int32_t)0x7fffffff - (int32_t)0x80000000`. -/
theorem pop_overflows :
    ∃ r : RingMpmc ℕ, (gmkRingMpmcInit (2 ^ 1)).Moves r ∧ r.popDiff = 2 ^ 32 - 1 ∧
      ¬ r.NoOverflow := by
  obtain ⟨r, hmoves, hr, hhead⟩ := exists_empty_at (α := ℕ) (k := 1) (by norm_num) (2 ^ 31 - 1)
  rw [u32_of_lt (by norm_num)] at hhead
  refine ⟨r, hmoves, ?_, fun hno => hr.fits_pop_iff.mp hno.2 ⟨rfl, hhead⟩⟩
  rw [popDiff, hr.head_stamp, hhead]
  norm_num [int32, u32]

end RingMpmc
end Ggmk

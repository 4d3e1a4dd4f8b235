import Ggmk.Boot

/-! The circuit breaker of `_gmk_yield` over any number of calls on one task. The limit has
32 bits, and the counter that is compared with it has 16. -/
namespace Ggmk

/-- There is a place for a task that worker `w` yields. -/
def Sched.YieldRoom (s : Sched) (w : ℤ) : Prop :=
  (0 ≤ w ∧ w.toNat < s.nWorkers ∧
      (s.lqs w.toNat).items.length < (s.lqs w.toNat).ring.cap) ∨
    s.overflow.items.length < s.overflow.cap

theorem gmkYield_count (s : Sched) (t : Task) (w : ℤ) (m : ℕ) :
    (gmkYield s t w m).2.1.yieldCount = t.yieldCount + 1 := by
  unfold gmkYield
  generalize (if m = 0 then gmkDefaultMaxYields else m) = limit
  simp only
  split
  · rfl
  split
  · split
    · rfl
    · split <;> rfl
  · split <;> rfl

/-- With room only the breaker can refuse a yield. -/
theorem gmkYield_rc {s : Sched} {w : ℤ} (hroom : s.YieldRoom w) (t : Task) {m : ℕ} (hm : m ≠ 0) :
    (gmkYield s t w m).1 =
      if m < (t.yieldCount + 1).toNat then gmkFail gmkErrYieldLimit else 0 := by
  unfold gmkYield
  simp only [if_neg hm]
  by_cases hlim : m < (t.yieldCount + 1).toNat
  · rw [if_pos hlim, if_pos hlim]
  rw [if_neg hlim, if_neg hlim]
  have hover (h : s.overflow.items.length < s.overflow.cap) (x : Task) :
      ∃ q, s.overflow.push x = some q := by
    refine Option.ne_none_iff_exists'.mp fun hnone => ?_
    have hfull := (MpmcQueue.push_eq_none_iff s.overflow x).mp hnone
    omega
  split
  next hw =>
    split
    next => rfl
    next hfull =>
      have hlq := (gmkLqPushYield_eq_none_iff _ _).mp hfull
      rcases hroom with ⟨-, -, hlt⟩ | hlt
      · omega
      · obtain ⟨q, hq⟩ := hover hlt _
        rw [hq]
  next hw =>
    rcases hroom with ⟨h0, hn, -⟩ | hlt
    · exact absurd ⟨h0, hn⟩ hw
    · obtain ⟨q, hq⟩ := hover hlt _
      rw [hq]

/-! ## Repeated calls -/

/-- Calls of `_gmk_yield` on one task with limit `m`. Each finds the scheduler as the rest of
the kernel has left it, with room for the task. -/
structure YieldCalls (m : UInt32) where
  sched : ℕ → Sched
  worker : ℕ → ℤ
  start : Task
  room : ∀ i, (sched i).YieldRoom (worker i)
  unyielded : start.yieldCount = 0

namespace YieldCalls
variable {m : UInt32} (r : YieldCalls m)

/-- The task when call `i` begins. -/
def task : ℕ → Task
  | 0 => r.start
  | i + 1 => (gmkYield (r.sched i) (task i) (r.worker i) m.toNat).2.1

/-- What call `i` returns. -/
def rc (i : ℕ) : ℤ := (gmkYield (r.sched i) (r.task i) (r.worker i) m.toNat).1

/-- The first `m` calls succeed and the later ones are refused. -/
def Breaks (i : ℕ) : Prop := r.rc i = if i < m.toNat then 0 else gmkFail gmkErrYieldLimit

/-- The counter starts again after 65536 calls. -/
theorem task_count (i : ℕ) : (r.task i).yieldCount.toNat = i % 65536 := by
  induction i with
  | zero =>
    rw [task, r.unyielded]
    rfl
  | succ i ih =>
    rw [task, gmkYield_count, UInt16.toNat_add, ih, UInt16.toNat_one]
    omega

theorem rc_eq (hm : 0 < m) (i : ℕ) :
    r.rc i = if m.toNat < (i + 1) % 65536 then gmkFail gmkErrYieldLimit else 0 := by
  have hne : m.toNat ≠ 0 := (UInt32.lt_iff_toNat_lt.mp hm).ne'
  have hcount : ((r.task i).yieldCount + 1).toNat = (i + 1) % 65536 := by
    rw [UInt16.toNat_add, r.task_count, UInt16.toNat_one]
    omega
  rw [rc, gmkYield_rc (r.room i) _ hne, hcount]

theorem breaks_iff (hm : 0 < m) (i : ℕ) :
    r.Breaks i ↔ (i < m.toNat ↔ (i + 1) % 65536 ≤ m.toNat) := by
  have hne : gmkFail gmkErrYieldLimit ≠ 0 := by decide
  rw [Breaks, r.rc_eq hm]
  by_cases hlim : m.toNat < (i + 1) % 65536 <;> by_cases hi : i < m.toNat
  · rw [if_pos hlim, if_pos hi]
    exact iff_of_false hne (by omega)
  · rw [if_pos hlim, if_neg hi]
    exact iff_of_true rfl (by omega)
  · rw [if_neg hlim, if_pos hi]
    exact iff_of_true rfl (by omega)
  · rw [if_neg hlim, if_neg hi]
    exact iff_of_false hne.symm (by omega)

/-- The call behind the last one that goes right. -/
theorem not_breaks_max (hm : 0 < m) : ¬ r.Breaks (max m.toNat 65535) := by
  rw [r.breaks_iff hm]
  rcases le_total m.toNat 65535 with hle | hle
  · -- the counter has wrapped to zero, below every limit
    rw [max_eq_right hle]
    omega
  · -- no counter of 16 bits exceeds the limit
    rw [max_eq_left hle]
    omega

theorem breaks_of_lt (hm : 0 < m) {i : ℕ} (hi : i < max m.toNat 65535) : r.Breaks i := by
  rw [r.breaks_iff hm]
  omega

/-- The first `n` calls go as the limit says if and only if the counter has not wrapped, or
has not reached the limit, by then. -/
theorem breaks_upTo_iff (hm : 0 < m) (n : ℕ) :
    (∀ i < n, r.Breaks i) ↔ n ≤ max m.toNat 65535 := by
  constructor
  · intro h
    by_contra hn
    exact r.not_breaks_max hm (h _ (by omega))
  · intro hn i hi
    exact r.breaks_of_lt hm (by omega)

/-- The breaker does not trip for good at any limit; it works as the limit says up to call
number `max m 65535`, and no further. -/
theorem breaker_wraps (hm : 0 < m) :
    (¬ ∀ i, r.Breaks i) ∧ ∀ n, (∀ i < n, r.Breaks i) ↔ n ≤ max m.toNat 65535 :=
  ⟨fun h => r.not_breaks_max hm (h _), r.breaks_upTo_iff hm⟩

/-- Calls on worker 0 with the default limit, whose queues are drained in between. -/
def drainedCalls : YieldCalls 16 where
  sched _ := gmkSchedInit 1
  worker _ := 0
  start := default
  room _ := Or.inl ⟨by decide, by decide, by decide⟩
  unyielded := rfl

/-- At the default limit the breaker lets call number 65536 pass. -/
theorem breaker_wraps_sixteen : (¬ ∀ i, drainedCalls.Breaks i) ∧
    ∀ n, (∀ i < n, drainedCalls.Breaks i) ↔ n ≤ max (16 : UInt32).toNat 65535 :=
  breaker_wraps drainedCalls (by decide)

theorem breaker_lets_pass : ¬ ∀ m, 0 < m → ∀ r : YieldCalls m, ∀ i, r.Breaks i := by
  intro h
  have hrefused : drainedCalls.rc 65535 = gmkFail gmkErrYieldLimit :=
    h 16 (by decide) drainedCalls 65535
  have hpasses : drainedCalls.rc 65535 = 0 := drainedCalls.rc_eq (by decide) 65535
  rw [hrefused] at hpasses
  exact absurd hpasses (by decide)

end YieldCalls
end Ggmk

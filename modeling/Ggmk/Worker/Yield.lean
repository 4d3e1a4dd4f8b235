import Ggmk.Boot

/-! Handlers that yield: what becomes of the task when the yield fails, and of its payload
when the handler then returns `GMK_OK`. -/
namespace Ggmk

/-! ## Yield -/

/-- The two entry points for handlers. -/
inductive YieldCall where
  | plain
  | at (phase : UInt32)

/-- The task that the entry point hands to `_gmk_yield`. -/
def YieldCall.prepare : YieldCall → Task → Task
  | .plain, t => t
  | .at phase, t => { t with meta0 := phase.toUInt64 }

def YieldCall.run (call : YieldCall) (s : Sched) (t : Task) (w : ℤ) : Task × Sched :=
  match call with
  | .plain => gmkYieldImpl s t w
  | .at phase => gmkYieldAtImpl s t w phase

theorem YieldCall.run_eq (call : YieldCall) (s : Sched) (t : Task) (w : ℤ) :
    call.run s t w = (gmkYield s (call.prepare t) w gmkDefaultMaxYields).2 := by
  cases call <;> rfl

/-- The copy of the task that a yield queues. -/
def yielded (t : Task) : Task := { t with yieldCount := t.yieldCount + 1 }

/-- What a yield of worker `w` with the default limit can do. -/
inductive YieldCase (s : Sched) (t : Task) (w : ℕ) : ℤ × Task × Sched → Prop
  | toLq (lq : Lq) (hlim : (yielded t).yieldCount.toNat ≤ gmkDefaultMaxYields)
      (hpush : gmkLqPushYield (s.lqs w) (yielded t) = some lq) :
      YieldCase s t w (0, yielded t, { s with lqs := Function.update s.lqs w lq })
  | toOverflow (q : MpmcQueue Task) (hlim : (yielded t).yieldCount.toNat ≤ gmkDefaultMaxYields)
      (hfull : (s.lqs w).items.length = (s.lqs w).ring.cap)
      (hpush : s.overflow.push (yielded t) = some q) :
      YieldCase s t w (0, yielded t, { s with overflow := q })
  | limit (hlim : gmkDefaultMaxYields < (yielded t).yieldCount.toNat) :
      YieldCase s t w (gmkFail gmkErrYieldLimit, yielded t, s)
  | overloaded (hfull : (s.lqs w).items.length = (s.lqs w).ring.cap)
      (hover : s.overflow.items.length = s.overflow.cap) :
      YieldCase s t w (gmkFail gmkErrYieldOverflow, yielded t, s)

theorem gmkYield_cases (s : Sched) (t : Task) {w : ℕ} (hw : w < s.nWorkers) :
    YieldCase s t w (gmkYield s t w gmkDefaultMaxYields) := by
  have hin : 0 ≤ (w : ℤ) ∧ (w : ℤ).toNat < s.nWorkers := by
    rw [Int.toNat_natCast]
    exact ⟨Int.natCast_nonneg w, hw⟩
  have hmax : (if gmkDefaultMaxYields = 0 then gmkDefaultMaxYields else gmkDefaultMaxYields) =
      gmkDefaultMaxYields := ite_self _
  unfold gmkYield
  simp only [hmax]
  by_cases hlim : gmkDefaultMaxYields < (yielded t).yieldCount.toNat
  · have hlim' : gmkDefaultMaxYields < (t.yieldCount + 1).toNat := hlim
    rw [if_pos hlim']
    exact .limit hlim
  · have hlim' : ¬ gmkDefaultMaxYields < (t.yieldCount + 1).toNat := hlim
    rw [if_neg hlim', if_pos hin, Int.toNat_natCast]
    cases hl : gmkLqPushYield (s.lqs w) (yielded t) with
    | some lq =>
      unfold yielded at hl
      simp only [hl]
      exact .toLq lq (not_lt.mp hlim) hl
    | none =>
      have hfull := (gmkLqPushYield_eq_none_iff _ _).mp hl
      unfold yielded at hl
      simp only [hl]
      cases ho : s.overflow.push (yielded t) with
      | some q =>
        unfold yielded at ho
        simp only [ho]
        exact .toOverflow q (not_lt.mp hlim) hfull ho
      | none =>
        have hover := (MpmcQueue.push_eq_none_iff _ _).mp ho
        unfold yielded at ho
        simp only [ho]
        exact .overloaded hfull hover

/-- The state before the call lets the yield succeed. -/
def YieldFits (s : Sched) (w : ℕ) (t : Task) : Prop :=
  (t.yieldCount + 1).toNat ≤ gmkDefaultMaxYields ∧
    ((s.lqs w).items.length < (s.lqs w).ring.cap ∨ s.overflow.items.length < s.overflow.cap)

theorem gmkYield_ok_iff (s : Sched) (t : Task) {w : ℕ} (hw : w < s.nWorkers) :
    (gmkYield s t w gmkDefaultMaxYields).1 = 0 ↔ YieldFits s w t := by
  have hc := gmkYield_cases s t hw
  generalize gmkYield s t w gmkDefaultMaxYields = r at hc ⊢
  unfold YieldFits
  cases hc with
  | toLq lq hlim hpush => exact iff_of_true rfl ⟨hlim, Or.inl (gmkLqPushYield_some hpush).2.2⟩
  | toOverflow q hlim hfull hpush =>
    exact iff_of_true rfl ⟨hlim, Or.inr (MpmcQueue.push_some hpush).2.2⟩
  | limit hlim =>
    have hlim' : gmkDefaultMaxYields < (t.yieldCount + 1).toNat := hlim
    exact iff_of_false (by simp [gmkFail, gmkErrYieldLimit]) (fun h => by omega)
  | overloaded hfull hover =>
    exact iff_of_false (by simp [gmkFail, gmkErrYieldOverflow]) (fun h => by omega)

theorem gmkYield_task (s : Sched) (t : Task) {w : ℕ} (hw : w < s.nWorkers) :
    (gmkYield s t w gmkDefaultMaxYields).2.1 = yielded t := by
  have hc := gmkYield_cases s t hw
  generalize gmkYield s t w gmkDefaultMaxYields = r at hc ⊢
  cases hc <;> rfl

/-- How often `t` stands in the worker's local queue and the overflow bucket. -/
def residents (s : Sched) (w : ℕ) (t : Task) : ℕ :=
  (s.lqs w).items.count t + s.overflow.items.count t

/-- A successful yield queues one copy, a failed one none. -/
theorem gmkYield_residents (s : Sched) (t : Task) {w : ℕ} (hw : w < s.nWorkers) :
    residents (gmkYield s t w gmkDefaultMaxYields).2.2 w (yielded t) =
      residents s w (yielded t) +
        if (gmkYield s t w gmkDefaultMaxYields).1 = 0 then 1 else 0 := by
  have hc := gmkYield_cases s t hw
  generalize gmkYield s t w gmkDefaultMaxYields = r at hc ⊢
  cases hc with
  | toLq lq hlim hpush =>
    simp only [residents, Function.update_self, (gmkLqPushYield_some hpush).1, List.count_append,
      List.count_singleton_self, if_true]
    omega
  | toOverflow q hlim hfull hpush =>
    simp only [residents, (MpmcQueue.push_some hpush).1, List.count_append,
      List.count_singleton_self, if_true]
    omega
  | limit hlim => simp [gmkFail, gmkErrYieldLimit]
  | overloaded hfull hover => simp [gmkFail, gmkErrYieldOverflow]

/-! ## Handlers -/

/-- A handler that works on its task, yields and returns `GMK_OK`. -/
def yieldHandler (work : Task → Task) (call : YieldCall) : HandlerFn := fun ctx k =>
  let (task, sched) := call.run k.sched (work ctx.task) ctx.workerId
  (gmkOk, task, { k with sched := sched })

/-! ## A failed yield leaves no trace -/

/-- The dispatch of `t` either leaves one more copy `y` of it in the worker's local queue
or the overflow bucket, or is visible in a fail count, in the failure metric or in the
dead-letter ring. -/
def YieldNoticed (code : ℕ → HandlerFn) (k : Kernel) (w : ℕ) (t y : Task) : Prop :=
  let k' := workerDispatchTask code k w t
  residents k.sched w y < residents k'.sched w y ∨
    k'.modules.failCounts y.type.toNat ≠ k.modules.failCounts y.type.toNat ∨
    k'.metrics.global gmkMetricTasksFailed ≠ k.metrics.global gmkMetricTasksFailed ∨
    (k.chan.channels gmkChanSysDropped).ring.items.count y <
      (k'.chan.channels gmkChanSysDropped).ring.items.count y

theorem called_yieldHandler (work : Task → Task) (call : YieldCall) (k : Kernel) (w : ℕ)
    (t : Task) : called (yieldHandler work call) k w t =
      (gmkOk, (gmkYield k.sched (call.prepare (work t)) w gmkDefaultMaxYields).2.1,
        { handlerStart k t with
          sched := (gmkYield k.sched (call.prepare (work t)) w gmkDefaultMaxYields).2.2 }) := by
  simp only [called, yieldHandler, YieldCall.run_eq]
  rfl

theorem handlerStart_failed (k : Kernel) (t : Task) :
    (handlerStart k t).metrics.global gmkMetricTasksFailed =
      k.metrics.global gmkMetricTasksFailed := by
  rw [handlerStart, Kernel.traceWrite_metrics, Kernel.metricInc_global _ _ (by decide),
    Function.update_of_ne (by decide)]

/-- Only a successful yield is noticed. -/
theorem yieldNoticed_iff_ok {code : ℕ → HandlerFn} {k : Kernel} {w : ℕ}
    (hw : w < k.sched.nWorkers) {t : Task} {work : Task → Task} {call : YieldCall}
    (ha : Acts code k w t (yieldHandler work call)) :
    YieldNoticed code k w t (yielded (call.prepare (work t))) ↔
      (gmkYield k.sched (call.prepare (work t)) w gmkDefaultMaxYields).1 = 0 := by
  have hcalled := called_yieldHandler work call k w t
  obtain ⟨hs, hm, hmet, hch, -⟩ := workerDispatchTask_ok ha (by rw [hcalled])
  have hres := gmkYield_residents k.sched (call.prepare (work t)) hw
  rw [hcalled] at hs hm hmet hch
  simp only at hs hm hmet hch
  unfold YieldNoticed
  simp only [hs, hm, hmet, hch, hres, handlerStart_failed]
  simp only [handlerStart, Kernel.traceWrite_modules, Kernel.metricInc_modules,
    Kernel.traceWrite_chan, Kernel.metricInc_chan, ne_eq, not_true_eq_false, lt_irrefl, or_false]
  split <;> simp_all

/-- A yielding handler that returns `GMK_OK` is noticed if and only if its yield is within
the limit and finds room; otherwise the task is silently gone. -/
theorem yield_noticed_iff {code : ℕ → HandlerFn} {k : Kernel} {w : ℕ} (hw : w < k.sched.nWorkers)
    {t : Task} {work : Task → Task} {call : YieldCall}
    (ha : Acts code k w t (yieldHandler work call)) :
    YieldNoticed code k w t (yielded (call.prepare (work t))) ↔
      YieldFits k.sched w (call.prepare (work t)) := by
  rw [yieldNoticed_iff_ok hw ha, gmkYield_ok_iff k.sched _ hw]

def yieldCode : ℕ → HandlerFn := fun _ => yieldHandler id .plain

/-- A first yield with an empty local queue is noticed. -/
theorem yield_noticed_first : YieldNoticed yieldCode tinyKernel 0 default (yielded default) :=
  (yield_noticed_iff tinyKernel_worker (tiny_acts tinyKernel_modules yieldCode 0 rfl)).mpr
    ⟨by decide, Or.inl (by rw [tinyKernel_sched]; decide)⟩

/-- The seventeenth yield of a task is not. -/
theorem yield_limit_unnoticed : ¬ ∀ code k w t work call, w < k.sched.nWorkers →
    Acts code k w t (yieldHandler work call) →
      YieldNoticed code k w t (yielded (call.prepare (work t))) := by
  intro h
  have hacts := tiny_acts tinyKernel_modules yieldCode 0
    (rfl : ({ yieldCount := 16 } : Task).type = 0)
  have hn := h yieldCode tinyKernel 0 { yieldCount := 16 } id .plain tinyKernel_worker hacts
  rw [yieldNoticed_iff_ok tinyKernel_worker hacts, gmkYield_ok_iff _ _ tinyKernel_worker] at hn
  exact absurd hn.1 (by decide)

end Ggmk

import Ggmk.Worker.Yield

/-! The payload of a task over all dispatches of a multi-phase handler. Every dispatch that
ends in `GMK_OK` releases the payload, also when the task has been queued again. -/
namespace Ggmk
open Heap

/-- The phases of one task with payload `p`: `n` dispatches that yield successfully and a
last one that does not. Between two dispatches anything may happen that leaves the count
of the payload alone. -/
structure PhaseRun (code : ℕ → HandlerFn) (n p : ℕ) where
  kernel : ℕ → Kernel
  worker : ℕ → ℕ
  task : ℕ → Task
  worker_lt : ∀ i ≤ n, worker i < (kernel i).sched.nWorkers
  payload : ∀ i ≤ n, (task i).hasRc = true ∧ (task i).payloadPtr.toNat = p
  yields : ∀ i < n, ∃ work call,
    Acts code (kernel i) (worker i) (task i) (yieldHandler work call) ∧
    (gmkYield (kernel i).sched (call.prepare (work (task i))) (worker i) gmkDefaultMaxYields).1 = 0 ∧
    task (i + 1) = yielded (call.prepare (work (task i)))
  finishes : ∃ f, Acts code (kernel n) (worker n) (task n) f ∧
    ∀ ctx k, (f ctx k).1 = gmkOk ∧ (f ctx k).2.2.heap = k.heap ∧
      (f ctx k).2.1.hasRc = ctx.task.hasRc ∧ (f ctx k).2.1.payloadPtr = ctx.task.payloadPtr
  quiet : ∀ i < n, (kernel (i + 1)).heap.refcount p =
    (workerDispatchTask code (kernel i) (worker i) (task i)).heap.refcount p

namespace PhaseRun
variable {code : ℕ → HandlerFn} {n p : ℕ} (r : PhaseRun code n p)

/-- The count when dispatch `i` begins. -/
def before (i : ℕ) : ℕ := (r.kernel i).heap.refcount p

/-- The count when dispatch `i` is done. -/
def after (i : ℕ) : ℕ :=
  (workerDispatchTask code (r.kernel i) (r.worker i) (r.task i)).heap.refcount p

/-- No dispatch frees the payload of the copy that it has queued, and one dispatch of the
run brings the count to zero. -/
def KeepsPayload : Prop := (∀ i < n, r.after i ≠ 0) ∧ ∃! i, i ≤ n ∧ r.after i = 0

end PhaseRun

/-- A release subtracts one on 32 bits. -/
theorem refcount_release (h : Heap) {p : ℕ} (hp : p ≠ 0) (h1 : 1 ≤ h.refcount p) :
    (gmkPayloadRelease h p).2.refcount p = h.refcount p - 1 := by
  have hle : (1 : UInt32) ≤ (h.headers (p - sizeofPayloadHdr)).refcount := by
    rw [UInt32.le_iff_toNat_le]
    exact h1
  have hset : (h.setRefcount (p - sizeofPayloadHdr)
      ((h.headers (p - sizeofPayloadHdr)).refcount - 1)).refcount p = h.refcount p - 1 := by
    rw [refcount_setRefcount_self, UInt32.toNat_sub_of_le _ _ hle]
    rfl
  rw [gmkPayloadRelease, if_neg hp]
  simp only
  split <;> exact hset

theorem Task.ptr_ne_zero {t : Task} (h : t.hasRc = true) : t.payloadPtr.toNat ≠ 0 := by
  intro he
  have hz : t.payloadPtr = 0 := UInt64.toNat.inj he
  simp [Task.hasRc, hz] at h

namespace PhaseRun
variable {code : ℕ → HandlerFn} {n p : ℕ} (r : PhaseRun code n p)

include r in
theorem ptr_ne_zero : p ≠ 0 := by
  obtain ⟨hrc, hp⟩ := r.payload 0 (Nat.zero_le n)
  exact hp ▸ Task.ptr_ne_zero hrc

/-- Every dispatch of the run releases the payload once. -/
theorem after_heap {i : ℕ} (hi : i ≤ n) :
    (workerDispatchTask code (r.kernel i) (r.worker i) (r.task i)).heap =
      (gmkPayloadRelease (r.kernel i).heap p).2 := by
  rcases hi.lt_or_eq with hlt | rfl
  · obtain ⟨work, call, ha, -, hnext⟩ := r.yields i hlt
    obtain ⟨hrc, hp⟩ := r.payload (i + 1) hlt
    have hcalled := called_yieldHandler work call (r.kernel i) (r.worker i) (r.task i)
    obtain ⟨-, -, -, -, hheap⟩ := workerDispatchTask_ok ha (by rw [hcalled])
    rw [hcalled] at hheap
    simp only [gmkYield_task _ _ (r.worker_lt i hi), ← hnext, hrc, hp, if_true] at hheap
    exact hheap
  · obtain ⟨f, ha, hf⟩ := r.finishes
    obtain ⟨hrc, hp⟩ := r.payload i le_rfl
    obtain ⟨hok, hkeep, hrc', hptr⟩ := hf ⟨r.task i, r.worker i, (r.kernel i).clock.workerTick
      (r.worker i)⟩ (handlerStart (r.kernel i) (r.task i))
    obtain ⟨-, -, -, -, hheap⟩ := workerDispatchTask_ok ha hok
    rw [hheap, called, hrc', hptr, hkeep]
    simp only [hrc, hp, if_true]
    rfl

theorem after_eq {i : ℕ} (hi : i ≤ n) (h1 : 1 ≤ r.before i) : r.after i = r.before i - 1 := by
  rw [after, r.after_heap hi]
  exact refcount_release _ r.ptr_ne_zero h1

/-- The count falls by one with every dispatch until it reaches zero. -/
theorem before_eq {i : ℕ} (hi : i ≤ n) (hlt : i < r.before 0) : r.before i = r.before 0 - i := by
  induction i with
  | zero => rfl
  | succ i ih =>
    have hb := ih (by omega) (by omega)
    have hafter := r.after_eq (show i ≤ n by omega) (by omega)
    have hq : r.before (i + 1) = r.after i := r.quiet i (by omega)
    omega

theorem after_of_lt {i : ℕ} (hi : i ≤ n) (hlt : i < r.before 0) :
    r.after i = r.before 0 - i - 1 := by
  have hb := r.before_eq hi hlt
  have ha := r.after_eq hi (by omega)
  omega

theorem keepsPayload_imp (hpos : 0 < r.before 0) (h : r.KeepsPayload) : r.before 0 = n + 1 := by
  obtain ⟨halive, i, ⟨hi, hzero⟩, -⟩ := h
  by_contra hne
  rcases Nat.lt_or_gt_of_ne hne with hlt | hgt
  · -- the count runs out before the last phase
    apply halive (r.before 0 - 1) (by omega)
    rw [r.after_of_lt (by omega) (by omega)]
    omega
  · rw [r.after_of_lt hi (by omega)] at hzero
    omega

theorem keepsPayload_of_eq (h : r.before 0 = n + 1) : r.KeepsPayload := by
  refine ⟨?_, n, ⟨le_rfl, ?_⟩, ?_⟩
  · intro i hi
    rw [r.after_of_lt hi.le (by omega)]
    omega
  · rw [r.after_of_lt le_rfl (by omega)]
    omega
  · rintro i ⟨hi, hzero⟩
    rw [r.after_of_lt hi (by omega)] at hzero
    omega

/-- A handler with two phases. -/
def twoPhases : ℕ → HandlerFn := fun _ ctx k =>
  if ctx.task.meta0 = 0 then yieldHandler id (.at 1) ctx k else (gmkOk, ctx.task, k)

def phaseTask : Task := { flags := gmkTfPayloadRc, payloadPtr := 72 }

def phaseNext : Task := yielded ((YieldCall.at 1).prepare phaseTask)

/-- The first payload of the arena, with count `c`. -/
def phaseKernel (c : UInt32) : Kernel :=
  { tinyKernel with heap := (gmkPayloadAlloc tinyKernel.heap 40).2.setRefcount 64 c }

theorem phase_acts (c : UInt32) :
    Acts twoPhases (phaseKernel c) 0 phaseTask (yieldHandler id (.at 1)) :=
  tiny_acts tinyKernel_modules twoPhases 0 rfl

theorem phase_sched (c : UInt32) : (phaseKernel c).sched = gmkSchedInit 1 := tinyKernel_sched

/-- The first dispatch leaves the module registry alone. -/
theorem phase_modules (c : UInt32) :
    (workerDispatchTask twoPhases (phaseKernel c) 0 phaseTask).modules =
      gmkModuleRegInit tinyCfg.dispatch := by
  rw [(workerDispatchTask_ok (phase_acts c) (by rw [called_yieldHandler])).2.1,
    called_yieldHandler]
  simp only [handlerStart, Kernel.traceWrite_modules, Kernel.metricInc_modules, phaseKernel]
  exact tinyKernel_modules

theorem phase_nWorkers (c : UInt32) :
    (workerDispatchTask twoPhases (phaseKernel c) 0 phaseTask).sched.nWorkers = 1 := by
  rw [(workerDispatchTask_ok (phase_acts c) (by rw [called_yieldHandler])).1,
    called_yieldHandler]
  simp only [id, phase_sched]
  rfl

/-- The two dispatches of one task whose payload starts with count `c`. -/
def twoPhaseRun (c : UInt32) : PhaseRun twoPhases 1 72 where
  kernel i := if i = 0 then phaseKernel c
    else workerDispatchTask twoPhases (phaseKernel c) 0 phaseTask
  worker _ := 0
  task i := if i = 0 then phaseTask else phaseNext
  worker_lt i hi := by
    split
    · rw [phase_sched]
      exact Nat.one_pos
    · rw [phase_nWorkers]
      exact Nat.one_pos
  payload i hi := by
    split <;> decide
  yields i hi := by
    obtain rfl : i = 0 := by omega
    refine ⟨id, .at 1, phase_acts c, ?_, rfl⟩
    simp only [if_true, phase_sched]
    rfl
  finishes := by
    refine ⟨fun ctx k => (gmkOk, ctx.task, k), ⟨by decide, ?_, 0, ?_, fun _ => rfl⟩,
      fun _ _ => ⟨rfl, rfl, rfl, rfl⟩⟩
    · simp only [one_ne_zero, if_false, phase_modules]
      rfl
    · simp only [one_ne_zero, if_false, phase_modules]
      rfl
  quiet i hi := by
    obtain rfl : i = 0 := by omega
    simp only [zero_add, one_ne_zero, if_false, if_true]

theorem twoPhaseRun_before (c : UInt32) : (twoPhaseRun c).before 0 = c.toNat :=
  refcount_setRefcount_self _ 72 c

end PhaseRun
end Ggmk

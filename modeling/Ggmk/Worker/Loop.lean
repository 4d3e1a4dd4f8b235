import Ggmk.Kernel

/-! The worker of `worker.c`: `worker_dispatch_task` and one iteration of
`gmk_worker_loop`. -/
namespace Ggmk

/-- What the worker does once the handler has returned `rc` and left `task`. -/
def dispatchOutcome (k : Kernel) (w : ℕ) (task : Task) (rc : ℤ) : Kernel :=
  if rc = gmkOk then
    let k := { k with
      tasksDispatched := Function.update k.tasksDispatched w (k.tasksDispatched w + 1) }
    if task.hasRc then k.release task.payloadPtr.toNat else k
  else if rc = gmkRetry then
    -- the result of the enqueue is ignored
    let (_, task, sched) := gmkEnqueue k.sched task (-1)
    { k with sched := sched }.metricInc task.tenant gmkMetricTasksRetried
  else
    let k := gmkModuleRecordFail k task.type
    let k := if task.hasRc then k.release task.payloadPtr.toNat else k
    k.metricInc task.tenant gmkMetricTasksFailed

def workerDispatchTask (code : ℕ → HandlerFn) (k : Kernel) (w : ℕ) (task : Task) : Kernel :=
  let ctx : Ctx := ⟨task, w, k.clock.workerTick w⟩
  let k := k.metricInc task.tenant gmkMetricTasksDispatched
  let (rc, task, k) := gmkModuleDispatch code k ctx
  dispatchOutcome k w task rc

/-- The three pop sources in their order. -/
def popWork (s : Sched) (w : ℕ) : Option Task × Sched :=
  match gmkLqPop (s.lqs w) with
  | some (task, lq) => (some task, { s with lqs := Function.update s.lqs w lq })
  | none =>
      match s.overflow.pop with
      | some (task, q) => (some task, { s with overflow := q })
      | none =>
          let (task, rq) := gmkRqPop s.rq
          (task, { s with rq := rq })

/-- At most `n` rounds of the event loop; the count of drained events and the scheduler. -/
def evqDrain (w : ℕ) (tick : UInt32) : ℕ → Sched → ℕ × Sched
  | 0, s => (0, s)
  | n + 1, s =>
      match gmkEvqPopDue s.evq tick with
      | none => (0, s)
      | some (task, evq) =>
          let (_, _, s) := gmkEnqueue { s with evq := evq } task w
          let (drained, s) := evqDrain w tick n s
          (drained + 1, s)

/-- One iteration of the loop of a running worker. -/
def gmkWorkerIteration (code : ℕ → HandlerFn) (k : Kernel) (w : ℕ) : Kernel :=
  let (work, sched) := popWork k.sched w
  let k := { k with sched := sched }
  match work with
  | some task =>
      workerDispatchTask code (k.metricInc task.tenant gmkMetricTasksDequeued) w task
  | none =>
      let (drained, sched) := evqDrain w (k.clock.workerTick w) gmkEvqDrainLimit k.sched
      let k := { k with sched := sched }
      if 0 < drained then k
      else
        let k := k.metricInc 0 gmkMetricWorkerParks
        let k := k.traceWrite 0 gmkEvWorkerPark 0 (UInt32.ofNat w) 0
        k.metricInc 0 gmkMetricWorkerWakes

/-! ## Specifications -/

/-- The handler call of a dispatch, with the dispatch counter already moved. -/
def handlerCall (code : ℕ → HandlerFn) (k : Kernel) (w : ℕ) (task : Task) : ℤ × Task × Kernel :=
  gmkModuleDispatch code (k.metricInc task.tenant gmkMetricTasksDispatched)
    ⟨task, w, k.clock.workerTick w⟩

theorem workerDispatchTask_eq (code : ℕ → HandlerFn) (k : Kernel) (w : ℕ) (task : Task) :
    workerDispatchTask code k w task =
      dispatchOutcome (handlerCall code k w task).2.2 w (handlerCall code k w task).2.1
        (handlerCall code k w task).1 := rfl

/-- Dispatching `t` on worker `w` calls a registered handler that behaves as `f` there. -/
def Acts (code : ℕ → HandlerFn) (k : Kernel) (w : ℕ) (t : Task) (f : HandlerFn) : Prop :=
  t.type.toNat < gmkMaxHandlers ∧ k.modules.poisoned t.type.toNat = false ∧
    ∃ h, k.modules.dispatch t.type.toNat = some h ∧
      ∀ k', code h ⟨t, w, k.clock.workerTick w⟩ k' = f ⟨t, w, k.clock.workerTick w⟩ k'

/-- The kernel in which the handler starts. -/
def handlerStart (k : Kernel) (t : Task) : Kernel :=
  (k.metricInc t.tenant gmkMetricTasksDispatched).traceWrite t.tenant gmkEvTaskStart
    t.type.toUInt16 t.seq 0

/-- What `f` makes of its call. -/
def called (f : HandlerFn) (k : Kernel) (w : ℕ) (t : Task) : ℤ × Task × Kernel :=
  f ⟨t, w, k.clock.workerTick w⟩ (handlerStart k t)

theorem handlerCall_of_acts {code : ℕ → HandlerFn} {k : Kernel} {w : ℕ} {t : Task} {f : HandlerFn}
    (h : Acts code k w t f) : handlerCall code k w t =
      ((called f k w t).1, (called f k w t).2.1, (called f k w t).2.2.traceWrite
        (called f k w t).2.1.tenant gmkEvTaskEnd t.type.toUInt16 (called f k w t).2.1.seq
        (rcBits (called f k w t).1)) := by
  obtain ⟨htype, hpoison, addr, hdisp, hf⟩ := h
  have hlookup : (if gmkMaxHandlers ≤ t.type.toNat then none
      else k.modules.dispatch t.type.toNat) = some addr := by
    rw [if_neg (not_le.mpr htype), hdisp]
  simp only [handlerCall, gmkModuleDispatch, Kernel.metricInc_modules, hlookup, hpoison,
    Bool.false_eq_true, if_false, hf]
  rfl

theorem dispatchOutcome_ok (k : Kernel) (w : ℕ) (t : Task) : dispatchOutcome k w t gmkOk =
    { k with
      tasksDispatched := Function.update k.tasksDispatched w (k.tasksDispatched w + 1)
      heap := if t.hasRc then (gmkPayloadRelease k.heap t.payloadPtr.toNat).2 else k.heap } := by
  rw [dispatchOutcome, if_pos rfl]
  cases ht : t.hasRc <;> simp [Kernel.release]

/-- After a handler that returned `GMK_OK` the worker only counts and releases. -/
theorem workerDispatchTask_ok {code : ℕ → HandlerFn} {k : Kernel} {w : ℕ} {t : Task}
    {f : HandlerFn} (h : Acts code k w t f) (hok : (called f k w t).1 = gmkOk) :
    (workerDispatchTask code k w t).sched = (called f k w t).2.2.sched ∧
    (workerDispatchTask code k w t).modules = (called f k w t).2.2.modules ∧
    (workerDispatchTask code k w t).metrics = (called f k w t).2.2.metrics ∧
    (workerDispatchTask code k w t).chan = (called f k w t).2.2.chan ∧
    (workerDispatchTask code k w t).heap =
      if (called f k w t).2.1.hasRc then
        (gmkPayloadRelease (called f k w t).2.2.heap (called f k w t).2.1.payloadPtr.toNat).2
      else (called f k w t).2.2.heap := by
  rw [workerDispatchTask_eq, handlerCall_of_acts h, hok, dispatchOutcome_ok]
  exact ⟨rfl, rfl, rfl, rfl, rfl⟩

/-- A handler table whose handlers leave the scheduler alone. -/
def Quiet (code : ℕ → HandlerFn) : Prop := ∀ h ctx k, (code h ctx k).2.2.sched = k.sched

theorem handlerCall_sched {code : ℕ → HandlerFn} (hq : Quiet code) (k : Kernel) (w : ℕ)
    (task : Task) : (handlerCall code k w task).2.2.sched = k.sched := by
  unfold handlerCall gmkModuleDispatch
  simp only
  split
  · rfl
  · split
    · rfl
    · exact hq _ _ _

/-- Only a retry touches the scheduler. -/
theorem dispatchOutcome_sched (k : Kernel) (w : ℕ) (task : Task) (rc : ℤ) :
    (dispatchOutcome k w task rc).sched =
      if rc = gmkRetry then (gmkEnqueue k.sched task (-1)).2.2 else k.sched := by
  unfold dispatchOutcome
  by_cases hok : rc = gmkOk
  · have hr : rc ≠ gmkRetry := by
      rw [hok]
      decide
    rw [if_pos hok, if_neg hr]
    simp only
    split <;> rfl
  · rw [if_neg hok]
    by_cases hr : rc = gmkRetry
    · rw [if_pos hr, if_pos hr]
      rfl
    · rw [if_neg hr, if_neg hr]
      simp only [Kernel.metricInc_sched]
      split <;> simp

/-- A pop takes its task from one of the queues. -/
theorem popWork_ready {s s' : Sched} {w : ℕ} {t : Task} (hw : w < s.nWorkers)
    (h : popWork s w = (some t, s')) :
    s.readyTasks = t ::ₘ s'.readyTasks ∧ s'.evq = s.evq ∧ s'.nWorkers = s.nWorkers := by
  unfold popWork at h
  split at h
  next t' lq hl =>
    obtain ⟨ht, rfl⟩ := Prod.mk.inj h
    obtain rfl := Option.some.inj ht
    refine ⟨?_, rfl, rfl⟩
    simp only [Sched.readyTasks]
    rw [Sched.lqTasks_pop hw (gmkLqPop_some hl).1]
    simp only [Multiset.cons_add]
  next =>
    split at h
    next t' q hq =>
      obtain ⟨ht, rfl⟩ := Prod.mk.inj h
      obtain rfl := Option.some.inj ht
      refine ⟨?_, rfl, rfl⟩
      simp only [Sched.readyTasks, (MpmcQueue.pop_some hq).1]
      rw [← Multiset.cons_coe, Multiset.add_cons]
      rfl
    next =>
      simp only at h
      obtain ⟨ht, rfl⟩ := Prod.mk.inj h
      refine ⟨?_, rfl, rfl⟩
      have hrq := gmkRqPop_tasks (Prod.ext ht rfl : gmkRqPop s.rq = (some t, (gmkRqPop s.rq).2))
      simp only [Sched.readyTasks, hrq, Multiset.add_cons, Multiset.cons_add]
      rfl

theorem popWork_some {s s' : Sched} {w : ℕ} {t : Task} (hw : w < s.nWorkers)
    (h : popWork s w = (some t, s')) :
    s.tasks = t ::ₘ s'.tasks ∧ s'.nWorkers = s.nWorkers := by
  obtain ⟨hready, hevq, hn⟩ := popWork_ready hw h
  rw [Sched.tasks, Sched.tasks, hready, hevq, Multiset.cons_add]
  exact ⟨rfl, hn⟩

/-- A worker takes the tasks of its local queue first. -/
theorem popWork_of_lq {s : Sched} {w : ℕ} {t : Task} {l : List Task}
    (h : (s.lqs w).items = t :: l) : ∃ s', popWork s w = (some t, s') := by
  unfold popWork
  cases hp : gmkLqPop (s.lqs w) with
  | none =>
    rw [gmkLqPop_eq_none_iff, h] at hp
    simp at hp
  | some p =>
    obtain ⟨u, lq⟩ := p
    have hitems := (gmkLqPop_some hp).1
    rw [h] at hitems
    obtain ⟨rfl, -⟩ := List.cons.inj hitems
    exact ⟨_, rfl⟩

/-- An empty-handed pop only resets the weights of the ready queue. -/
theorem popWork_none {s s' : Sched} {w : ℕ} (h : popWork s w = (none, s')) :
    s' = { s with rq := s'.rq } ∧ s'.rq.queues = s.rq.queues := by
  unfold popWork at h
  split at h
  next => simp at h
  next =>
    split at h
    next => simp at h
    next =>
      simp only at h
      obtain ⟨ht, rfl⟩ := Prod.mk.inj h
      exact ⟨rfl, (gmkRqPop_none (Prod.ext ht rfl : gmkRqPop s.rq = (none, (gmkRqPop s.rq).2))).1⟩

end Ggmk

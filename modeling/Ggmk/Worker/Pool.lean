import Ggmk.Worker.Conservation
import Ggmk.Worker.Yield

/-! The worker pool of `worker.c`: any number of workers in `gmk_worker_loop`, the thread that starts
and stops them, and other threads that submit tasks and events. A step is one operation of a queue,
one atomic access, or what one call of a handler does to the queues; the steps of all threads come in
any order. -/
namespace Ggmk

/-- Where a worker is in its loop. -/
inductive LoopPc
  | absent
  | top
  | popLq
  | popOverflow
  | popRq
  | dequeued (t : Task)
  | dispatch (t : Task)
  | lookup (t : Task)
  | handler (t : Task)
  | returned (t : Task) (rc : ℤ)
  | retried (t : Task)
  | failAdd (t : Task)
  | failTest (t : Task) (count : UInt32)
  | failRelease (t : Task)
  | failed (t : Task)
  | loadTick
  | evqPop (drained : ℕ) (tick : UInt32)
  | evqEnqueue (drained : ℕ) (tick : UInt32) (t : Task)
  | park
  | parkCount
  | parkLoad
  | parkWait
  | unpark
  | wakeCount
  | exited

/-- Where the thread is that calls `gmk_worker_pool_start` and `gmk_worker_pool_stop`. -/
inductive ControlPc
  | create (i : ℕ)
  | rollback (i j : ℕ)
  | rollbackWake (i j : ℕ)
  | rollbackJoin (i j : ℕ)
  | failed
  | started
  | clear (i : ℕ)
  | wake (i : ℕ)
  | join (i : ℕ)
  | stopped

/-- What a handler does next with its task `t`: `_gmk_enqueue`, a yield, `gmk_evq_push`, something
that does not touch the scheduler, or its return. -/
inductive HandlerAct
  | enqueue (t : Task) (workerId : ℤ)
  | yield (call : YieldCall)
  | schedule (t : Task)
  | other (heap : Heap) (chan : ChanReg) (trace : Trace)
  | ret (rc : ℤ) (t : Task)

inductive PoolAct
  | worker (w : ℕ) (act : HandlerAct)
  /-- The answer of `gmk_hal_thread_create` counts where the step creates a thread. -/
  | control (created : Bool)
  | submit (t : Task)
  | schedule (t : Task)
  | clock (c : Clock)

/-- The kernel with its workers. As history: the tasks that a queue has accepted, those a worker has
looked a handler up for, and those lost between the event queue and the ready queues, all apart from
their sequence numbers; how often each worker has dispatched; and how many calls of handlers of each
type have failed. -/
structure Pool where
  kernel : Kernel
  running : ℕ → Bool
  parked : ℕ → Bool
  pc : ℕ → LoopPc
  control : ControlPc
  accepted : Multiset Task
  dispatched : Multiset Task
  dropped : Multiset Task
  dispatches : ℕ → ℕ
  failedRuns : ℕ → ℕ

namespace Pool

def init (k : Kernel) : Pool where
  kernel := k
  running _ := false
  parked _ := false
  pc _ := .absent
  control := .create 0
  accepted := k.sched.held
  dispatched := 0
  dropped := 0
  dispatches _ := 0
  failedRuns _ := 0

def goto (p : Pool) (w : ℕ) (pc : LoopPc) : Pool := { p with pc := Function.update p.pc w pc }

def setSched (p : Pool) (s : Sched) : Pool := { p with kernel := { p.kernel with sched := s } }

/-- One of the calls of `gmk_metric_inc` of the loop. -/
def count (p : Pool) (tenant : UInt16) (metricId : ℕ) : Pool :=
  { p with kernel := p.kernel.metricInc tenant metricId }

/-- A call of `_gmk_enqueue` for a task that no queue has yet. -/
def offer (p : Pool) (t : Task) (workerId : ℤ) : Pool :=
  let (ok, _, sched) := gmkEnqueue p.kernel.sched t workerId
  { p.setSched sched with accepted := if ok then t.content ::ₘ p.accepted else p.accepted }

/-- A call of `gmk_evq_push`. -/
def schedule (p : Pool) (t : Task) : Pool :=
  match gmkEvqPush p.kernel.sched.evq t with
  | some evq => { p.setSched { p.kernel.sched with evq := evq } with
      accepted := t.content ::ₘ p.accepted }
  | none => p

/-- A call of `gmk_yield_impl` or `gmk_yield_at_impl` by the handler that worker `w` runs for `t`. -/
def yield (p : Pool) (w : ℕ) (t : Task) (call : YieldCall) : Pool :=
  let (rc, t', sched) := gmkYield p.kernel.sched (call.prepare t) w gmkDefaultMaxYields
  { (p.setSched sched).goto w (.handler t') with
    accepted := if rc = 0 then t'.content ::ₘ p.accepted else p.accepted }

def handlerStep (p : Pool) (w : ℕ) (t : Task) : HandlerAct → Pool
  | .enqueue t' workerId => p.offer t' workerId
  | .yield call => p.yield w t call
  | .schedule t' => p.schedule t'
  | .other heap chan trace =>
      { p with kernel := { p.kernel with heap := heap, chan := chan, trace := trace } }
  | .ret rc t' =>
      let kernel := p.kernel.traceWrite t'.tenant gmkEvTaskEnd t.type.toUInt16 t'.seq (rcBits rc)
      let failedRuns := if rc = gmkOk ∨ rc = gmkRetry then p.failedRuns
        else Function.update p.failedRuns t.type.toNat (p.failedRuns t.type.toNat + 1)
      { p.goto w (.returned t' rc) with
        kernel := kernel, failedRuns := failedRuns }

/-- `gmk_module_dispatch` up to the call of the handler. -/
def lookupStep (p : Pool) (w : ℕ) (t : Task) : Pool :=
  let p := { p with
    dispatched := t.content ::ₘ p.dispatched
    dispatches := Function.update p.dispatches w (p.dispatches w + 1) }
  match (if gmkMaxHandlers ≤ t.type.toNat then none
    else p.kernel.modules.dispatch t.type.toNat) with
  | none => p.goto w (.returned t (gmkFail gmkErrNotFound))
  | some _ =>
      if p.kernel.modules.poisoned t.type.toNat then
        { p.goto w (.returned t (gmkFail gmkErrPoisoned)) with
          kernel := p.kernel.traceWrite t.tenant gmkEvPoison t.type.toUInt16 t.type 0 }
      else
        { p.goto w (.handler t) with
          kernel := p.kernel.traceWrite t.tenant gmkEvTaskStart t.type.toUInt16 t.seq 0 }

/-- The branches of `worker_dispatch_task` on the return code. -/
def returnedStep (p : Pool) (w : ℕ) (t : Task) (rc : ℤ) : Pool :=
  if rc = gmkOk then { p.goto w .top with kernel := dispatchOutcome p.kernel w t gmkOk }
  else if rc = gmkRetry then (p.offer t (-1)).goto w (.retried t)
  else p.goto w (.failAdd t)

/-- The test of `gmk_module_record_fail`, after its `fetch_add` has made the count `count`. -/
def failTestStep (p : Pool) (w : ℕ) (t : Task) (count : UInt32) : Pool :=
  if gmkPoisonThreshold ≤ count.toNat ∧ p.kernel.modules.poisoned t.type.toNat = false then
    let k := { p.kernel with modules := { p.kernel.modules with
      poisoned := Function.update p.kernel.modules.poisoned t.type.toNat true } }
    { p.goto w (.failRelease t) with
      kernel := k.traceWrite 0 gmkEvPoison t.type.toUInt16 t.type count }
  else p.goto w (.failRelease t)

/-- The end of the event loop. -/
def evqEnd (p : Pool) (w drained : ℕ) : Pool := p.goto w (if 0 < drained then .top else .park)

def evqPopStep (p : Pool) (w drained : ℕ) (tick : UInt32) : Pool :=
  if drained < gmkEvqDrainLimit then
    match gmkEvqPopDue p.kernel.sched.evq tick with
    | some (t, evq) =>
        (p.setSched { p.kernel.sched with evq := evq }).goto w (.evqEnqueue (drained + 1) tick t)
    | none => p.evqEnd w drained
  else p.evqEnd w drained

/-- The result of this enqueue is ignored. -/
def evqEnqueueStep (p : Pool) (w drained : ℕ) (tick : UInt32) (t : Task) : Pool :=
  let (ok, _, sched) := gmkEnqueue p.kernel.sched t w
  { (p.setSched sched).goto w (.evqPop drained tick) with
    dropped := if ok then p.dropped else t.content ::ₘ p.dropped }

/-- The next step of worker `w`. -/
def workerStep (p : Pool) (w : ℕ) (act : HandlerAct) : Pool :=
  match p.pc w with
  | .absent => p
  | .top => p.goto w (if p.running w then .popLq else .exited)
  | .popLq =>
      match gmkLqPop (p.kernel.sched.lqs w) with
      | some (t, lq) =>
          (p.setSched { p.kernel.sched with
            lqs := Function.update p.kernel.sched.lqs w lq }).goto w (.dequeued t)
      | none => p.goto w .popOverflow
  | .popOverflow =>
      match p.kernel.sched.overflow.pop with
      | some (t, q) => (p.setSched { p.kernel.sched with overflow := q }).goto w (.dequeued t)
      | none => p.goto w .popRq
  | .popRq =>
      match gmkRqPop p.kernel.sched.rq with
      | (some t, rq) => (p.setSched { p.kernel.sched with rq := rq }).goto w (.dequeued t)
      | (none, rq) => (p.setSched { p.kernel.sched with rq := rq }).goto w .loadTick
  | .dequeued t => (p.count t.tenant gmkMetricTasksDequeued).goto w (.dispatch t)
  | .dispatch t => (p.count t.tenant gmkMetricTasksDispatched).goto w (.lookup t)
  | .lookup t => p.lookupStep w t
  | .handler t => p.handlerStep w t act
  | .returned t rc => p.returnedStep w t rc
  | .retried t => (p.count t.tenant gmkMetricTasksRetried).goto w .top
  | .failAdd t =>
      if gmkMaxHandlers ≤ t.type.toNat then p.goto w (.failRelease t)
      else
        let count := p.kernel.modules.failCounts t.type.toNat + 1
        { p.goto w (.failTest t count) with
          kernel := { p.kernel with modules := { p.kernel.modules with
            failCounts := Function.update p.kernel.modules.failCounts t.type.toNat count } } }
  | .failTest t count => p.failTestStep w t count
  | .failRelease t =>
      { p.goto w (.failed t) with
        kernel := if t.hasRc then p.kernel.release t.payloadPtr.toNat else p.kernel }
  | .failed t => (p.count t.tenant gmkMetricTasksFailed).goto w .top
  | .loadTick => p.goto w (.evqPop 0 (p.kernel.clock.workerTick w))
  | .evqPop drained tick => p.evqPopStep w drained tick
  | .evqEnqueue drained tick t => p.evqEnqueueStep w drained tick t
  | .park => { p.goto w .parkCount with parked := Function.update p.parked w true }
  | .parkCount =>
      { (p.count 0 gmkMetricWorkerParks).goto w .parkLoad with
        kernel := (p.kernel.metricInc 0 gmkMetricWorkerParks).traceWrite 0 gmkEvWorkerPark 0
          (UInt32.ofNat w) 0 }
  | .parkLoad => p.goto w (if p.running w then .parkWait else .unpark)
  -- a wake-up or the timeout of a millisecond
  | .parkWait => p.goto w .unpark
  | .unpark => { p.goto w .wakeCount with parked := Function.update p.parked w false }
  | .wakeCount => (p.count 0 gmkMetricWorkerWakes).goto w .top
  | .exited => p

/-- The next step of the thread that starts and stops the pool. A join waits for the end of the
worker's loop; a wake-up is the end of its wait, which may come at any time. -/
def controlStep (p : Pool) (created : Bool) : Pool :=
  match p.control with
  | .create i =>
      if i < p.kernel.sched.nWorkers then
        if created then
          { p.goto i .top with
            running := Function.update p.running i true, control := .create (i + 1) }
        else { p with running := Function.update p.running i true, control := .rollback i 0 }
      else { p with control := .started }
  | .rollback i j =>
      if j < i then
        { p with running := Function.update p.running j false, control := .rollbackWake i j }
      else { p with control := .failed }
  | .rollbackWake i j => { p with control := .rollbackJoin i j }
  | .rollbackJoin i j =>
      match p.pc j with
      | .exited => { p with control := .rollback i (j + 1) }
      | _ => p
  | .failed => p
  | .started => { p with control := .clear 0 }
  | .clear i =>
      if i < p.kernel.sched.nWorkers then
        { p with running := Function.update p.running i false, control := .clear (i + 1) }
      else { p with control := .wake 0 }
  | .wake i =>
      if i < p.kernel.sched.nWorkers then { p with control := .wake (i + 1) }
      else { p with control := .join 0 }
  | .join i =>
      if i < p.kernel.sched.nWorkers then
        match p.pc i with
        | .exited => { p with control := .join (i + 1) }
        | _ => p
      else { p with control := .stopped }
  | .stopped => p

def step (p : Pool) : PoolAct → Pool
  | .worker w act => p.workerStep w act
  | .control created => p.controlStep created
  | .submit t => p.offer t (-1)
  | .schedule t => p.schedule t
  | .clock c => { p with kernel := { p.kernel with clock := c } }

def run (p : Pool) (acts : List PoolAct) : Pool := acts.foldl step p

end Pool
end Ggmk

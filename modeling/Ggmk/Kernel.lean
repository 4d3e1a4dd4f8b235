import Ggmk.Payload
import Ggmk.Sched.Enqueue
import Ggmk.Sched.Ticks
import Ggmk.Telemetry

/-! The kernel state as `boot.c` wires it together: one heap, trace, metrics, scheduler,
channel registry and module registry that all workers share. -/
namespace Ggmk

structure ChanSub where
  moduleId : UInt32
  workerId : ℤ
  active : Bool

structure ChanEntry where
  mode : ℕ
  guarantee : ℕ
  ring : RingMpmc Task
  ringCap : ℕ
  subs : ℕ → ChanSub
  nSubs : ℕ
  isOpen : Bool
  emitCount : UInt64
  dropCount : UInt64

structure ChanReg where
  channels : ℕ → ChanEntry
  nChannels : ℕ

/-- Handlers are known by their address. -/
structure ModuleReg where
  dispatch : ℕ → Option ℕ
  failCounts : ℕ → UInt32
  poisoned : ℕ → Bool

structure Kernel where
  heap : Heap
  trace : Trace
  metrics : Metrics
  sched : Sched
  chan : ChanReg
  modules : ModuleReg
  clock : Clock
  tasksDispatched : ℕ → UInt64

/-- What a handler is given besides the kernel. -/
structure Ctx where
  task : Task
  workerId : ℕ
  tick : UInt32

/-- A handler returns its code and may write to its task and to the kernel. -/
abbrev HandlerFn := Ctx → Kernel → ℤ × Task × Kernel

namespace Kernel

def traceWrite (k : Kernel) (tenant : UInt16) (evType : ℕ) (taskType : UInt16)
    (arg0 arg1 : UInt32) : Kernel :=
  { k with trace := gmkTraceWrite k.trace tenant evType taskType arg0 arg1 }

def metricInc (k : Kernel) (tenant : UInt16) (metricId : ℕ) : Kernel :=
  { k with metrics := gmkMetricInc k.metrics tenant metricId 1 }

def setChan (k : Kernel) (chanId : ℕ) (ch : ChanEntry) : Kernel :=
  { k with chan := { k.chan with channels := Function.update k.chan.channels chanId ch } }

/-- The kernel with another ring in the entry of channel `i`. -/
def setRing (k : Kernel) (i : ℕ) (r : RingMpmc Task) : Kernel :=
  k.setChan i { k.chan.channels i with ring := r }

def release (k : Kernel) (payload : ℕ) : Kernel :=
  { k with heap := (gmkPayloadRelease k.heap payload).2 }

section Frame
variable (k : Kernel) (n : UInt16) (e c p : ℕ) (y : UInt16) (a b : UInt32) (ch : ChanEntry)

@[simp] theorem traceWrite_heap : (k.traceWrite n e y a b).heap = k.heap := rfl
@[simp] theorem traceWrite_metrics : (k.traceWrite n e y a b).metrics = k.metrics := rfl
@[simp] theorem traceWrite_sched : (k.traceWrite n e y a b).sched = k.sched := rfl
@[simp] theorem traceWrite_chan : (k.traceWrite n e y a b).chan = k.chan := rfl
@[simp] theorem traceWrite_modules : (k.traceWrite n e y a b).modules = k.modules := rfl
@[simp] theorem traceWrite_clock : (k.traceWrite n e y a b).clock = k.clock := rfl
@[simp] theorem metricInc_heap : (k.metricInc n e).heap = k.heap := rfl
@[simp] theorem metricInc_sched : (k.metricInc n e).sched = k.sched := rfl
@[simp] theorem metricInc_chan : (k.metricInc n e).chan = k.chan := rfl
@[simp] theorem metricInc_modules : (k.metricInc n e).modules = k.modules := rfl
@[simp] theorem metricInc_clock : (k.metricInc n e).clock = k.clock := rfl
@[simp] theorem setChan_heap : (k.setChan c ch).heap = k.heap := rfl
@[simp] theorem setChan_sched : (k.setChan c ch).sched = k.sched := rfl
@[simp] theorem setChan_self : (k.setChan c ch).chan.channels c = ch := by simp [setChan]
@[simp] theorem setChan_nChannels : (k.setChan c ch).chan.nChannels = k.chan.nChannels := rfl
@[simp] theorem release_metrics : (k.release p).metrics = k.metrics := rfl
@[simp] theorem release_sched : (k.release p).sched = k.sched := rfl
@[simp] theorem release_chan : (k.release p).chan = k.chan := rfl
@[simp] theorem release_modules : (k.release p).modules = k.modules := rfl

theorem metricInc_global {e : ℕ} (h : e < gmkMetricCount) : (k.metricInc n e).metrics.global =
    Function.update k.metrics.global e (k.metrics.global e + 1) :=
  gmkMetricInc_global k.metrics n 1 h

theorem setChan_of_ne {d : ℕ} (h : d ≠ c) :
    (k.setChan c ch).chan.channels d = k.chan.channels d := by
  simp [setChan, Function.update_of_ne h]

end Frame

section SetRing
variable (k : Kernel) (i : ℕ) (r : RingMpmc Task)

@[simp] theorem setRing_heap : (k.setRing i r).heap = k.heap := rfl
@[simp] theorem setRing_sched : (k.setRing i r).sched = k.sched := rfl
@[simp] theorem setRing_nChannels : (k.setRing i r).chan.nChannels = k.chan.nChannels := rfl

@[simp] theorem setRing_self : (k.setRing i r).chan.channels i =
    { k.chan.channels i with ring := r } := by simp [setRing]

theorem setRing_of_ne {c : ℕ} (h : c ≠ i) : (k.setRing i r).chan.channels c = k.chan.channels c :=
  k.setChan_of_ne i _ h

end SetRing
end Kernel

/-! ## Module dispatch -/

/-- The 32-bit pattern of a return code. -/
def rcBits (rc : ℤ) : UInt32 := UInt32.ofNat (rc % 2 ^ 32).toNat

/-- Looks the handler up, refuses poisoned types and calls the handler; `code` is the
machine code behind the handler addresses. -/
def gmkModuleDispatch (code : ℕ → HandlerFn) (k : Kernel) (ctx : Ctx) : ℤ × Task × Kernel :=
  let type := ctx.task.type
  match (if gmkMaxHandlers ≤ type.toNat then none else k.modules.dispatch type.toNat) with
  | none => (gmkFail gmkErrNotFound, ctx.task, k)
  | some h =>
      if k.modules.poisoned type.toNat then
        (gmkFail gmkErrPoisoned, ctx.task,
          k.traceWrite ctx.task.tenant gmkEvPoison type.toUInt16 type 0)
      else
        let k := k.traceWrite ctx.task.tenant gmkEvTaskStart type.toUInt16 ctx.task.seq 0
        let (rc, task, k) := code h ctx k
        (rc, task, k.traceWrite task.tenant gmkEvTaskEnd type.toUInt16 task.seq (rcBits rc))

/-- The sixteenth failure of a type poisons it. -/
def gmkModuleRecordFail (k : Kernel) (type : UInt32) : Kernel :=
  if gmkMaxHandlers ≤ type.toNat then k
  else
    let count := k.modules.failCounts type.toNat + 1
    let k := { k with modules := { k.modules with
      failCounts := Function.update k.modules.failCounts type.toNat count } }
    if gmkPoisonThreshold ≤ count.toNat ∧ k.modules.poisoned type.toNat = false then
      let k := { k with modules := { k.modules with
        poisoned := Function.update k.modules.poisoned type.toNat true } }
      k.traceWrite 0 gmkEvPoison type.toUInt16 type count
    else k

section RecordFail
variable (k : Kernel) (type : UInt32)

@[simp] theorem gmkModuleRecordFail_heap : (gmkModuleRecordFail k type).heap = k.heap := by
  unfold gmkModuleRecordFail
  split
  · rfl
  · simp only
    split <;> rfl

@[simp] theorem gmkModuleRecordFail_sched : (gmkModuleRecordFail k type).sched = k.sched := by
  unfold gmkModuleRecordFail
  split
  · rfl
  · simp only
    split <;> rfl

@[simp] theorem gmkModuleRecordFail_chan : (gmkModuleRecordFail k type).chan = k.chan := by
  unfold gmkModuleRecordFail
  split
  · rfl
  · simp only
    split <;> rfl

end RecordFail

end Ggmk

import Ggmk.Ring.Spsc

/-! Trace rings with level check and sampling (`trace.c`) and metric counters
(`metrics.c`). -/
namespace Ggmk
open Word

def gmkTraceError : ℕ := 1
def gmkTraceWarn : ℕ := 2
def gmkTraceInfo : ℕ := 3
def gmkTraceAll : ℕ := 4

def gmkEvTaskStart : ℕ := 0x0001
def gmkEvTaskEnd : ℕ := 0x0002
def gmkEvTaskFail : ℕ := 0x0003
def gmkEvTaskRetry : ℕ := 0x0004
def gmkEvTaskYield : ℕ := 0x0005
def gmkEvAllocFail : ℕ := 0x0006
def gmkEvChanEmit : ℕ := 0x0010
def gmkEvChanFull : ℕ := 0x0011
def gmkEvChanDrop : ℕ := 0x0012
def gmkEvChanDrain : ℕ := 0x0013
def gmkEvChanOpen : ℕ := 0x0014
def gmkEvChanClose : ℕ := 0x0015
def gmkEvWatchdog : ℕ := 0x0020
def gmkEvWorkerPark : ℕ := 0x0021
def gmkEvWorkerWake : ℕ := 0x0022
def gmkEvYieldOverflow : ℕ := 0x0030
def gmkEvYieldLimit : ℕ := 0x0031
def gmkEvPoison : ℕ := 0x0032
def gmkEvBoot : ℕ := 0x0040
def gmkEvHalt : ℕ := 0x0041

structure TraceEv where
  tsc : UInt64
  evType : ℕ
  tenant : UInt16
  type : UInt16
  arg0 : UInt32
  arg1 : UInt32
  deriving DecidableEq, Inhabited

/-- `tsc n` is the `n`-th reading of the time stamp counter and `tscReads` counts them. -/
structure Trace where
  rings : ℕ → SpscQueue TraceEv
  level : ℕ
  sampleThreshold : ℕ
  prngState : ℕ
  nTenants : ℕ
  totalEvents : ℕ
  droppedEvents : ℕ
  tsc : ℕ → UInt64
  tscReads : ℕ

/-- One xorshift step on 32 bits. -/
def prngNext (state : ℕ) : ℕ :=
  let x := state
  let x := x ^^^ u32 (x <<< 13)
  let x := x ^^^ (x >>> 17)
  x ^^^ u32 (x <<< 5)

def evLevel (evType : ℕ) : ℕ :=
  if evType ∈ [gmkEvTaskFail, gmkEvAllocFail, gmkEvYieldOverflow, gmkEvYieldLimit, gmkEvPoison] then
    gmkTraceError
  else if evType ∈ [gmkEvChanFull, gmkEvChanDrop, gmkEvWatchdog] then gmkTraceWarn
  else if evType ∈ [gmkEvTaskStart, gmkEvTaskEnd, gmkEvTaskRetry, gmkEvTaskYield, gmkEvChanEmit,
      gmkEvChanDrain, gmkEvChanOpen, gmkEvChanClose, gmkEvWorkerPark, gmkEvWorkerWake, gmkEvBoot,
      gmkEvHalt] then
    gmkTraceInfo
  else gmkTraceAll

def traceEmit (t : Trace) (tenant : UInt16) (evType : ℕ) (taskType : UInt16)
    (arg0 arg1 : UInt32) : Trace :=
  if t.nTenants ≤ tenant.toNat then t
  else
    let ev : TraceEv := ⟨t.tsc t.tscReads, evType, tenant, taskType, arg0, arg1⟩
    let t := { t with tscReads := t.tscReads + 1 }
    match (t.rings tenant.toNat).push ev with
    | some r =>
        { t with
          rings := Function.update t.rings tenant.toNat r
          totalEvents := (t.totalEvents + 1) % 2 ^ 64 }
    | none => { t with droppedEvents := (t.droppedEvents + 1) % 2 ^ 64 }

/-- The level check, then the sampling check of the most verbose level. -/
def gmkTraceWrite (t : Trace) (tenant : UInt16) (evType : ℕ) (taskType : UInt16)
    (arg0 arg1 : UInt32) : Trace :=
  if t.level < evLevel evType then t
  else if t.level = gmkTraceAll ∧ t.sampleThreshold < 2 ^ 32 - 1 then
    let r := prngNext t.prngState
    let t := { t with prngState := r }
    if t.sampleThreshold < r then t else traceEmit t tenant evType taskType arg0 arg1
  else traceEmit t tenant evType taskType arg0 arg1

def gmkMetricTasksEnqueued : ℕ := 0
def gmkMetricTasksDequeued : ℕ := 1
def gmkMetricTasksDispatched : ℕ := 2
def gmkMetricTasksFailed : ℕ := 3
def gmkMetricTasksRetried : ℕ := 4
def gmkMetricChanEmits : ℕ := 8
def gmkMetricChanDrops : ℕ := 9
def gmkMetricChanFullCount : ℕ := 10
def gmkMetricWorkerParks : ℕ := 11
def gmkMetricWorkerWakes : ℕ := 12
def gmkMetricCount : ℕ := 16

structure Metrics where
  global : ℕ → UInt64
  perTenant : ℕ → ℕ → UInt64
  nTenants : ℕ

def gmkMetricInc (m : Metrics) (tenant : UInt16) (metricId : ℕ) (delta : UInt64) : Metrics :=
  if gmkMetricCount ≤ metricId then m
  else
    let m := { m with global := Function.update m.global metricId (m.global metricId + delta) }
    if tenant.toNat < m.nTenants then
      { m with
        perTenant := Function.update m.perTenant tenant.toNat
          (Function.update (m.perTenant tenant.toNat) metricId
            (m.perTenant tenant.toNat metricId + delta)) }
    else m

theorem gmkMetricInc_global (m : Metrics) (tenant : UInt16) {metricId : ℕ} (delta : UInt64)
    (h : metricId < gmkMetricCount) : (gmkMetricInc m tenant metricId delta).global =
      Function.update m.global metricId (m.global metricId + delta) := by
  unfold gmkMetricInc
  rw [if_neg (not_le.mpr h)]
  simp only
  split <;> rfl

end Ggmk

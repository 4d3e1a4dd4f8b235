import Ggmk.Worker.Loop

/-! The state that the init functions called by `gmk_boot` leave, every allocation of the
host having succeeded. -/
namespace Ggmk
open Word

/-- Four rings of `GMK_RQ_DEFAULT_CAP` cells. -/
def gmkRqInit : Rq where
  queues _ := MpmcQueue.ofList 12 (by decide) [] (by decide)
  popCounters _ := 0

def gmkSchedInit (nWorkers : ℕ) : Sched where
  rq := gmkRqInit
  lqs _ := Lq.ofList [] (by decide)
  nWorkers := nWorkers
  evq := gmkEvqInit gmkEvqDefaultCap
  overflow := MpmcQueue.ofList 12 (by decide) [] (by decide)
  nextSeq := 0

theorem mem_ready_boot {n : ℕ} {rq : Rq} {t : Task}
    (h : t ∈ Sched.readyTasks { gmkSchedInit n with rq := rq }) : t ∈ rq.tasks := by
  have hlq (w : ℕ) : ((gmkSchedInit n).lqs w).items = [] :=
    SpscQueue.items_ofList (by decide) (by decide)
  have hover : (gmkSchedInit n).overflow.items = [] :=
    MpmcQueue.items_ofList (by decide) (by decide)
  simpa [Sched.readyTasks, Sched.lqTasks, hlq, hover] using h

theorem gmkSchedInit_readyTasks (n : ℕ) : (gmkSchedInit n).readyTasks = 0 := by
  apply Multiset.eq_zero_of_forall_notMem
  intro t ht
  have hrq : t ∈ gmkRqInit.tasks := mem_ready_boot ht
  simp [Rq.tasks, gmkRqInit] at hrq

/-- Rings of `GMK_TRACE_RING_CAP` records, at the warning level and unsampled. -/
def gmkTraceInit (nTenants : ℕ) (tsc : ℕ → UInt64) : Trace where
  rings _ := SpscQueue.ofList 12 (by decide) [] (by decide)
  level := gmkTraceWarn
  sampleThreshold := 2 ^ 32 - 1
  prngState := 0xDEADBEEF
  nTenants := nTenants
  totalEvents := 0
  droppedEvents := 0
  tsc := tsc
  tscReads := 0

def gmkMetricsInit (nTenants : ℕ) : Metrics where
  global _ := 0
  perTenant _ _ := 0
  nTenants := nTenants

/-- A zeroed entry of the channel table. -/
def ChanEntry.zero : ChanEntry where
  mode := 0
  guarantee := 0
  ring := { head := 0, tail := 0, cap := 0, mask := 0, seq := fun _ => 0, data := fun _ => default }
  ringCap := 0
  subs _ := ⟨0, 0, false⟩
  nSubs := 0
  isOpen := false
  emitCount := 0
  dropCount := 0

/-- Channel 0 is never opened; channel 1 is the dead-letter channel. -/
def gmkChanRegInit : ChanReg where
  channels i :=
    if i = gmkChanSysDropped then
      { ChanEntry.zero with
        mode := gmkChanFanout
        guarantee := gmkChanLossy
        ring := gmkRingMpmcInit gmkChanDefaultSlots
        ringCap := gmkChanDefaultSlots
        isOpen := true }
    else ChanEntry.zero
  nChannels := 2

/-- The registry once `dispatch` has been registered. -/
def gmkModuleRegInit (dispatch : ℕ → Option ℕ) : ModuleReg where
  dispatch := dispatch
  failCounts _ := 0
  poisoned _ := false

structure BootCfg where
  mem : ℕ
  arenaSize : ℕ
  nWorkers : ℕ
  nTenants : ℕ
  tsc : ℕ → UInt64
  dispatch : ℕ → Option ℕ

/-- `mem` is the arena that the host provides. -/
def bootKernel (cfg : BootCfg) : Option Kernel :=
  if cfg.nWorkers = 0 ∨ gmkMaxWorkers < cfg.nWorkers then none
  else if cfg.nTenants = 0 ∨ gmkMaxTenants < cfg.nTenants then none
  else
    (gmkAllocInit cfg.mem cfg.arenaSize).map fun alloc =>
      { heap := ⟨alloc, fun _ => default, ∅⟩
        trace := gmkTraceInit cfg.nTenants cfg.tsc
        metrics := gmkMetricsInit cfg.nTenants
        sched := gmkSchedInit cfg.nWorkers
        chan := gmkChanRegInit
        modules := gmkModuleRegInit cfg.dispatch
        clock := ⟨0, fun _ => 0, cfg.nWorkers⟩
        tasksDispatched := fun _ => 0 }

theorem bootKernel_eq_some {cfg : BootCfg} {k : Kernel} (h : bootKernel cfg = some k) :
    cfg.nWorkers ≤ gmkMaxWorkers ∧ ∃ alloc, gmkAllocInit cfg.mem cfg.arenaSize = some alloc ∧
      k.heap = ⟨alloc, fun _ => default, ∅⟩ ∧ k.sched = gmkSchedInit cfg.nWorkers ∧
      k.metrics = gmkMetricsInit cfg.nTenants ∧ k.chan = gmkChanRegInit := by
  unfold bootKernel at h
  split at h
  next => simp at h
  next hworkers =>
    split at h
    next => simp at h
    next =>
      obtain ⟨alloc, halloc, rfl⟩ := Option.map_eq_some_iff.mp h
      exact ⟨by omega, alloc, halloc, rfl, rfl, rfl, rfl⟩

/-- A one-worker kernel in a page-sized arena with one handler, for type 0. -/
def tinyCfg : BootCfg where
  mem := 64
  arenaSize := 4096
  nWorkers := 1
  nTenants := 1
  tsc _ := 0
  dispatch type := if type = 0 then some 0 else none

theorem bootKernel_tiny : (bootKernel tinyCfg).isSome := by decide

def tinyKernel : Kernel := (bootKernel tinyCfg).get bootKernel_tiny

theorem tinyKernel_sched : tinyKernel.sched = gmkSchedInit 1 := rfl

theorem tinyKernel_modules : tinyKernel.modules = gmkModuleRegInit tinyCfg.dispatch := rfl

theorem bootKernel_tiny_eq : bootKernel tinyCfg = some tinyKernel := (Option.some_get _).symm

/-- The first payload lies behind its header at the start of the arena. -/
theorem tinyKernel_alloc : (gmkPayloadAlloc tinyKernel.heap 40).1 = some 72 := by decide

theorem tinyKernel_worker : 0 < tinyKernel.sched.nWorkers := Nat.one_pos

attribute [irreducible] tinyKernel

/-- Type 0 reaches the handler at address 0. -/
theorem tiny_acts {k : Kernel} (hk : k.modules = gmkModuleRegInit tinyCfg.dispatch)
    (code : ℕ → HandlerFn) (w : ℕ) {t : Task} (ht : t.type = 0) : Acts code k w t (code 0) := by
  refine ⟨?_, ?_, 0, ?_, fun _ => rfl⟩
  · rw [ht]
    decide
  · rw [hk]
    rfl
  · rw [hk, ht]
    rfl

/-- A ring of `2 ^ k` cells that are all taken by `x`. -/
def MpmcQueue.filled {α : Type*} [Inhabited α] (k : ℕ) (hk : 1 ≤ k ∧ k ≤ 31) (x : α) :
    MpmcQueue α :=
  MpmcQueue.ofList k hk (List.replicate (2 ^ k) x) (by rw [List.length_replicate])

theorem MpmcQueue.filled_items {α : Type*} [Inhabited α] {k : ℕ} (hk : 1 ≤ k ∧ k ≤ 31) (x : α) :
    (filled k hk x).items = List.replicate (2 ^ k) x := items_ofList hk _

theorem MpmcQueue.filled_full {α : Type*} [Inhabited α] {k : ℕ} (hk : 1 ≤ k ∧ k ≤ 31) (x : α) :
    (filled k hk x).items.length = (filled k hk x).cap := by
  rw [filled_items, List.length_replicate]
  rfl

/-- A ready queue without a free place at any priority. -/
def fullRq : Rq where
  queues _ := MpmcQueue.filled 12 (by decide) default
  popCounters _ := 0

theorem fullRq_refuses (p : ℕ) : fullRq.Refuses p :=
  MpmcQueue.filled_full (k := 12) (by decide) (default : Task)

theorem mem_fullRq_tasks {t : Task} (h : t ∈ fullRq.tasks) : t = default := by
  obtain ⟨p, -, hp⟩ := Multiset.mem_sum.mp h
  rw [Multiset.mem_coe, show (fullRq.queues p).items = _ from
    MpmcQueue.filled_items (k := 12) (by decide) (default : Task)] at hp
  exact List.eq_of_mem_replicate hp

theorem gmkRqInit_room (p : ℕ) : ¬ gmkRqInit.Refuses p := by
  simp [Rq.Refuses, gmkRqInit]

/-- The local queue of a worker that has nothing but `t` to do. -/
def Lq.single (t : Task) : Lq := Lq.ofList [t] (by simp)

theorem gmkLqPop_single (t : Task) :
    ∃ lq, gmkLqPop (Lq.single t) = some (t, lq) ∧ lq.items = [] := by
  have hitems : (Lq.single t).items = [t] := SpscQueue.items_ofList (by decide) (by simp)
  cases hp : gmkLqPop (Lq.single t) with
  | none =>
    rw [gmkLqPop_eq_none_iff, hitems] at hp
    simp at hp
  | some p =>
    obtain ⟨u, lq⟩ := p
    have h := (gmkLqPop_some hp).1
    rw [hitems] at h
    obtain ⟨rfl, hnil⟩ := List.cons.inj h
    exact ⟨lq, rfl, hnil.symm⟩

end Ggmk

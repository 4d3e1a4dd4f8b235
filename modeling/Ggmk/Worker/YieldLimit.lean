import Ggmk.Module.Register
import Ggmk.Worker.Yield

/-! The dispatches of one task whose handler yields on every call. The yields count against
`GMK_DEFAULT_MAX_YIELDS`; the limit that was registered for the type is read nowhere. -/
namespace Ggmk
open Registration

/-! ## What a dispatch does to the queues -/

/-- An enqueue without a worker goes past the local queues and the overflow bucket. -/
theorem gmkEnqueue_residents (s : Sched) (t : Task) (w : ℕ) (x : Task) :
    residents (gmkEnqueue s t (-1)).2.2 w x = residents s w x := by
  have hc := gmkEnqueue_cases s t (-1)
  generalize gmkEnqueue s t (-1) = r at hc ⊢
  cases hc with
  | toLq i lq hw hi hpush => omega
  | toRq rq hlq hpush => rfl
  | refused hlq hrq => rfl

/-- Whatever the handler returns, the worker adds nothing to these two queues. -/
theorem workerDispatchTask_residents {code : ℕ → HandlerFn} {k : Kernel} {w : ℕ} {t : Task}
    {f : HandlerFn} (h : Acts code k w t f) (v : ℕ) (x : Task) :
    residents (workerDispatchTask code k w t).sched v x =
      residents (called f k w t).2.2.sched v x := by
  rw [workerDispatchTask_eq, handlerCall_of_acts h, dispatchOutcome_sched]
  split
  · rw [gmkEnqueue_residents]
    rfl
  · rfl

/-! ## Handlers that yield on every call -/

/-- What a handler has made of its task and of the kernel by the time it yields, the entry
point it uses, and the code it returns. -/
structure Plan where
  task : Task
  kernel : Kernel
  call : YieldCall
  rc : ℤ

def yieldsAfter (act : Ctx → Kernel → Plan) : HandlerFn := fun ctx k =>
  let p := act ctx k
  let (task, sched) := p.call.run p.kernel.sched p.task ctx.workerId
  (p.rc, task, { p.kernel with sched := sched })

/-- The plan of a dispatch. -/
def planAt (act : Ctx → Kernel → Plan) (k : Kernel) (w : ℕ) (t : Task) : Plan :=
  act ⟨t, w, k.clock.workerTick w⟩ (handlerStart k t)

/-- The copy that the yield would queue. -/
def Plan.copy (p : Plan) : Task := yielded (p.call.prepare p.task)

/-- There is a place in the worker's local queue or in the overflow bucket. -/
def Plan.Room (p : Plan) (w : ℕ) : Prop :=
  (p.kernel.sched.lqs w).items.length < (p.kernel.sched.lqs w).ring.cap ∨
    p.kernel.sched.overflow.items.length < p.kernel.sched.overflow.cap

theorem called_yieldsAfter (act : Ctx → Kernel → Plan) (k : Kernel) (w : ℕ) (t : Task) :
    (called (yieldsAfter act) k w t).2.2.sched =
      (gmkYield (planAt act k w t).kernel.sched
        ((planAt act k w t).call.prepare (planAt act k w t).task) w gmkDefaultMaxYields).2.2 := by
  simp only [called, yieldsAfter, YieldCall.run_eq]
  rfl

/-- A dispatch with plan `p` has queued `n` copies of its task when it is over. -/
def QueuesAgain (code : ℕ → HandlerFn) (k : Kernel) (w : ℕ) (t : Task) (p : Plan) (n : ℕ) : Prop :=
  residents (workerDispatchTask code k w t).sched w p.copy =
    residents p.kernel.sched w p.copy + n

/-- With room, a dispatch queues its task again if and only if the count is below sixteen. -/
theorem queuesAgain_iff {code : ℕ → HandlerFn} {act : Ctx → Kernel → Plan} {k : Kernel} {w : ℕ}
    {t : Task} (ha : Acts code k w t (yieldsAfter act))
    (hw : w < (planAt act k w t).kernel.sched.nWorkers)
    (hroom : (planAt act k w t).Room w) (n : ℕ) :
    QueuesAgain code k w t (planAt act k w t) n ↔
      n = if ((planAt act k w t).task.yieldCount + 1).toNat ≤ gmkDefaultMaxYields
        then 1 else 0 := by
  have hres := gmkYield_residents (planAt act k w t).kernel.sched
    ((planAt act k w t).call.prepare (planAt act k w t).task) hw
  have hcount : ((planAt act k w t).call.prepare (planAt act k w t).task).yieldCount =
      (planAt act k w t).task.yieldCount := by
    cases (planAt act k w t).call <;> rfl
  have hfits : YieldFits (planAt act k w t).kernel.sched w
      ((planAt act k w t).call.prepare (planAt act k w t).task) ↔
      ((planAt act k w t).task.yieldCount + 1).toNat ≤ gmkDefaultMaxYields := by
    rw [YieldFits, hcount]
    exact and_iff_left hroom
  simp only [gmkYield_ok_iff _ _ hw, hfits] at hres
  rw [QueuesAgain, workerDispatchTask_residents ha, called_yieldsAfter]
  unfold Plan.copy
  rw [hres]
  omega

/-! ## The dispatches of one task -/

/-- The dispatches of a task of a registered type, each in a kernel of its own: between two of
them anything may happen that leaves the dispatch table and the health of the type alone.
Dispatch `i + 1` is about the copy that dispatch `i` has queued, if it has queued one. -/
structure YieldLife (code : ℕ → HandlerFn) (mr : Registry) (h : HandlerReg) where
  addr : ℕ
  act : Ctx → Kernel → Plan
  kernel : ℕ → Kernel
  worker : ℕ → ℕ
  task : ℕ → Task
  fn_eq : h.fn = some addr
  code_eq : code addr = yieldsAfter act
  keeps : ∀ ctx k, (act ctx k).task.type = ctx.task.type ∧
    (act ctx k).task.yieldCount = ctx.task.yieldCount ∧
    (act ctx k).kernel.sched.nWorkers = k.sched.nWorkers
  registered : ∀ i, (kernel i).modules.dispatch = mr.dispatch
  healthy : ∀ i, (kernel i).modules.poisoned h.type.toNat = false
  worker_lt : ∀ i, worker i < (kernel i).sched.nWorkers
  submitted : (task 0).type = h.type ∧ (task 0).yieldCount = 0
  room : ∀ i, (planAt act (kernel i) (worker i) (task i)).Room (worker i)
  next : ∀ i, QueuesAgain code (kernel i) (worker i) (task i)
      (planAt act (kernel i) (worker i) (task i)) 1 →
    task (i + 1) = (planAt act (kernel i) (worker i) (task i)).copy

namespace YieldLife
variable {code : ℕ → HandlerFn} {mr : Registry} {h : HandlerReg} (r : YieldLife code mr h)

def plan (i : ℕ) : Plan := planAt r.act (r.kernel i) (r.worker i) (r.task i)

/-- What dispatch `i` adds to the queues. -/
def Queues (i n : ℕ) : Prop := QueuesAgain code (r.kernel i) (r.worker i) (r.task i) (r.plan i) n

/-- The task is queued again as often as the registry allows, and not once more. -/
def Enforced : Prop :=
  (∀ i < (mr.maxYields h.type.toNat).toNat, r.Queues i 1) ∧
    r.Queues (mr.maxYields h.type.toNat).toNat 0

theorem plan_count (i : ℕ) : (r.plan i).task.yieldCount = (r.task i).yieldCount :=
  (r.keeps _ _).2.1

theorem plan_type (i : ℕ) : (r.plan i).task.type = (r.task i).type := (r.keeps _ _).1

include r in
theorem nonNull : h.NonNull := by
  rw [HandlerReg.NonNull, r.fn_eq]
  rfl

theorem acts (hh : HasHandler mr h) {i : ℕ} (ht : (r.task i).type = h.type) :
    Acts code (r.kernel i) (r.worker i) (r.task i) (yieldsAfter r.act) := by
  obtain ⟨hrange, hentry⟩ := hh.entry r.nonNull
  have hdispatch : mr.dispatch h.type.toNat = h.fn := congrArg Prod.fst hentry
  refine ⟨?_, ?_, r.addr, ?_, fun k => by rw [r.code_eq]⟩
  · rw [ht]
    exact hrange
  · rw [ht]
    exact r.healthy i
  · rw [ht, r.registered, hdispatch, r.fn_eq]

theorem queues_iff (hh : HasHandler mr h) {i : ℕ} (ht : (r.task i).type = h.type) (n : ℕ) :
    r.Queues i n ↔
      n = if ((r.task i).yieldCount + 1).toNat ≤ gmkDefaultMaxYields then 1 else 0 := by
  have hw : r.worker i < (r.plan i).kernel.sched.nWorkers := by
    rw [plan, planAt, (r.keeps _ _).2.2]
    exact r.worker_lt i
  rw [← r.plan_count]
  exact queuesAgain_iff (r.acts hh ht) hw (r.room i) n

/-- The counter is far from wrapping here. -/
theorem count_succ {c : UInt16} {i : ℕ} (hc : c.toNat = i) (hi : i ≤ gmkDefaultMaxYields) :
    (c + 1).toNat = i + 1 := by
  unfold gmkDefaultMaxYields at hi
  rw [UInt16.toNat_add, hc, UInt16.toNat_one]
  omega

/-- The count runs from zero to the default limit, whatever the registered one is. -/
theorem task_eq (hh : HasHandler mr h) {i : ℕ} (hi : i ≤ gmkDefaultMaxYields) :
    (r.task i).type = h.type ∧ (r.task i).yieldCount.toNat = i := by
  induction i with
  | zero => exact ⟨r.submitted.1, by rw [r.submitted.2]; rfl⟩
  | succ i ih =>
    obtain ⟨ht, hcount⟩ := ih (by omega)
    have hsucc := count_succ hcount (by omega)
    have hnext : r.task (i + 1) = (r.plan i).copy :=
      r.next i ((r.queues_iff hh ht 1).mpr (by rw [hsucc, if_pos hi]))
    have hcopy : (r.plan i).copy.type = (r.task i).type ∧
        (r.plan i).copy.yieldCount = (r.task i).yieldCount + 1 := by
      rw [← r.plan_type, ← r.plan_count, Plan.copy, yielded]
      cases (r.plan i).call <;> exact ⟨rfl, rfl⟩
    rw [hnext, hcopy.1, hcopy.2]
    exact ⟨ht, hsucc⟩

/-- Sixteen dispatches queue the task again, and the seventeenth does not. -/
theorem queues_of_le (hh : HasHandler mr h) {i : ℕ} (hi : i ≤ gmkDefaultMaxYields) (n : ℕ) :
    r.Queues i n ↔ n = if i < gmkDefaultMaxYields then 1 else 0 := by
  obtain ⟨ht, hcount⟩ := r.task_eq hh hi
  rw [r.queues_iff hh ht, count_succ hcount hi]
  rfl

theorem enforced_iff_default (hh : HasHandler mr h) :
    r.Enforced ↔ (mr.maxYields h.type.toNat).toNat = gmkDefaultMaxYields := by
  constructor
  · rintro ⟨hagain, hrefused⟩
    rcases lt_trichotomy (mr.maxYields h.type.toNat).toNat gmkDefaultMaxYields with hlt | he | hgt
    · -- the yield that should be refused is not
      have hn := (r.queues_of_le hh hlt.le 0).mp hrefused
      rw [if_pos hlt] at hn
      omega
    · exact he
    · -- the seventeenth yield is refused too early
      have hn := (r.queues_of_le hh le_rfl 1).mp (hagain gmkDefaultMaxYields hgt)
      rw [if_neg (lt_irrefl _)] at hn
      omega
  · intro he
    rw [Enforced, he]
    exact ⟨fun i hi => (r.queues_of_le hh hi.le 1).mpr (if_pos hi).symm,
      (r.queues_of_le hh le_rfl 0).mpr (if_neg (lt_irrefl _)).symm⟩

/-- A registered limit is enforced if and only if it is the default. -/
theorem enforced_iff (hh : HasHandler mr h) : r.Enforced ↔ h.maxYields = 0 ∨ h.maxYields = 16 := by
  have hlimit : mr.maxYields h.type.toNat = h.limit :=
    congrArg (fun e => e.2.2) (hh.entry r.nonNull).2
  have hdefault : UInt32.ofNat gmkDefaultMaxYields = 16 := rfl
  rw [r.enforced_iff_default hh, hlimit, HandlerReg.limit, hdefault]
  by_cases hpos : 0 < h.maxYields
  · have hne : h.maxYields ≠ 0 := UInt32.pos_iff_ne_zero.mp hpos
    rw [if_pos hpos, or_iff_right hne, ← UInt32.toNat_inj]
    rfl
  · have hzero : h.maxYields = 0 := not_not.mp (mt UInt32.pos_iff_ne_zero.mpr hpos)
    rw [if_neg hpos]
    exact iff_of_true rfl (Or.inl hzero)

/-- The handler of type 0, registered with limit `m`. -/
def limitHandler (m : UInt32) : HandlerReg := ⟨0, some 0, some "h", m⟩

def limitRegistry (m : UInt32) : Registry :=
  (gmkModuleRegister Registration.gmkModuleRegInit ⟨"m", [limitHandler m]⟩).2

theorem limitRegistry_hasHandler (m : UInt32) : HasHandler (limitRegistry m) (limitHandler m) :=
  ⟨Registration.gmkModuleRegInit, ⟨"m", [limitHandler m]⟩, [], List.mem_cons_self, rfl, rfl⟩

def yieldOnly : Ctx → Kernel → Plan := fun ctx k => ⟨ctx.task, k, .plain, gmkOk⟩

/-- A task whose copies go to the same idle worker each time. -/
def limitLife (m : UInt32) :
    YieldLife (fun _ => yieldsAfter yieldOnly) (limitRegistry m) (limitHandler m) where
  addr := 0
  act := yieldOnly
  kernel _ := { tinyKernel with modules := (limitRegistry m).toModuleReg }
  worker _ := 0
  task i := { yieldCount := UInt16.ofNat i }
  fn_eq := rfl
  code_eq := rfl
  keeps _ _ := ⟨rfl, rfl, rfl⟩
  registered _ := rfl
  healthy _ := rfl
  worker_lt _ := tinyKernel_worker
  submitted := ⟨rfl, rfl⟩
  room i := by
    refine Or.inl ?_
    simp only [planAt, yieldOnly, handlerStart, Kernel.traceWrite_sched, Kernel.metricInc_sched,
      tinyKernel_sched]
    decide
  next i _ := by
    simp only [Plan.copy, planAt, yieldOnly, YieldCall.prepare, yielded, UInt16.ofNat_add]
    rfl

/-- A handler that registers the default gets it. -/
theorem enforced_sixteen : (limitLife 16).Enforced :=
  (enforced_iff (limitLife 16) (limitRegistry_hasHandler 16)).mpr (Or.inr rfl)

/-- A handler that registers one yield gets sixteen. -/
theorem one_yield_unenforced : ¬ ∀ code mr h, HasHandler mr h → h.maxYields.toNat ≤ 65534 →
    ∀ r : YieldLife code mr h, r.Enforced := by
  intro h
  have hh := limitRegistry_hasHandler 1
  have hrefused := (h _ _ _ hh (by decide) (limitLife 1)).2
  rw [show (limitRegistry 1).maxYields (limitHandler 1).type.toNat = 1 from rfl] at hrefused
  have hn := (queues_of_le (limitLife 1) hh (by decide) 0).mp hrefused
  exact absurd hn (by decide)

end YieldLife
end Ggmk

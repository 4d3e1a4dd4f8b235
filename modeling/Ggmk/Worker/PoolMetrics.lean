import Ggmk.Worker.PoolStop

/-! The counters of the workers beside what the workers have done: every task dequeued is dispatched,
and every dispatch ends as a success, a retry or a failure. -/
namespace Ggmk

/-- The metric that the step of a worker from there counts. -/
def LoopPc.metric : LoopPc → Option ℕ
  | .dequeued _ => some gmkMetricTasksDequeued
  | .dispatch _ => some gmkMetricTasksDispatched
  | .retried _ => some gmkMetricTasksRetried
  | .failed _ => some gmkMetricTasksFailed
  | .parkCount => some gmkMetricWorkerParks
  | .wakeCount => some gmkMetricWorkerWakes
  | _ => none

namespace LoopPc

/-- How often it counts metric `id`. -/
def hits (c : LoopPc) (id : ℕ) : ℕ := if c.metric = some id then 1 else 0

/-- How often it adds to `tasks_dispatched`. -/
def oks : LoopPc → ℕ
  | .returned _ rc => if rc = gmkOk then 1 else 0
  | _ => 0

/-- Counted as dequeued and not yet as dispatched. -/
def beforeDispatch : LoopPc → ℕ
  | .dispatch _ => 1
  | _ => 0

/-- Counted as dispatched while no handler is looked up. -/
def beforeLookup : LoopPc → ℕ
  | .lookup _ => 1
  | _ => 0

/-- Counted as dispatched and not yet as what becomes of it. -/
def underway : LoopPc → ℕ
  | .lookup _ | .handler _ | .returned _ _ | .retried _ | .failAdd _ | .failTest _ _
  | .failRelease _ | .failed _ => 1
  | _ => 0

/-- Counted as parked and not yet as woken. -/
def asleep : LoopPc → ℕ
  | .parkLoad | .parkWait | .unpark | .wakeCount => 1
  | _ => 0

/-- What a move counts is what it changes of these. -/
structure Accounts (c c' : LoopPc) : Prop where
  dequeued : c.hits gmkMetricTasksDequeued + c.beforeDispatch =
    c.hits gmkMetricTasksDispatched + c'.beforeDispatch
  lookedUp : c.hits gmkMetricTasksDispatched + c.beforeLookup = c.makes + c'.beforeLookup
  dispatched : c.hits gmkMetricTasksDispatched + c.underway =
    c.oks + c.hits gmkMetricTasksRetried + c.hits gmkMetricTasksFailed + c'.underway
  parked : c.hits gmkMetricWorkerParks + c.asleep = c.hits gmkMetricWorkerWakes + c'.asleep

theorem Next.accounts {c c' : LoopPc} {running : Bool} (h : Next running c c') :
    Accounts c c' := by
  cases h <;> constructor <;>
    simp [hits, metric, beforeDispatch, beforeLookup, underway, asleep, oks, makes, gmkRetry, gmkOk,
      gmkMetricTasksDequeued, gmkMetricTasksDispatched, gmkMetricTasksRetried,
      gmkMetricTasksFailed, gmkMetricWorkerParks, gmkMetricWorkerWakes, *] at *
  exact if_neg ‹_›

theorem handler_accounts (t t' : Task) : Accounts (.handler t) (.handler t') := by
  constructor <;> rfl

end LoopPc

namespace Pool
variable {p q : Pool} {n w : ℕ} {c : LoopPc} {t : Task}

/-- The counters after a step of worker `w`. -/
structure Counts (p : Pool) (w : ℕ) (q : Pool) : Prop where
  metrics : ∀ id, q.kernel.metrics.global id =
    p.kernel.metrics.global id + UInt64.ofNat ((p.pc w).hits id)
  oks : ∀ v, q.kernel.tasksDispatched v =
    p.kernel.tasksDispatched v + UInt64.ofNat (if v = w then (p.pc w).oks else 0)
  dispatched : q.dispatched.card = p.dispatched.card + (p.pc w).makes

theorem counts_same (hm : (p.pc w).metric = none) (ho : (p.pc w).oks = 0)
    (hk : (p.pc w).makes = 0) (hq : q.kernel.metrics = p.kernel.metrics)
    (hq' : q.kernel.tasksDispatched = p.kernel.tasksDispatched)
    (hd : q.dispatched = p.dispatched) : Counts p w q := by
  refine ⟨fun id => ?_, fun v => ?_, ?_⟩
  · rw [hq, LoopPc.hits, hm, if_neg nofun]
    exact (UInt64.add_zero _).symm
  · rw [hq', ho, ite_self]
    exact (UInt64.add_zero _).symm
  · rw [hd, hk]
    rfl

theorem counts_metric {tenant : UInt16} {metricId : ℕ} (hm : (p.pc w).metric = some metricId)
    (hid : metricId < gmkMetricCount) (ho : (p.pc w).oks = 0) (hk : (p.pc w).makes = 0)
    (hq : q.kernel.metrics = (p.kernel.metricInc tenant metricId).metrics)
    (hq' : q.kernel.tasksDispatched = p.kernel.tasksDispatched)
    (hd : q.dispatched = p.dispatched) : Counts p w q := by
  refine ⟨fun id => ?_, fun v => ?_, ?_⟩
  · rw [hq, Kernel.metricInc_global _ _ hid, LoopPc.hits, hm]
    by_cases hi : id = metricId
    · rw [hi, Function.update_self, if_pos rfl]
      rfl
    · rw [Function.update_of_ne hi, if_neg (by simpa using Ne.symm hi)]
      exact (UInt64.add_zero _).symm
  · rw [hq', ho, ite_self]
    exact (UInt64.add_zero _).symm
  · rw [hd, hk]
    rfl

theorem handlerStep_counts (hpc : p.pc w = .handler t) (act : HandlerAct) :
    Counts p w (p.handlerStep w t act) := by
  have hsame {q : Pool} (hq : q.kernel.metrics = p.kernel.metrics)
      (hq' : q.kernel.tasksDispatched = p.kernel.tasksDispatched)
      (hd : q.dispatched = p.dispatched) : Counts p w q := by
    apply counts_same _ _ _ hq hq' hd
    · rw [hpc]
      rfl
    · rw [hpc]
      rfl
    · rw [hpc]
      rfl
  cases act with
  | enqueue t' workerId => exact hsame rfl rfl rfl
  | yield call => exact hsame rfl rfl rfl
  | schedule t' =>
    show Counts p w (p.schedule t')
    rw [Pool.schedule]
    split
    · exact hsame rfl rfl rfl
    · exact hsame rfl rfl rfl
  | other heap chan trace => exact hsame rfl rfl rfl
  | ret rc t' => exact hsame rfl rfl rfl

theorem lookupStep_counts (hpc : p.pc w = .lookup t) : Counts p w (p.lookupStep w t) := by
  have hlook {q : Pool} (hq : q.kernel.metrics = p.kernel.metrics)
      (hq' : q.kernel.tasksDispatched = p.kernel.tasksDispatched)
      (hd : q.dispatched = t.content ::ₘ p.dispatched) : Counts p w q := by
    refine ⟨fun id => ?_, fun v => ?_, ?_⟩
    · rw [hq, hpc]
      exact (UInt64.add_zero _).symm
    · rw [hq', hpc]
      exact (congrArg (_ + UInt64.ofNat ·) (ite_self 0)).symm ▸ (UInt64.add_zero _).symm
    · rw [hd, hpc, Multiset.card_cons]
      rfl
  unfold Pool.lookupStep
  simp only
  split
  · exact hlook rfl rfl rfl
  · split
    · exact hlook rfl rfl rfl
    · exact hlook rfl rfl rfl

/-- Returning `GMK_OK` is what a worker counts for itself. -/
theorem returnedStep_counts {rc : ℤ} (hpc : p.pc w = .returned t rc) :
    Counts p w (p.returnedStep w t rc) := by
  have hfail {q : Pool} (hrc : rc ≠ gmkOk) (hq : q.kernel.metrics = p.kernel.metrics)
      (hq' : q.kernel.tasksDispatched = p.kernel.tasksDispatched)
      (hd : q.dispatched = p.dispatched) : Counts p w q := by
    apply counts_same _ _ _ hq hq' hd
    · rw [hpc]
      rfl
    · rw [hpc]
      exact if_neg hrc
    · rw [hpc]
      rfl
  unfold Pool.returnedStep
  split_ifs with hok hretry
  · subst hok
    rw [dispatchOutcome_ok]
    refine ⟨fun id => ?_, fun v => ?_, ?_⟩
    · rw [hpc]
      exact (UInt64.add_zero _).symm
    · rw [hpc]
      by_cases hv : v = w
      · subst hv
        rw [if_pos rfl]
        exact Function.update_self _ _ _
      · rw [if_neg hv]
        exact (Function.update_of_ne hv _ _).trans (UInt64.add_zero _).symm
    · rw [hpc]
      rfl
  · exact hfail hok rfl rfl rfl
  · exact hfail hok rfl rfl rfl

theorem workerStep_counts (act : HandlerAct) : Counts p w (p.workerStep w act) := by
  have hsame {q : Pool} {c : LoopPc} (hpc : p.pc w = c) (hm : c.metric = none) (ho : c.oks = 0)
      (hk : c.makes = 0) (hq : q.kernel.metrics = p.kernel.metrics)
      (hq' : q.kernel.tasksDispatched = p.kernel.tasksDispatched)
      (hd : q.dispatched = p.dispatched) : Counts p w q :=
    counts_same (hpc ▸ hm) (hpc ▸ ho) (hpc ▸ hk) hq hq' hd
  have hmetric {c : LoopPc} {tenant : UInt16} {metricId : ℕ} {q : Pool} (hpc : p.pc w = c)
      (hm : c.metric = some metricId) (hid : metricId < gmkMetricCount) (ho : c.oks = 0)
      (hk : c.makes = 0) (hq : q.kernel.metrics = (p.kernel.metricInc tenant metricId).metrics)
      (hq' : q.kernel.tasksDispatched = p.kernel.tasksDispatched)
      (hd : q.dispatched = p.dispatched) : Counts p w q :=
    counts_metric (hpc ▸ hm) hid (hpc ▸ ho) (hpc ▸ hk) hq hq' hd
  have hevq {drained : ℕ} {tick : UInt32} (hpc : p.pc w = .evqPop drained tick) :
      Counts p w (p.evqEnd w drained) := hsame hpc rfl rfl rfl rfl rfl rfl
  unfold Pool.workerStep
  cases hpc : p.pc w with
  | absent => exact hsame hpc rfl rfl rfl rfl rfl rfl
  | top => exact hsame hpc rfl rfl rfl rfl rfl rfl
  | popLq =>
    simp only
    split
    · exact hsame hpc rfl rfl rfl rfl rfl rfl
    · exact hsame hpc rfl rfl rfl rfl rfl rfl
  | popOverflow =>
    simp only
    split
    · exact hsame hpc rfl rfl rfl rfl rfl rfl
    · exact hsame hpc rfl rfl rfl rfl rfl rfl
  | popRq =>
    simp only
    split
    · exact hsame hpc rfl rfl rfl rfl rfl rfl
    · exact hsame hpc rfl rfl rfl rfl rfl rfl
  | dequeued t => exact hmetric hpc rfl (by decide) rfl rfl rfl rfl rfl
  | dispatch t => exact hmetric hpc rfl (by decide) rfl rfl rfl rfl rfl
  | lookup t => exact lookupStep_counts hpc
  | handler t => exact handlerStep_counts hpc act
  | returned t rc => exact returnedStep_counts hpc
  | retried t => exact hmetric hpc rfl (by decide) rfl rfl rfl rfl rfl
  | failAdd t =>
    simp only
    split
    · exact hsame hpc rfl rfl rfl rfl rfl rfl
    · exact hsame hpc rfl rfl rfl rfl rfl rfl
  | failTest t count =>
    simp only [Pool.failTestStep]
    split
    · exact hsame hpc rfl rfl rfl rfl rfl rfl
    · exact hsame hpc rfl rfl rfl rfl rfl rfl
  | failRelease t =>
    simp only
    split
    · exact hsame hpc rfl rfl rfl rfl rfl rfl
    · exact hsame hpc rfl rfl rfl rfl rfl rfl
  | failed t => exact hmetric hpc rfl (by decide) rfl rfl rfl rfl rfl
  | loadTick => exact hsame hpc rfl rfl rfl rfl rfl rfl
  | evqPop drained tick =>
    simp only [Pool.evqPopStep]
    split
    · split
      · exact hsame hpc rfl rfl rfl rfl rfl rfl
      · exact hevq hpc
    · exact hevq hpc
  | evqEnqueue drained tick t => exact hsame hpc rfl rfl rfl rfl rfl rfl
  | park => exact hsame hpc rfl rfl rfl rfl rfl rfl
  | parkCount =>
    exact hmetric hpc rfl (by decide) rfl rfl rfl rfl rfl
  | parkLoad => exact hsame hpc rfl rfl rfl rfl rfl rfl
  | parkWait => exact hsame hpc rfl rfl rfl rfl rfl rfl
  | unpark => exact hsame hpc rfl rfl rfl rfl rfl rfl
  | wakeCount => exact hmetric hpc rfl (by decide) rfl rfl rfl rfl rfl
  | exited => exact hsame hpc rfl rfl rfl rfl rfl rfl

/-- The move that goes with what a worker counts. -/
theorem workerStep_accounts (habs : p.pc w ≠ .absent) (hexit : ¬ p.Gone w) (act : HandlerAct) :
    ∃ c, (p.pc w).Accounts c ∧ (p.workerStep w act).pc = Function.update p.pc w c := by
  rcases workerStep_steps habs hexit act with ⟨c, hnext, hm⟩ | ⟨t, t', hpc, hm, -⟩
  · exact ⟨c, hnext.accounts, hm.pc⟩
  · rw [hpc]
    exact ⟨_, LoopPc.handler_accounts t t', hm.pc⟩

/-- The workers of `n` that are where `f` counts them. -/
def there (f : LoopPc → ℕ) (n : ℕ) (p : Pool) : ℕ := ∑ w ∈ Finset.range n, f (p.pc w)

theorem there_update (f : LoopPc → ℕ) (hw : w < n) (hpc : q.pc = Function.update p.pc w c) :
    q.there f n + f (p.pc w) = p.there f n + f c := by
  rw [there, hpc]
  exact Tally.sum_update_add (Finset.range n) f p.pc (Finset.mem_range.mpr hw) c

/-- What the others than the workers leave alone. -/
structure Aside (n : ℕ) (p q : Pool) : Prop where
  metrics : q.kernel.metrics = p.kernel.metrics
  tasksDispatched : q.kernel.tasksDispatched = p.kernel.tasksDispatched
  modules : q.kernel.modules = p.kernel.modules
  dispatched : q.dispatched = p.dispatched
  failedRuns : q.failedRuns = p.failedRuns
  pc : q.pc = p.pc ∨ ∃ i < n, p.pc i = .absent ∧ q.pc = Function.update p.pc i .top

theorem Aside.there (h : Aside n p q) {f : LoopPc → ℕ} (habs : f .absent = 0) (htop : f .top = 0) :
    q.there f n = p.there f n := by
  rcases h.pc with hpc | ⟨i, hi, hi', hpc⟩
  · rw [Pool.there, hpc, Pool.there]
  · have hsum := there_update f hi hpc
    rw [hi', habs, htop] at hsum
    omega

/-- The thread that starts and stops the pool creates workers at the top of their loops. -/
theorem controlStep_aside (h : Lifecycle n p) (created : Bool) :
    Aside n p (p.controlStep created) := by
  have hstay {q : Pool} (hk : q.kernel = p.kernel) (hd : q.dispatched = p.dispatched)
      (hf : q.failedRuns = p.failedRuns) (hpc : q.pc = p.pc) : Aside n p q :=
    ⟨by rw [hk], by rw [hk], by rw [hk], hd, hf, .inl hpc⟩
  have hphase := h.phase
  unfold Pool.controlStep
  cases hpc : p.control with (rw [hpc] at hphase; simp only)
  | create i =>
    split
    next hi =>
      cases created with
      | true => exact ⟨rfl, rfl, rfl, rfl, rfl, .inr ⟨i, h.tasks.workers ▸ hi, hphase.2 i le_rfl, rfl⟩⟩
      | false => exact hstay rfl rfl rfl rfl
    next => exact hstay rfl rfl rfl rfl
  | rollback i j => split <;> exact hstay rfl rfl rfl rfl
  | rollbackWake i j => exact hstay rfl rfl rfl rfl
  | rollbackJoin i j => split <;> exact hstay rfl rfl rfl rfl
  | failed => exact hstay rfl rfl rfl rfl
  | started => exact hstay rfl rfl rfl rfl
  | clear i => split <;> exact hstay rfl rfl rfl rfl
  | wake i => split <;> exact hstay rfl rfl rfl rfl
  | join i =>
    split
    · split <;> exact hstay rfl rfl rfl rfl
    · exact hstay rfl rfl rfl rfl
  | stopped => exact hstay rfl rfl rfl rfl

theorem step_aside (h : Lifecycle n p) {act : PoolAct} (hact : ∀ w a, act ≠ .worker w a) :
    Aside n p (p.step act) := by
  cases act with
  | worker w a => exact absurd rfl (hact w a)
  | control created => exact controlStep_aside h created
  | submit t => exact ⟨rfl, rfl, rfl, rfl, rfl, .inl rfl⟩
  | schedule t =>
    rw [Pool.step, Pool.schedule]
    split <;> exact ⟨rfl, rfl, rfl, rfl, rfl, .inl rfl⟩
  | clock c => exact ⟨rfl, rfl, rfl, rfl, rfl, .inl rfl⟩

/-- What the workers have counted since kernel `k`: metric `id` by `m id`, and `oks w` in the
`tasks_dispatched` of worker `w`. -/
structure Metered (k : Kernel) (n : ℕ) (p : Pool) (m oks : ℕ → ℕ) : Prop where
  life : Lifecycle n p
  metrics : ∀ id, p.kernel.metrics.global id = k.metrics.global id + UInt64.ofNat (m id)
  tasksDispatched : ∀ w, p.kernel.tasksDispatched w = k.tasksDispatched w + UInt64.ofNat (oks w)
  dequeued : m gmkMetricTasksDequeued = m gmkMetricTasksDispatched + p.there LoopPc.beforeDispatch n
  lookedUp : m gmkMetricTasksDispatched = p.dispatched.card + p.there LoopPc.beforeLookup n
  dispatched : m gmkMetricTasksDispatched = (∑ w ∈ Finset.range n, oks w) +
    m gmkMetricTasksRetried + m gmkMetricTasksFailed + p.there LoopPc.underway n
  parked : m gmkMetricWorkerParks = m gmkMetricWorkerWakes + p.there LoopPc.asleep n

variable {k : Kernel} {m oks : ℕ → ℕ}

theorem Metered.workerStep (h : Metered k n p m oks) (w : ℕ) (act : HandlerAct) :
    ∃ m' oks', Metered k n (p.workerStep w act) m' oks' := by
  by_cases hdead : p.pc w = .absent ∨ p.Gone w
  · rw [workerStep_of_dead hdead]
    exact ⟨m, oks, h⟩
  have hlife := h.life.workerStep w act
  have hcounts := workerStep_counts (p := p) (w := w) act
  rw [not_or] at hdead
  obtain ⟨c, hacc, hpc⟩ := workerStep_accounts hdead.1 hdead.2 act
  have hw := h.life.tasks.lt hdead.1
  generalize p.workerStep w act = q at *
  have hoks : ∑ v ∈ Finset.range n, (oks v + if v = w then (p.pc w).oks else 0) =
      ∑ v ∈ Finset.range n, oks v + (p.pc w).oks := by
    rw [Finset.sum_add_distrib, Finset.sum_ite_eq', if_pos (Finset.mem_range.mpr hw)]
  have hbefore := there_update LoopPc.beforeDispatch hw hpc
  have hlookup := there_update LoopPc.beforeLookup hw hpc
  have hunder := there_update LoopPc.underway hw hpc
  have hasleep := there_update LoopPc.asleep hw hpc
  obtain ⟨hdeq, hlook, hdisp, hpark⟩ := hacc
  refine ⟨fun id => m id + (p.pc w).hits id, fun v => oks v + if v = w then (p.pc w).oks else 0,
    hlife, fun id => ?_, fun v => ?_, ?_, ?_, ?_, ?_⟩
  · rw [hcounts.metrics, h.metrics, UInt64.ofNat_add, add_assoc]
  · rw [hcounts.oks, h.tasksDispatched, UInt64.ofNat_add, add_assoc]
  · have := h.dequeued
    omega
  · have := h.lookedUp
    have := hcounts.dispatched
    omega
  · have := h.dispatched
    omega
  · have := h.parked
    omega

theorem Metered.aside (h : Metered k n p m oks) (hlife : Lifecycle n q) (hq : Aside n p q) :
    Metered k n q m oks := by
  refine ⟨hlife, fun id => hq.metrics ▸ h.metrics id,
    fun w => hq.tasksDispatched ▸ h.tasksDispatched w, ?_, ?_, ?_, ?_⟩
  · rw [hq.there rfl rfl]
    exact h.dequeued
  · rw [hq.there rfl rfl, hq.dispatched]
    exact h.lookedUp
  · rw [hq.there rfl rfl]
    exact h.dispatched
  · rw [hq.there rfl rfl]
    exact h.parked

theorem Metered.step (h : Metered k n p m oks) (act : PoolAct) :
    ∃ m' oks', Metered k n (p.step act) m' oks' := by
  by_cases hact : ∃ w a, act = .worker w a
  · obtain ⟨w, a, rfl⟩ := hact
    exact h.workerStep w a
  · exact ⟨m, oks, h.aside (h.life.step act)
      (step_aside h.life fun w a ha => hact ⟨w, a, ha⟩)⟩

theorem init_metered (k : Kernel) :
    Metered k k.sched.nWorkers (init k) (fun _ => 0) fun _ => 0 := by
  have hthere (f : LoopPc → ℕ) (hf : f .absent = 0) : (init k).there f k.sched.nWorkers = 0 :=
    Finset.sum_eq_zero fun _ _ => hf
  refine ⟨init_lifecycle k, fun _ => (UInt64.add_zero _).symm, fun _ => (UInt64.add_zero _).symm,
    ?_, ?_, ?_, ?_⟩
  · rw [hthere _ rfl]
  · rw [hthere _ rfl]
    rfl
  · rw [hthere _ rfl, Finset.sum_const_zero]
  · rw [hthere _ rfl]

theorem Metered.run (h : Metered k n p m oks) (acts : List PoolAct) :
    ∃ m' oks', Metered k n (p.run acts) m' oks' := by
  unfold Pool.run
  induction acts generalizing p m oks with
  | nil => exact ⟨m, oks, h⟩
  | cons act acts ih =>
    obtain ⟨m', oks', h'⟩ := h.step act
    exact ih h'

/-- With any number of workers, threads that submit, and a pool that starts and stops, after any
steps in any order: what the counters of the workers have gone up by tells how many tasks were
dequeued, dispatched, done, retried and failed, and how often a worker parked, and they agree up to
the workers that are in between. -/
theorem metrics_account (k : Kernel) (acts : List PoolAct) : ∃ m oks : ℕ → ℕ,
    (∀ id, ((init k).run acts).kernel.metrics.global id =
      k.metrics.global id + UInt64.ofNat (m id)) ∧
    (∀ w, ((init k).run acts).kernel.tasksDispatched w =
      k.tasksDispatched w + UInt64.ofNat (oks w)) ∧
    m gmkMetricTasksDequeued = m gmkMetricTasksDispatched +
      ((init k).run acts).there LoopPc.beforeDispatch k.sched.nWorkers ∧
    m gmkMetricTasksDispatched = ((init k).run acts).dispatched.card +
      ((init k).run acts).there LoopPc.beforeLookup k.sched.nWorkers ∧
    m gmkMetricTasksDispatched = (∑ w ∈ Finset.range k.sched.nWorkers, oks w) +
      m gmkMetricTasksRetried + m gmkMetricTasksFailed +
      ((init k).run acts).there LoopPc.underway k.sched.nWorkers ∧
    m gmkMetricWorkerParks = m gmkMetricWorkerWakes +
      ((init k).run acts).there LoopPc.asleep k.sched.nWorkers := by
  obtain ⟨m, oks, h⟩ := (init_metered k).run acts
  exact ⟨m, oks, h.metrics, h.tasksDispatched, h.dequeued, h.lookedUp, h.dispatched, h.parked⟩

end Pool
end Ggmk

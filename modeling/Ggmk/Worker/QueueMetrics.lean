import Ggmk.Chan.Lossy
import Ggmk.Worker.Conservation

/-! The metrics of enqueued and dequeued tasks beside the queues themselves. Every worker counts
what it dequeues, but of the calls of `_gmk_enqueue` only that of `gmk_submit` is counted. -/
namespace Ggmk
open Word Guarded

/-! ## The operations -/

/-- A submission is counted once it is enqueued. -/
def gmkSubmit (k : Kernel) (running : Bool) (task : Task) : ℤ × Kernel :=
  if running = false then (gmkFail gmkErrClosed, k)
  else
    let (ok, task, sched) := gmkEnqueue k.sched task (-1)
    let k := { k with sched := sched }
    if ok then (0, k.metricInc task.tenant gmkMetricTasksEnqueued) else (-1, k)

/-- The events and the parking of an iteration that has found no work. -/
def workerEvents (k : Kernel) (w : ℕ) : Kernel :=
  let (drained, sched) := evqDrain w (k.clock.workerTick w) gmkEvqDrainLimit k.sched
  let k := { k with sched := sched }
  if 0 < drained then k
  else
    let k := k.metricInc 0 gmkMetricWorkerParks
    let k := k.traceWrite 0 gmkEvWorkerPark 0 (UInt32.ofNat w) 0
    k.metricInc 0 gmkMetricWorkerWakes

/-- The start of an iteration: a task, or the whole iteration without one. -/
def workerPop (k : Kernel) (w : ℕ) : Option Task × Kernel :=
  match popWork k.sched w with
  | (some task, sched) => (some task, { k with sched := sched })
  | (none, sched) => (none, workerEvents { k with sched := sched } w)

/-- The popped task is counted; the handler to call, or the iteration ends without one. -/
def workerStart (k : Kernel) (w : ℕ) (task : Task) : Option ℕ × Kernel :=
  let k := k.metricInc task.tenant gmkMetricTasksDequeued
  let k := k.metricInc task.tenant gmkMetricTasksDispatched
  let type := task.type
  match (if gmkMaxHandlers ≤ type.toNat then none else k.modules.dispatch type.toNat) with
  | none => (none, dispatchOutcome k w task (gmkFail gmkErrNotFound))
  | some h =>
      if k.modules.poisoned type.toNat then
        (none, dispatchOutcome (k.traceWrite task.tenant gmkEvPoison type.toUInt16 type 0) w task
          (gmkFail gmkErrPoisoned))
      else (some h, k.traceWrite task.tenant gmkEvTaskStart type.toUInt16 task.seq 0)

/-- The handler of `task` has returned `rc` and left the task as `task'`. -/
def workerFinish (k : Kernel) (w : ℕ) (task : Task) (rc : ℤ) (task' : Task) : Kernel :=
  dispatchOutcome (k.traceWrite task'.tenant gmkEvTaskEnd task.type.toUInt16 task'.seq (rcBits rc))
    w task' rc

theorem workerDispatchTask_parts (code : ℕ → HandlerFn) (k : Kernel) (w : ℕ) (task : Task) :
    workerDispatchTask code (k.metricInc task.tenant gmkMetricTasksDequeued) w task =
      match workerStart k w task with
      | (none, k) => k
      | (some h, k₁) =>
          let (rc, task', k₂) := code h ⟨task, w, k.clock.workerTick w⟩ k₁
          workerFinish k₂ w task rc task' := by
  unfold workerDispatchTask gmkModuleDispatch workerStart
  simp only
  set k₁ := (k.metricInc task.tenant gmkMetricTasksDequeued).metricInc task.tenant
    gmkMetricTasksDispatched
  generalize (if gmkMaxHandlers ≤ task.type.toNat then none
    else k₁.modules.dispatch task.type.toNat) = handler
  cases handler with
  | none => rfl
  | some h =>
    simp only
    by_cases hpoison : k₁.modules.poisoned task.type.toNat = true
    · simp only [if_pos hpoison]
    · simp only [if_neg hpoison]
      rfl

/-- The parts in a row are an iteration. -/
theorem gmkWorkerIteration_parts (code : ℕ → HandlerFn) (k : Kernel) (w : ℕ) :
    gmkWorkerIteration code k w =
      match workerPop k w with
      | (none, k) => k
      | (some task, k) =>
          match workerStart k w task with
          | (none, k) => k
          | (some h, k₁) =>
              let (rc, task', k₂) := code h ⟨task, w, k.clock.workerTick w⟩ k₁
              workerFinish k₂ w task rc task' := by
  unfold gmkWorkerIteration workerPop
  cases popWork k.sched w with
  | mk work sched =>
    cases work with
    | none => rfl
    | some task => exact workerDispatchTask_parts code { k with sched := sched } w task

/-! ## What is handed to the queues -/

/-- The messages that up to `n` pops take from a ring. -/
def takeMsgs : ℕ → RingMpmc Task → List Task
  | 0, _ => []
  | n + 1, r =>
      match gmkRingMpmcPop r with
      | .ok t r => t :: takeMsgs n r
      | _ => []

/-- The subscribers that a message of the channel is routed to. -/
def routeSubs (mode : ℕ) (subs : List ChanSub) : List ChanSub :=
  (if mode = gmkChanP2p then subs.take 1 else subs).filter ChanSub.active

def routeOffers (ch : ChanEntry) (msgs : List Task) : List (Task × ℤ) :=
  msgs.flatMap fun m => (routeSubs ch.mode (subsSnap ch)).map fun sub => (m, sub.workerId)

def drainOffers (k : Kernel) (c limit : ℕ) : List (Task × ℤ) :=
  if k.chan.nChannels ≤ c then []
  else routeOffers (k.chan.channels c)
    (takeMsgs (if limit = 0 then 2 ^ 32 - 1 else limit) (k.chan.channels c).ring)

/-- A bound channel is drained of one message once it has buffered one. -/
def bufferOffers (ch : ChanEntry) (task : Task) : List (Task × ℤ) :=
  match gmkRingMpmcPush ch.ring task with
  | .ok r =>
      if ch.mode = gmkChanP2p ∧ 0 < ch.nSubs then routeOffers ch (takeMsgs 1 r) else []
  | _ => []

def emitOffers (k : Kernel) (c : ℕ) (task : Task) : List (Task × ℤ) :=
  let ch := k.chan.channels c
  if k.chan.nChannels ≤ c ∨ ch.isOpen = false ∨
      reserveThreshold ch ≤ gmkRingMpmcCount ch.ring ∧ task.prio ≠ gmkPrioCritical then []
  else
    match fastSub ch with
    | some sub =>
        (task, sub.workerId) :: bufferOffers ch (k.sched.stamp (markEmit c task))
    | none => bufferOffers ch (markEmit c task)

def chanOffers (k : Kernel) : ChanOp → List (Task × ℤ)
  | .emit c task => emitOffers k c task
  | .drain c limit => drainOffers k c limit
  | .openAs _ _ _ _ _ | .sub _ _ _ | .close _ => []

/-- `_gmk_enqueue` refuses a task of priority `p` for worker `w`. -/
def Sched.Refuses (s : Sched) (x : Task × ℤ) : Prop := s.NoLq x.2 ∧ s.rq.Refuses x.1.prio

instance (s : Sched) : DecidablePred s.Refuses := fun _ => inferInstanceAs (Decidable (_ ∧ _))

/-! ## Operations that move no task and count none -/

/-- The queues hold what they held, and so do the two metrics. -/
structure Level (k k' : Kernel) : Prop where
  sched : ∃ n, k'.sched = { k.sched with nextSeq := n }
  enqueued : k'.metrics.global gmkMetricTasksEnqueued = k.metrics.global gmkMetricTasksEnqueued
  dequeued : k'.metrics.global gmkMetricTasksDequeued = k.metrics.global gmkMetricTasksDequeued

theorem Level.refl (k : Kernel) : Level k k := ⟨⟨_, rfl⟩, rfl, rfl⟩

theorem Level.trans {k k' k'' : Kernel} (h : Level k k') (h' : Level k' k'') : Level k k'' := by
  obtain ⟨n, hn⟩ := h.sched
  obtain ⟨m, hm⟩ := h'.sched
  refine ⟨⟨m, ?_⟩, h'.enqueued.trans h.enqueued, h'.dequeued.trans h.dequeued⟩
  rw [hm, hn]

theorem Level.of_eq {k k' : Kernel} (hs : k'.sched = k.sched) (hm : k'.metrics = k.metrics) :
    Level k k' := ⟨⟨k.sched.nextSeq, by rw [hs]⟩, by rw [hm], by rw [hm]⟩

/-- Neither end of the operation sees what else has changed. -/
theorem Level.congr {k₁ k₂ k k' : Kernel} (h : Level k₁ k₂) (hs : k₁.sched = k.sched)
    (hm : k₁.metrics = k.metrics) (hs' : k'.sched = k₂.sched) (hm' : k'.metrics = k₂.metrics) :
    Level k k' := ((of_eq hs hm).trans h).trans (of_eq hs' hm')

/-- Another metric is counted. -/
theorem Level.metricInc (k : Kernel) (tenant : UInt16) (id : ℕ) (hid : 1 < id)
    (hlt : id < gmkMetricCount) : Level k (k.metricInc tenant id) := by
  refine ⟨⟨_, rfl⟩, ?_, ?_⟩
  · rw [k.metricInc_global tenant hlt, Function.update_of_ne]
    unfold gmkMetricTasksEnqueued
    omega
  · rw [k.metricInc_global tenant hlt, Function.update_of_ne]
    unfold gmkMetricTasksDequeued
    omega

theorem Level.refuses {k k' : Kernel} (h : Level k k') {x : Task × ℤ} (hx : k.sched.Refuses x) :
    k'.sched.Refuses x := by
  obtain ⟨n, hn⟩ := h.sched
  rw [hn]
  exact hx

/-- A refused enqueue. -/
theorem gmkEnqueue_refused {s : Sched} {t : Task} {w : ℤ} (h : s.Refuses (t, w)) :
    gmkEnqueue s t w = (false, s.stamp t, { s with nextSeq := s.nextSeq + 1 }) := by
  have hfalse := (gmkEnqueue_eq_false_iff s t w).mpr h
  have hcase := gmkEnqueue_cases s t w
  generalize gmkEnqueue s t w = res at hfalse hcase ⊢
  cases hcase with
  | toLq i lq hw hi hpush => simp at hfalse
  | toRq rq hlq hpush => simp at hfalse
  | refused hlq hrq => rfl

theorem Level.nextSeq (k : Kernel) (n : UInt32) :
    Level k { k with sched := { k.sched with nextSeq := n } } := ⟨⟨n, rfl⟩, rfl, rfl⟩

section Routing
variable {k k' : Kernel} {c : ℕ} {t : Task}

theorem routeToDeadLetter_level (k : Kernel) (u : Task) : Level k (routeToDeadLetter k u) := by
  apply Level.of_eq (routeToDeadLetter_sched k u)
  simp only [routeToDeadLetter]
  split
  · split <;> rfl
  · rfl

theorem copyFailed_level (k : Kernel) (c : ℕ) (t u : Task) (i : ℕ) :
    Level k (copyFailed k c t u i) := by
  have hdrop : Level k (((countDrop k c).traceWrite t.tenant gmkEvChanDrop t.type.toUInt16
      (UInt32.ofNat c) (UInt32.ofNat i)).metricInc t.tenant gmkMetricChanDrops) :=
    (Level.metricInc _ t.tenant gmkMetricChanDrops (by decide) (by decide)).congr rfl rfl rfl rfl
  have hdead := routeToDeadLetter_level k u
  simp only [copyFailed]
  split
  · split
    · exact hdrop.congr rfl rfl rfl rfl
    · exact hdead.congr rfl rfl rfl rfl
  · split
    · exact hdrop
    · exact hdead

theorem deliverCopy_level (i : ℕ) {sub : ChanSub}
    (h : sub.active → k.sched.Refuses (t, sub.workerId)) : Level k (deliverCopy k c t i sub) := by
  unfold deliverCopy
  split
  next ha =>
    simp only [gmkEnqueue_refused (h ha), Bool.false_eq_true, if_false]
    exact (Level.nextSeq k _).trans (copyFailed_level _ c t _ i)
  next => exact .refl k

theorem deliverCopies_level {subs : List ChanSub} (i : ℕ)
    (h : ∀ sub ∈ subs.filter ChanSub.active, k.sched.Refuses (t, sub.workerId)) :
    Level k (deliverCopies c t i subs k) := by
  induction subs generalizing k i with
  | nil => exact .refl k
  | cons sub subs ih =>
    rw [deliverCopies]
    have hone : Level k (deliverCopy k c t i sub) :=
      deliverCopy_level i fun ha => h sub (by simp [ha])
    refine hone.trans (ih (i + 1) ?_)
    intro sub' hsub'
    apply hone.refuses
    apply h sub'
    simp only [List.mem_filter, List.mem_cons] at hsub' ⊢
    exact ⟨.inr hsub'.1, hsub'.2⟩

theorem drainTask_level {subs : List ChanSub}
    (h : ∀ sub ∈ routeSubs (k.chan.channels c).mode subs, k.sched.Refuses (t, sub.workerId)) :
    Level k (drainTask k c subs t) := by
  unfold drainTask
  split
  next hmode =>
    cases subs with
    | nil => exact .refl k
    | cons sub subs =>
      simp only [routeP2p]
      split
      next ha =>
        have hx := h sub (by simp [routeSubs, hmode, ha])
        simp only [gmkEnqueue_refused hx, Bool.false_eq_true, if_false]
        have hdead := (Level.nextSeq k (k.sched.nextSeq + 1)).trans
          (routeToDeadLetter_level _ (k.sched.stamp t))
        exact hdead.congr rfl rfl rfl rfl
      next => exact .refl k
  next hmode =>
    simp only [routeSubs, if_neg hmode] at h
    simp only [fanOut]
    split
    · exact (deliverCopies_level (k := { k with
        heap := retainTimes k.heap t.payloadPtr.toNat (nActive subs - 1) }) 0 h).congr rfl rfl rfl rfl
    · exact deliverCopies_level 0 h

/-- The dead-letter channel makes no dead letters, so that no drain pushes to its own ring. -/
def Kernel.DeadLossy (k : Kernel) : Prop :=
  (k.chan.channels gmkChanSysDropped).mode = gmkChanFanout ∧
    (k.chan.channels gmkChanSysDropped).guarantee = gmkChanLossy

theorem Kernel.DeadLossy.keeps (h : k.DeadLossy) (hk : k.Keeps k') : k'.DeadLossy :=
  ⟨(hk.entries _).mode.trans h.1, (hk.entries _).guarantee.trans h.2⟩

theorem Kernel.DeadLossy.ring (h : k.DeadLossy) (c : ℕ) (subs : List ChanSub) (t : Task) :
    ((drainTask k c subs t).chan.channels c).ring = (k.chan.channels c).ring := by
  by_cases hc : c = gmkChanSysDropped
  · subst hc
    rw [(fanned_drainTask h.1 h.2 subs t).entry]
  · exact drainTask_ring hc k c subs t

theorem drainLoop_level (hone : k.DeadLossy) {subs : List ChanSub} {n d : ℕ}
    (h : ∀ m ∈ takeMsgs n (k.chan.channels c).ring,
      ∀ sub ∈ routeSubs (k.chan.channels c).mode subs, k.sched.Refuses (m, sub.workerId))
    (hrun : drainLoop c subs n k = some (d, k')) : Level k k' := by
  induction n generalizing k d with
  | zero =>
    obtain ⟨-, rfl⟩ := Prod.mk.inj (Option.some.inj hrun)
    exact .refl k
  | succ n ih =>
    simp only [drainLoop] at hrun
    simp only [takeMsgs] at h
    cases hpop : gmkRingMpmcPop (k.chan.channels c).ring with
    | spin =>
      rw [hpop] at hrun
      simp at hrun
    | empty =>
      rw [hpop] at hrun
      obtain ⟨-, rfl⟩ := Prod.mk.inj (Option.some.inj hrun)
      exact .refl k
    | ok t r =>
      simp only [hpop] at hrun h
      obtain ⟨⟨m, k''⟩, hloop, he⟩ := Option.map_eq_some_iff.mp hrun
      obtain ⟨-, rfl⟩ := Prod.mk.inj he
      have hkeeps₁ : k.Keeps (k.setRing c r) := .pop hpop
      have hone₁ := hone.keeps hkeeps₁
      have hkeeps₂ := hkeeps₁.trans (.drainTask (k.setRing c r) c subs t)
      have hring : ((drainTask (k.setRing c r) c subs t).chan.channels c).ring = r := by
        rw [hone₁.ring]
        simp
      have hlevel : Level k (drainTask (k.setRing c r) c subs t) := by
        refine (drainTask_level (k := k.setRing c r) ?_).congr rfl rfl rfl rfl
        intro sub hsub
        rw [(hkeeps₁.entries c).mode] at hsub
        exact h t (by simp) sub hsub
      refine hlevel.trans (ih (hone.keeps hkeeps₂) ?_ hloop)
      intro m hm sub hsub
      rw [hring] at hm
      rw [(hkeeps₂.entries c).mode] at hsub
      exact hlevel.refuses (h m (by simp [hm]) sub hsub)

theorem gmkChanDrain_level (hone : k.DeadLossy) {limit d : ℕ}
    (h : ∀ x ∈ drainOffers k c limit, k.sched.Refuses x)
    (hrun : gmkChanDrain k c limit = some (d, k')) : Level k k' := by
  unfold gmkChanDrain at hrun
  split at hrun
  next =>
    obtain ⟨-, rfl⟩ := Prod.mk.inj (Option.some.inj hrun)
    exact .refl k
  next hc =>
    simp only at hrun
    split at hrun
    next =>
      obtain ⟨-, rfl⟩ := Prod.mk.inj (Option.some.inj hrun)
      exact .refl k
    next =>
      obtain ⟨⟨m, k₁⟩, hloop, he⟩ := Option.map_eq_some_iff.mp hrun
      obtain ⟨-, rfl⟩ := Prod.mk.inj he
      have hlevel : Level k k₁ := by
        refine drainLoop_level hone ?_ hloop
        intro m hm sub hsub
        apply h
        rw [drainOffers, if_neg hc, routeOffers, List.mem_flatMap]
        exact ⟨m, hm, List.mem_map_of_mem hsub⟩
      dsimp only
      split
      · exact hlevel.congr rfl rfl rfl rfl
      · exact hlevel

theorem emitDone_level (k : Kernel) (c : ℕ) (t : Task) : Level k (emitDone k c t) :=
  (Level.metricInc (countEmit k c) t.tenant gmkMetricChanEmits (by decide) (by decide)).congr
    rfl rfl rfl rfl

theorem emitFull_level (k : Kernel) (c : ℕ) (t : Task) : Level k (emitFull k c t).2.2 :=
  (Level.metricInc _ t.tenant gmkMetricChanFullCount (by decide) (by decide)).congr rfl rfl rfl rfl

theorem emitBuffer_level (hone : k.DeadLossy) (hc : c < k.chan.nChannels)
    (hopen : (k.chan.channels c).isOpen = true) {u : Task} {res : ℤ × Task × Kernel}
    (h : ∀ x ∈ bufferOffers (k.chan.channels c) u, k.sched.Refuses x)
    (hrun : emitBuffer k c u = some res) : Level k res.2.2 := by
  unfold emitBuffer at hrun
  simp only at hrun
  unfold bufferOffers at h
  cases hpush : gmkRingMpmcPush (k.chan.channels c).ring u with
  | spin =>
    rw [hpush] at hrun
    simp at hrun
  | full =>
    rw [hpush] at hrun
    obtain rfl := Option.some.inj hrun
    exact emitFull_level k c u
  | ok r =>
    simp only [hpush] at hrun h
    have hlevel : Level k (emitDone (k.setRing c r) c u) :=
      (emitDone_level (k.setRing c r) c u).congr rfl rfl rfl rfl
    have hentry : (emitDone (k.setRing c r) c u).chan.channels c = { k.chan.channels c with
        ring := r
        emitCount := (k.chan.channels c).emitCount + 1 } := by simp
    split at hrun
    next hbound =>
      rw [if_pos hbound] at h
      obtain ⟨⟨d, k₁⟩, hdrain, rfl⟩ := Option.map_eq_some_iff.mp hrun
      refine hlevel.trans (gmkChanDrain_level ?_ ?_ hdrain)
      · exact hone.keeps (.buffered (t := u) (s := k.sched) hopen hpush)
      · intro x hx
        apply hlevel.refuses
        apply h
        have hc' : ¬ (emitDone (k.setRing c r) c u).chan.nChannels ≤ c := not_le.mpr hc
        rw [drainOffers, if_neg hc', hentry] at hx
        exact hx
    next =>
      obtain rfl := Option.some.inj hrun
      exact hlevel

theorem gmkChanEmit_level (hone : k.DeadLossy) {res : ℤ × Task × Kernel}
    (h : ∀ x ∈ emitOffers k c t, k.sched.Refuses x) (hrun : gmkChanEmit k c t = some res) :
    Level k res.2.2 := by
  unfold gmkChanEmit at hrun
  unfold emitOffers at h
  simp only at hrun h
  split at hrun
  next =>
    obtain rfl := Option.some.inj hrun
    exact .refl k
  next hc =>
    split at hrun
    next =>
      obtain rfl := Option.some.inj hrun
      exact .refl k
    next hopen =>
      split at hrun
      next =>
        obtain rfl := Option.some.inj hrun
        exact emitFull_level k c _
      next hroom =>
        rw [markEmit_prio] at hroom
        rw [if_neg (by tauto)] at h
        split at hrun
        next sub hfast =>
          simp only [hfast] at h
          have hx : k.sched.Refuses (markEmit c t, sub.workerId) := by
            have ht := h (t, sub.workerId) (by simp)
            exact ⟨ht.1, by simpa using ht.2⟩
          simp only [gmkEnqueue_refused hx, Bool.false_eq_true, if_false] at hrun
          have hlevel := Level.nextSeq k (k.sched.nextSeq + 1)
          refine hlevel.trans (emitBuffer_level (k := { k with
            sched := { k.sched with nextSeq := k.sched.nextSeq + 1 } }) hone (not_le.mp hc)
              (Bool.eq_true_of_not_eq_false hopen) ?_ hrun)
          intro x hx'
          exact hlevel.refuses (h x (List.mem_cons_of_mem _ hx'))
        next hfast =>
          simp only [hfast] at h
          exact emitBuffer_level hone (not_le.mp hc) (Bool.eq_true_of_not_eq_false hopen) h hrun

end Routing

theorem gmkModuleRecordFail_metrics (k : Kernel) (type : UInt32) :
    (gmkModuleRecordFail k type).metrics = k.metrics := by
  unfold gmkModuleRecordFail
  split
  · rfl
  · simp only
    split <;> rfl

/-- A dispatch that ends without a retry, or with a refused one. -/
theorem dispatchOutcome_level {k : Kernel} (w : ℕ) {t : Task} {rc : ℤ}
    (h : rc = gmkRetry → k.sched.Refuses (t, -1)) : Level k (dispatchOutcome k w t rc) := by
  unfold dispatchOutcome
  split
  next =>
    simp only
    split <;> exact .of_eq rfl rfl
  next =>
    split
    next hretry =>
      simp only [gmkEnqueue_refused (h hretry)]
      exact (Level.nextSeq k _).trans
        (Level.metricInc _ _ gmkMetricTasksRetried (by decide) (by decide))
    next =>
      simp only
      have hfail : Level k (gmkModuleRecordFail k t.type) :=
        .of_eq (gmkModuleRecordFail_sched k _) (gmkModuleRecordFail_metrics k _)
      split
      · have hrelease (ptr : ℕ) : Level k ((gmkModuleRecordFail k t.type).release ptr) :=
          hfail.congr rfl rfl rfl rfl
        exact (hrelease _).trans
          (Level.metricInc _ _ gmkMetricTasksFailed (by decide) (by decide))
      · exact hfail.trans (Level.metricInc _ _ gmkMetricTasksFailed (by decide) (by decide))

theorem dispatchOutcome_chan (k : Kernel) (w : ℕ) (t : Task) (rc : ℤ) :
    (dispatchOutcome k w t rc).chan = k.chan := by
  unfold dispatchOutcome
  split
  next =>
    simp only
    split <;> rfl
  next =>
    split
    next => rfl
    next =>
      simp only [Kernel.metricInc_chan]
      split <;> simp

theorem enqueueAll_refused {s : Sched} {w : ℕ} {d : List Task}
    (h : ∀ t ∈ d, s.Refuses (t, (w : ℤ))) : ∃ n, enqueueAll w d s = { s with nextSeq := n } := by
  induction d generalizing s with
  | nil => exact ⟨s.nextSeq, rfl⟩
  | cons t d ih =>
    rw [enqueueAll, gmkEnqueue_refused (h t List.mem_cons_self)]
    obtain ⟨n, hn⟩ := ih (s := { s with nextSeq := s.nextSeq + 1 })
      fun u hu => h u (List.mem_cons_of_mem _ hu)
    exact ⟨n, hn⟩

/-! ## The registry -/

theorem gmkChanOpen_level (s : ChanWorld) (name : List UInt8) (mode guarantee slots : ℕ)
    (granted : Bool) : Level s.kernel (s.gmkChanOpen name mode guarantee slots granted).2.kernel := by
  unfold ChanWorld.gmkChanOpen
  split
  · exact .refl _
  · split
    · exact .refl _
    · simp only
      split <;> exact .of_eq rfl rfl

theorem ChanWorld.step_level {s : ChanWorld} (hdead : s.kernel.DeadLossy) {op : ChanOp}
    (h : ∀ x ∈ chanOffers s.kernel op, s.kernel.sched.Refuses x) :
    Level s.kernel (s.step op).kernel := by
  unfold ChanWorld.step
  split
  · exact .refl _
  cases op with
  | openAs name mode guarantee slots granted => exact gmkChanOpen_level s _ mode guarantee _ granted
  | sub c m w =>
    rcases gmkChanSub_cases s.kernel c m w with he | ⟨-, -, -, -, he⟩
    · simp only [he]
      exact .refl _
    · simp only [he]
      exact .of_eq rfl rfl
  | emit c t =>
    simp only
    split
    next rc t' k hk => exact gmkChanEmit_level hdead h hk
    next => exact .refl _
  | drain c limit =>
    simp only
    split
    next n k hk => exact gmkChanDrain_level hdead h hk
    next => exact .refl _
  | close c =>
    simp only [gmkChanClose]
    split
    · exact .refl _
    · split
      · exact .refl _
      · exact .of_eq rfl rfl

/-- No operation reopens the dead-letter channel in another mode. -/
theorem ChanWorld.step_deadLossy {s : ChanWorld} (hinv : s.Inv) (h : s.kernel.DeadLossy)
    (op : ChanOp) : (s.step op).kernel.DeadLossy := by
  have hset {k : Kernel} {c : ℕ} {ch : ChanEntry}
      (hk : k.chan.channels = (s.kernel.setChan c ch).chan.channels)
      (hch : c = gmkChanSysDropped → ch.mode = gmkChanFanout ∧ ch.guarantee = gmkChanLossy) :
      k.DeadLossy := by
    by_cases hc : c = gmkChanSysDropped
    · subst hc
      simpa [Kernel.DeadLossy, hk] using hch rfl
    · rw [Kernel.DeadLossy, hk, Kernel.setChan_of_ne _ _ _ (Ne.symm hc)]
      exact h
  have hnew {ch : ChanEntry} (hc : s.nChannels = gmkChanSysDropped) :
      ch.mode = gmkChanFanout ∧ ch.guarantee = gmkChanLossy := by
    have htwo := hinv.two_le
    rw [hc] at htwo
    exact absurd htwo (by decide)
  unfold ChanWorld.step
  split
  · exact h
  cases op with
  | openAs name mode guarantee slots granted =>
    have hcase := s.gmkChanOpen_cases name mode guarantee slots.toNat_lt granted
    simp only
    generalize (s.gmkChanOpen name mode guarantee slots.toNat granted).2 = s' at hcase ⊢
    cases hcase with
    | refused => exact h
    | failed ch names => exact hset rfl hnew
    | opened k ch names hroom hn hentries hsubs hring => exact hset hentries hnew
  | sub c m w =>
    rcases gmkChanSub_cases s.kernel c m w with he | ⟨-, -, -, -, he⟩
    · simp only [he]
      exact h
    · simp only [he]
      exact hset rfl fun hc => by subst hc; exact h
  | emit c t =>
    simp only
    split
    next rc t' k hk => exact h.keeps (.emit hk)
    next => exact h
  | drain c limit =>
    simp only
    split
    next n k hk => exact h.keeps (.drain hk)
    next => exact h
  | close c =>
    rcases gmkChanClose_cases s.kernel c with he | ⟨-, hc, he⟩
    · simp only [he]
      exact h
    · exact hset (by rw [he]) fun hc' => absurd hc (by omega)

/-- The queues hold fewer tasks than a metric can count. -/
theorem Sched.readyTasks_card_lt {s : Sched} (h : s.nWorkers ≤ gmkMaxWorkers) :
    Multiset.card s.readyTasks < 2 ^ 64 := by
  have hlq : Multiset.card s.lqTasks ≤ s.nWorkers * 2 ^ 31 := by
    rw [Sched.lqTasks, Multiset.card_sum]
    refine (Finset.sum_le_card_nsmul _ _ (2 ^ 31) ?_).trans (by simp)
    intro i _
    exact (s.lqs i).ring.length_le.trans (s.lqs i).ring.holds.cap_le
  have hrq : Multiset.card s.rq.tasks ≤ gmkPriorityCount * 2 ^ 31 := by
    rw [Rq.tasks, Multiset.card_sum]
    refine (Finset.sum_le_card_nsmul _ _ (2 ^ 31) ?_).trans (by simp)
    intro p _
    exact (s.rq.queues p).length_le.trans (s.rq.queues p).cap_le
  have hover : s.overflow.items.length ≤ 2 ^ 31 := s.overflow.length_le.trans s.overflow.cap_le
  rw [Sched.readyTasks, Multiset.card_add, Multiset.card_add, Multiset.coe_card]
  simp only [gmkMaxWorkers, gmkPriorityCount] at h hrq
  omega

/-! ## Runs -/

/-- Where a worker is in its iteration. -/
inductive WorkerPc where
  | idle
  | popped (task : Task)
  | running (task : Task)
  deriving DecidableEq

/-- One for a task that has been popped and not counted. -/
def WorkerPc.uncounted : WorkerPc → ℕ
  | .popped _ => 1
  | .idle | .running _ => 0

structure MetricRun extends ChanWorld where
  worker : ℕ → WorkerPc

/-- The calls that a handler makes are operations of their own, between the start and the finish
of its worker's iteration. -/
inductive MetricOp where
  | submit (task : Task)
  | chan (op : ChanOp)
  | evqPush (task : Task)
  | pop (w : ℕ)
  | start (w : ℕ)
  | finish (w : ℕ) (rc : ℤ) (task' : Task)

namespace MetricRun

/-- A worker that is not at the step leaves the state, and so does everything after a call that
has not returned. -/
def step (s : MetricRun) (op : MetricOp) : MetricRun :=
  if s.hung then s
  else
    match op with
    | .submit task => { s with kernel := (gmkSubmit s.kernel true task).2 }
    | .chan op => { s with toChanWorld := s.toChanWorld.step op }
    | .evqPush task =>
        match gmkEvqPush s.kernel.sched.evq task with
        | some evq => { s with kernel := { s.kernel with sched := s.kernel.sched.withEvq evq } }
        | none => s
    | .pop w =>
        if w < s.kernel.sched.nWorkers ∧ s.worker w = .idle then
          match workerPop s.kernel w with
          | (some task, k) =>
              { s with kernel := k, worker := Function.update s.worker w (.popped task) }
          | (none, k) => { s with kernel := k }
        else s
    | .start w =>
        match s.worker w with
        | .popped task =>
            let (handler, k) := workerStart s.kernel w task
            { s with
              kernel := k
              worker := Function.update s.worker w
                (if handler.isSome then .running task else .idle) }
        | _ => s
    | .finish w rc task' =>
        match s.worker w with
        | .running task =>
            { s with
              kernel := workerFinish s.kernel w task rc task'
              worker := Function.update s.worker w .idle }
        | _ => s

/-- The tasks that an operation hands to `_gmk_enqueue` without counting them. -/
def offers (s : MetricRun) : MetricOp → List (Task × ℤ)
  | .submit _ | .evqPush _ | .start _ => []
  | .chan op => chanOffers s.kernel op
  | .pop w =>
      if w < s.kernel.sched.nWorkers ∧ s.worker w = .idle ∧ (popWork s.kernel.sched w).1 = none then
        (takeDue (s.kernel.clock.workerTick w) gmkEvqDrainLimit s.kernel.sched.evq).1.map
          fun task => (task, (w : ℤ))
      else []
  | .finish w rc task' =>
      match s.worker w with
      | .running _ => if rc = gmkRetry then [(task', -1)] else []
      | _ => []

/-- The queues refuse whatever is handed to them without being counted. -/
def Counted (s : MetricRun) (op : MetricOp) : Prop :=
  ∀ x ∈ s.offers op, s.kernel.sched.Refuses x

instance (s : MetricRun) : DecidablePred s.Counted :=
  fun op => inferInstanceAs (Decidable (∀ x ∈ s.offers op, _))

/-- The state that `gmk_boot` leaves. -/
def start (k : Kernel) : MetricRun := { ChanWorld.start k with worker := fun _ => .idle }

/-- Outside the iterations the two metrics tell how many tasks are in the queues. -/
def Accounted (s : MetricRun) : Prop :=
  (∀ w < s.kernel.sched.nWorkers, s.worker w = .idle) →
    (s.kernel.metrics.global gmkMetricTasksEnqueued -
      s.kernel.metrics.global gmkMetricTasksDequeued).toNat =
      Multiset.card s.kernel.sched.readyTasks

/-! ## The invariant -/

/-- The metric `e` is ahead of `d` by `m` tasks, on 64 bits. -/
def Ahead (e d : UInt64) (m : ℕ) : Prop := e = d + UInt64.ofNat m

theorem Ahead.enqueue {e d : UInt64} {m : ℕ} (h : Ahead e d m) : Ahead (e + 1) d (m + 1) := by
  unfold Ahead at *
  rw [h, UInt64.ofNat_add, UInt64.add_assoc]
  rfl

theorem Ahead.dequeue {e d : UInt64} {m : ℕ} (h : Ahead e d (m + 1)) : Ahead e (d + 1) m := by
  unfold Ahead at *
  rw [h, UInt64.ofNat_add, UInt64.add_comm (UInt64.ofNat m), UInt64.add_assoc]
  rfl

theorem Ahead.sub_toNat {e d : UInt64} {m : ℕ} (h : Ahead e d m) (hm : m < 2 ^ 64) :
    (e - d).toNat = m := by
  unfold Ahead at h
  rw [h, UInt64.add_comm, UInt64.add_sub_cancel, UInt64.toNat_ofNat_of_lt' hm]

/-- The metrics account for the tasks in the queues and those that are not counted yet. -/
structure Inv (n : ℕ) (s : MetricRun) : Prop where
  workers : s.kernel.sched.nWorkers = n
  inside : ∀ w task, s.worker w = .popped task → w < n
  registry : s.toChanWorld.Inv
  dead : s.kernel.DeadLossy
  ahead : Ahead (s.kernel.metrics.global gmkMetricTasksEnqueued)
    (s.kernel.metrics.global gmkMetricTasksDequeued)
    (Multiset.card s.kernel.sched.readyTasks + ∑ w ∈ Finset.range n, (s.worker w).uncounted)

section Steps
variable {n : ℕ} {s : MetricRun} {k : Kernel} {w : ℕ}

/-- An operation of which neither queues nor metrics tell. -/
theorem Inv.level (h : Inv n s) {c : ChanWorld} (hl : Level s.kernel c.kernel) (hc : c.Inv)
    (hd : c.kernel.DeadLossy) : Inv n { s with toChanWorld := c } := by
  obtain ⟨m, hm⟩ := hl.sched
  refine ⟨?_, h.inside, hc, hd, ?_⟩
  · show c.kernel.sched.nWorkers = n
    rw [hm]
    exact h.workers
  · have hready : c.kernel.sched.readyTasks = s.kernel.sched.readyTasks := by
      rw [hm]
      rfl
    simp only [hl.enqueued, hl.dequeued, hready]
    exact h.ahead

/-- The registry does not see the rest of the kernel. -/
theorem Inv.registry_of_chan (h : Inv n s) (hk : k.chan = s.kernel.chan) :
    ChanWorld.Inv { s.toChanWorld with kernel := k } := h.registry.keeps (.of_chan hk)

theorem Inv.kernel (h : Inv n s) (hl : Level s.kernel k) (hk : k.chan = s.kernel.chan) :
    Inv n { s with kernel := k } :=
  h.level (c := { s.toChanWorld with kernel := k }) hl (h.registry_of_chan hk)
    (h.dead.keeps (.of_chan hk))

theorem Inv.submit (h : Inv n s) (task : Task) :
    Inv n { s with kernel := (gmkSubmit s.kernel true task).2 } := by
  simp only [gmkSubmit]
  split
  · exact h
  have hready := gmkEnqueue_readyTasks s.kernel.sched task (-1)
  have hcase := gmkEnqueue_cases s.kernel.sched task (-1)
  generalize gmkEnqueue s.kernel.sched task (-1) = res at hready hcase ⊢
  obtain ⟨ok, task', sched⟩ := res
  have hworkers : sched.nWorkers = n := by
    rw [← h.workers]
    cases hcase <;> rfl
  cases ok with
  | true =>
    simp only [if_true] at hready ⊢
    refine ⟨hworkers, h.inside, h.registry_of_chan rfl, h.dead, ?_⟩
    rw [Kernel.metricInc_global _ _ (by decide), Function.update_self,
      Function.update_of_ne (by decide), Kernel.metricInc_sched]
    simp only [hready, Multiset.card_cons]
    rw [Nat.add_right_comm]
    exact h.ahead.enqueue
  | false =>
    simp only [Bool.false_eq_true, if_false] at hready ⊢
    refine ⟨hworkers, h.inside, h.registry_of_chan rfl, h.dead, ?_⟩
    show Ahead _ _ (Multiset.card sched.readyTasks + _)
    rw [hready]
    exact h.ahead

/-- A worker inside the pool goes to `pc`. -/
theorem Inv.inside_update (h : Inv n s) {pc : WorkerPc} (hpc : ∀ task, pc = .popped task → w < n) :
    ∀ v task, Function.update s.worker w pc v = .popped task → v < n := by
  intro v task hv
  by_cases hvw : v = w
  · rw [hvw, Function.update_self] at hv
    rw [hvw]
    exact hpc task hv
  · rw [Function.update_of_ne hvw] at hv
    exact h.inside v task hv

/-- An iteration that finds work has popped a task. -/
theorem Inv.popSome (h : Inv n s) (hw : w < n) (hidle : s.worker w = .idle) {task : Task}
    {sched : Sched} (hpop : popWork s.kernel.sched w = (some task, sched)) :
    Inv n { s with
      kernel := { s.kernel with sched := sched }
      worker := Function.update s.worker w (.popped task) } := by
  obtain ⟨hready, -, hn⟩ := popWork_ready (h.workers.symm ▸ hw) hpop
  have hsum := Tally.sum_update_add (Finset.range n) WorkerPc.uncounted s.worker
    (Finset.mem_range.mpr hw) (.popped task)
  rw [hidle] at hsum
  refine ⟨hn.trans h.workers, ?_, h.registry_of_chan rfl, h.dead, ?_⟩
  · exact h.inside_update fun _ _ => hw
  · have hahead := h.ahead
    have hcount : Multiset.card s.kernel.sched.readyTasks +
        ∑ v ∈ Finset.range n, (s.worker v).uncounted = Multiset.card sched.readyTasks +
        ∑ v ∈ Finset.range n, (Function.update s.worker w (.popped task) v).uncounted := by
      rw [hready, Multiset.card_cons]
      simp only [WorkerPc.uncounted] at hsum ⊢
      omega
    rw [hcount] at hahead
    exact hahead

/-- An iteration without work fires events, which the queues refuse, or parks. -/
theorem Inv.popNone (h : Inv n s) {sched : Sched}
    (hpop : popWork s.kernel.sched w = (none, sched))
    (hx : ∀ t ∈ (takeDue (s.kernel.clock.workerTick w) gmkEvqDrainLimit s.kernel.sched.evq).1,
      s.kernel.sched.Refuses (t, (w : ℤ))) :
    Inv n { s with kernel := workerEvents { s.kernel with sched := sched } w } := by
  obtain ⟨hsched, hqueues⟩ := popWork_none hpop
  have hevq : sched.evq = s.kernel.sched.evq := by rw [hsched]
  have hready : sched.readyTasks = s.kernel.sched.readyTasks := by
    rw [hsched, Sched.readyTasks, Sched.readyTasks, Rq.tasks, Rq.tasks, hqueues]
    rfl
  have hn : sched.nWorkers = s.kernel.sched.nWorkers := by rw [hsched]
  have hrefuses : ∀ t ∈ (takeDue (s.kernel.clock.workerTick w) gmkEvqDrainLimit sched.evq).1,
      sched.Refuses (t, (w : ℤ)) := by
    intro t ht
    rw [hevq] at ht
    obtain ⟨hlq, hrq⟩ := hx t ht
    refine ⟨?_, ?_⟩
    · rw [hsched]
      exact hlq
    · rw [Rq.Refuses, hqueues]
      exact hrq
  obtain ⟨m, hm⟩ := enqueueAll_refused hrefuses
  have hdrain := evqDrain_sched w (s.kernel.clock.workerTick w) gmkEvqDrainLimit sched
  rw [hm] at hdrain
  -- the events are gone from their queue, and in no other
  set sched' := (evqDrain w (s.kernel.clock.workerTick w) gmkEvqDrainLimit sched).2 with hsched'
  have hbase : Inv n { s with kernel := { s.kernel with sched := sched' } } := by
    refine ⟨?_, h.inside, h.registry_of_chan rfl, h.dead, ?_⟩
    · show sched'.nWorkers = n
      rw [hdrain, ← h.workers, ← hn]
      rfl
    · have hready' : sched'.readyTasks = s.kernel.sched.readyTasks := by
        rw [hdrain, ← hready]
        rfl
      show Ahead _ _ (Multiset.card sched'.readyTasks + _)
      rw [hready']
      exact h.ahead
  simp only [workerEvents, ← hsched']
  split
  · exact hbase
  · have hparks := Level.metricInc { s.kernel with sched := sched' } 0 gmkMetricWorkerParks
      (by decide) (by decide)
    have hwakes := Level.metricInc (({ s.kernel with sched := sched' }.metricInc 0
      gmkMetricWorkerParks).traceWrite 0 gmkEvWorkerPark 0 (UInt32.ofNat w) 0) 0
        gmkMetricWorkerWakes (by decide) (by decide)
    exact hbase.kernel (hparks.trans (hwakes.congr rfl rfl rfl rfl)) rfl

theorem workerStart_level (k : Kernel) (w : ℕ) (task : Task) :
    Level (k.metricInc task.tenant gmkMetricTasksDequeued) (workerStart k w task).2 ∧
      (workerStart k w task).2.chan = k.chan := by
  unfold workerStart
  simp only
  set k₁ := k.metricInc task.tenant gmkMetricTasksDequeued
  have hdispatched := Level.metricInc k₁ task.tenant gmkMetricTasksDispatched (by decide) (by decide)
  have hfail (e : ℕ) (he : gmkFail e ≠ gmkRetry) (k₂ : Kernel)
      (hs : k₂.sched = (k₁.metricInc task.tenant gmkMetricTasksDispatched).sched)
      (hm : k₂.metrics = (k₁.metricInc task.tenant gmkMetricTasksDispatched).metrics) :
      Level k₁ (dispatchOutcome k₂ w task (gmkFail e)) :=
    (hdispatched.congr rfl rfl hs hm).trans (dispatchOutcome_level w fun hc => absurd hc he)
  split
  next => exact ⟨hfail gmkErrNotFound (by decide) _ rfl rfl, dispatchOutcome_chan _ w task _⟩
  next =>
    split
    next => exact ⟨hfail gmkErrPoisoned (by decide) _ rfl rfl, dispatchOutcome_chan _ w task _⟩
    next => exact ⟨hdispatched.congr rfl rfl rfl rfl, rfl⟩

/-- A worker moves on to where no task is uncounted. -/
theorem Inv.moveOn (h : Inv n s) {pc : WorkerPc} (hpc : pc.uncounted = 0)
    (hold : (s.worker w).uncounted = 0) :
    Inv n { s with worker := Function.update s.worker w pc } := by
  refine ⟨h.workers, ?_, h.registry, h.dead, ?_⟩
  · refine h.inside_update ?_
    rintro task rfl
    exact absurd hpc (by simp [WorkerPc.uncounted])
  · have hsum : ∑ v ∈ Finset.range n, (Function.update s.worker w pc v).uncounted =
        ∑ v ∈ Finset.range n, (s.worker v).uncounted := by
      apply Finset.sum_congr rfl
      intro v _
      by_cases hvw : v = w
      · rw [hvw, Function.update_self, hpc, hold]
      · rw [Function.update_of_ne hvw]
    show Ahead _ _ (_ + ∑ v ∈ Finset.range n, (Function.update s.worker w pc v).uncounted)
    rw [hsum]
    exact h.ahead

/-- The popped task is counted, and without a handler the iteration is over. -/
theorem Inv.start (h : Inv n s) {task : Task} (hpc : s.worker w = .popped task) :
    Inv n { s with
      kernel := (workerStart s.kernel w task).2
      worker := Function.update s.worker w
        (if (workerStart s.kernel w task).1.isSome then .running task else .idle) } := by
  have hw := h.inside w task hpc
  obtain ⟨hlevel, hchan⟩ := workerStart_level s.kernel w task
  -- the metric and the worker move together
  have hcounted : Inv n { s with
      kernel := s.kernel.metricInc task.tenant gmkMetricTasksDequeued
      worker := Function.update s.worker w .idle } := by
    have hsum := Tally.sum_update_add (Finset.range n) WorkerPc.uncounted s.worker
      (Finset.mem_range.mpr hw) .idle
    rw [hpc] at hsum
    refine ⟨h.workers, ?_, h.registry_of_chan rfl, h.dead, ?_⟩
    · exact h.inside_update fun _ hv => absurd hv (by simp)
    · rw [Kernel.metricInc_global _ _ (by decide), Function.update_self,
        Function.update_of_ne (by decide), Kernel.metricInc_sched]
      have hahead := h.ahead
      have hcount : Multiset.card s.kernel.sched.readyTasks +
          ∑ v ∈ Finset.range n, (s.worker v).uncounted = Multiset.card s.kernel.sched.readyTasks +
          ∑ v ∈ Finset.range n, (Function.update s.worker w .idle v).uncounted + 1 := by
        simp only [WorkerPc.uncounted] at hsum ⊢
        omega
      rw [hcount] at hahead
      exact hahead.dequeue
  have hnext : (if (workerStart s.kernel w task).1.isSome then WorkerPc.running task
      else .idle).uncounted = 0 := by split <;> rfl
  have hdone := (hcounted.kernel hlevel hchan).moveOn (w := w) hnext (by simp [WorkerPc.uncounted])
  simpa only [Function.update_idem] using hdone

theorem Inv.finish (h : Inv n s) {task : Task} (hpc : s.worker w = .running task) {rc : ℤ}
    {task' : Task} (hx : rc = gmkRetry → s.kernel.sched.Refuses (task', -1)) :
    Inv n { s with
      kernel := workerFinish s.kernel w task rc task'
      worker := Function.update s.worker w .idle } := by
  have hlevel : Level s.kernel (workerFinish s.kernel w task rc task') :=
    (dispatchOutcome_level (k := s.kernel.traceWrite task'.tenant gmkEvTaskEnd task.type.toUInt16
      task'.seq (rcBits rc)) w hx).congr rfl rfl rfl rfl
  have hchan : (workerFinish s.kernel w task rc task').chan = s.kernel.chan := by
    rw [workerFinish, dispatchOutcome_chan]
    rfl
  exact (h.kernel hlevel hchan).moveOn rfl (by rw [hpc]; rfl)

theorem Inv.chan (h : Inv n s) {op : ChanOp}
    (hx : ∀ x ∈ chanOffers s.kernel op, s.kernel.sched.Refuses x) :
    Inv n { s with toChanWorld := s.toChanWorld.step op } :=
  h.level (ChanWorld.step_level h.dead hx) (h.registry.step op).1
    (ChanWorld.step_deadLossy h.registry h.dead op)

theorem Inv.step (h : Inv n s) {op : MetricOp} (hg : s.Counted op) : Inv n (s.step op) := by
  unfold MetricRun.step
  split
  · exact h
  cases op with
  | submit task => exact h.submit task
  | chan op => exact h.chan hg
  | evqPush task =>
    simp only
    split
    next evq _ => exact ⟨h.workers, h.inside, h.registry_of_chan rfl, h.dead, h.ahead⟩
    next => exact h
  | pop w =>
    simp only
    split
    next hw =>
      simp only [workerPop]
      rcases hpop : popWork s.kernel.sched w with ⟨work, sched⟩
      cases work with
      | some task => exact h.popSome (h.workers ▸ hw.1) hw.2 hpop
      | none =>
        apply h.popNone hpop
        intro t ht
        apply hg
        rw [offers, if_pos ⟨hw.1, hw.2, by rw [hpop]⟩]
        exact List.mem_map_of_mem ht
    next => exact h
  | start w =>
    simp only
    split
    next task hpc => exact h.start hpc
    next => exact h
  | finish w rc task' =>
    simp only
    split
    next task hpc =>
      apply h.finish hpc
      intro hretry
      apply hg
      simp [offers, hpc, hretry]
    next => exact h

end Steps

theorem start_inv {cfg : BootCfg} {k : Kernel} (h : bootKernel cfg = some k) :
    Inv cfg.nWorkers (start k) := by
  obtain ⟨-, -, -, -, hsched, hmetrics, -⟩ := bootKernel_eq_some h
  refine ⟨?_, ?_, ChanWorld.start_inv k, ⟨rfl, rfl⟩, ?_⟩
  · show k.sched.nWorkers = _
    rw [hsched]
    rfl
  · intro w task hpc
    simp [start] at hpc
  · show Ahead (k.metrics.global _) (k.metrics.global _) (Multiset.card k.sched.readyTasks + _)
    rw [hsched, hmetrics, gmkSchedInit_readyTasks]
    simp [start, WorkerPc.uncounted, Ahead, gmkMetricsInit]

/-- In every run in which the queues refuse whatever is handed to them without being counted, the
metrics account for the queues. -/
theorem accounted_of_counted {cfg : BootCfg} {k : Kernel} (hboot : bootKernel cfg = some k)
    {s : MetricRun} (hrun : Reach (fun s op s' => s' = s.step op) Counted (start k) s) :
    s.Accounted := by
  have hinv : Inv cfg.nWorkers s := by
    refine Reach.inv (I := Inv cfg.nWorkers) (start_inv hboot) ?_ hrun
    rintro s op _ hs hg rfl
    exact hs.step hg
  intro hidle
  apply Ahead.sub_toNat
  · have hzero : ∑ w ∈ Finset.range cfg.nWorkers, (s.worker w).uncounted = 0 := by
      apply Finset.sum_eq_zero
      intro w hw
      rw [hidle w (hinv.workers.symm ▸ Finset.mem_range.mp hw)]
      rfl
    simpa only [hzero, Nat.add_zero] using hinv.ahead
  · apply Sched.readyTasks_card_lt
    rw [hinv.workers]
    exact (bootKernel_eq_some hboot).1

/-- Two submissions, a message that nobody has subscribed to, and an iteration whose handler
returns `rc`. -/
def submitted (rc : ℤ) : List MetricOp :=
  [.submit {}, .submit {}, .chan (.emit gmkChanSysDropped {}), .pop 0, .start 0, .finish 0 rc {}]

theorem accounted_of_counted_two :
    ((submitted gmkOk).foldl step (start tinyKernel)).kernel.metrics.global
      gmkMetricTasksEnqueued = 2 ∧
    ((submitted gmkOk).foldl step (start tinyKernel)).Accounted := by
  have hobeys : Obeys step Counted (start tinyKernel) (submitted gmkOk) := by
    simp only [Obeys, submitted]
    decide +kernel
  exact ⟨by decide +kernel, accounted_of_counted bootKernel_tiny_eq (Reach.foldl hobeys .start)⟩

/-- The task that a handler retries is in the ready queue once more and was counted once. -/
theorem retry_not_accounted : ¬ ∀ (cfg : BootCfg) (k : Kernel) (s : MetricRun),
    bootKernel cfg = some k →
    Reach (fun s op s' => s' = s.step op) (fun _ _ => True) (start k) s → s.Accounted := by
  intro hall
  have hobeys : Obeys step (fun _ _ => True) (start tinyKernel) (submitted gmkRetry) := by
    simp [Obeys, submitted]
  have hacc := hall tinyCfg tinyKernel _ bootKernel_tiny_eq (Reach.foldl hobeys .start)
    (by decide +kernel)
  exact absurd hacc (by decide +kernel)

end MetricRun

end Ggmk

import Ggmk.Boot

/-! What one worker iteration does to the tasks in the queues. Tasks are compared apart
from the sequence number that every enqueue stamps anew. -/
namespace Ggmk

namespace Sched

def held (s : Sched) : Multiset Task := s.tasks.map Task.content

def ready (s : Sched) : Multiset Task := s.readyTasks.map Task.content

theorem held_eq (s : Sched) :
    s.held = s.ready + (s.evq.entries.map EvqEntry.task).map Task.content := by
  simp [held, ready, tasks]

end Sched

theorem gmkEnqueue_ready (s : Sched) (t : Task) (w : ℤ) :
    (gmkEnqueue s t w).2.2.ready =
      if (gmkEnqueue s t w).1 then t.content ::ₘ s.ready else s.ready := by
  rw [Sched.ready, gmkEnqueue_readyTasks]
  split <;> simp [Sched.ready]

/-- Places left for `gmk_lq_push`. -/
def Lq.room (lq : Lq) : ℕ := min lq.yieldWatermark lq.ring.cap - lq.items.length

/-- Places left for `gmk_rq_push` at priority `p`. -/
def Rq.room (rq : Rq) (p : ℕ) : ℕ := (rq.queues p).cap - (rq.queues p).items.length

theorem Lq.refuses_iff_room (lq : Lq) : lq.Refuses ↔ lq.room = 0 := by
  have hle : lq.items.length ≤ lq.ring.cap := lq.ring.length_le
  unfold Refuses room
  omega

theorem Rq.refuses_iff_room (rq : Rq) (p : ℕ) : rq.Refuses p ↔ rq.room p = 0 := by
  have hle := (rq.queues p).length_le
  unfold Refuses room
  omega

/-! ## A sequence of enqueues for one worker -/

def enqueueAll (w : ℕ) : List Task → Sched → Sched
  | [], s => s
  | t :: d, s => enqueueAll w d (gmkEnqueue s t w).2.2

/-- None of the enqueues is refused. -/
def AllAccepted (w : ℕ) : List Task → Sched → Prop
  | [], _ => True
  | t :: d, s => (gmkEnqueue s t w).1 = true ∧ AllAccepted w d (gmkEnqueue s t w).2.2

theorem enqueueAll_overflow (w : ℕ) (d : List Task) (s : Sched) :
    (enqueueAll w d s).overflow = s.overflow := by
  induction d generalizing s with
  | nil => rfl
  | cons t d ih =>
    rw [enqueueAll, ih]
    have hc := gmkEnqueue_cases s t w
    generalize gmkEnqueue s t w = r at hc ⊢
    cases hc <;> rfl

theorem enqueueAll_card_le (w : ℕ) (d : List Task) (s : Sched) :
    (enqueueAll w d s).ready.card ≤ s.ready.card + d.length := by
  induction d generalizing s with
  | nil => exact le_rfl
  | cons t d ih =>
    have h := ih (gmkEnqueue s t w).2.2
    rw [gmkEnqueue_ready] at h
    rw [enqueueAll, List.length_cons]
    split at h
    · rw [Multiset.card_cons] at h
      omega
    · omega

/-- The ready tasks grow by the whole sequence exactly when all of it is accepted. -/
theorem enqueueAll_ready_iff (w : ℕ) (d : List Task) (s : Sched) :
    (enqueueAll w d s).ready = s.ready + (d.map Task.content : List Task) ↔
      AllAccepted w d s := by
  induction d generalizing s with
  | nil => simp [enqueueAll, AllAccepted]
  | cons t d ih =>
    rw [enqueueAll, AllAccepted, ← ih, gmkEnqueue_ready]
    cases hok : (gmkEnqueue s t w).1 with
    | true => simp [← Multiset.cons_coe, Multiset.add_cons, Multiset.cons_add]
    | false =>
      -- a refused task is missing from the count
      have hcard := enqueueAll_card_le w d (gmkEnqueue s t w).2.2
      rw [gmkEnqueue_ready, hok] at hcard
      simp only [Bool.false_eq_true, if_false, false_and, iff_false] at hcard ⊢
      intro he
      rw [he] at hcard
      simp at hcard

/-- Counting condition: the tasks beyond the room of the local queue fit the ready queue. -/
def Fits (lqRoom : ℕ) (rqRoom : ℕ → ℕ) (d : List Task) : Prop :=
  ∀ p < gmkPriorityCount, (d.drop lqRoom).countP (fun t => t.prio = p) ≤ rqRoom p

instance (lqRoom : ℕ) (rqRoom : ℕ → ℕ) (d : List Task) : Decidable (Fits lqRoom rqRoom d) := by
  unfold Fits
  infer_instance

section Rooms
variable {s : Sched} {w : ℕ} (hw : w < s.nWorkers) (t : Task)
include hw

theorem noLq_iff : s.NoLq w ↔ (s.lqs w).room = 0 := by
  rw [← Lq.refuses_iff_room]
  unfold Sched.NoLq
  simp only [Int.toNat_natCast]
  constructor
  · rintro (h | h | h)
    · omega
    · omega
    · exact h
  · exact fun h => Or.inr (Or.inr h)

/-- With room in the local queue an enqueue takes one place of it. -/
theorem gmkEnqueue_lq_room (hr : 0 < (s.lqs w).room) : (gmkEnqueue s t w).1 = true ∧
    ((gmkEnqueue s t w).2.2.lqs w).room + 1 = (s.lqs w).room ∧
    (gmkEnqueue s t w).2.2.rq = s.rq ∧ (gmkEnqueue s t w).2.2.nWorkers = s.nWorkers := by
  have hno : ¬ s.NoLq w := by
    rw [noLq_iff hw]
    omega
  have hc := gmkEnqueue_cases s t w
  generalize gmkEnqueue s t w = r at hc ⊢
  cases hc with
  | toLq i lq hwi hi hpush =>
    obtain rfl : w = i := by exact_mod_cast hwi
    obtain ⟨hitems, ⟨hcap, hmark, -⟩, -⟩ := gmkLqPush_some hpush
    refine ⟨rfl, ?_, rfl, rfl⟩
    simp only [Function.update_self, Lq.room, hitems, hcap, hmark, List.length_append,
      List.length_singleton]
    unfold Lq.room at hr
    omega
  | toRq rq hlq hpush => exact absurd hlq hno
  | refused hlq hrq => exact absurd hlq hno

/-- Without it the task takes a place of its priority in the ready queue. -/
theorem gmkEnqueue_rq_room (hr : (s.lqs w).room = 0) (hq : 0 < s.rq.room t.prio) :
    (gmkEnqueue s t w).1 = true ∧ ((gmkEnqueue s t w).2.2.lqs w).room = 0 ∧
    (∀ p, (gmkEnqueue s t w).2.2.rq.room p + (if t.prio = p then 1 else 0) = s.rq.room p) ∧
    (gmkEnqueue s t w).2.2.nWorkers = s.nWorkers := by
  have hno : s.NoLq w := (noLq_iff hw).mpr hr
  have hc := gmkEnqueue_cases s t w
  generalize gmkEnqueue s t w = r at hc ⊢
  cases hc with
  | toLq i lq hwi hi hpush =>
    obtain rfl : w = i := by exact_mod_cast hwi
    exact absurd ((Lq.refuses_iff_room _).mpr hr) (gmkLqPush_some hpush).2.2
  | toRq rq hlq hpush =>
    obtain ⟨q, hq', rfl⟩ := gmkRqPush_some hpush
    obtain ⟨hitems, hcap, hlt⟩ := MpmcQueue.push_some hq'
    refine ⟨rfl, hr, ?_, rfl⟩
    intro p
    by_cases hp : t.prio = p
    · subst hp
      simp only [Rq.room, Sched.stamp_prio, Function.update_self, hitems, hcap, if_true,
        List.length_append, List.length_singleton]
      simp only [Sched.stamp_prio] at hlt
      omega
    · simp [Rq.room, Function.update_of_ne (Ne.symm hp), hp]
  | refused hlq hrq =>
    rw [Rq.refuses_iff_room] at hrq
    omega

end Rooms

theorem fits_cons_of_room {r : ℕ} {q : ℕ → ℕ} {t : Task} {d : List Task} :
    Fits (r + 1) q (t :: d) ↔ Fits r q d := Iff.rfl

theorem fits_cons_zero {q q' : ℕ → ℕ} {t : Task} {d : List Task}
    (hq : ∀ p, q' p + (if t.prio = p then 1 else 0) = q p) :
    Fits 0 q (t :: d) ↔ Fits 0 q' d := by
  unfold Fits
  apply forall_congr'
  intro p
  apply forall_congr'
  intro _
  have h := hq p
  by_cases hp : t.prio = p
  · simp only [hp, if_true, List.drop_zero, List.countP_cons, decide_true] at h ⊢
    omega
  · simp only [hp, if_false, List.drop_zero, List.countP_cons, decide_false, Bool.false_eq_true] at h ⊢
    omega

/-- All enqueues are accepted exactly when the tasks fit the places left before the first. -/
theorem allAccepted_iff_fits {w : ℕ} (d : List Task) {s : Sched} (hw : w < s.nWorkers) :
    AllAccepted w d s ↔ Fits (s.lqs w).room s.rq.room d := by
  induction d generalizing s with
  | nil => simp [AllAccepted, Fits]
  | cons t d ih =>
    rw [AllAccepted]
    rcases Nat.eq_zero_or_pos (s.lqs w).room with hr | hr
    · rcases Nat.eq_zero_or_pos (s.rq.room t.prio) with hq | hq
      · have hfull : (gmkEnqueue s t w).1 = false := by
          rw [gmkEnqueue_eq_false_iff, noLq_iff hw, Rq.refuses_iff_room]
          exact ⟨hr, hq⟩
        have hnot : ¬ Fits 0 s.rq.room (t :: d) := by
          intro hf
          have := hf t.prio t.prio_lt
          simp [hq] at this
        simp [hfull, hr, hnot]
      · obtain ⟨hok, hr', hroom, hn⟩ := gmkEnqueue_rq_room hw t hr hq
        rw [ih (hn.symm ▸ hw), hr', hr, fits_cons_zero hroom]
        simp [hok]
    · obtain ⟨hok, hr', hrq, hn⟩ := gmkEnqueue_lq_room hw t hr
      rw [ih (hn.symm ▸ hw), ← hr', fits_cons_of_room, hrq]
      simp [hok]

/-! ## The event step -/

/-- The tasks that up to `n` calls of `gmk_evq_pop_due` take from a queue, and what they
leave. -/
def takeDue (tick : UInt32) : ℕ → Evq → List Task × Evq
  | 0, e => ([], e)
  | n + 1, e =>
      match gmkEvqPopDue e tick with
      | none => ([], e)
      | some (t, e') => (t :: (takeDue tick n e').1, (takeDue tick n e').2)

def Sched.withEvq (s : Sched) (e : Evq) : Sched := { s with evq := e }

@[simp] theorem Sched.withEvq_withEvq (s : Sched) (e e' : Evq) :
    (s.withEvq e).withEvq e' = s.withEvq e' := rfl

@[simp] theorem Sched.withEvq_evq (s : Sched) (e : Evq) : (s.withEvq e).evq = e := rfl

/-- Enqueuing does not look at the event queue. -/
theorem gmkEnqueue_withEvq (s : Sched) (e : Evq) (t : Task) (w : ℤ) :
    (gmkEnqueue (s.withEvq e) t w).2.2 = (gmkEnqueue s t w).2.2.withEvq e := by
  unfold gmkEnqueue Sched.withEvq
  simp only
  split
  · split
    · rfl
    · split <;> rfl
  · split <;> rfl

theorem enqueueAll_withEvq (w : ℕ) (d : List Task) (s : Sched) (e : Evq) :
    enqueueAll w d (s.withEvq e) = (enqueueAll w d s).withEvq e := by
  induction d generalizing s with
  | nil => rfl
  | cons t d ih => rw [enqueueAll, gmkEnqueue_withEvq, ih, enqueueAll]

/-- The event step takes the due tasks and enqueues them one by one. -/
theorem evqDrain_sched (w : ℕ) (tick : UInt32) (n : ℕ) (s : Sched) :
    (evqDrain w tick n s).2 =
      (enqueueAll w (takeDue tick n s.evq).1 s).withEvq (takeDue tick n s.evq).2 := by
  induction n generalizing s with
  | zero => rfl
  | succ n ih =>
    cases hpop : gmkEvqPopDue s.evq tick with
    | none =>
      simp only [evqDrain, takeDue, hpop]
      rfl
    | some p =>
      obtain ⟨t, e⟩ := p
      have hstep : (evqDrain w tick (n + 1) s).2 =
          (evqDrain w tick n (gmkEnqueue (s.withEvq e) t w).2.2).2 := by
        simp only [evqDrain, hpop]
        rfl
      simp only [hstep, ih, gmkEnqueue_withEvq, Sched.withEvq_evq, enqueueAll_withEvq,
        Sched.withEvq_withEvq, takeDue, hpop, enqueueAll]

theorem takeDue_entries (tick : UInt32) (n : ℕ) (e : Evq) :
    e.entries.map EvqEntry.task =
      (takeDue tick n e).1 + (takeDue tick n e).2.entries.map EvqEntry.task := by
  induction n generalizing e with
  | zero => simp [takeDue]
  | succ n ih =>
    unfold takeDue
    split
    next => simp
    next t e' h =>
      obtain ⟨-, rfl, -, hent, -⟩ := Evq.popDue_some h
      rw [hent, Multiset.map_cons, ih e', ← Multiset.cons_coe, Multiset.cons_add]

/-! ## One iteration -/

/-- The kernel in which the handler of a popped task is called. -/
def dequeued (k : Kernel) (rest : Sched) (task : Task) : Kernel :=
  { k with sched := rest }.metricInc task.tenant gmkMetricTasksDequeued

/-- No task is lost: the popped one leaves unless its handler asks for a retry, and every
event that is taken is then in a local queue or the ready queue. -/
def IterationKeeps (code : ℕ → HandlerFn) (k : Kernel) (w : ℕ) : Prop :=
  let s := k.sched
  let s' := (gmkWorkerIteration code k w).sched
  match popWork s w with
  | (some t, rest) =>
      let (rc, t', _) := handlerCall code (dequeued k rest t) w t
      t.content ::ₘ s'.held = s.held + if rc = gmkRetry then {t'.content} else 0
  | (none, _) =>
      let due := (takeDue (k.clock.workerTick w) gmkEvqDrainLimit s.evq).1
      s'.held = s.held ∧ s'.ready = s.ready + (due.map Task.content : List Task) ∧
        s'.overflow = s.overflow

/-- A retried task finds room in the ready queue that the pop left, and the due events
find room in the worker's local queue and the ready queue. -/
def IterationFits (code : ℕ → HandlerFn) (k : Kernel) (w : ℕ) : Prop :=
  match popWork k.sched w with
  | (some t, rest) =>
      let (rc, t', _) := handlerCall code (dequeued k rest t) w t
      rc = gmkRetry → ¬ rest.rq.Refuses t'.prio
  | (none, _) =>
      Fits (k.sched.lqs w).room k.sched.rq.room
        (takeDue (k.clock.workerTick w) gmkEvqDrainLimit k.sched.evq).1

theorem gmkEnqueue_held (s : Sched) (t : Task) (w : ℤ) :
    (gmkEnqueue s t w).2.2.held =
      if (gmkEnqueue s t w).1 then t.content ::ₘ s.held else s.held := by
  rw [Sched.held_eq, Sched.held_eq, gmkEnqueue_ready, gmkEnqueue_evq]
  split <;> simp

theorem noLq_neg_one (s : Sched) : s.NoLq (-1) := Or.inl (by decide)

theorem iteration_work_iff {code : ℕ → HandlerFn} (hq : Quiet code) {k : Kernel} {w : ℕ}
    (hw : w < k.sched.nWorkers) {t : Task} {rest : Sched}
    (hp : popWork k.sched w = (some t, rest)) :
    IterationKeeps code k w ↔ IterationFits code k w := by
  obtain ⟨htasks, -⟩ := popWork_some hw hp
  have hheld : k.sched.held = t.content ::ₘ rest.held := by
    rw [Sched.held, htasks, Multiset.map_cons, Sched.held]
  simp only [IterationKeeps, IterationFits, gmkWorkerIteration, hp]
  rw [workerDispatchTask_eq, dispatchOutcome_sched]
  change t.content ::ₘ (if (handlerCall code (dequeued k rest t) w t).1 = gmkRetry then
      (gmkEnqueue (handlerCall code (dequeued k rest t) w t).2.2.sched
        (handlerCall code (dequeued k rest t) w t).2.1 (-1)).2.2
      else (handlerCall code (dequeued k rest t) w t).2.2.sched).held = _ ↔ _
  rw [handlerCall_sched hq, hheld]
  have hrest : (dequeued k rest t).sched = rest := rfl
  generalize handlerCall code (dequeued k rest t) w t = c
  obtain ⟨rc, t', k'⟩ := c
  rw [hrest]
  by_cases hrc : rc = gmkRetry
  · simp only [hrc, if_true, forall_const]
    rw [gmkEnqueue_held]
    have hfail := gmkEnqueue_eq_false_iff rest t' (-1)
    cases hok : (gmkEnqueue rest t' (-1)).1 with
    | true =>
      have hroom : ¬ rest.rq.Refuses t'.prio := by
        intro hr
        rw [hfail.mpr ⟨noLq_neg_one rest, hr⟩] at hok
        exact Bool.false_ne_true hok
      simp only [hroom, not_false_eq_true, if_true, iff_true]
      rw [Multiset.cons_add, add_comm, Multiset.singleton_add]
    | false =>
      have hr := (hfail.mp hok).2
      simp [hr]
  · simp [hrc]

theorem iteration_idle_iff (code : ℕ → HandlerFn) {k : Kernel} {w : ℕ}
    (hw : w < k.sched.nWorkers) {rest : Sched} (hp : popWork k.sched w = (none, rest)) :
    IterationKeeps code k w ↔ IterationFits code k w := by
  obtain ⟨hrest, hqueues⟩ := popWork_none hp
  set d := takeDue (k.clock.workerTick w) gmkEvqDrainLimit k.sched.evq with hd
  have hsched : (gmkWorkerIteration code k w).sched =
      (enqueueAll w d.1 rest).withEvq d.2 := by
    have hev : rest.evq = k.sched.evq := by rw [hrest]
    simp only [gmkWorkerIteration, hp]
    have hdrain := evqDrain_sched w (k.clock.workerTick w) gmkEvqDrainLimit rest
    rw [hev, ← hd] at hdrain
    split
    · exact hdrain
    · simpa using hdrain
  have hready : rest.ready = k.sched.ready := by
    rw [hrest]
    simp [Sched.ready, Sched.readyTasks, Sched.lqTasks, Rq.tasks, hqueues]
  have hfits : IterationFits code k w ↔ AllAccepted w d.1 rest := by
    have hn : rest.nWorkers = k.sched.nWorkers := by rw [hrest]
    have hl : rest.lqs = k.sched.lqs := by rw [hrest]
    have hr : rest.rq.room = k.sched.rq.room := by
      funext p
      simp [Rq.room, hqueues]
    rw [allAccepted_iff_fits d.1 (hn.symm ▸ hw), hl, hr]
    simp only [IterationFits, hp, ← hd]
  have hready' : ((enqueueAll w d.1 rest).withEvq d.2).ready = (enqueueAll w d.1 rest).ready := rfl
  rw [hfits, ← enqueueAll_ready_iff, hready]
  simp only [IterationKeeps, hp, ← hd, hsched]
  constructor
  · rintro ⟨-, h, -⟩
    exact h
  · intro h
    refine ⟨?_, h, ?_⟩
    · rw [Sched.held_eq, Sched.held_eq, hready', h, add_assoc,
        takeDue_entries (k.clock.workerTick w) gmkEvqDrainLimit k.sched.evq, ← hd]
      simp
    · show (enqueueAll w d.1 rest).overflow = _
      rw [enqueueAll_overflow, hrest]

/-- One iteration of a worker loses no task if and only if the task it retries and the
events it drains find room. -/
theorem iteration_keeps_iff {code : ℕ → HandlerFn} (hq : Quiet code) (k : Kernel) {w : ℕ}
    (hw : w < k.sched.nWorkers) : IterationKeeps code k w ↔ IterationFits code k w := by
  cases hp : popWork k.sched w with
  | mk work rest =>
    cases work with
    | some t => exact iteration_work_iff hq hw hp
    | none => exact iteration_idle_iff code hw hp

/-- One task is waiting in the local queue, next to the ready queue `rq`. -/
def waitingKernel (rq : Rq) : Kernel :=
  { tinyKernel with sched :=
    { gmkSchedInit 1 with rq := rq, lqs := fun _ => Lq.single default } }

def retryCode : ℕ → HandlerFn := fun _ ctx k => (gmkRetry, ctx.task, k)

theorem retryCode_quiet : Quiet retryCode := fun _ _ _ => rfl

theorem waiting_popWork (rq : Rq) : ∃ lq, popWork (waitingKernel rq).sched 0 = (some default,
    { (waitingKernel rq).sched with
      lqs := Function.update (waitingKernel rq).sched.lqs 0 lq }) := by
  obtain ⟨lq, hpop, -⟩ := gmkLqPop_single default
  exact ⟨lq, by simp only [popWork, waitingKernel, hpop]⟩

theorem waiting_fits_iff (rq : Rq) :
    IterationFits retryCode (waitingKernel rq) 0 ↔ ¬ rq.Refuses (default : Task).prio := by
  obtain ⟨lq, hwork⟩ := waiting_popWork rq
  have hacts (rest : Sched) : Acts retryCode (dequeued (waitingKernel rq) rest default) 0 default
      (retryCode 0) := tiny_acts tinyKernel_modules retryCode 0 rfl
  rw [IterationFits, hwork]
  simp only
  rw [handlerCall_of_acts (hacts _)]
  exact ⟨fun h => h rfl, fun h _ => h⟩

/-- A retried task returns to a ready queue with room. -/
theorem iteration_keeps_retry : IterationKeeps retryCode (waitingKernel gmkRqInit) 0 :=
  (iteration_keeps_iff retryCode_quiet (waitingKernel gmkRqInit) Nat.one_pos).mpr
    ((waiting_fits_iff gmkRqInit).mpr (gmkRqInit_room _))

/-- With a full ready queue the retried task is gone. -/
theorem iteration_loses_retry :
    ¬ ∀ code k w, Quiet code → w < k.sched.nWorkers → IterationKeeps code k w := by
  intro h
  have hkeeps := h retryCode (waitingKernel fullRq) 0 retryCode_quiet Nat.one_pos
  obtain ⟨lq, hwork⟩ := waiting_popWork fullRq
  rw [iteration_work_iff retryCode_quiet Nat.one_pos hwork, waiting_fits_iff] at hkeeps
  exact hkeeps (fullRq_refuses _)

end Ggmk

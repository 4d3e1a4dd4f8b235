import Ggmk.Sched.Evq
import Ggmk.Sched.Queues

/-! The scheduler record, and `_gmk_enqueue` and `_gmk_yield` of `enqueue.c`, through
which every task reaches a queue. -/
namespace Ggmk

structure Sched where
  rq : Rq
  lqs : ℕ → Lq
  nWorkers : ℕ
  evq : Evq
  overflow : MpmcQueue Task
  nextSeq : UInt32

/-- Stamps the task, then tries the worker's local queue and the ready queue. -/
def gmkEnqueue (s : Sched) (task : Task) (workerId : ℤ) : Bool × Task × Sched :=
  let task := { task with seq := s.nextSeq }
  let s := { s with nextSeq := s.nextSeq + 1 }
  let toRq : Bool × Task × Sched :=
    match gmkRqPush s.rq task with
    | some rq => (true, task, { s with rq := rq })
    | none => (false, task, s)
  if 0 ≤ workerId ∧ workerId.toNat < s.nWorkers then
    match gmkLqPush (s.lqs workerId.toNat) task with
    | some lq => (true, task, { s with lqs := Function.update s.lqs workerId.toNat lq })
    | none => toRq
  else toRq

/-- Counts the yield, then tries the worker's yield reserve and the overflow bucket. -/
def gmkYield (s : Sched) (task : Task) (workerId : ℤ) (maxYields : ℕ) : ℤ × Task × Sched :=
  let task := { task with yieldCount := task.yieldCount + 1 }
  let maxYields := if maxYields = 0 then gmkDefaultMaxYields else maxYields
  let toOverflow : ℤ × Task × Sched :=
    match s.overflow.push task with
    | some q => (0, task, { s with overflow := q })
    | none => (gmkFail gmkErrYieldOverflow, task, s)
  if maxYields < task.yieldCount.toNat then (gmkFail gmkErrYieldLimit, task, s)
  else if 0 ≤ workerId ∧ workerId.toNat < s.nWorkers then
    match gmkLqPushYield (s.lqs workerId.toNat) task with
    | some lq => (0, task, { s with lqs := Function.update s.lqs workerId.toNat lq })
    | none => toOverflow
  else toOverflow

/-- The result of `_gmk_yield` is discarded. -/
def gmkYieldImpl (s : Sched) (task : Task) (workerId : ℤ) : Task × Sched :=
  (gmkYield s task workerId gmkDefaultMaxYields).2

def gmkYieldAtImpl (s : Sched) (task : Task) (workerId : ℤ) (phase : UInt32) : Task × Sched :=
  (gmkYield s { task with meta0 := phase.toUInt64 } workerId gmkDefaultMaxYields).2

namespace Sched

/-- `_gmk_enqueue` finds no room for worker `w` in a local queue. -/
def NoLq (s : Sched) (w : ℤ) : Prop :=
  w < 0 ∨ s.nWorkers ≤ w.toNat ∨ (s.lqs w.toNat).Refuses

instance (s : Sched) (w : ℤ) : Decidable (s.NoLq w) := by unfold NoLq; infer_instance

/-- Tasks in the local queues. -/
def lqTasks (s : Sched) : Multiset Task :=
  ∑ i ∈ Finset.range s.nWorkers, ((s.lqs i).items : Multiset Task)

/-- Tasks in local queues, ready queue and overflow bucket. -/
def readyTasks (s : Sched) : Multiset Task :=
  s.lqTasks + s.rq.tasks + (s.overflow.items : Multiset Task)

/-- Tasks in any of the queues. -/
def tasks (s : Sched) : Multiset Task := s.readyTasks + s.evq.entries.map EvqEntry.task

theorem lqTasks_push {s : Sched} {i : ℕ} (hi : i < s.nWorkers) {lq : Lq} {t : Task}
    (h : lq.items = (s.lqs i).items ++ [t]) :
    lqTasks { s with lqs := Function.update s.lqs i lq } = t ::ₘ s.lqTasks := by
  have hs := Tally.sum_update_add (Finset.range s.nWorkers)
    (fun q : Lq => (q.items : Multiset Task)) s.lqs (Finset.mem_range.mpr hi) lq
  rw [h, ← Multiset.coe_add, ← add_assoc, add_right_comm] at hs
  simpa only [lqTasks, add_comm, Multiset.coe_singleton, Multiset.singleton_add] using
    add_right_cancel hs

theorem lqTasks_pop {s : Sched} {i : ℕ} (hi : i < s.nWorkers) {lq : Lq} {t : Task}
    (h : (s.lqs i).items = t :: lq.items) :
    s.lqTasks = t ::ₘ lqTasks { s with lqs := Function.update s.lqs i lq } := by
  have hs := Tally.sum_update_add (Finset.range s.nWorkers)
    (fun q : Lq => (q.items : Multiset Task)) s.lqs (Finset.mem_range.mpr hi) lq
  rw [h, ← Multiset.cons_coe, Multiset.add_cons, ← Multiset.cons_add] at hs
  exact (add_right_cancel hs).symm

end Sched

/-- The task as `_gmk_enqueue` stores it. -/
def Sched.stamp (s : Sched) (t : Task) : Task := { t with seq := s.nextSeq }

@[simp] theorem Sched.stamp_content (s : Sched) (t : Task) : (s.stamp t).content = t.content := rfl
@[simp] theorem Sched.stamp_prio (s : Sched) (t : Task) : (s.stamp t).prio = t.prio := rfl
@[simp] theorem Sched.stamp_hasRc (s : Sched) (t : Task) : (s.stamp t).hasRc = t.hasRc := rfl
@[simp] theorem Sched.stamp_payloadPtr (s : Sched) (t : Task) :
    (s.stamp t).payloadPtr = t.payloadPtr := rfl

/-- The three things an enqueue can do. -/
inductive EnqueueCase (s : Sched) (t : Task) (w : ℤ) : Bool × Task × Sched → Prop
  | toLq (i : ℕ) (lq : Lq) (hw : w = i) (hi : i < s.nWorkers)
      (hpush : gmkLqPush (s.lqs i) (s.stamp t) = some lq) :
      EnqueueCase s t w (true, s.stamp t,
        { s with nextSeq := s.nextSeq + 1, lqs := Function.update s.lqs i lq })
  | toRq (rq : Rq) (hlq : s.NoLq w) (hpush : gmkRqPush s.rq (s.stamp t) = some rq) :
      EnqueueCase s t w (true, s.stamp t, { s with nextSeq := s.nextSeq + 1, rq := rq })
  | refused (hlq : s.NoLq w) (hrq : s.rq.Refuses t.prio) :
      EnqueueCase s t w (false, s.stamp t, { s with nextSeq := s.nextSeq + 1 })

theorem gmkEnqueue_cases (s : Sched) (t : Task) (w : ℤ) :
    EnqueueCase s t w (gmkEnqueue s t w) := by
  have hrq (hlq : s.NoLq w) : EnqueueCase s t w
      (match gmkRqPush s.rq (s.stamp t) with
        | some rq => (true, s.stamp t, { s with nextSeq := s.nextSeq + 1, rq := rq })
        | none => (false, s.stamp t, { s with nextSeq := s.nextSeq + 1 })) := by
    cases hp : gmkRqPush s.rq (s.stamp t) with
    | some rq => exact .toRq rq hlq hp
    | none => exact .refused hlq ((gmkRqPush_eq_none_iff s.rq (s.stamp t)).mp hp)
  unfold gmkEnqueue
  simp only
  split
  next hw =>
    split
    next lq hp => exact .toLq w.toNat lq (by omega) hw.2 hp
    next hp => exact hrq (Or.inr (Or.inr ((gmkLqPush_eq_none_iff _ _).mp hp)))
  next hw =>
    apply hrq
    unfold Sched.NoLq
    omega

/-- An enqueue fails exactly when neither queue has room. -/
theorem gmkEnqueue_eq_false_iff (s : Sched) (t : Task) (w : ℤ) :
    (gmkEnqueue s t w).1 = false ↔ s.NoLq w ∧ s.rq.Refuses t.prio := by
  have hc := gmkEnqueue_cases s t w
  generalize gmkEnqueue s t w = r at hc ⊢
  cases hc with
  | toLq i lq hw hi hpush =>
    have hroom := (gmkLqPush_some hpush).2.2
    simp only [Bool.true_eq_false, false_iff, not_and_or]
    left
    rintro (h | h | h)
    · omega
    · omega
    · simp only [hw, Int.toNat_natCast] at h
      exact hroom h
  | toRq rq hlq hpush =>
    have hroom := mt (gmkRqPush_eq_none_iff s.rq (s.stamp t)).mpr (by simp [hpush])
    simp only [Bool.true_eq_false, false_iff, not_and_or]
    exact Or.inr hroom
  | refused hlq hrq => exact ⟨fun _ => ⟨hlq, hrq⟩, fun _ => rfl⟩

theorem gmkEnqueue_task (s : Sched) (t : Task) (w : ℤ) :
    (gmkEnqueue s t w).2.1 = s.stamp t := by
  have hc := gmkEnqueue_cases s t w
  generalize gmkEnqueue s t w = r at hc ⊢
  cases hc <;> rfl

/-- An enqueue adds its task to the ready tasks, or changes no queue. -/
theorem gmkEnqueue_readyTasks (s : Sched) (t : Task) (w : ℤ) :
    (gmkEnqueue s t w).2.2.readyTasks =
      if (gmkEnqueue s t w).1 then s.stamp t ::ₘ s.readyTasks else s.readyTasks := by
  have hc := gmkEnqueue_cases s t w
  generalize gmkEnqueue s t w = r at hc ⊢
  cases hc with
  | toLq i lq hw hi hpush =>
    simp only [Sched.readyTasks, if_true, ← Multiset.cons_add]
    rw [← Sched.lqTasks_push hi (gmkLqPush_some hpush).1]
    rfl
  | toRq rq hlq hpush =>
    simp only [Sched.readyTasks, if_true, gmkRqPush_tasks hpush, Multiset.add_cons,
      Multiset.cons_add]
    rfl
  | refused hlq hrq => rfl

theorem gmkEnqueue_evq (s : Sched) (t : Task) (w : ℤ) : (gmkEnqueue s t w).2.2.evq = s.evq := by
  have hc := gmkEnqueue_cases s t w
  generalize gmkEnqueue s t w = r at hc ⊢
  cases hc <;> rfl

end Ggmk

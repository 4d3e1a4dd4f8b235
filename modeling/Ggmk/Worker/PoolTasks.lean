import Ggmk.Worker.Pool

/-! No worker of the pool loses or duplicates a task, whatever the interleaving, but for the events
that no queue has room for. -/
namespace Ggmk

namespace Sched
variable {s : Sched} {t : Task} {w : ℕ}

theorem held_of_ready {s' : Sched} (h : s.readyTasks = t ::ₘ s'.readyTasks)
    (hevq : s'.evq = s.evq) : s.held = t.content ::ₘ s'.held := by
  rw [held, tasks, h, held, tasks, hevq, Multiset.cons_add, Multiset.map_cons]

theorem held_lqPop {lq : Lq} (hw : w < s.nWorkers) (h : gmkLqPop (s.lqs w) = some (t, lq)) :
    s.held = t.content ::ₘ held { s with lqs := Function.update s.lqs w lq } := by
  refine held_of_ready ?_ rfl
  simp only [readyTasks]
  rw [lqTasks_pop hw (gmkLqPop_some h).1]
  simp only [Multiset.cons_add]

theorem held_overflowPop {q : MpmcQueue Task} (h : s.overflow.pop = some (t, q)) :
    s.held = t.content ::ₘ held { s with overflow := q } := by
  refine held_of_ready ?_ rfl
  simp only [readyTasks, (MpmcQueue.pop_some h).1]
  rw [← Multiset.cons_coe, Multiset.add_cons]
  rfl

theorem held_rqPop {rq : Rq} (h : gmkRqPop s.rq = (some t, rq)) :
    s.held = t.content ::ₘ held { s with rq := rq } := by
  refine held_of_ready ?_ rfl
  simp only [readyTasks, gmkRqPop_tasks h, Multiset.add_cons, Multiset.cons_add]
  rfl

theorem held_rqPop_none {rq : Rq} (h : gmkRqPop s.rq = (none, rq)) :
    held { s with rq := rq } = s.held := by
  simp [held, tasks, readyTasks, lqTasks, Rq.tasks, (gmkRqPop_none h).1]

theorem held_evqPop {evq : Evq} {tick : UInt32} (h : gmkEvqPopDue s.evq tick = some (t, evq)) :
    s.held = t.content ::ₘ held { s with evq := evq } := by
  obtain ⟨-, rfl, -, hentries, -⟩ := Evq.popDue_some h
  rw [held, tasks, hentries, Multiset.map_cons, Multiset.add_cons, Multiset.map_cons]
  rfl

theorem held_evqPush {evq : Evq} (h : gmkEvqPush s.evq t = some evq) :
    held { s with evq := evq } = t.content ::ₘ s.held := by
  rw [held, tasks, (Evq.push_some h).1, Multiset.map_cons, Multiset.add_cons, Multiset.map_cons]
  rfl

theorem held_enqueue (s : Sched) (t : Task) (workerId : ℤ) :
    (gmkEnqueue s t workerId).2.2.held =
      if (gmkEnqueue s t workerId).1 then t.content ::ₘ s.held else s.held := by
  rw [held_eq, gmkEnqueue_ready, gmkEnqueue_evq, held_eq]
  split
  · rw [Multiset.cons_add]
  · rfl

theorem nWorkers_enqueue (s : Sched) (t : Task) (workerId : ℤ) :
    (gmkEnqueue s t workerId).2.2.nWorkers = s.nWorkers := by
  have hc := gmkEnqueue_cases s t workerId
  generalize gmkEnqueue s t workerId = r at hc ⊢
  cases hc <;> rfl

/-- What a yield of worker `w` queues is the task with its yield counted. -/
theorem held_yield (t : Task) (hw : w < s.nWorkers) :
    (gmkYield s t w gmkDefaultMaxYields).2.2.held =
        (if (gmkYield s t w gmkDefaultMaxYields).1 = 0 then (yielded t).content ::ₘ s.held
          else s.held) ∧
      (gmkYield s t w gmkDefaultMaxYields).2.2.nWorkers = s.nWorkers := by
  have hc := gmkYield_cases s t hw
  generalize gmkYield s t w gmkDefaultMaxYields = r at hc ⊢
  cases hc with
  | toLq lq hlim hpush =>
    have hready : readyTasks { s with lqs := Function.update s.lqs w lq } =
        yielded t ::ₘ s.readyTasks := by
      simp only [readyTasks, ← Multiset.cons_add]
      rw [← lqTasks_push hw (gmkLqPushYield_some hpush).1]
    exact ⟨held_of_ready hready rfl, rfl⟩
  | toOverflow q hlim hfull hpush =>
    have hready : readyTasks { s with overflow := q } = yielded t ::ₘ s.readyTasks := by
      simp only [readyTasks, (MpmcQueue.push_some hpush).1]
      rw [← Multiset.coe_add, Multiset.coe_singleton, add_comm _ {yielded t},
        Multiset.singleton_add, Multiset.add_cons]
      rfl
    exact ⟨held_of_ready hready rfl, rfl⟩
  | limit hlim => exact ⟨by simp [gmkFail, gmkErrYieldLimit], rfl⟩
  | overloaded hfull hover => exact ⟨by simp [gmkFail, gmkErrYieldOverflow], rfl⟩

end Sched

namespace Pool
variable {p q : Pool} {n w : ℕ} {c : LoopPc} {t : Task}

/-- The task that a worker has taken from a queue and not brought anywhere. -/
def carried : LoopPc → Multiset Task
  | .dequeued t => {t.content}
  | .dispatch t => {t.content}
  | .lookup t => {t.content}
  | .evqEnqueue _ _ t => {t.content}
  | _ => 0

def inTransit (n : ℕ) (p : Pool) : Multiset Task := ∑ w ∈ Finset.range n, carried (p.pc w)

/-- Of `n` workers: every task accepted is dispatched, in a queue, carried by a worker, or dropped
on its way from the event queue. -/
structure Balanced (n : ℕ) (p : Pool) : Prop where
  workers : p.kernel.sched.nWorkers = n
  beyond : ∀ w, n ≤ w → p.pc w = .absent
  balance : p.accepted = p.dispatched + p.kernel.sched.held + p.inTransit n + p.dropped

theorem init_balanced (k : Kernel) : Balanced k.sched.nWorkers (init k) := by
  refine ⟨rfl, fun _ _ => rfl, ?_⟩
  simp [init, inTransit, carried]

theorem Balanced.lt (h : Balanced n p) (hw : p.pc w ≠ .absent) : w < n := by
  by_contra hge
  exact hw (h.beyond w (not_lt.mp hge))

theorem beyond_update {pc : ℕ → LoopPc} (h : ∀ v, n ≤ v → pc v = .absent) (hw : w < n) (c : LoopPc) :
    ∀ v, n ≤ v → Function.update pc w c v = .absent := by
  intro v hv
  rw [Function.update_of_ne (by omega)]
  exact h v hv

/-- A step of worker `w` exchanges what it carries. -/
theorem Balanced.move (h : Balanced n p) (hw : w < n) (hpc : q.pc = Function.update p.pc w c)
    (hn : q.kernel.sched.nWorkers = p.kernel.sched.nWorkers)
    (hx : q.accepted + (p.dispatched + p.kernel.sched.held + carried (p.pc w) + p.dropped) =
      p.accepted + (q.dispatched + q.kernel.sched.held + carried c + q.dropped)) :
    Balanced n q := by
  have hsum := Tally.sum_update_add (Finset.range n) carried p.pc (Finset.mem_range.mpr hw) c
  refine ⟨hn.trans h.workers, hpc ▸ beyond_update h.beyond hw c, ?_⟩
  have hbal := h.balance
  unfold inTransit at hbal ⊢
  rw [hpc]
  apply add_right_cancel (b := p.dispatched + p.kernel.sched.held + carried (p.pc w) + p.dropped)
  rw [hx, hbal]
  calc p.dispatched + p.kernel.sched.held + (∑ v ∈ Finset.range n, carried (p.pc v)) + p.dropped +
        (q.dispatched + q.kernel.sched.held + carried c + q.dropped)
      = (∑ v ∈ Finset.range n, carried (p.pc v)) + carried c + (p.dispatched + p.kernel.sched.held +
          p.dropped + (q.dispatched + q.kernel.sched.held + q.dropped)) := by abel
    _ = _ := by
        rw [← hsum]
        abel

/-- A step that moves no task. -/
theorem Balanced.quiet (h : Balanced n p) (hw : w < n) (hpc : q.pc = Function.update p.pc w c)
    (hs : q.kernel.sched = p.kernel.sched) (hc : carried c = carried (p.pc w))
    (hg : q.accepted = p.accepted ∧ q.dispatched = p.dispatched ∧ q.dropped = p.dropped) :
    Balanced n q := by
  obtain ⟨ha, hd, hr⟩ := hg
  exact h.move hw hpc (by rw [hs]) (by rw [ha, hd, hr, hs, hc])

/-- A worker takes a task from a queue. -/
theorem Balanced.take {s : Sched} (h : Balanced n p) (hw : w < n) (hfree : carried (p.pc w) = 0)
    (hn : s.nWorkers = p.kernel.sched.nWorkers) (hheld : p.kernel.sched.held = t.content ::ₘ s.held)
    (hc : carried c = {t.content}) : Balanced n ((p.setSched s).goto w c) := by
  refine h.move hw rfl hn ?_
  show p.accepted + _ = p.accepted + (p.dispatched + s.held + carried c + p.dropped)
  rw [hfree, hheld, hc, ← Multiset.singleton_add]
  abel

/-- Nobody's task reaches a queue, or none does. -/
theorem Balanced.offered {s : Sched} {accepted : Multiset Task} (h : Balanced n p)
    (hn : s.nWorkers = p.kernel.sched.nWorkers)
    (hx : accepted + p.kernel.sched.held = p.accepted + s.held) :
    Balanced n { p.setSched s with accepted := accepted } := by
  refine ⟨hn.trans h.workers, h.beyond, ?_⟩
  have hbal := h.balance
  show accepted = p.dispatched + s.held + p.inTransit n + p.dropped
  apply add_right_cancel (b := p.kernel.sched.held)
  rw [hx, hbal]
  abel

theorem Balanced.offer (h : Balanced n p) (t : Task) (workerId : ℤ) :
    Balanced n (p.offer t workerId) := by
  have hheld := Sched.held_enqueue p.kernel.sched t workerId
  have hn := Sched.nWorkers_enqueue p.kernel.sched t workerId
  unfold Pool.offer
  generalize gmkEnqueue p.kernel.sched t workerId = r at *
  refine h.offered hn ?_
  rw [hheld]
  split <;> simp only [Multiset.cons_add, Multiset.add_cons]

theorem Balanced.schedule (h : Balanced n p) (t : Task) : Balanced n (p.schedule t) := by
  unfold Pool.schedule
  split
  next evq hpush =>
    refine h.offered rfl ?_
    rw [Sched.held_evqPush hpush, Multiset.cons_add, Multiset.add_cons]
  next => exact h

/-- A change outside of the scheduler. -/
theorem Balanced.other {kernel : Kernel} {running parked : ℕ → Bool} {control : ControlPc}
    (h : Balanced n p) (hs : kernel.sched = p.kernel.sched) :
    Balanced n { p with
      kernel := kernel, running := running, parked := parked, control := control } :=
  ⟨(congrArg Sched.nWorkers hs).trans h.workers, h.beyond, by
    have hbal := h.balance
    show p.accepted = p.dispatched + kernel.sched.held + p.inTransit n + p.dropped
    rwa [hs]⟩

theorem Balanced.yield (h : Balanced n p) (hw : w < n) (hpc : carried (p.pc w) = 0) (t : Task)
    (call : YieldCall) : Balanced n (p.yield w t call) := by
  obtain ⟨hheld, hn⟩ := Sched.held_yield (call.prepare t) (h.workers.symm ▸ hw)
  have htask := gmkYield_task p.kernel.sched (call.prepare t) (h.workers.symm ▸ hw)
  unfold Pool.yield
  generalize gmkYield p.kernel.sched (call.prepare t) w gmkDefaultMaxYields = r at *
  refine h.move hw (c := .handler r.2.1) rfl hn ?_
  rw [hpc]
  show (if r.1 = 0 then r.2.1.content ::ₘ p.accepted else p.accepted) +
      (p.dispatched + p.kernel.sched.held + 0 + p.dropped) =
    p.accepted + (p.dispatched + r.2.2.held + 0 + p.dropped)
  rw [hheld, htask]
  split <;> simp only [Multiset.cons_add, Multiset.add_cons]

theorem Balanced.handlerStep (h : Balanced n p) (hw : w < n) (hpc : p.pc w = .handler t)
    (act : HandlerAct) : Balanced n (p.handlerStep w t act) := by
  have hfree : carried (p.pc w) = 0 := by
    rw [hpc]
    rfl
  cases act with
  | enqueue t' workerId => exact h.offer t' workerId
  | yield call => exact h.yield hw hfree t call
  | schedule t' => exact h.schedule t'
  | other heap chan trace => exact h.other rfl
  | ret rc t' => exact h.quiet hw rfl rfl hfree.symm ⟨rfl, rfl, rfl⟩

/-- The task becomes a dispatched one when its handler is looked up. -/
theorem Balanced.lookupStep (h : Balanced n p) (hw : w < n) (hpc : p.pc w = .lookup t) :
    Balanced n (p.lookupStep w t) := by
  have hx (c : LoopPc) (hc : carried c = 0) :
      p.accepted + (p.dispatched + p.kernel.sched.held + carried (p.pc w) + p.dropped) =
        p.accepted + (t.content ::ₘ p.dispatched + p.kernel.sched.held + carried c + p.dropped) := by
    rw [hpc, hc, carried, ← Multiset.singleton_add t.content p.dispatched]
    abel
  unfold Pool.lookupStep
  simp only
  split
  · exact h.move hw rfl rfl (hx _ rfl)
  · split
    · exact h.move hw rfl rfl (hx _ rfl)
    · exact h.move hw rfl rfl (hx _ rfl)

theorem Balanced.returnedStep {rc : ℤ} (h : Balanced n p) (hw : w < n)
    (hpc : p.pc w = .returned t rc) : Balanced n (p.returnedStep w t rc) := by
  have hfree : carried (p.pc w) = 0 := by
    rw [hpc]
    rfl
  unfold Pool.returnedStep
  split_ifs with hok hretry
  · have hsched : (dispatchOutcome p.kernel w t gmkOk).sched = p.kernel.sched := by
      rw [dispatchOutcome_sched, if_neg (by decide)]
    exact h.quiet hw rfl hsched hfree.symm ⟨rfl, rfl, rfl⟩
  · have ho := h.offer t (-1)
    exact ho.quiet hw rfl rfl hfree.symm ⟨rfl, rfl, rfl⟩
  · exact h.quiet hw rfl rfl hfree.symm ⟨rfl, rfl, rfl⟩

theorem Balanced.evqPopStep {drained : ℕ} {tick : UInt32} (h : Balanced n p) (hw : w < n)
    (hpc : p.pc w = .evqPop drained tick) : Balanced n (p.evqPopStep w drained tick) := by
  have hfree : carried (p.pc w) = 0 := by
    rw [hpc]
    rfl
  have hend : Balanced n (p.evqEnd w drained) := by
    refine h.quiet hw rfl rfl ?_ ⟨rfl, rfl, rfl⟩
    rw [hfree]
    split <;> rfl
  unfold Pool.evqPopStep
  split
  · split
    next t evq hpop => exact h.take hw hfree rfl (Sched.held_evqPop hpop) rfl
    next => exact hend
  · exact hend

/-- A drained event reaches a ready queue, or is dropped. -/
theorem Balanced.evqEnqueueStep {drained : ℕ} {tick : UInt32} (h : Balanced n p) (hw : w < n)
    (hpc : p.pc w = .evqEnqueue drained tick t) :
    Balanced n (p.evqEnqueueStep w drained tick t) := by
  have hheld := Sched.held_enqueue p.kernel.sched t w
  have hn := Sched.nWorkers_enqueue p.kernel.sched t w
  unfold Pool.evqEnqueueStep
  generalize gmkEnqueue p.kernel.sched t w = r at *
  refine h.move hw (c := .evqPop drained tick) rfl hn ?_
  rw [hpc]
  show p.accepted + (p.dispatched + p.kernel.sched.held + {t.content} + p.dropped) =
    p.accepted + (p.dispatched + r.2.2.held + 0 +
      if r.1 then p.dropped else t.content ::ₘ p.dropped)
  rw [hheld]
  split <;> rw [← Multiset.singleton_add] <;> abel

/-- One step of a worker. -/
theorem Balanced.workerStep (h : Balanced n p) (w : ℕ) (act : HandlerAct) :
    Balanced n (p.workerStep w act) := by
  by_cases habs : p.pc w = .absent
  · rwa [Pool.workerStep, habs]
  have hw := h.lt habs
  -- most steps move the worker and leave all tasks where they are
  have hstay {c : LoopPc} {kernel : Kernel} {parked : ℕ → Bool}
      (hs : kernel.sched = p.kernel.sched) (hc : carried c = carried (p.pc w)) :
      Balanced n { p.goto w c with kernel := kernel, parked := parked } :=
    h.quiet hw rfl hs hc ⟨rfl, rfl, rfl⟩
  have hgoto {c : LoopPc} (hc : carried c = carried (p.pc w)) : Balanced n (p.goto w c) :=
    h.quiet hw rfl rfl hc ⟨rfl, rfl, rfl⟩
  unfold Pool.workerStep
  cases hpc : p.pc w with rw [hpc] at hstay hgoto
  | absent => exact absurd hpc habs
  | exited => exact h
  | top =>
    refine hgoto ?_
    split <;> rfl
  | popLq =>
    simp only
    split
    next t lq hpop =>
      exact h.take hw (by rw [hpc]; rfl) rfl (Sched.held_lqPop (h.workers.symm ▸ hw) hpop) rfl
    next => exact hstay rfl rfl
  | popOverflow =>
    simp only
    split
    next t q hpop => exact h.take hw (by rw [hpc]; rfl) rfl (Sched.held_overflowPop hpop) rfl
    next => exact hstay rfl rfl
  | popRq =>
    simp only
    split
    next t rq hpop => exact h.take hw (by rw [hpc]; rfl) rfl (Sched.held_rqPop hpop) rfl
    next rq hpop =>
      refine h.move hw (c := .loadTick) rfl rfl ?_
      rw [hpc]
      show _ = p.accepted + (p.dispatched + Sched.held { p.kernel.sched with rq := rq } + 0 +
        p.dropped)
      rw [Sched.held_rqPop_none hpop]
      rfl
  | dequeued t => exact hstay rfl rfl
  | dispatch t => exact hstay rfl rfl
  | lookup t => exact h.lookupStep hw hpc
  | handler t => exact h.handlerStep hw hpc act
  | returned t rc => exact h.returnedStep hw hpc
  | retried t => exact hstay rfl rfl
  | failAdd t =>
    simp only
    split
    · exact hstay rfl rfl
    · exact hstay rfl rfl
  | failTest t count =>
    simp only [Pool.failTestStep]
    split
    · exact hstay rfl rfl
    · exact hstay rfl rfl
  | failRelease t =>
    refine hstay ?_ rfl
    split <;> rfl
  | failed t => exact hstay rfl rfl
  | loadTick => exact hstay rfl rfl
  | evqPop drained tick => exact h.evqPopStep hw hpc
  | evqEnqueue drained tick t => exact h.evqEnqueueStep hw hpc
  | park => exact hstay rfl rfl
  | parkCount => exact hstay rfl rfl
  | parkLoad =>
    refine hgoto ?_
    split <;> rfl
  | parkWait => exact hstay rfl rfl
  | unpark => exact hstay rfl rfl
  | wakeCount => exact hstay rfl rfl

theorem Balanced.controlStep (h : Balanced n p) (hpc : ∀ i, p.control = .create i → p.pc i = .absent)
    (created : Bool) : Balanced n (p.controlStep created) := by
  unfold Pool.controlStep
  cases hcontrol : p.control with simp only
  | create i =>
    split
    next hi =>
      split
      · refine Balanced.other (p := p.goto i .top) ?_ rfl
        refine h.quiet (h.workers ▸ hi) rfl rfl ?_ ⟨rfl, rfl, rfl⟩
        rw [hpc i hcontrol]
        rfl
      · exact h.other rfl
    next => exact h.other rfl
  | rollback i j =>
    split
    · exact h.other rfl
    · exact h.other rfl
  | rollbackWake i j => exact h.other rfl
  | rollbackJoin i j =>
    split
    · exact h.other rfl
    · exact h
  | failed => exact h
  | started => exact h.other rfl
  | clear i =>
    split
    · exact h.other rfl
    · exact h.other rfl
  | wake i =>
    split
    · exact h.other rfl
    · exact h.other rfl
  | join i =>
    split
    · split
      · exact h.other rfl
      · exact h
    · exact h.other rfl
  | stopped => exact h

end Pool
end Ggmk

import Ggmk.Chan.Registry
import Ggmk.Refs.Owned

/-! The channel functions of `chan.c`, called by any number of threads while workers take tasks and
finish them. A step is one operation of a ring, a queue or a count, or one critical section of the
channel's lock; a drain keeps its snapshot of the subscribers while they change. -/
namespace Ggmk
open Word

/-- The local variables of `gmk_chan_drain`; `nested` when `gmk_chan_emit` has called it. -/
structure Drain where
  chan : ℕ
  subs : List ChanSub
  limit : ℕ
  drained : ℕ
  nested : Bool

def Drain.next (d : Drain) : Drain := { d with drained := d.drained + 1 }

/-- Where a thread is with its call, named by what it does next. -/
inductive ChanPc
  | idle
  | check (c : ℕ) (t : Task)
  | count (c : ℕ) (t : Task)
  | full (c : ℕ) (t : Task)
  | fast (c : ℕ) (t : Task)
  | direct (c : ℕ) (t : Task) (sub : ChanSub)
  | push (c : ℕ) (t : Task)
  | emitted (c : ℕ) (t : Task) (buffered : Bool)
  | bound (c : ℕ)
  | snap (c limit : ℕ) (nested : Bool)
  | pop (d : Drain)
  | p2p (d : Drain) (t : Task)
  | p2pDead (d : Drain) (t : Task)
  | p2pDrop (d : Drain)
  | retain (d : Drain) (t : Task) (retained : ℕ)
  | copy (d : Drain) (t : Task) (i : ℕ)
  | copyFailed (d : Drain) (t copy : Task) (i : ℕ)
  | copyRelease (d : Drain) (t copy : Task) (i : ℕ)
  | drained (d : Drain)

/-- The kernel, the tasks of producers, those that workers are dispatching, and the threads with
their calls and the answer of the last one. -/
structure ChanThreads (n : ℕ) where
  kernel : Kernel
  held : Multiset Task
  running : Multiset Task
  pc : Fin n → ChanPc
  answer : Fin n → ℤ

inductive ChanAct (n : ℕ)
  | emit (v : Fin n) (c : ℕ) (t : Task)
  | drain (v : Fin n) (c limit : ℕ)
  | step (v : Fin n)
  | sub (c : ℕ) (moduleId : UInt32) (w : ℤ)
  | close (c : ℕ)
  | alloc (size : UInt32) (t : Task)
  | plain (t : Task)
  | take (t : Task)
  | release (t : Task)
  | retry (t : Task)
  | other

/-- The failed copy is dropped, or becomes a dead letter on a lossless channel. -/
def failCopy (k : Kernel) (chanId : ℕ) (task copy : Task) (i : ℕ) : Kernel :=
  if (k.chan.channels chanId).guarantee = gmkChanLossy then
    ((countDrop k chanId).traceWrite task.tenant gmkEvChanDrop task.type.toUInt16
      (UInt32.ofNat chanId) (UInt32.ofNat i)).metricInc task.tenant gmkMetricChanDrops
  else routeToDeadLetter k copy

theorem copyFailed_eq (k : Kernel) (c : ℕ) (t copy : Task) (i : ℕ) : copyFailed k c t copy i =
    if t.hasRc then (failCopy k c t copy i).release copy.payloadPtr.toNat
    else failCopy k c t copy i := rfl

namespace ChanThreads
variable {n : ℕ}

def start (k : Kernel) : ChanThreads n := ⟨k, 0, 0, fun _ => .idle, fun _ => 0⟩

def goto (s : ChanThreads n) (v : Fin n) (k : Kernel) (pc : ChanPc) : ChanThreads n :=
  { s with kernel := k, pc := Function.update s.pc v pc }

/-- The call returns. -/
def ret (s : ChanThreads n) (v : Fin n) (k : Kernel) (rc : ℤ) : ChanThreads n :=
  { s.goto v k .idle with answer := Function.update s.answer v rc }

/-- An emit fails, and its task stays with the producer. -/
def refuse (s : ChanThreads n) (v : Fin n) (k : Kernel) (t : Task) (rc : ℤ) : ChanThreads n :=
  { s.ret v k rc with held := t ::ₘ s.held }

/-- What a drain does with a message depends on the mode of the channel. -/
def route (k : Kernel) (d : Drain) (t : Task) : ChanPc :=
  if (k.chan.channels d.chan).mode = gmkChanP2p then .p2p d t else .retain d t 0

/-- The next step of the call of thread `v`. A ring that has been overfilled holds the thread up. -/
def step (s : ChanThreads n) (v : Fin n) : ChanThreads n :=
  let k := s.kernel
  match s.pc v with
  | .idle => s
  | .check c t =>
      if k.chan.nChannels ≤ c then s.refuse v k t (gmkFail gmkErrInvalid)
      else if (k.chan.channels c).isOpen = false then s.refuse v k t gmkChanClosed
      else s.goto v k (.count c (markEmit c t))
  | .count c t =>
      let ch := k.chan.channels c
      s.goto v k (if reserveThreshold ch ≤ gmkRingMpmcCount ch.ring ∧ t.prio ≠ gmkPrioCritical then
        .full c t else .fast c t)
  | .full c t => s.refuse v (emitFull k c t).2.2 t gmkChanFull
  | .fast c t =>
      match fastSub (k.chan.channels c) with
      | some sub => s.goto v k (.direct c t sub)
      | none => s.goto v k (.push c t)
  | .direct c t sub =>
      let (ok, t, sched) := gmkEnqueue k.sched t sub.workerId
      s.goto v { k with sched := sched } (if ok then .emitted c t false else .push c t)
  | .push c t =>
      match gmkRingMpmcPush (k.chan.channels c).ring t with
      | .spin => s
      | .full => s.goto v k (.full c t)
      | .ok r => s.goto v (k.setRing c r) (.emitted c t true)
  | .emitted c t buffered =>
      let k := emitDone k c t
      if buffered ∧ (k.chan.channels c).mode = gmkChanP2p then s.goto v k (.bound c)
      else s.ret v k gmkOk
  | .bound c =>
      if 0 < (k.chan.channels c).nSubs then s.goto v k (.snap c 1 true) else s.ret v k gmkOk
  | .snap c limit nested =>
      let none := s.ret v k (if nested then gmkOk else 0)
      if k.chan.nChannels ≤ c then none
      else
        let subs := subsSnap (k.chan.channels c)
        if subs = [] then none
        else s.goto v k (.pop ⟨c, subs, if limit = 0 then 2 ^ 32 - 1 else limit, 0, nested⟩)
  | .pop d =>
      if d.drained < d.limit then
        match gmkRingMpmcPop (k.chan.channels d.chan).ring with
        | .spin => s
        | .empty => s.goto v k (.drained d)
        | .ok t r => s.goto v (k.setRing d.chan r) (route k d t)
      else s.goto v k (.drained d)
  | .p2p d t =>
      match d.subs with
      | sub :: _ =>
          if sub.active then
            let (ok, t, sched) := gmkEnqueue k.sched t sub.workerId
            s.goto v { k with sched := sched } (if ok then .pop d.next else .p2pDead d t)
          else s.goto v k (.pop d.next)
      | [] => s.goto v k (.pop d.next)
  | .p2pDead d t => s.goto v (routeToDeadLetter k t) (.p2pDrop d)
  | .p2pDrop d => s.goto v (countDrop k d.chan) (.pop d.next)
  | .retain d t retained =>
      if t.hasRc ∧ retained + 1 < nActive d.subs then
        s.goto v { k with heap := gmkPayloadRetain k.heap t.payloadPtr.toNat }
          (.retain d t (retained + 1))
      else s.goto v k (.copy d t 0)
  | .copy d t i =>
      match d.subs[i]? with
      | none => s.goto v k (.pop d.next)
      | some sub =>
          if sub.active then
            let (ok, copy, sched) := gmkEnqueue k.sched t sub.workerId
            s.goto v { k with sched := sched }
              (if ok then .copy d t (i + 1) else .copyFailed d t copy i)
          else s.goto v k (.copy d t (i + 1))
  | .copyFailed d t copy i => s.goto v (failCopy k d.chan t copy i) (.copyRelease d t copy i)
  | .copyRelease d t copy i =>
      s.goto v (if t.hasRc then k.release copy.payloadPtr.toNat else k) (.copy d t (i + 1))
  | .drained d =>
      let k := if 0 < d.drained then
          k.traceWrite 0 gmkEvChanDrain 0 (UInt32.ofNat d.chan) (UInt32.ofNat d.drained)
        else k
      s.ret v k (if d.nested then gmkOk else int32 d.drained)

/-- A worker takes a task from its local queue, the overflow ring or the ready queue. -/
inductive Take (s : Sched) : Task → Sched → Prop
  | lq {t : Task} {w : ℕ} {lq : Lq} (hw : w < s.nWorkers) (h : gmkLqPop (s.lqs w) = some (t, lq)) :
      Take s t { s with lqs := Function.update s.lqs w lq }
  | overflow {t : Task} {q : MpmcQueue Task} (h : s.overflow.pop = some (t, q)) :
      Take s t { s with overflow := q }
  | rq {t : Task} {rq : Rq} (h : gmkRqPop s.rq = (some t, rq)) : Take s t { s with rq := rq }

/-- The steps of all threads. Handlers return any code and leave the counts alone; what they write
to their task keeps its reference. -/
inductive Step (s : ChanThreads n) : ChanAct n → ChanThreads n → Prop
  | emit {v : Fin n} {c : ℕ} {t : Task} (hpc : s.pc v = .idle) (ht : t ∈ s.held) :
      Step s (.emit v c t) { s.goto v s.kernel (.check c t) with held := s.held.erase t }
  | drain {v : Fin n} {c limit : ℕ} (hpc : s.pc v = .idle) :
      Step s (.drain v c limit) (s.goto v s.kernel (.snap c limit false))
  | step {v : Fin n} : Step s (.step v) (s.step v)
  | sub {c : ℕ} {m : UInt32} {w : ℤ} :
      Step s (.sub c m w) { s with kernel := (gmkChanSub s.kernel c m w).2 }
  | close {c : ℕ} : Step s (.close c) { s with kernel := (gmkChanClose s.kernel c).2 }
  | alloc {size : UInt32} {t : Task} {h : Heap} (ht : t.hasRc = true)
      (ha : gmkPayloadAlloc s.kernel.heap size = (some t.payloadPtr.toNat, h)) :
      Step s (.alloc size t) { s with kernel := { s.kernel with heap := h }, held := t ::ₘ s.held }
  | plain {t : Task} (ht : t.hasRc = false) : Step s (.plain t) { s with held := t ::ₘ s.held }
  | take {t : Task} {q : Sched} (h : Take s.kernel.sched t q) :
      Step s (.take t) { s with
        kernel := { s.kernel with sched := q }, running := t ::ₘ s.running }
  /-- The end of a dispatch whose handler has not asked for a retry. -/
  | release {t u : Task} (ht : t ∈ s.running) (hu : u.SameRef t) :
      Step s (.release u) { s with
        kernel := if u.hasRc then s.kernel.release u.payloadPtr.toNat else s.kernel
        running := s.running.erase t }
  | retry {t u : Task} (ht : t ∈ s.running) (hu : u.SameRef t) :
      Step s (.retry u) { s with
        kernel := { s.kernel with sched := (gmkEnqueue s.kernel.sched u (-1)).2.2 }
        running := s.running.erase t }
  | other {k : Kernel} (hheap : k.heap = s.kernel.heap) (hsched : k.sched = s.kernel.sched)
      (hchan : k.chan = s.kernel.chan) : Step s .other { s with kernel := k }

/-! ## A call that is not interrupted -/

section Alone
variable {s : ChanThreads n} {v : Fin n} {k k' : Kernel} {l l' : ChanPc} {d : Drain}
  {t u : Task} {c : ℕ} {rc : ℤ}

/-- Steps of thread `v` lead from `s` to `s'`. -/
def Leads (v : Fin n) (s s' : ChanThreads n) : Prop := ∃ m, (fun s => s.step v)^[m] s = s'

theorem Leads.refl (s : ChanThreads n) : Leads v s s := ⟨0, rfl⟩

theorem Leads.head {s' : ChanThreads n} (h : Leads v (s.step v) s') : Leads v s s' := by
  obtain ⟨m, hm⟩ := h
  exact ⟨m + 1, hm⟩

theorem Leads.trans {s' s'' : ChanThreads n} (h : Leads v s s') (h' : Leads v s' s'') :
    Leads v s s'' := by
  obtain ⟨m, rfl⟩ := h
  obtain ⟨m', rfl⟩ := h'
  exact ⟨m' + m, Function.iterate_add_apply _ m' m s⟩

@[simp] theorem goto_goto : (s.goto v k l).goto v k' l' = s.goto v k' l' := by
  simp only [goto, Function.update_idem]

@[simp] theorem goto_ret {rc : ℤ} : (s.goto v k l).ret v k' rc = s.ret v k' rc := by
  simp only [ret, goto, Function.update_idem]

@[simp] theorem goto_refuse {rc : ℤ} : (s.goto v k l).refuse v k' t rc = s.refuse v k' t rc := by
  simp only [refuse, goto_ret]
  rfl

@[simp] theorem goto_pc : (s.goto v k l).pc v = l := Function.update_self ..

@[simp] theorem goto_kernel : (s.goto v k l).kernel = k := rfl

/-- The copies that are left. -/
theorem copies_alone {subs : List ChanSub} {i : ℕ} (h : d.subs.drop i = subs) :
    Leads v (s.goto v k (.copy d t i))
      (s.goto v (deliverCopies d.chan t i subs k) (.pop d.next)) := by
  induction subs generalizing i k with
  | nil =>
    have hnone : d.subs[i]? = none := List.getElem?_eq_none_iff.mpr (List.drop_eq_nil_iff.mp h)
    refine Leads.head ?_
    simp only [step, goto_pc, hnone, goto_kernel, goto_goto]
    exact .refl _
  | cons sub subs ih =>
    have hsome : d.subs[i]? = some sub := by
      rw [← List.head?_drop, h, List.head?_cons]
    have hrest : d.subs.drop (i + 1) = subs := by
      rw [← List.drop_drop, h, List.drop_one, List.tail_cons]
    refine Leads.head (.trans ?_ (ih hrest))
    rcases henq : gmkEnqueue k.sched t sub.workerId with ⟨ok, u, q⟩
    simp only [step, goto_pc, hsome, goto_kernel, goto_goto, deliverCopy, henq]
    cases sub.active with
    | false => exact .refl _
    | true =>
      cases ok with
      | true => exact .refl _
      | false =>
        refine Leads.head (Leads.head ?_)
        simp only [step, goto_pc, goto_kernel, goto_goto, Bool.false_eq_true, if_false, if_true,
          copyFailed_eq]
        exact .refl _

/-- The retains that are left. -/
theorem retains_alone {left retained : ℕ} (h : t.hasRc = true)
    (hleft : nActive d.subs = retained + 1 + left) :
    Leads v (s.goto v k (.retain d t retained)) (s.goto v
      { k with heap := retainTimes k.heap t.payloadPtr.toNat left } (.copy d t 0)) := by
  induction left generalizing k retained with
  | zero =>
    have hdone : ¬ (t.hasRc = true ∧ retained + 1 < nActive d.subs) := fun hmore => by omega
    refine Leads.head ?_
    simp only [step, goto_pc, goto_kernel, goto_goto, if_neg hdone]
    exact .refl _
  | succ left ih =>
    have hmore : t.hasRc = true ∧ retained + 1 < nActive d.subs := ⟨h, by omega⟩
    refine Leads.head ?_
    simp only [step, goto_pc, goto_kernel, goto_goto, if_pos hmore]
    exact ih (by omega)

theorem fanOut_alone : Leads v (s.goto v k (.retain d t 0))
    (s.goto v (fanOut k d.chan t d.subs) (.pop d.next)) := by
  refine .trans ?_ (copies_alone (List.drop_zero (l := d.subs)))
  by_cases hmany : t.hasRc = true ∧ 1 < nActive d.subs
  · rw [if_pos hmany]
    exact retains_alone hmany.1 (by omega)
  · rw [if_neg hmany]
    refine Leads.head ?_
    simp only [step, goto_pc, goto_kernel, goto_goto, zero_add, if_neg hmany]
    exact .refl _

theorem routeP2p_alone {sub : ChanSub} {subs : List ChanSub} (h : d.subs = sub :: subs) :
    Leads v (s.goto v k (.p2p d t)) (s.goto v (routeP2p k d.chan t sub) (.pop d.next)) := by
  refine Leads.head ?_
  rcases henq : gmkEnqueue k.sched t sub.workerId with ⟨ok, u, q⟩
  simp only [step, goto_pc, goto_kernel, goto_goto, h, routeP2p, henq]
  cases sub.active with
  | false => exact .refl _
  | true =>
    cases ok with
    | true => exact .refl _
    | false =>
      refine Leads.head (Leads.head ?_)
      simp only [step, goto_pc, goto_kernel, goto_goto, Bool.false_eq_true, if_false, if_true]
      exact .refl _

/-- A round of the drain loop. -/
theorem drainTask_alone {r : RingMpmc Task} (hlt : d.drained < d.limit)
    (hpop : gmkRingMpmcPop (k.chan.channels d.chan).ring = .ok t r) :
    Leads v (s.goto v k (.pop d))
      (s.goto v (drainTask (k.setRing d.chan r) d.chan d.subs t) (.pop d.next)) := by
  refine Leads.head ?_
  simp only [step, goto_pc, goto_kernel, goto_goto, if_pos hlt, hpop]
  have hset : ((k.setRing d.chan r).chan.channels d.chan).mode = (k.chan.channels d.chan).mode := by
    rw [Kernel.setRing_self]
  by_cases hmode : (k.chan.channels d.chan).mode = gmkChanP2p
  · rw [route, if_pos hmode]
    unfold drainTask
    rw [if_pos (hset.trans hmode)]
    cases hsubs : d.subs with
    | nil =>
      refine Leads.head ?_
      simp only [step, goto_pc, goto_kernel, goto_goto, hsubs]
      exact .refl _
    | cons sub subs => exact routeP2p_alone hsubs
  · rw [route, if_neg hmode]
    unfold drainTask
    rw [if_neg fun heq => hmode (hset.symm.trans heq)]
    exact fanOut_alone

theorem drainLoop_alone {left m : ℕ} (hleft : d.limit = d.drained + left)
    (h : drainLoop d.chan d.subs left k = some (m, k')) :
    Leads v (s.goto v k (.pop d)) (s.goto v k' (.drained { d with drained := d.drained + m })) := by
  induction left generalizing k d m with
  | zero =>
    obtain ⟨rfl, rfl⟩ := Prod.mk.inj (Option.some.inj h)
    refine Leads.head ?_
    simp only [step, goto_pc, goto_kernel, goto_goto, if_neg (show ¬ d.drained < d.limit by omega)]
    exact .refl _
  | succ left ih =>
    have hlt : d.drained < d.limit := by omega
    simp only [drainLoop] at h
    split at h
    next => cases h
    next hempty =>
      obtain ⟨rfl, rfl⟩ := Prod.mk.inj (Option.some.inj h)
      refine Leads.head ?_
      simp only [step, goto_pc, goto_kernel, goto_goto, if_pos hlt, hempty]
      exact .refl _
    next t r hpop =>
      obtain ⟨⟨m', k₁⟩, hrest, he⟩ := Option.map_eq_some_iff.mp h
      obtain ⟨rfl, rfl⟩ := Prod.mk.inj he
      have hnext := ih (d := d.next) (by simp only [Drain.next]; omega) hrest
      rw [show d.drained + (m' + 1) = d.next.drained + m' by simp only [Drain.next]; omega]
      exact (drainTask_alone hlt hpop).trans hnext

/-- A drain that nobody interrupts does what `gmkChanDrain` does. -/
theorem drain_alone {limit m : ℕ} {nested : Bool} (h : gmkChanDrain k c limit = some (m, k')) :
    Leads v (s.goto v k (.snap c limit nested))
      (s.ret v k' (if nested then gmkOk else int32 m)) := by
  have hzero : (if nested then gmkOk else 0) = if nested then gmkOk else int32 0 := rfl
  refine Leads.head ?_
  simp only [step, goto_pc, goto_kernel, goto_goto, goto_ret]
  unfold gmkChanDrain at h
  split at h
  next hid =>
    obtain ⟨rfl, rfl⟩ := Prod.mk.inj (Option.some.inj h)
    rw [if_pos hid, hzero]
    exact .refl _
  next hid =>
    simp only at h
    rw [if_neg hid]
    split at h
    next hnil =>
      obtain ⟨rfl, rfl⟩ := Prod.mk.inj (Option.some.inj h)
      rw [if_pos hnil, hzero]
      exact .refl _
    next hnil =>
      rw [if_neg hnil]
      obtain ⟨⟨m', k₁⟩, hloop, he⟩ := Option.map_eq_some_iff.mp h
      obtain ⟨rfl, rfl⟩ := Prod.mk.inj he
      refine (drainLoop_alone (Nat.zero_add _).symm hloop).trans (Leads.head ?_)
      simp only [step, goto_pc, goto_kernel, goto_ret, zero_add]
      exact .refl _

/-- The end of an emit: a task that is not accepted is handed back. -/
def emitEnd (s : ChanThreads n) (v : Fin n) (k : Kernel) (rc : ℤ) (t : Task) : ChanThreads n :=
  if rc = gmkOk then s.ret v k rc else s.refuse v k t rc

theorem full_alone (h : emitFull k c t = (rc, u, k')) :
    Leads v (s.goto v k (.full c t)) (s.emitEnd v k' rc u) := by
  obtain ⟨rfl, rfl, rfl⟩ : gmkChanFull = rc ∧ t = u ∧ (emitFull k c t).2.2 = k' := by
    rw [h]
    exact ⟨congrArg Prod.fst h, congrArg (fun x => x.2.1) h, rfl⟩
  refine Leads.head ?_
  simp only [step, goto_pc, goto_kernel, goto_refuse]
  rw [emitEnd, if_neg gmkChanFull_ne_ok]
  exact .refl _

theorem push_alone (h : emitBuffer k c t = some (rc, u, k')) :
    Leads v (s.goto v k (.push c t)) (s.emitEnd v k' rc u) := by
  unfold emitBuffer at h
  simp only at h
  split at h
  next => cases h
  next hfull =>
    refine Leads.head ?_
    simp only [step, goto_pc, goto_kernel, goto_goto, hfull]
    exact full_alone (Option.some.inj h)
  next r hpush =>
    refine Leads.head (Leads.head ?_)
    simp only [step, goto_pc, goto_kernel, goto_goto, goto_ret, hpush, true_and]
    have hmode : ((emitDone (k.setRing c r) c t).chan.channels c).mode = (k.chan.channels c).mode ∧
        ((emitDone (k.setRing c r) c t).chan.channels c).nSubs = (k.chan.channels c).nSubs := by
      rw [emitDone_channels, countEmit_channels, Kernel.setRing_self]
      exact ⟨rfl, rfl⟩
    rw [hmode.1]
    split at h
    next hbound =>
      obtain ⟨⟨m, k₁⟩, hdrain, he⟩ := Option.map_eq_some_iff.mp h
      obtain ⟨rfl, rest⟩ := Prod.mk.inj he
      obtain ⟨rfl, rfl⟩ := Prod.mk.inj rest
      rw [if_pos hbound.1]
      refine Leads.head ?_
      simp only [step, goto_pc, goto_kernel, goto_goto, goto_ret, hmode.2, if_pos hbound.2]
      rw [emitEnd, if_pos rfl]
      exact drain_alone hdrain
    next hfree =>
      obtain ⟨rfl, he⟩ := Prod.mk.inj (Option.some.inj h)
      obtain ⟨rfl, rfl⟩ := Prod.mk.inj he
      rw [emitEnd, if_pos rfl]
      split
      next hp2p =>
        refine Leads.head ?_
        have hnone : ¬ 0 < (k.chan.channels c).nSubs := fun hpos => hfree ⟨hp2p, hpos⟩
        simp only [step, goto_pc, goto_kernel, goto_ret, hmode.2, if_neg hnone]
        exact .refl _
      next => exact .refl _

theorem count_alone (a : ChanPc)
    (ha : (if reserveThreshold (k.chan.channels c) ≤ gmkRingMpmcCount (k.chan.channels c).ring ∧
      t.prio ≠ gmkPrioCritical then ChanPc.full c t else .fast c t) = a) :
    (s.goto v k (.count c t)).step v = s.goto v k a := by
  subst ha
  have hstep : (s.goto v k (.count c t)).step v = (s.goto v k (.count c t)).goto v k
      (if reserveThreshold (k.chan.channels c) ≤ gmkRingMpmcCount (k.chan.channels c).ring ∧
        t.prio ≠ gmkPrioCritical then ChanPc.full c t else .fast c t) := by
    unfold step
    rw [goto_pc]
    exact rfl
  rw [hstep, goto_goto]

/-- An emit that nobody interrupts does what `gmkChanEmit` does. -/
theorem emit_alone (h : gmkChanEmit k c t = some (rc, u, k')) :
    Leads v (s.goto v k (.check c t)) (s.emitEnd v k' rc u) := by
  have hinvalid : gmkFail gmkErrInvalid ≠ gmkOk := by decide
  have hclosed : gmkChanClosed ≠ gmkOk := by decide
  refine Leads.head ?_
  simp only [step, goto_pc, goto_kernel, goto_goto, goto_refuse]
  unfold gmkChanEmit at h
  split at h
  next hid =>
    obtain ⟨rfl, he⟩ := Prod.mk.inj (Option.some.inj h)
    obtain ⟨rfl, rfl⟩ := Prod.mk.inj he
    rw [if_pos hid, emitEnd, if_neg hinvalid]
    exact .refl _
  next hid =>
    simp only at h
    rw [if_neg hid]
    split at h
    next hopen =>
      obtain ⟨rfl, he⟩ := Prod.mk.inj (Option.some.inj h)
      obtain ⟨rfl, rfl⟩ := Prod.mk.inj he
      rw [if_pos hopen, emitEnd, if_neg hclosed]
      exact .refl _
    next hopen =>
      rw [if_neg hopen]
      refine Leads.head ?_
      split at h
      next hroom =>
        rw [count_alone (.full c _) (if_pos hroom)]
        exact full_alone (Option.some.inj h)
      next hroom =>
        rw [count_alone (.fast c _) (if_neg hroom)]
        refine Leads.head ?_
        simp only [step, goto_pc, goto_kernel, goto_goto]
        cases hfast : fastSub (k.chan.channels c) with
        | some sub =>
          simp only [hfast] at h ⊢
          refine Leads.head ?_
          rcases henq : gmkEnqueue k.sched (markEmit c t) sub.workerId with ⟨ok, x, q⟩
          simp only [step, goto_pc, goto_kernel, goto_goto, henq]
          rw [henq] at h
          cases ok with
          | true =>
            obtain ⟨rfl, he⟩ := Prod.mk.inj (Option.some.inj h)
            obtain ⟨rfl, rfl⟩ := Prod.mk.inj he
            refine Leads.head ?_
            simp only [step, goto_pc, goto_kernel, goto_ret, if_true, Bool.false_eq_true, false_and,
              if_false]
            rw [emitEnd, if_pos rfl]
            exact .refl _
          | false => exact push_alone h
        | none =>
          simp only [hfast] at h ⊢
          exact push_alone h

end Alone

end ChanThreads
end Ggmk

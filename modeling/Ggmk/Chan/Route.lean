import Ggmk.Kernel

/-! Emit, subscribe and drain of `chan.c`, called by one thread at a time. An operation
that never returns, because the ring it pops from has been overfilled, is `none`. -/
namespace Ggmk
open Word

/-- A full dead-letter ring drops the task. -/
def routeToDeadLetter (k : Kernel) (task : Task) : Kernel :=
  let dead := k.chan.channels gmkChanSysDropped
  if dead.isOpen then
    match gmkRingMpmcPush dead.ring task with
    | .ok r => k.setChan gmkChanSysDropped { dead with ring := r }
    | _ => k
  else k

def countDrop (k : Kernel) (chanId : ℕ) : Kernel :=
  let ch := k.chan.channels chanId
  k.setChan chanId { ch with dropCount := ch.dropCount + 1 }

def countEmit (k : Kernel) (chanId : ℕ) : Kernel :=
  let ch := k.chan.channels chanId
  k.setChan chanId { ch with emitCount := ch.emitCount + 1 }

def retainTimes (h : Heap) (payload : ℕ) : ℕ → Heap
  | 0 => h
  | n + 1 => retainTimes (gmkPayloadRetain h payload) payload n

/-- The branch of a fan-out copy that no queue has taken. -/
def copyFailed (k : Kernel) (chanId : ℕ) (task copy : Task) (i : ℕ) : Kernel :=
  let k :=
    if (k.chan.channels chanId).guarantee = gmkChanLossy then
      ((countDrop k chanId).traceWrite task.tenant gmkEvChanDrop task.type.toUInt16
        (UInt32.ofNat chanId) (UInt32.ofNat i)).metricInc task.tenant gmkMetricChanDrops
    else routeToDeadLetter k copy
  -- the reference of the failed or dead-lettered copy is given up
  if task.hasRc then k.release copy.payloadPtr.toNat else k

/-- The copy for the subscriber at position `i`. -/
def deliverCopy (k : Kernel) (chanId : ℕ) (task : Task) (i : ℕ) (sub : ChanSub) : Kernel :=
  if sub.active then
    let (ok, copy, sched) := gmkEnqueue k.sched task sub.workerId
    let k := { k with sched := sched }
    if ok then k else copyFailed k chanId task copy i
  else k

def deliverCopies (chanId : ℕ) (task : Task) : ℕ → List ChanSub → Kernel → Kernel
  | _, [], k => k
  | i, sub :: subs, k => deliverCopies chanId task (i + 1) subs (deliverCopy k chanId task i sub)

def nActive (subs : List ChanSub) : ℕ := subs.countP ChanSub.active

/-- One reference for every active subscriber, the first of them being the original. -/
def fanOut (k : Kernel) (chanId : ℕ) (task : Task) (subs : List ChanSub) : Kernel :=
  let k :=
    if task.hasRc ∧ 1 < nActive subs then
      { k with heap := retainTimes k.heap task.payloadPtr.toNat (nActive subs - 1) }
    else k
  deliverCopies chanId task 0 subs k

/-- The single subscriber gets the task, or the dead-letter ring does. -/
def routeP2p (k : Kernel) (chanId : ℕ) (task : Task) (sub : ChanSub) : Kernel :=
  if sub.active then
    let (ok, task, sched) := gmkEnqueue k.sched task sub.workerId
    let k := { k with sched := sched }
    if ok then k else countDrop (routeToDeadLetter k task) chanId
  else k

/-- The subscribers as they were when the drain took its snapshot. -/
def subsSnap (ch : ChanEntry) : List ChanSub := (List.range ch.nSubs).map ch.subs

def drainTask (k : Kernel) (chanId : ℕ) (subs : List ChanSub) (task : Task) : Kernel :=
  if (k.chan.channels chanId).mode = gmkChanP2p then
    match subs with
    | sub :: _ => routeP2p k chanId task sub
    | [] => k
  else fanOut k chanId task subs

/-- Up to `n` rounds of the drain loop. -/
def drainLoop (chanId : ℕ) (subs : List ChanSub) : ℕ → Kernel → Option (ℕ × Kernel)
  | 0, k => some (0, k)
  | n + 1, k =>
      match gmkRingMpmcPop (k.chan.channels chanId).ring with
      | .spin => none
      | .empty => some (0, k)
      | .ok task r =>
          let k := k.setChan chanId { k.chan.channels chanId with ring := r }
          (drainLoop chanId subs n (drainTask k chanId subs task)).map fun p => (p.1 + 1, p.2)

def gmkChanDrain (k : Kernel) (chanId limit : ℕ) : Option (ℕ × Kernel) :=
  if k.chan.nChannels ≤ chanId then some (0, k)
  else
    let subs := subsSnap (k.chan.channels chanId)
    if subs = [] then some (0, k)
    else
      let limit := if limit = 0 then 2 ^ 32 - 1 else limit
      (drainLoop chanId subs limit k).map fun p =>
        (p.1, if 0 < p.1 then
            p.2.traceWrite 0 gmkEvChanDrain 0 (UInt32.ofNat chanId) (UInt32.ofNat p.1)
          else p.2)

/-- The answer when the channel has no room. -/
def emitFull (k : Kernel) (chanId : ℕ) (task : Task) : ℤ × Task × Kernel :=
  (gmkChanFull, task,
    (k.traceWrite task.tenant gmkEvChanFull task.type.toUInt16 (UInt32.ofNat chanId) 0).metricInc
      task.tenant gmkMetricChanFullCount)

/-- Count an accepted message. -/
def emitDone (k : Kernel) (chanId : ℕ) (task : Task) : Kernel :=
  (countEmit k chanId).metricInc task.tenant gmkMetricChanEmits

/-- The threshold above which only critical messages are buffered, on 32 bits. -/
def reserveThreshold (ch : ChanEntry) : ℕ :=
  sub32 ch.ringCap (u32 (ch.ringCap * gmkChanPriorityReservePct) / 100)

/-- The subscriber of the fast path. -/
def fastSub (ch : ChanEntry) : Option ChanSub :=
  if ch.mode = gmkChanP2p ∧ ch.nSubs = 1 ∧ (ch.subs 0).active then some (ch.subs 0) else none

/-- The buffering part of an emit. -/
def emitBuffer (k : Kernel) (chanId : ℕ) (task : Task) : Option (ℤ × Task × Kernel) :=
  let ch := k.chan.channels chanId
  match gmkRingMpmcPush ch.ring task with
  | .spin => none
  | .full => some (emitFull k chanId task)
  | .ok r =>
      let k := emitDone (k.setChan chanId { ch with ring := r }) chanId task
      -- a bound channel is drained at once
      if ch.mode = gmkChanP2p ∧ 0 < ch.nSubs then
        (gmkChanDrain k chanId 1).map fun p => (gmkOk, task, p.2)
      else some (gmkOk, task, k)

/-- The task as `gmk_chan_emit` marks it. -/
def markEmit (chanId : ℕ) (task : Task) : Task :=
  { task with channel := UInt32.ofNat chanId, flags := task.flags ||| gmkTfChannelMsg }

def gmkChanEmit (k : Kernel) (chanId : ℕ) (task : Task) : Option (ℤ × Task × Kernel) :=
  if k.chan.nChannels ≤ chanId then some (gmkFail gmkErrInvalid, task, k)
  else
    let ch := k.chan.channels chanId
    if ch.isOpen = false then some (gmkChanClosed, task, k)
    else
      let task := markEmit chanId task
      if reserveThreshold ch ≤ gmkRingMpmcCount ch.ring ∧ task.prio ≠ gmkPrioCritical then
        some (emitFull k chanId task)
      else
        match fastSub ch with
        | some sub =>
            let (ok, task, sched) := gmkEnqueue k.sched task sub.workerId
            let k := { k with sched := sched }
            if ok then some (gmkOk, task, emitDone k chanId task) else emitBuffer k chanId task
        | none => emitBuffer k chanId task

def gmkChanSub (k : Kernel) (chanId : ℕ) (moduleId : UInt32) (workerId : ℤ) : ℤ × Kernel :=
  if k.chan.nChannels ≤ chanId then (gmkFail gmkErrInvalid, k)
  else
    let ch := k.chan.channels chanId
    if ch.isOpen = false then (gmkChanClosed, k)
    else if ch.mode = gmkChanP2p ∧ 1 ≤ ch.nSubs then (gmkChanAlreadyBound, k)
    else if gmkMaxChanSubs ≤ ch.nSubs then (gmkFail gmkErrFull, k)
    else
      (gmkOk, k.setChan chanId { ch with
        subs := Function.update ch.subs ch.nSubs ⟨moduleId, workerId, true⟩
        nSubs := ch.nSubs + 1 })

/-! ## What the operations touch -/

section Frame
variable (k : Kernel) (c d : ℕ) (t : Task)

@[simp] theorem countEmit_heap : (countEmit k c).heap = k.heap := rfl
@[simp] theorem countEmit_sched : (countEmit k c).sched = k.sched := rfl
@[simp] theorem countEmit_nChannels : (countEmit k c).chan.nChannels = k.chan.nChannels := rfl
@[simp] theorem countDrop_heap : (countDrop k c).heap = k.heap := rfl
@[simp] theorem countDrop_sched : (countDrop k c).sched = k.sched := rfl
@[simp] theorem countDrop_nChannels : (countDrop k c).chan.nChannels = k.chan.nChannels := rfl
@[simp] theorem emitDone_heap : (emitDone k c t).heap = k.heap := rfl
@[simp] theorem emitDone_sched : (emitDone k c t).sched = k.sched := rfl
@[simp] theorem emitDone_nChannels : (emitDone k c t).chan.nChannels = k.chan.nChannels := rfl

@[simp] theorem countEmit_channels : (countEmit k c).chan.channels d =
    { k.chan.channels d with emitCount :=
        if d = c then (k.chan.channels c).emitCount + 1 else (k.chan.channels d).emitCount } := by
  by_cases h : d = c
  · simp [countEmit, h]
  · simp [countEmit, Kernel.setChan_of_ne _ _ _ h, h]

@[simp] theorem countDrop_channels : (countDrop k c).chan.channels d =
    { k.chan.channels d with dropCount :=
        if d = c then (k.chan.channels c).dropCount + 1 else (k.chan.channels d).dropCount } := by
  by_cases h : d = c
  · simp [countDrop, h]
  · simp [countDrop, Kernel.setChan_of_ne _ _ _ h, h]

@[simp] theorem emitDone_channels : (emitDone k c t).chan.channels d =
    (countEmit k c).chan.channels d := rfl

@[simp] theorem routeToDeadLetter_heap : (routeToDeadLetter k t).heap = k.heap := by
  simp only [routeToDeadLetter]
  split
  · split <;> rfl
  · rfl

@[simp] theorem routeToDeadLetter_sched : (routeToDeadLetter k t).sched = k.sched := by
  simp only [routeToDeadLetter]
  split
  · split <;> rfl
  · rfl

@[simp] theorem routeToDeadLetter_nChannels :
    (routeToDeadLetter k t).chan.nChannels = k.chan.nChannels := by
  simp only [routeToDeadLetter]
  split
  · split <;> rfl
  · rfl

/-- Dead letters change one ring. -/
theorem routeToDeadLetter_channels : ∃ r, (routeToDeadLetter k t).chan.channels d =
    { k.chan.channels d with ring := r } := by
  have hsame : ∃ r, k.chan.channels d = { k.chan.channels d with ring := r } := ⟨_, rfl⟩
  simp only [routeToDeadLetter]
  split
  · split
    next r hr =>
      by_cases h : d = gmkChanSysDropped
      · exact ⟨r, by simp [h]⟩
      · simpa only [Kernel.setChan_of_ne _ _ _ h] using hsame
    · exact hsame
  · exact hsame

theorem routeToDeadLetter_of_ne (h : d ≠ gmkChanSysDropped) :
    (routeToDeadLetter k t).chan.channels d = k.chan.channels d := by
  simp only [routeToDeadLetter]
  split
  · split
    · exact Kernel.setChan_of_ne _ _ _ h
    · rfl
  · rfl

/-- The mark of `gmk_chan_emit` is apart from the other flags. -/
theorem or_channelMsg_and {f m : UInt16} (hm : gmkTfChannelMsg &&& m = 0) :
    (f ||| gmkTfChannelMsg) &&& m = f &&& m := by
  have h : (gmkTfChannelMsg &&& m).toBitVec = 0 := congrArg UInt16.toBitVec hm
  apply UInt16.toBitVec_inj.mp
  rw [UInt16.toBitVec_and, UInt16.toBitVec_or, BitVec.and_or_distrib_right,
    ← UInt16.toBitVec_and gmkTfChannelMsg, h, UInt16.toBitVec_and]
  exact BitVec.or_zero

@[simp] theorem markEmit_prio : (markEmit c t).prio = t.prio := by
  simp only [Task.prio, gmkPriority, markEmit,
    or_channelMsg_and (f := t.flags) (m := gmkTfPriorityMask) (by decide)]

@[simp] theorem markEmit_hasRc : (markEmit c t).hasRc = t.hasRc := by
  have h := or_channelMsg_and (f := t.flags) (m := gmkTfPayloadRc) (by decide)
  show (decide (_ ≠ 0) && decide (t.payloadPtr ≠ 0)) = (decide (_ ≠ 0) && decide (_ ≠ 0))
  rw [show (markEmit c t).flags = t.flags ||| gmkTfChannelMsg from rfl, h]

@[simp] theorem markEmit_payloadPtr : (markEmit c t).payloadPtr = t.payloadPtr := rfl

end Frame

/-! ## What an emit can do -/

theorem fastSub_some {ch : ChanEntry} {sub : ChanSub} (h : fastSub ch = some sub) :
    ch.mode = gmkChanP2p ∧ ch.nSubs = 1 ∧ sub.active ∧ ch.subs 0 = sub := by
  unfold fastSub at h
  split at h
  next hf =>
    obtain rfl := Option.some.inj h
    exact ⟨hf.1, hf.2.1, hf.2.2, rfl⟩
  next => simp at h

/-- The marked task and the scheduler after a fast path that was not there or failed. -/
structure NotDirect (k : Kernel) (c : ℕ) (t t' : Task) (s : Sched) : Prop where
  task : t'.content = (markEmit c t).content
  sched : ∃ n, s = { k.sched with nextSeq := n }
  refused : ∀ sub, fastSub (k.chan.channels c) = some sub →
    k.sched.NoLq sub.workerId ∧ k.sched.rq.Refuses t.prio

namespace NotDirect
variable {k : Kernel} {c : ℕ} {t t' : Task} {s : Sched}

theorem hasRc (h : NotDirect k c t t' s) : t'.hasRc = t.hasRc := by
  rw [← t'.content_hasRc, h.task, Task.content_hasRc, markEmit_hasRc]

theorem payloadPtr (h : NotDirect k c t t' s) : t'.payloadPtr = t.payloadPtr := by
  rw [← t'.content_payloadPtr, h.task, Task.content_payloadPtr, markEmit_payloadPtr]

theorem prio (h : NotDirect k c t t' s) : t'.prio = t.prio := by
  rw [← t'.content_prio, h.task, Task.content_prio, markEmit_prio]

end NotDirect

/-- The kernel after the push of a buffered emit. -/
def buffered (k : Kernel) (c : ℕ) (t : Task) (s : Sched) (r : RingMpmc Task) : Kernel :=
  emitDone ({ k with sched := s }.setChan c { k.chan.channels c with ring := r }) c t

/-- The checks at the start of `gmk_chan_emit`. -/
structure Admits (k : Kernel) (c : ℕ) (t : Task) : Prop where
  id : c < k.chan.nChannels
  isOpen : (k.chan.channels c).isOpen
  room : reserveThreshold (k.chan.channels c) ≤ gmkRingMpmcCount (k.chan.channels c).ring →
    t.prio = gmkPrioCritical

/-- The outcomes of `gmk_chan_emit`. -/
inductive EmitCase (k : Kernel) (c : ℕ) (t : Task) : ℤ × Task × Kernel → Prop
  | rejected (rc : ℤ) (t' : Task) (k' : Kernel) (hrc : rc ≠ gmkOk)
      (ht : t'.hasRc = t.hasRc ∧ t'.payloadPtr = t.payloadPtr)
      (hheap : k'.heap = k.heap) (hchan : k'.chan = k.chan)
      (hsched : ∃ n, k'.sched = { k.sched with nextSeq := n }) : EmitCase k c t (rc, t', k')
  | direct (sub : ChanSub) (s : Sched) (ha : Admits k c t)
      (hfast : fastSub (k.chan.channels c) = some sub)
      (henq : gmkEnqueue k.sched (markEmit c t) sub.workerId =
        (true, k.sched.stamp (markEmit c t), s)) :
      EmitCase k c t (gmkOk, k.sched.stamp (markEmit c t),
        emitDone { k with sched := s } c (k.sched.stamp (markEmit c t)))
  | buffered (t' : Task) (s : Sched) (r : RingMpmc Task) (ha : Admits k c t)
      (hnd : NotDirect k c t t' s)
      (hpush : gmkRingMpmcPush (k.chan.channels c).ring t' = .ok r)
      (hfree : ¬ ((k.chan.channels c).mode = gmkChanP2p ∧ 0 < (k.chan.channels c).nSubs)) :
      EmitCase k c t (gmkOk, t', buffered k c t' s r)
  | drained (t' : Task) (s : Sched) (r : RingMpmc Task) (n : ℕ) (k' : Kernel)
      (ha : Admits k c t) (hnd : NotDirect k c t t' s)
      (hpush : gmkRingMpmcPush (k.chan.channels c).ring t' = .ok r)
      (hbound : (k.chan.channels c).mode = gmkChanP2p ∧ 0 < (k.chan.channels c).nSubs)
      (hdrain : gmkChanDrain (buffered k c t' s r) c 1 = some (n, k')) :
      EmitCase k c t (gmkOk, t', k')

theorem gmkChanFull_ne_ok : gmkChanFull ≠ gmkOk := by decide

theorem emitBuffer_cases {k : Kernel} {c : ℕ} {t t' : Task} {s : Sched} {res : ℤ × Task × Kernel}
    (ha : Admits k c t) (hnd : NotDirect k c t t' s)
    (h : emitBuffer { k with sched := s } c t' = some res) : EmitCase k c t res := by
  unfold emitBuffer at h
  simp only at h
  split at h
  next => simp at h
  next =>
    obtain rfl := Option.some.inj h
    exact .rejected _ _ _ gmkChanFull_ne_ok ⟨hnd.hasRc, hnd.payloadPtr⟩ rfl rfl hnd.sched
  next r hr =>
    split at h
    next hb =>
      obtain ⟨p, hp, rfl⟩ := Option.map_eq_some_iff.mp h
      exact .drained t' s r p.1 p.2 ha hnd hr hb hp
    next hb =>
      obtain rfl := Option.some.inj h
      exact .buffered t' s r ha hnd hr hb

theorem gmkChanEmit_cases {k : Kernel} {c : ℕ} {t : Task} {res : ℤ × Task × Kernel}
    (h : gmkChanEmit k c t = some res) : EmitCase k c t res := by
  unfold gmkChanEmit at h
  split at h
  next =>
    obtain rfl := Option.some.inj h
    exact .rejected _ _ _ (by decide) ⟨rfl, rfl⟩ rfl rfl ⟨_, rfl⟩
  next hid =>
    simp only at h
    split at h
    next =>
      obtain rfl := Option.some.inj h
      exact .rejected _ _ _ (by decide) ⟨rfl, rfl⟩ rfl rfl ⟨_, rfl⟩
    next hopen =>
      split at h
      next =>
        obtain rfl := Option.some.inj h
        exact .rejected _ _ _ gmkChanFull_ne_ok ⟨by simp, rfl⟩ rfl rfl ⟨_, rfl⟩
      next hroom =>
        have ha : Admits k c t := by
          refine ⟨not_le.mp hid, Bool.eq_true_of_not_eq_false hopen, ?_⟩
          intro hle
          by_contra hprio
          exact hroom ⟨hle, by simpa using hprio⟩
        split at h
        next sub hfast =>
          have htask := gmkEnqueue_task k.sched (markEmit c t) sub.workerId
          have hfalse := gmkEnqueue_eq_false_iff k.sched (markEmit c t) sub.workerId
          have hcase := gmkEnqueue_cases k.sched (markEmit c t) sub.workerId
          generalize henq : gmkEnqueue k.sched (markEmit c t) sub.workerId = e at h htask hfalse hcase
          obtain ⟨ok, u, s⟩ := e
          obtain rfl : u = _ := htask
          cases ok with
          | true =>
            obtain rfl := Option.some.inj h
            exact .direct sub s ha hfast henq
          | false =>
            apply emitBuffer_cases ha ?_ h
            refine ⟨rfl, ?_, ?_⟩
            · cases hcase
              exact ⟨_, rfl⟩
            · intro sub' hsub'
              obtain rfl := Option.some.inj (hfast.symm.trans hsub')
              simpa using hfalse
        next hfast =>
          apply emitBuffer_cases ha ?_ h
          refine ⟨rfl, ⟨_, rfl⟩, ?_⟩
          intro sub hsub
          simp [hfast] at hsub

section Admitted
variable {k : Kernel} {c : ℕ} {t : Task} (h : Admits k c t)
include h

/-- An emit that passes the checks on a channel without fast path is buffered. -/
theorem Admits.emit_slow (hslow : fastSub (k.chan.channels c) = none) :
    gmkChanEmit k c t = emitBuffer k c (markEmit c t) := by
  have hroom : ¬ (reserveThreshold (k.chan.channels c) ≤
      gmkRingMpmcCount (k.chan.channels c).ring ∧ (markEmit c t).prio ≠ gmkPrioCritical) :=
    fun hf => hf.2 (by simpa using h.room hf.1)
  simp only [gmkChanEmit, if_neg (not_le.mpr h.id), h.isOpen, Bool.true_eq_false, if_false,
    if_neg hroom, hslow]

theorem Admits.emit_fast {sub : ChanSub} (hfast : fastSub (k.chan.channels c) = some sub) :
    gmkChanEmit k c t =
      if (gmkEnqueue k.sched (markEmit c t) sub.workerId).1 then
        some (gmkOk, k.sched.stamp (markEmit c t), emitDone
          { k with sched := (gmkEnqueue k.sched (markEmit c t) sub.workerId).2.2 } c
          (k.sched.stamp (markEmit c t)))
      else emitBuffer { k with sched := (gmkEnqueue k.sched (markEmit c t) sub.workerId).2.2 } c
        (k.sched.stamp (markEmit c t)) := by
  have hroom : ¬ (reserveThreshold (k.chan.channels c) ≤
      gmkRingMpmcCount (k.chan.channels c).ring ∧ (markEmit c t).prio ≠ gmkPrioCritical) :=
    fun hf => hf.2 (by simpa using h.room hf.1)
  simp only [gmkChanEmit, if_neg (not_le.mpr h.id), h.isOpen, Bool.true_eq_false, if_false,
    if_neg hroom, hfast]
  rw [← gmkEnqueue_task k.sched (markEmit c t) sub.workerId]

end Admitted

/-- The first subscription of an open channel is accepted. -/
theorem gmkChanSub_first {k : Kernel} {c : ℕ} (hc : c < k.chan.nChannels)
    (hopen : (k.chan.channels c).isOpen) (hn : (k.chan.channels c).nSubs = 0) (m : UInt32) (w : ℤ) :
    gmkChanSub k c m w = (gmkOk, k.setChan c { k.chan.channels c with
      subs := Function.update (k.chan.channels c).subs 0 ⟨m, w, true⟩
      nSubs := 1 }) := by
  have hmax : ¬ gmkMaxChanSubs ≤ 0 := by decide
  simp [gmkChanSub, not_le.mpr hc, hopen, hn, hmax]

/-! ## What a drain can do -/

theorem gmkChanDrain_unbound {k : Kernel} {c : ℕ} (h : (k.chan.channels c).nSubs = 0) (limit : ℕ) :
    gmkChanDrain k c limit = some (0, k) := by
  simp [gmkChanDrain, subsSnap, h]

theorem subsSnap_one {ch : ChanEntry} (h : ch.nSubs = 1) : subsSnap ch = [ch.subs 0] := by
  simp [subsSnap, h]

theorem drainTask_p2p {k : Kernel} {c : ℕ} (h : (k.chan.channels c).mode = gmkChanP2p)
    (sub : ChanSub) (t : Task) : drainTask k c [sub] t = routeP2p k c t sub := if_pos h

/-- What every round of the drain loop keeps, a drain keeps. -/
theorem drainLoop_induct {P : Kernel → Prop} {c : ℕ} {subs : List ChanSub}
    (hstep : ∀ k t r, P k → gmkRingMpmcPop (k.chan.channels c).ring = .ok t r →
      P (drainTask (k.setChan c { k.chan.channels c with ring := r }) c subs t)) :
    ∀ {n m : ℕ} {k k' : Kernel}, P k → drainLoop c subs n k = some (m, k') → P k' := by
  intro n
  induction n with
  | zero =>
    intro m k k' hk h
    obtain ⟨-, rfl⟩ := Prod.mk.inj (Option.some.inj h)
    exact hk
  | succ n ih =>
    intro m k k' hk h
    simp only [drainLoop] at h
    split at h
    next => simp at h
    next =>
      obtain ⟨-, rfl⟩ := Prod.mk.inj (Option.some.inj h)
      exact hk
    next t r hr =>
      obtain ⟨⟨m', k''⟩, hloop, he⟩ := Option.map_eq_some_iff.mp h
      obtain ⟨-, rfl⟩ := Prod.mk.inj he
      exact ih (hstep k t r hk hr) hloop

theorem gmkChanDrain_induct {P : Kernel → Prop} {c limit n : ℕ} {k k' : Kernel} (hk : P k)
    (htrace : ∀ k n m, P k → P (k.traceWrite 0 gmkEvChanDrain 0 n m))
    (hstep : ∀ k₁ t r, P k₁ → gmkRingMpmcPop (k₁.chan.channels c).ring = .ok t r →
      P (drainTask (k₁.setChan c { k₁.chan.channels c with ring := r }) c
        (subsSnap (k.chan.channels c)) t))
    (h : gmkChanDrain k c limit = some (n, k')) : P k' := by
  unfold gmkChanDrain at h
  split at h
  next =>
    obtain ⟨-, rfl⟩ := Prod.mk.inj (Option.some.inj h)
    exact hk
  next =>
    simp only at h
    split at h
    next =>
      obtain ⟨-, rfl⟩ := Prod.mk.inj (Option.some.inj h)
      exact hk
    next =>
      obtain ⟨⟨m, k₁⟩, hloop, he⟩ := Option.map_eq_some_iff.mp h
      obtain ⟨-, rfl⟩ := Prod.mk.inj he
      have hk₁ := drainLoop_induct hstep hk hloop
      simp only
      split
      · exact htrace _ _ _ hk₁
      · exact hk₁

/-- A drain of one message. -/
theorem gmkChanDrain_one {k k' : Kernel} {c n : ℕ} (hc : c < k.chan.nChannels)
    (hsubs : subsSnap (k.chan.channels c) ≠ []) (h : gmkChanDrain k c 1 = some (n, k')) :
    (gmkRingMpmcPop (k.chan.channels c).ring = .empty ∧ k' = k) ∨
    ∃ t r, gmkRingMpmcPop (k.chan.channels c).ring = .ok t r ∧
      k' = (drainTask (k.setChan c { k.chan.channels c with ring := r }) c
        (subsSnap (k.chan.channels c)) t).traceWrite 0 gmkEvChanDrain 0 (UInt32.ofNat c) 1 := by
  unfold gmkChanDrain at h
  simp only [if_neg (not_le.mpr hc), if_neg hsubs, one_ne_zero, if_false, drainLoop] at h
  split at h
  next => simp at h
  next he =>
    left
    obtain ⟨-, rfl⟩ := Prod.mk.inj (Option.some.inj h)
    exact ⟨he, rfl⟩
  next t r hr =>
    right
    obtain ⟨-, rfl⟩ := Prod.mk.inj (Option.some.inj h)
    exact ⟨t, r, hr, rfl⟩

end Ggmk

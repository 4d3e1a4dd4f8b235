import Ggmk.Chan.Fifo
import Ggmk.Refs.Routes

/-! The counts of all payloads over runs of emits, drains and dispatches. Handlers return any
code and leave the counts and the event queue alone; between the two ends of a dispatch other
steps may happen. -/
namespace Ggmk
open RingMpmc Guarded

/-- The kernel, the tasks of producers, which are not emitted yet or were refused, and the
tasks whose dispatch is in progress. -/
structure RcRun where
  kernel : Kernel
  held : Multiset Task
  running : Multiset Task

inductive RcOp where
  | alloc (size : UInt32) (t : Task)
  | allocFails (size : UInt32)
  | plain (t : Task)
  | emit (c : ℕ) (t : Task)
  | sub (c : ℕ) (moduleId : UInt32) (w : ℤ)
  | drain (c limit : ℕ)
  | dispatch (w : ℕ)
  | finish (w : ℕ) (t : Task) (rc : ℤ)
  | other

namespace RcRun

/-- All copies of tasks: with producers, in the channel rings, in the queues of the scheduler
and in dispatches. -/
def places (s : RcRun) : Multiset Task :=
  s.held + s.kernel.ringTasks + s.kernel.sched.readyTasks + s.running

/-- A payload that is not freed counts the copies that refer to it, and no copy refers to a
payload that is. -/
structure Sound (s : RcRun) : Prop where
  counts : ∀ p ∈ s.kernel.heap.live, s.kernel.heap.refcount p = refs s.places p
  fresh : ∀ t ∈ s.places, t.hasRc = true → t.payloadPtr.toNat ∈ s.kernel.heap.live

inductive Step : RcRun → RcOp → RcRun → Prop
  | alloc {s : RcRun} {size : UInt32} {t : Task} {h : Heap} (ht : t.hasRc = true)
      (ha : gmkPayloadAlloc s.kernel.heap size = (some t.payloadPtr.toNat, h)) :
      Step s (.alloc size t) ⟨{ s.kernel with heap := h }, t ::ₘ s.held, s.running⟩
  | allocFails {s : RcRun} {size : UInt32} {h : Heap}
      (ha : gmkPayloadAlloc s.kernel.heap size = (none, h)) :
      Step s (.allocFails size) { s with kernel := { s.kernel with heap := h } }
  | plain {s : RcRun} {t : Task} (ht : t.hasRc = false) :
      Step s (.plain t) { s with held := t ::ₘ s.held }
  | emit {s : RcRun} {c : ℕ} {t u : Task} {rc : ℤ} {k : Kernel} (ht : t ∈ s.held)
      (he : gmkChanEmit s.kernel c t = some (rc, u, k)) :
      Step s (.emit c t)
        ⟨k, if rc = gmkOk then s.held.erase t else u ::ₘ s.held.erase t, s.running⟩
  | sub {s : RcRun} {c : ℕ} {m : UInt32} {w : ℤ} :
      Step s (.sub c m w) { s with kernel := (gmkChanSub s.kernel c m w).2 }
  | drain {s : RcRun} {c limit n : ℕ} {k : Kernel}
      (hd : gmkChanDrain s.kernel c limit = some (n, k)) :
      Step s (.drain c limit) { s with kernel := k }
  | dispatch {s : RcRun} {w : ℕ} {t : Task} {q : Sched} (hw : w < s.kernel.sched.nWorkers)
      (hp : popWork s.kernel.sched w = (some t, q)) :
      Step s (.dispatch w) ⟨{ s.kernel with sched := q }, s.held, t ::ₘ s.running⟩
  | finish {s : RcRun} {w : ℕ} {t u : Task} {rc : ℤ} (ht : t ∈ s.running) (hu : u.SameRef t) :
      Step s (.finish w u rc) ⟨dispatchOutcome s.kernel w u rc, s.held, s.running.erase t⟩
  | other {s : RcRun} {k : Kernel} (hheap : k.heap = s.kernel.heap)
      (hsched : k.sched = s.kernel.sched) (hchan : k.chan = s.kernel.chan) :
      Step s .other { s with kernel := k }

/-- No reference is lost or given up twice: an emit and each round of a drain are safe, and a
retry of a task with counted payload finds room in the ready queue. -/
def Safe (s : RcRun) : RcOp → Prop
  | .emit c t => EmitSafe s.kernel c t
  | .drain c limit => ChanDrainSafe s.kernel c limit
  | .finish _ u rc => rc = gmkRetry → u.hasRc = true → ¬ s.kernel.sched.rq.Refuses u.prio
  | _ => True

/-- A kernel without payloads. Its channels and queues may hold other tasks. -/
structure Fresh (k : Kernel) : Prop where
  heap : k.heap.Keeps
  live : k.heap.live = ∅
  reg : RegWf k.chan
  ready : ∀ t ∈ k.sched.readyTasks, t.hasRc = false
  rings : ∀ t ∈ k.ringTasks, t.hasRc = false

def start (k : Kernel) : RcRun := ⟨k, 0, 0⟩

theorem refs_of_plain {m : Multiset Task} (h : ∀ t ∈ m, t.hasRc = false) (p : ℕ) :
    refs m p = 0 := by
  apply Multiset.countP_eq_zero.mpr
  intro t ht hp
  rw [h t ht] at hp
  exact absurd hp.1 (by decide)

theorem Fresh.owned {k : Kernel} (h : Fresh k) : Owned k 0 0 := by
  have hfront (p : ℕ) : frontRefs k 0 p = 0 := by simp [frontRefs, refs_of_plain h.rings]
  have hback (p : ℕ) : backRefs k 0 p = 0 := by simp [backRefs, refs_of_plain h.ready]
  refine ⟨h.heap, h.reg, ?_, ?_, ?_⟩
  · intro p hp
    simp [h.live] at hp
  · intro p _
    rw [hfront, hback]
  · intro p
    left
    exact ⟨hfront p, by simp [hback]⟩

/-- Every step passes its references on. -/
theorem owned_step {s s' : RcRun} {op : RcOp} (h : Owned s.kernel s.held s.running)
    (hsafe : Safe s op) (hstep : Step s op s') : Owned s'.kernel s'.held s'.running := by
  cases hstep with
  | alloc ht ha => exact h.alloc ha ht
  | allocFails ha => exact h.alloc_fails ha
  | plain ht => exact h.plain ht
  | emit ht he =>
    rw [← Multiset.cons_erase ht] at h
    exact h.emit hsafe he
  | sub => exact h.sub _ _
  | drain hd => exact h.drain hsafe hd
  | dispatch hw hp => exact h.pop_work hw hp
  | finish ht hu =>
    rw [← Multiset.cons_erase ht] at h
    exact (h.swap_loc hu).dispatchOutcome hsafe
  | other hheap hsched hchan =>
    exact h.frame hheap (by rw [hsched]) (hchan ▸ SameChans.refl _)

/-- The address of a new payload fits into a task. -/
theorem step_alloc {s : RcRun} (h : Owned s.kernel s.held s.running) {size : UInt32} {p : ℕ}
    {hp : Heap} (ha : gmkPayloadAlloc s.kernel.heap size = (some p, hp)) :
    ∃ t s', t.payloadPtr.toNat = p ∧ Step s (.alloc size t) s' := by
  obtain ⟨-, hk, hlive, -⟩ := gmkPayloadAlloc_some h.heap ha
  have hmem : p ∈ hp.live := hlive ▸ Finset.mem_insert_self _ _
  have hptr : (UInt64.ofNat p).toNat = p := Nat.mod_eq_of_lt (hk.lt_word hmem)
  have hne : UInt64.ofNat p ≠ 0 := by
    intro h0
    rw [h0] at hptr
    exact hk.ne_zero hmem hptr.symm
  have hrc : Task.hasRc { flags := gmkTfPayloadRc, payloadPtr := UInt64.ofNat p } = true := by
    have hflag : gmkTfPayloadRc ≠ 0 := by decide
    simp [Task.hasRc, hne, hflag]
  exact ⟨_, _, hptr, .alloc hrc (by rw [hptr]; exact ha)⟩

theorem sound_of_owned {s : RcRun} (h : Owned s.kernel s.held s.running) : s.Sound := by
  have hrefs (p : ℕ) : refs s.places p =
      frontRefs s.kernel s.held p + backRefs s.kernel s.running p := by
    simp only [places, frontRefs, backRefs, refs_add]
    omega
  constructor
  · intro p hp
    rw [hrefs]
    exact (h.live p hp).1
  · intro t ht hrc
    by_contra hdead
    have hz := h.dead _ hdead
    rw [← hrefs, refs, Multiset.countP_eq_zero] at hz
    exact hz t ht ⟨hrc, rfl⟩

/-! ## Worker iterations and booted kernels -/

/-- Handlers that leave heap, queues, channels and the reference of their task alone. -/
def Harmless (code : ℕ → HandlerFn) : Prop :=
  ∀ h ctx k, (code h ctx k).2.2.heap = k.heap ∧ (code h ctx k).2.2.sched = k.sched ∧
    (code h ctx k).2.2.chan = k.chan ∧ (code h ctx k).2.1.SameRef ctx.task

theorem handlerCall_harmless {code : ℕ → HandlerFn} (hc : Harmless code) (k : Kernel) (w : ℕ)
    (t : Task) : (handlerCall code k w t).2.2.heap = k.heap ∧
      (handlerCall code k w t).2.2.sched = k.sched ∧
      (handlerCall code k w t).2.2.chan = k.chan ∧ (handlerCall code k w t).2.1.SameRef t := by
  unfold handlerCall gmkModuleDispatch
  simp only
  split
  · exact ⟨rfl, rfl, rfl, rfl, rfl⟩
  · split
    · exact ⟨rfl, rfl, rfl, rfl, rfl⟩
    · exact hc _ _ _

/-- An iteration of the worker loop that finds a task is a dispatch from beginning to end. -/
theorem reach_iteration {code : ℕ → HandlerFn} (hc : Harmless code) {s₀ s : RcRun} {w : ℕ}
    {t : Task} {q : Sched} (hrun : Reach Step Safe s₀ s) (hw : w < s.kernel.sched.nWorkers)
    (hp : popWork s.kernel.sched w = (some t, q))
    (hsafe : ∀ u k rc, handlerCall code ({ s.kernel with sched := q }.metricInc t.tenant
      gmkMetricTasksDequeued) w t = (rc, u, k) → Safe ⟨k, s.held, t ::ₘ s.running⟩ (.finish w u rc)) :
    Reach Step Safe s₀ { s with kernel := gmkWorkerIteration code s.kernel w } := by
  have hframe := handlerCall_harmless hc
    ({ s.kernel with sched := q }.metricInc t.tenant gmkMetricTasksDequeued) w t
  generalize hcall : handlerCall code ({ s.kernel with sched := q }.metricInc t.tenant
    gmkMetricTasksDequeued) w t = r at hframe hsafe
  obtain ⟨rc, u, k⟩ := r
  obtain ⟨hheap, hsched, hchan, hu⟩ := hframe
  have heq : gmkWorkerIteration code s.kernel w = dispatchOutcome k w u rc := by
    simp only [gmkWorkerIteration, hp]
    rw [workerDispatchTask_eq, hcall]
  have htaken := hrun.next (RcOp.dispatch w) trivial (.dispatch hw hp)
  have hcalled := htaken.next RcOp.other trivial (Step.other (k := k) hheap hsched hchan)
  have hdone := hcalled.next (RcOp.finish w u rc) (hsafe u k rc rfl)
    (.finish (Multiset.mem_cons_self t _) hu)
  rw [heq]
  simpa using hdone

theorem gmkChanRegInit_items (c : ℕ) : (gmkChanRegInit.channels c).ring.items = [] := by
  unfold gmkChanRegInit
  simp only
  split
  · exact (init_holds (k := 10) (by norm_num)).items_eq
  · rfl

theorem regWf_init : RegWf gmkChanRegInit := by
  refine ⟨⟨rfl, rfl⟩, by decide, ⟨rfl, rfl, by decide, by decide⟩, ?_⟩
  intro c hc h0
  obtain rfl : c = gmkChanSysDropped := by
    have hc : c < 2 := hc
    unfold gmkChanSysDropped
    omega
  have hring : (gmkRingMpmcInit gmkChanDefaultSlots : RingMpmc Task).Holds [] :=
    init_holds (k := 10) (by norm_num)
  exact ⟨hring.items_eq.symm ▸ hring, by decide, fun _ hi => absurd hi (Nat.not_lt_zero _), by decide⟩

theorem bootKernel_fresh {cfg : BootCfg} {k : Kernel} (h : bootKernel cfg = some k)
    (hfits : cfg.mem + cfg.arenaSize ≤ 2 ^ 64) : Fresh k := by
  obtain ⟨-, alloc, halloc, hheap, hsched, -, hchan⟩ := bootKernel_eq_some h
  refine ⟨?_, ?_, ?_, ?_, ?_⟩
  · rw [hheap]
    exact gmkAllocInit_keeps halloc hfits _
  · rw [hheap]
  · rw [hchan]
    exact regWf_init
  · intro t ht
    rw [hsched, gmkSchedInit_readyTasks] at ht
    exact absurd ht (Multiset.notMem_zero t)
  · intro t ht
    simp [Kernel.ringTasks, hchan, gmkChanRegInit_items] at ht

/-- The booted one-worker kernel with the queues `s` and the channel `ch`. -/
def chanKernel (s : Sched) (ch : ChanEntry) : Kernel :=
  { tinyKernel with
    sched := s
    chan :=
      { channels := Function.update gmkChanRegInit.channels 2 ch
        nChannels := 3 } }

theorem tinyKernel_fresh : Fresh tinyKernel :=
  bootKernel_fresh bootKernel_tiny_eq (by decide)

theorem chanKernel_fresh {s : Sched} {ch : ChanEntry} (hch : ChanWf ch) (hring : ch.ring.items = [])
    (hs : ∀ t ∈ s.readyTasks, t.hasRc = false) : Fresh (chanKernel s ch) := by
  have hother {d : ℕ} (hd : d ≠ 2) : (chanKernel s ch).chan.channels d = gmkChanRegInit.channels d :=
    Function.update_of_ne hd _ _
  have hself : (chanKernel s ch).chan.channels 2 = ch := by simp [chanKernel]
  refine ⟨tinyKernel_fresh.heap, tinyKernel_fresh.live, ⟨?_, ?_, ?_, ?_⟩, hs, ?_⟩
  · exact regWf_init.reserved
  · exact show 1 < 3 by decide
  · exact regWf_init.dropped
  · intro c hc h0
    have hc : c < 3 := hc
    by_cases h2 : c = 2
    · subst h2
      rw [hself]
      exact hch
    · rw [hother h2]
      exact regWf_init.chan c (show c < 2 by omega) h0
  · intro t ht
    obtain ⟨c, hc, ht⟩ := Multiset.mem_sum.mp ht
    by_cases h2 : c = 2
    · subst h2
      rw [hself, hring] at ht
      simp at ht
    · rw [hother h2, gmkChanRegInit_items] at ht
      simp at ht

/-- An open channel of four slots with one subscriber, bound to worker `w`. -/
def oneSub (mode guarantee : ℕ) (w : ℤ) : ChanEntry :=
  { ChanEntry.zero with
    mode := mode
    guarantee := guarantee
    ring := gmkRingMpmcInit 4
    ringCap := 4
    subs := fun _ => ⟨0, w, true⟩
    nSubs := 1
    isOpen := true }

theorem oneSub_ring (mode guarantee : ℕ) (w : ℤ) : (oneSub mode guarantee w).ring.Holds [] :=
  init_holds (k := 2) (by norm_num)

theorem oneSub_wf (mode guarantee : ℕ) (w : ℤ) : ChanWf (oneSub mode guarantee w) := by
  have hring := oneSub_ring mode guarantee w
  exact ⟨hring.items_eq.symm ▸ hring, show 1 ≤ 32 by decide, fun _ _ => rfl, fun _ => le_rfl⟩

/-- The task of the first payload of the arena. -/
def rcTask : Task := { flags := gmkTfPayloadRc, payloadPtr := 72 }

/-- The kernel with that payload. -/
def rcKernel (s : Sched) (ch : ChanEntry) : Kernel :=
  { chanKernel s ch with heap := (gmkPayloadAlloc tinyKernel.heap 40).2 }

theorem alloc_rcTask (s : Sched) (ch : ChanEntry) :
    Step (start (chanKernel s ch)) (.alloc 40 rcTask) ⟨rcKernel s ch, {rcTask}, 0⟩ :=
  .alloc (by decide) (Prod.ext tinyKernel_alloc rfl)

theorem rcKernel_channel (s : Sched) (ch : ChanEntry) : (rcKernel s ch).chan.channels 2 = ch := by
  simp [rcKernel, chanKernel]

theorem rcKernel_admits (s : Sched) (mode guarantee : ℕ) (w : ℤ) (t : Task) :
    Admits (rcKernel s (oneSub mode guarantee w)) 2 t := by
  refine ⟨show 2 < 3 by decide, ?_, ?_⟩
  · rw [rcKernel_channel]
    rfl
  · rw [rcKernel_channel, (oneSub_ring mode guarantee w).count_eq]
    exact fun hle => absurd hle (show ¬ reserveThreshold { ChanEntry.zero with ringCap := 4 } ≤ 0
      by decide)

def p2pChan : ChanEntry := oneSub gmkChanP2p gmkChanLossless 0

theorem p2pChan_fast (s : Sched) :
    fastSub ((rcKernel s p2pChan).chan.channels 2) = some ⟨0, 0, true⟩ := by
  rw [rcKernel_channel]
  rfl

/-- The emit goes directly to the local queue of the subscriber. -/
theorem emit_rcTask : ∃ u k, gmkChanEmit (rcKernel (gmkSchedInit 1) p2pChan) 2 rcTask =
    some (gmkOk, u, k) ∧ u.hasRc = true ∧ (k.sched.lqs 0).items = [u] ∧ k.sched.nWorkers = 1 := by
  have hempty : ((gmkSchedInit 1).lqs 0).items = [] :=
    SpscQueue.items_ofList (by decide) (by decide)
  have hroom : ¬ ((gmkSchedInit 1).lqs 0).Refuses := by
    rw [Lq.Refuses, hempty]
    decide
  obtain ⟨lq, henq, hitems, -⟩ :=
    gmkEnqueue_toLq (s := gmkSchedInit 1) Nat.one_pos hroom (markEmit 2 rcTask)
  have ha : Admits (rcKernel (gmkSchedInit 1) p2pChan) 2 rcTask := rcKernel_admits _ _ _ _ _
  have hput : gmkEnqueue (rcKernel (gmkSchedInit 1) p2pChan).sched (markEmit 2 rcTask)
    (⟨0, 0, true⟩ : ChanSub).workerId = _ := henq
  have hemit := ha.emit_fast (p2pChan_fast _)
  rw [hput, if_pos rfl] at hemit
  refine ⟨(gmkSchedInit 1).stamp (markEmit 2 rcTask), _, hemit, by decide, ?_, rfl⟩
  simpa [hempty] using hitems

/-- In every run whose steps are all safe, every payload that is not freed counts its copies,
and no copy refers to a freed payload. -/
theorem payload_sound {k : Kernel} (hk : Fresh k) {s : RcRun}
    (hrun : Reach Step Safe (start k) s) : s.Sound := by
  apply sound_of_owned
  exact hrun.inv (I := fun s => Owned s.kernel s.held s.running) hk.owned
    fun _ _ _ h hg hs => owned_step h hg hs

/-- The payload of a task that is being dispatched counts one reference. -/
theorem payload_sound_dispatched : ∃ s t,
    Reach Step Safe (start (chanKernel (gmkSchedInit 1) p2pChan)) s ∧
      t ∈ s.running ∧ t.hasRc = true ∧ s.Sound := by
  have hready : ∀ t ∈ (gmkSchedInit 1).readyTasks, t.hasRc = false := by
    simp [gmkSchedInit_readyTasks]
  have hfresh : Fresh (chanKernel (gmkSchedInit 1) p2pChan) :=
    chanKernel_fresh (oneSub_wf _ _ _) (oneSub_ring gmkChanP2p gmkChanLossless 0).items_eq hready
  have hsafe : Safe ⟨rcKernel (gmkSchedInit 1) p2pChan, {rcTask}, 0⟩ (.emit 2 rcTask) := by
    intro _
    refine ⟨fun hslow => by simp [p2pChan_fast] at hslow, fun sub _ href => ?_⟩
    exact absurd href.2 (gmkRqInit_room _)
  obtain ⟨u, k, hemit, hrc, hlq, hn⟩ := emit_rcTask
  obtain ⟨q, hpop⟩ := popWork_of_lq hlq
  have halloc : Reach Step Safe (start (chanKernel (gmkSchedInit 1) p2pChan)) _ :=
    .next (RcOp.alloc 40 rcTask) .start trivial (alloc_rcTask _ _)
  have hsent := halloc.next (RcOp.emit 2 rcTask) hsafe (.emit (by simp) hemit)
  have hrun := hsent.next (RcOp.dispatch 0) trivial (.dispatch (hn.symm ▸ Nat.one_pos) hpop)
  exact ⟨_, u, hrun, by simp, hrc, payload_sound hfresh hrun⟩

/-- A lossless fan-out channel whose subscriber has no queue to go to. -/
def fanChan : ChanEntry := oneSub gmkChanFanout gmkChanLossless (-1)

def busySched : Sched := { gmkSchedInit 1 with rq := fullRq }

theorem fanKernel_fresh : Fresh (chanKernel busySched fanChan) := by
  apply chanKernel_fresh (oneSub_wf _ _ _) (oneSub_ring gmkChanFanout gmkChanLossless (-1)).items_eq
  intro t ht
  rw [mem_fullRq_tasks (mem_ready_boot ht)]
  decide

/-- The kernel after an emit that has left the ring as `r`. -/
def fanSent (r : RingMpmc Task) : Kernel :=
  buffered (rcKernel busySched fanChan) 2 (markEmit 2 rcTask) busySched r

theorem fanSent_channel (r : RingMpmc Task) :
    (fanSent r).chan.channels 2 = { fanChan with ring := r, emitCount := 1 } := by
  simp [fanSent, buffered, rcKernel_channel, fanChan, oneSub, ChanEntry.zero]

theorem fanSent_dropped (r : RingMpmc Task) : ((fanSent r).chan.channels gmkChanSysDropped).ring =
    gmkRingMpmcInit gmkChanDefaultSlots := by
  simp only [fanSent, buffered, emitDone_channels, countEmit_channels]
  rw [Kernel.setChan_of_ne _ _ _ (by decide)]
  rfl

/-- No queue takes the copy, and the dead letters have room for it. -/
theorem fanSent_not_safe (r q : RingMpmc Task) :
    ¬ CopySafe ((fanSent r).setRing 2 q) 2 (markEmit 2 rcTask) ⟨0, -1, true⟩ := by
  intro hcopy
  have hlossless : (((fanSent r).setRing 2 q).chan.channels 2).guarantee ≠ gmkChanLossy := by
    simp only [Kernel.setRing, Kernel.setChan_self, fanSent_channel]
    exact show gmkChanLossless ≠ gmkChanLossy by decide
  have hfull := hcopy (by decide) hlossless ⟨Or.inl (by decide), fullRq_refuses _⟩
  rw [DeadFull, Kernel.setRing, Kernel.setChan_of_ne _ _ _ (by decide), fanSent_dropped] at hfull
  exact absurd hfull (by decide)

/-- The emit is buffered. -/
theorem emit_fanChan : ∃ r : RingMpmc Task, r.Holds [markEmit 2 rcTask] ∧
    gmkChanEmit (rcKernel busySched fanChan) 2 rcTask =
      some (gmkOk, markEmit 2 rcTask, fanSent r) := by
  have ha : Admits (rcKernel busySched fanChan) 2 rcTask := rcKernel_admits _ _ _ _ _
  have hslow : fastSub ((rcKernel busySched fanChan).chan.channels 2) = none := by
    rw [rcKernel_channel]
    rfl
  obtain ⟨r, hpush, hr, -⟩ := (oneSub_ring gmkChanFanout gmkChanLossless (-1)).push_ok
    (markEmit 2 rcTask) (show 0 < 4 by decide)
  refine ⟨r, hr, ?_⟩
  have hpush' : gmkRingMpmcPush ((rcKernel busySched fanChan).chan.channels 2).ring
      (markEmit 2 rcTask) = .ok r := by
    rw [rcKernel_channel]
    exact hpush
  have hfan : ¬ (((rcKernel busySched fanChan).chan.channels 2).mode = gmkChanP2p ∧
      0 < ((rcKernel busySched fanChan).chan.channels 2).nSubs) := by
    rw [rcKernel_channel]
    decide
  simp only [ha.emit_slow hslow, emitBuffer, hpush', if_neg hfan]
  rfl

/-- A copy that no queue takes becomes a dead letter, and its payload is freed. -/
theorem payload_dangles : Fresh (chanKernel busySched fanChan) ∧
    ∃ s, Reach Step (fun _ _ => True) (start (chanKernel busySched fanChan)) s ∧ ¬ s.Sound := by
  obtain ⟨r, hr, hemit⟩ := emit_fanChan
  have hsafe : EmitSafe (rcKernel busySched fanChan) 2 rcTask := by
    intro _
    rw [rcKernel_channel]
    exact ⟨fun _ => Or.inl (show 2 ≤ 4 by decide), fun sub hsub => by cases hsub⟩
  have hheld : Owned (rcKernel busySched fanChan) (rcTask ::ₘ 0) 0 :=
    fanKernel_fresh.owned.alloc (Prod.ext tinyKernel_alloc rfl) (by decide)
  have hown := hheld.emit hsafe hemit
  rw [if_pos rfl] at hown
  obtain ⟨r₁, hpop, -⟩ := hr.pop_ok
  have hmode : gmkChanFanout ≠ gmkChanP2p := by decide
  have hsubs : subsSnap ((fanSent r).chan.channels 2) = [⟨0, -1, true⟩] := by
    rw [fanSent_channel]
    rfl
  obtain ⟨n, k', hdrain, u, hu, hrc, hdead⟩ := hown.drain_dangles (show 2 < 3 by decide)
    (by decide) (by rw [fanSent_channel]; exact hmode) hsubs rfl
    (by rw [fanSent_channel]; exact hpop) (fanSent_not_safe r r₁)
  have halloc : Reach Step (fun _ _ => True) (start (chanKernel busySched fanChan)) _ :=
    .next (RcOp.alloc 40 rcTask) .start trivial (alloc_rcTask _ _)
  have hsent := halloc.next (RcOp.emit 2 rcTask) trivial (.emit (by simp) hemit)
  have hrun := hsent.next (RcOp.drain 2 1) trivial (.drain hdrain)
  refine ⟨fanKernel_fresh, _, hrun, ?_⟩
  intro hsound
  exact hdead (hsound.fresh u (by simp [places, hu]) hrc)

end RcRun
end Ggmk

import Ggmk.Chan.P2p
import Ggmk.Worker.Loop

/-! Who owns the references to a payload. A task with a counted payload owns one reference
wherever it is: with a producer, in a channel ring, in a queue of the scheduler, or in a local
variable of a dispatch or drain. The rules below say how each operation passes references on. -/
namespace Ggmk
open RingMpmc

/-- How many references to payload `p` the task owns. -/
def Task.ref (t : Task) (p : ℕ) : ℕ := if t.hasRc = true ∧ t.payloadPtr.toNat = p then 1 else 0

/-- How many tasks of `m` refer to payload `p`. -/
def refs (m : Multiset Task) (p : ℕ) : ℕ :=
  m.countP fun t => t.hasRc = true ∧ t.payloadPtr.toNat = p

@[simp] theorem refs_zero (p : ℕ) : refs 0 p = 0 := rfl

@[simp] theorem refs_add (m n : Multiset Task) (p : ℕ) : refs (m + n) p = refs m p + refs n p :=
  Multiset.countP_add ..

@[simp] theorem refs_cons (t : Task) (m : Multiset Task) (p : ℕ) :
    refs (t ::ₘ m) p = refs m p + t.ref p :=
  Multiset.countP_cons ..

theorem refs_coe_append (l : List Task) (t : Task) (p : ℕ) :
    refs ((l ++ [t] : List Task) : Multiset Task) p = refs l p + t.ref p := by
  rw [← refs_cons, Multiset.cons_coe]
  congr 1
  exact Multiset.coe_eq_coe.mpr (List.perm_append_singleton _ _)

theorem Task.ref_le (t : Task) (p : ℕ) : t.ref p ≤ 1 := by
  unfold Task.ref
  split <;> omega

/-- Two copies of a task that own the same reference. -/
def Task.SameRef (t u : Task) : Prop := t.hasRc = u.hasRc ∧ t.payloadPtr = u.payloadPtr

theorem Task.SameRef.ref_eq {t u : Task} (h : t.SameRef u) (p : ℕ) : t.ref p = u.ref p := by
  rw [Task.ref, Task.ref, h.1, h.2]

theorem Task.ref_self {t : Task} (h : t.hasRc = true) : t.ref t.payloadPtr.toNat = 1 :=
  if_pos ⟨h, rfl⟩

theorem Task.ref_of_not {t : Task} (h : t.hasRc = false) (p : ℕ) : t.ref p = 0 := by
  simp [Task.ref, h]

theorem Task.ref_of_ne {t : Task} {p : ℕ} (h : p ≠ t.payloadPtr.toNat) : t.ref p = 0 :=
  if_neg fun he => h he.2.symm

/-- The tasks in the rings of all channels. -/
def Kernel.ringTasks (k : Kernel) : Multiset Task :=
  ∑ c ∈ Finset.range k.chan.nChannels, ((k.chan.channels c).ring.items : Multiset Task)

/-- A channel as the channel functions keep it. -/
structure ChanWf (ch : ChanEntry) : Prop where
  ring : ch.ring.Holds ch.ring.items
  subs_le : ch.nSubs ≤ gmkMaxChanSubs
  active : ∀ i < ch.nSubs, (ch.subs i).active
  p2p : ch.mode = gmkChanP2p → ch.nSubs ≤ 1

/-- The dead-letter channel. -/
structure DeadWf (ch : ChanEntry) : Prop where
  isOpen : ch.isOpen = true
  lossy : ch.guarantee = gmkChanLossy
  mode : ch.mode ≠ gmkChanP2p
  two_le : 2 ≤ ch.ring.cap

/-- Channel 0 is reserved and never used, channel 1 takes the dead letters. -/
structure RegWf (r : ChanReg) : Prop where
  reserved : (r.channels 0).isOpen = false ∧ (r.channels 0).nSubs = 0
  dropped_lt : gmkChanSysDropped < r.nChannels
  dropped : DeadWf (r.channels gmkChanSysDropped)
  chan : ∀ c < r.nChannels, c ≠ 0 → ChanWf (r.channels c)

section Owned
variable (k : Kernel) (held loc : Multiset Task)

/-- References before delivery: with a producer or in a channel ring. -/
def frontRefs (p : ℕ) : ℕ := refs (held + k.ringTasks) p

/-- References on their way through the scheduler, or in a local variable. -/
def backRefs (p : ℕ) : ℕ := refs (k.sched.readyTasks + loc) p

/-- Every reference is counted and every count has its references. A payload has one copy until
its task is delivered, and one copy for each subscriber after that. -/
structure Owned : Prop where
  heap : k.heap.Keeps
  reg : RegWf k.chan
  live : ∀ p ∈ k.heap.live, k.heap.refcount p = frontRefs k held p + backRefs k loc p ∧
    0 < k.heap.refcount p
  dead : ∀ p, p ∉ k.heap.live → frontRefs k held p + backRefs k loc p = 0
  stage : ∀ p, frontRefs k held p = 0 ∧ backRefs k loc p ≤ gmkMaxChanSubs ∨
    frontRefs k held p = 1 ∧ backRefs k loc p = 0

end Owned

/-! ## Changes of the registry -/

/-- The registries differ in their counters only. -/
def SameChans (r r' : ChanReg) : Prop :=
  r'.nChannels = r.nChannels ∧ ∀ d, ∃ e f, r'.channels d =
    { r.channels d with emitCount := e, dropCount := f }

theorem SameChans.refl (r : ChanReg) : SameChans r r := ⟨rfl, fun _ => ⟨_, _, rfl⟩⟩

theorem SameChans.wf {r r' : ChanReg} (h : SameChans r r') (hr : RegWf r) : RegWf r' := by
  obtain ⟨hn, hd⟩ := h
  refine ⟨?_, hn ▸ hr.dropped_lt, ?_, ?_⟩
  · obtain ⟨e, f, he⟩ := hd 0
    rw [he]
    exact hr.reserved
  · obtain ⟨e, f, he⟩ := hd gmkChanSysDropped
    rw [he]
    exact ⟨hr.dropped.isOpen, hr.dropped.lossy, hr.dropped.mode, hr.dropped.two_le⟩
  · intro c hc h0
    have hw := hr.chan c (hn ▸ hc) h0
    obtain ⟨e, f, he⟩ := hd c
    rw [he]
    exact ⟨hw.ring, hw.subs_le, hw.active, hw.p2p⟩

theorem sameChans_countEmit (k : Kernel) (c : ℕ) : SameChans k.chan (countEmit k c).chan :=
  ⟨rfl, fun d => ⟨_, _, countEmit_channels k c d⟩⟩

theorem sameChans_countDrop (k : Kernel) (c : ℕ) : SameChans k.chan (countDrop k c).chan :=
  ⟨rfl, fun d => ⟨_, _, countDrop_channels k c d⟩⟩

section SetRing
variable {k : Kernel} {c : ℕ} {r : RingMpmc Task}

theorem RegWf.setChan (h : RegWf k.chan) (h0 : c ≠ 0) {ch : ChanEntry}
    (hch : c < k.chan.nChannels → ChanWf ch) (hdead : c = gmkChanSysDropped → DeadWf ch) :
    RegWf (k.setChan c ch).chan := by
  refine ⟨?_, h.dropped_lt, ?_, ?_⟩
  · rw [Kernel.setChan_of_ne _ _ _ h0.symm]
    exact h.reserved
  · by_cases hd : gmkChanSysDropped = c
    · subst hd
      rw [Kernel.setChan_self]
      exact hdead rfl
    · rw [Kernel.setChan_of_ne _ _ _ hd]
      exact h.dropped
  · intro d hd hd0
    by_cases he : d = c
    · subst he
      rw [Kernel.setChan_self]
      exact hch hd
    · rw [Kernel.setChan_of_ne _ _ _ he]
      exact h.chan d hd hd0

theorem RegWf.setRing (h : RegWf k.chan) (h0 : c ≠ 0) (hr : r.Holds r.items)
    (hcap : r.cap = (k.chan.channels c).ring.cap) : RegWf (k.setRing c r).chan := by
  apply h.setChan h0
  · intro hc
    have hw := h.chan c hc h0
    exact ⟨hr, hw.subs_le, hw.active, hw.p2p⟩
  · rintro rfl
    exact ⟨h.dropped.isOpen, h.dropped.lossy, h.dropped.mode, hcap ▸ h.dropped.two_le⟩

/-- Replacing a ring exchanges its tasks. -/
theorem ringTasks_setRing (hc : c < k.chan.nChannels) :
    (k.setRing c r).ringTasks + ((k.chan.channels c).ring.items : Multiset Task) =
      k.ringTasks + (r.items : Multiset Task) := by
  exact Tally.sum_update_add (Finset.range k.chan.nChannels)
    (fun ch : ChanEntry => (ch.ring.items : Multiset Task)) k.chan.channels
    (Finset.mem_range.mpr hc) { k.chan.channels c with ring := r }

theorem refs_setRing (hc : c < k.chan.nChannels) (p : ℕ) :
    refs (k.setRing c r).ringTasks p + refs (k.chan.channels c).ring.items p =
      refs k.ringTasks p + refs r.items p := by
  have h := congrArg (fun m => refs m p) (ringTasks_setRing (k := k) (r := r) hc)
  simpa using h

end SetRing

theorem SameChans.ringTasks {k k' : Kernel} (h : SameChans k.chan k'.chan) :
    k'.ringTasks = k.ringTasks := by
  unfold Kernel.ringTasks
  rw [h.1]
  apply Finset.sum_congr rfl
  intro c _
  obtain ⟨e, f, he⟩ := h.2 c
  rw [he]

/-! ## Rules -/

namespace Owned
variable {k k' : Kernel} {held held' loc loc' : Multiset Task} {t u : Task}

/-- References may move as long as their total stays and each payload keeps to its stage. -/
theorem of_total (h : Owned k held loc) (hheap : k'.heap = k.heap) (hreg : RegWf k'.chan)
    (htotal : ∀ p, frontRefs k' held' p + backRefs k' loc' p =
      frontRefs k held p + backRefs k loc p)
    (hstage : ∀ p, frontRefs k' held' p = 0 ∧ backRefs k' loc' p ≤ gmkMaxChanSubs ∨
      frontRefs k' held' p = 1 ∧ backRefs k' loc' p = 0) : Owned k' held' loc' := by
  refine ⟨hheap ▸ h.heap, hreg, ?_, ?_, hstage⟩
  · intro p hp
    rw [hheap] at hp ⊢
    rw [htotal]
    exact h.live p hp
  · intro p hp
    rw [hheap] at hp
    rw [htotal]
    exact h.dead p hp

/-- Nothing moves. -/
theorem same (h : Owned k held loc) (hheap : k'.heap = k.heap) (hreg : RegWf k'.chan)
    (hfront : ∀ p, frontRefs k' held' p = frontRefs k held p)
    (hback : ∀ p, backRefs k' loc' p = backRefs k loc p) : Owned k' held' loc' := by
  apply h.of_total hheap hreg
  · intro p
    rw [hfront, hback]
  · intro p
    rw [hfront, hback]
    exact h.stage p

/-- A change outside heap, queues and rings. -/
theorem frame (h : Owned k held loc) (hheap : k'.heap = k.heap)
    (hready : k'.sched.readyTasks = k.sched.readyTasks) (hchan : SameChans k.chan k'.chan) :
    Owned k' held loc := by
  apply h.same hheap (hchan.wf h.reg)
  · intro p
    rw [frontRefs, frontRefs, hchan.ringTasks]
  · intro p
    rw [backRefs, backRefs, hready]

/-- The reference of `t` is delivered. -/
theorem deliver (h : Owned k held loc) (hheap : k'.heap = k.heap) (hreg : RegWf k'.chan)
    (hfront : ∀ p, frontRefs k held p = frontRefs k' held' p + t.ref p)
    (hback : ∀ p, backRefs k' loc' p = backRefs k loc p + t.ref p) : Owned k' held' loc' := by
  apply h.of_total hheap hreg
  · intro p
    have := hfront p
    have := hback p
    omega
  · intro p
    have := hfront p
    have := hback p
    have := t.ref_le p
    have hone : 1 ≤ gmkMaxChanSubs := by decide
    rcases h.stage p with ⟨h1, h2⟩ | ⟨h1, h2⟩ <;> omega

/-- A task that has been replaced by a copy with the same reference. -/
theorem swap_held (h : Owned k (t ::ₘ held) loc) (hu : u.SameRef t) :
    Owned k (u ::ₘ held) loc := by
  refine h.same rfl h.reg ?_ ?_
  · intro p
    simp [frontRefs, hu.ref_eq]
  · exact fun _ => rfl

theorem swap_loc (h : Owned k held (t ::ₘ loc)) (hu : u.SameRef t) :
    Owned k held (u ::ₘ loc) := by
  refine h.same rfl h.reg ?_ ?_
  · exact fun _ => rfl
  · intro p
    simp [backRefs, hu.ref_eq]

/-- A task without counted payload owns nothing. -/
theorem drop (h : Owned k held (t ::ₘ loc)) (ht : t.hasRc = false) : Owned k held loc := by
  refine h.same rfl h.reg ?_ ?_
  · exact fun _ => rfl
  · intro p
    simp [backRefs, Task.ref_of_not ht]

/-! ### Scheduler -/

section Enqueue
variable {w : ℤ} {s : Sched}

theorem sameRef_stamp (s : Sched) (t : Task) : (s.stamp t).SameRef t := ⟨rfl, rfl⟩

theorem refs_enqueue (henq : gmkEnqueue k.sched t w = (true, u, s)) (p : ℕ) :
    refs s.readyTasks p = refs k.sched.readyTasks p + t.ref p := by
  have h := gmkEnqueue_readyTasks k.sched t w
  rw [henq] at h
  rw [show s.readyTasks = _ from h]
  simp [(sameRef_stamp k.sched t).ref_eq]

theorem enqueue_held (h : Owned k (t ::ₘ held) loc) (hu : u.SameRef t) {v : Task}
    (henq : gmkEnqueue k.sched u w = (true, v, s)) : Owned { k with sched := s } held loc := by
  refine h.deliver (t := t) rfl h.reg ?_ ?_
  · intro p
    simp only [frontRefs, refs_add, refs_cons]
    exact add_right_comm _ _ _
  · intro p
    simp only [backRefs, refs_add, refs_enqueue henq, hu.ref_eq]
    exact add_right_comm _ _ _

/-- An enqueue takes over the reference of a local task, or leaves the queues as they are. -/
theorem enqueue_loc (h : Owned k held (t ::ₘ loc)) (w : ℤ) :
    ((gmkEnqueue k.sched t w).1 = true ∧
      Owned { k with sched := (gmkEnqueue k.sched t w).2.2 } held loc) ∨
    ((gmkEnqueue k.sched t w).1 = false ∧ (k.sched.NoLq w ∧ k.sched.rq.Refuses t.prio) ∧
      (gmkEnqueue k.sched t w).2.1.SameRef t ∧
      (gmkEnqueue k.sched t w).2.2.readyTasks = k.sched.readyTasks ∧
      Owned { k with sched := (gmkEnqueue k.sched t w).2.2 } held (t ::ₘ loc)) := by
  have hfalse := gmkEnqueue_eq_false_iff k.sched t w
  have htask := gmkEnqueue_task k.sched t w
  have hready := gmkEnqueue_readyTasks k.sched t w
  generalize henq : gmkEnqueue k.sched t w = e at hfalse htask hready
  obtain ⟨ok, u, s⟩ := e
  obtain rfl : u = _ := htask
  cases ok with
  | true =>
    refine Or.inl ⟨rfl, h.same rfl h.reg (fun _ => rfl) ?_⟩
    intro p
    simp only [backRefs, refs_add, refs_cons, refs_enqueue henq]
    omega
  | false =>
    exact Or.inr ⟨rfl, hfalse.mp rfl, sameRef_stamp _ _, hready,
      h.frame rfl hready (SameChans.refl _)⟩

/-- A worker takes its next task. -/
theorem pop_work (h : Owned k held loc) {v : ℕ} (hv : v < k.sched.nWorkers)
    (hpop : popWork k.sched v = (some t, s)) : Owned { k with sched := s } held (t ::ₘ loc) := by
  have hready := (popWork_ready hv hpop).1
  refine h.same rfl h.reg ?_ ?_
  · exact fun _ => rfl
  · intro p
    simp only [backRefs, hready, refs_add, refs_cons]
    omega

end Enqueue

/-! ### Channel rings -/

section Rings
variable {c : ℕ} {r : RingMpmc Task}

/-- The task in a local variable is the only copy of its payload. -/
def Alone (k : Kernel) (loc : Multiset Task) (t : Task) : Prop :=
  ∀ p, t.ref p ≠ 0 → backRefs k (t ::ₘ loc) p = 1

theorem Alone.of_ready (h : Alone k loc t)
    (hready : k'.sched.readyTasks = k.sched.readyTasks) : Alone k' loc t := by
  intro p hp
  rw [backRefs, hready]
  exact h p hp

theorem ring_holds (h : Owned k held loc) (hc : c < k.chan.nChannels) (h0 : c ≠ 0) :
    (k.chan.channels c).ring.Holds (k.chan.channels c).ring.items := (h.reg.chan c hc h0).ring

/-- A drain takes the oldest task of a ring. -/
theorem pop_ring (h : Owned k held loc) (hc : c < k.chan.nChannels) (h0 : c ≠ 0)
    (hpop : gmkRingMpmcPop (k.chan.channels c).ring = .ok t r) :
    Owned (k.setRing c r) held (t ::ₘ loc) ∧ Alone (k.setRing c r) loc t := by
  obtain ⟨l, hl, hr, hcap⟩ := (h.ring_holds hc h0).of_pop hpop
  have hrefs (p : ℕ) : refs (k.setRing c r).ringTasks p + t.ref p = refs k.ringTasks p := by
    have hs := refs_setRing (k := k) (r := r) hc p
    rw [hl, hr.items_eq, ← Multiset.cons_coe, refs_cons] at hs
    omega
  have howned : Owned (k.setRing c r) held (t ::ₘ loc) := by
    refine h.deliver (t := t) rfl (h.reg.setRing h0 (hr.items_eq.symm ▸ hr) hcap) ?_ ?_
    · intro p
      have := hrefs p
      simp only [frontRefs, refs_add]
      omega
    · intro p
      simp only [backRefs, refs_add, refs_cons, Kernel.setRing_sched]
      omega
  refine ⟨howned, ?_⟩
  intro p hp
  have := hrefs p
  have := t.ref_le p
  have hst := h.stage p
  simp only [frontRefs, backRefs, refs_add, refs_cons, Kernel.setRing_sched] at hst ⊢
  omega

theorem refs_pushRing (hc : c < k.chan.nChannels)
    (hr : r.Holds ((k.chan.channels c).ring.items ++ [u])) (p : ℕ) :
    refs (k.setRing c r).ringTasks p = refs k.ringTasks p + u.ref p := by
  have hs := refs_setRing (k := k) (r := r) hc p
  rw [hr.items_eq, refs_coe_append] at hs
  omega

/-- A producer's task goes into a ring. -/
theorem push_held (h : Owned k (t ::ₘ held) loc) (hu : u.SameRef t) (hc : c < k.chan.nChannels)
    (h0 : c ≠ 0) (hr : r.Holds ((k.chan.channels c).ring.items ++ [u]))
    (hcap : r.cap = (k.chan.channels c).ring.cap) : Owned (k.setRing c r) held loc := by
  refine h.same rfl (h.reg.setRing h0 (hr.items_eq.symm ▸ hr) hcap) ?_ ?_
  · intro p
    have := refs_pushRing hc hr p
    have := hu.ref_eq p
    simp only [frontRefs, refs_add, refs_cons]
    omega
  · exact fun _ => rfl

/-- A local task that is the only copy of its payload goes back into a ring. -/
theorem push_loc (h : Owned k held (t ::ₘ loc)) (ht : Alone k loc t) (hu : u.SameRef t)
    (hc : c < k.chan.nChannels) (h0 : c ≠ 0)
    (hr : r.Holds ((k.chan.channels c).ring.items ++ [u]))
    (hcap : r.cap = (k.chan.channels c).ring.cap) : Owned (k.setRing c r) held loc := by
  have hrefs := refs_pushRing hc hr
  refine h.of_total rfl (h.reg.setRing h0 (hr.items_eq.symm ▸ hr) hcap) ?_ ?_
  · intro p
    have := hrefs p
    have := hu.ref_eq p
    simp only [frontRefs, backRefs, refs_add, refs_cons, Kernel.setRing_sched]
    omega
  · intro p
    have h1 := hrefs p
    have h2 := hu.ref_eq p
    have h3 := t.ref_le p
    have h4 := h.stage p
    have h5 := ht p
    simp only [frontRefs, backRefs, refs_add, refs_cons, Kernel.setRing_sched] at h4 h5 ⊢
    omega

end Rings

/-! ### Counts -/

section Counts

/-- A task with counted payload refers to a live payload. -/
theorem mem_live (h : Owned k held (t ::ₘ loc)) (ht : t.hasRc = true) :
    t.payloadPtr.toNat ∈ k.heap.live := by
  by_contra hp
  have hz := h.dead _ hp
  simp only [backRefs, refs_add, refs_cons, Task.ref_self ht] at hz
  omega

/-- The count of one payload changes, and its references with it. -/
theorem recount (h : Owned k held loc) (p : ℕ) (hk : k'.heap.Keeps) (hreg : RegWf k'.chan)
    (hsame : ∀ q, q ≠ p → frontRefs k' held' q = frontRefs k held q ∧
      backRefs k' loc' q = backRefs k loc q)
    (hlive : ∀ q, q ≠ p → (q ∈ k'.heap.live ↔ q ∈ k.heap.live))
    (hcount : ∀ q ∈ k.heap.live, q ≠ p → k'.heap.refcount q = k.heap.refcount q)
    (halive : p ∈ k'.heap.live → k'.heap.refcount p = frontRefs k' held' p + backRefs k' loc' p ∧
      0 < k'.heap.refcount p)
    (hdead : p ∉ k'.heap.live → frontRefs k' held' p + backRefs k' loc' p = 0)
    (hstage : frontRefs k' held' p = 0 ∧ backRefs k' loc' p ≤ gmkMaxChanSubs ∨
      frontRefs k' held' p = 1 ∧ backRefs k' loc' p = 0) : Owned k' held' loc' := by
  refine ⟨hk, hreg, ?_, ?_, ?_⟩
  · intro q hq
    by_cases hqp : q = p
    · subst hqp
      exact halive hq
    · have hq' := (hlive q hqp).mp hq
      rw [(hsame q hqp).1, (hsame q hqp).2, hcount q hq' hqp]
      exact h.live q hq'
  · intro q hq
    by_cases hqp : q = p
    · subst hqp
      exact hdead hq
    · rw [(hsame q hqp).1, (hsame q hqp).2]
      exact h.dead q fun hq' => hq ((hlive q hqp).mpr hq')
  · intro q
    by_cases hqp : q = p
    · subst hqp
      exact hstage
    · rw [(hsame q hqp).1, (hsame q hqp).2]
      exact h.stage q

theorem backRefs_cons (k : Kernel) (t : Task) (loc : Multiset Task) (p : ℕ) :
    backRefs k (t ::ₘ loc) p = backRefs k loc p + t.ref p := by
  simp only [backRefs, refs_add, refs_cons, Nat.add_assoc]

theorem frontRefs_cons (k : Kernel) (t : Task) (held : Multiset Task) (p : ℕ) :
    frontRefs k (t ::ₘ held) p = frontRefs k held p + t.ref p := by
  simp only [frontRefs, refs_add, refs_cons]
  exact Nat.add_right_comm _ _ _

/-- A local task gives up its reference. -/
theorem release (h : Owned k held (t ::ₘ loc)) (ht : t.hasRc = true) :
    Owned (k.release t.payloadPtr.toNat) held loc := by
  have hp := h.mem_live ht
  have hsame (q : ℕ) (hne : q ≠ t.payloadPtr.toNat) :
      frontRefs (k.release t.payloadPtr.toNat) held q = frontRefs k held q ∧
        backRefs (k.release t.payloadPtr.toNat) loc q = backRefs k (t ::ₘ loc) q := by
    rw [backRefs_cons, Task.ref_of_ne hne]
    exact ⟨rfl, rfl⟩
  obtain ⟨hcount, hpos⟩ := h.live _ hp
  have hstage := h.stage t.payloadPtr.toNat
  rw [backRefs_cons, Task.ref_self ht] at hcount hstage
  by_cases hone : k.heap.refcount t.payloadPtr.toNat = 1
  · obtain ⟨hk, hlive, hrest⟩ := gmkPayloadRelease_last h.heap hp hone
    have hlive : (k.release t.payloadPtr.toNat).heap.live = _ := hlive
    refine h.recount t.payloadPtr.toNat hk h.reg hsame ?_ hrest ?_ ?_ ?_
    · intro q hne
      simp [hlive, hne]
    · intro hmem
      simp [hlive] at hmem
    · intro _
      show frontRefs k held _ + backRefs k loc _ = 0
      omega
    · show frontRefs k held _ = 0 ∧ backRefs k loc _ ≤ _ ∨ frontRefs k held _ = 1 ∧ backRefs k loc _ = 0
      omega
  · obtain ⟨hk, hlive, hdown, hrest⟩ := gmkPayloadRelease_keep h.heap hp (by omega)
    have hlive : (k.release t.payloadPtr.toNat).heap.live = _ := hlive
    have hdown : (k.release t.payloadPtr.toNat).heap.refcount t.payloadPtr.toNat + 1 = _ := hdown
    refine h.recount t.payloadPtr.toNat hk h.reg hsame ?_ hrest ?_ ?_ ?_
    · intro q _
      rw [hlive]
    · intro _
      show _ = frontRefs k held _ + backRefs k loc _ ∧ _
      omega
    · intro hmem
      rw [hlive] at hmem
      exact absurd hp hmem
    · show frontRefs k held _ = 0 ∧ backRefs k loc _ ≤ _ ∨ frontRefs k held _ = 1 ∧ backRefs k loc _ = 0
      omega

theorem retainTimes_spec {h : Heap} (hk : h.Keeps) {p : ℕ} (hp : p ∈ h.live) (n : ℕ)
    (hlt : h.refcount p + n < 2 ^ 32) :
    (retainTimes h p n).Keeps ∧ (retainTimes h p n).live = h.live ∧
      (retainTimes h p n).refcount p = h.refcount p + n ∧
      ∀ q ∈ h.live, q ≠ p → (retainTimes h p n).refcount q = h.refcount q := by
  induction n generalizing h with
  | zero => exact ⟨hk, rfl, rfl, fun _ _ _ => rfl⟩
  | succ n ih =>
    obtain ⟨hk', hlive, hup, hrest⟩ := gmkPayloadRetain_spec hk hp (by omega)
    obtain ⟨h1, h2, h3, h4⟩ := ih hk' (hlive.symm ▸ hp) (by omega)
    refine ⟨h1, h2.trans hlive, ?_, ?_⟩
    · rw [retainTimes, h3, hup]
      omega
    · intro q hq hne
      rw [retainTimes, h4 q (hlive.symm ▸ hq) hne, hrest q hq hne]

theorem refs_replicate (n : ℕ) (t : Task) (p : ℕ) :
    refs (Multiset.replicate n t) p = n * t.ref p := by
  induction n with
  | zero => simp
  | succ n ih =>
    rw [Multiset.replicate_succ, refs_cons, ih]
    ring

/-- The only copy of a payload is multiplied, with a retain for each new copy. -/
theorem retain (h : Owned k held (t ::ₘ loc)) (ht : t.hasRc = true) (hal : Alone k loc t) {n : ℕ}
    (hn : n + 1 ≤ gmkMaxChanSubs) :
    Owned { k with heap := retainTimes k.heap t.payloadPtr.toNat n } held
      (Multiset.replicate n t + (t ::ₘ loc)) := by
  have hp := h.mem_live ht
  obtain ⟨hcount, hpos⟩ := h.live _ hp
  have hself := Task.ref_self ht
  have hone := hal t.payloadPtr.toNat (by omega)
  have hmax : gmkMaxChanSubs = 32 := rfl
  have hst := h.stage t.payloadPtr.toNat
  obtain ⟨hk, hlive, hup, hrest⟩ := retainTimes_spec h.heap hp n (by omega)
  have hback (q : ℕ) : backRefs { k with heap := retainTimes k.heap t.payloadPtr.toNat n }
      (Multiset.replicate n t + (t ::ₘ loc)) q = backRefs k (t ::ₘ loc) q + n * t.ref q := by
    simp only [backRefs, refs_add, refs_replicate]
    omega
  have hfront (q : ℕ) : frontRefs { k with heap := retainTimes k.heap t.payloadPtr.toNat n } held q =
      frontRefs k held q := rfl
  have hself' := hback t.payloadPtr.toNat
  rw [hself, Nat.mul_one] at hself'
  refine h.recount t.payloadPtr.toNat hk h.reg ?_ ?_ hrest ?_ ?_ ?_
  · intro q hne
    rw [hback, Task.ref_of_ne hne]
    exact ⟨rfl, rfl⟩
  · intro q _
    rw [show Heap.live _ = _ from hlive]
  · intro _
    rw [show Heap.refcount _ _ = _ from hup, hfront, hself']
    omega
  · intro hmem
    rw [show Heap.live _ = _ from hlive] at hmem
    exact absurd hp hmem
  · rw [hfront, hself']
    omega

/-- A producer gets a new payload with its one reference. -/
theorem alloc (h : Owned k held loc) {size : UInt32} {hp : Heap}
    (ha : gmkPayloadAlloc k.heap size = (some t.payloadPtr.toNat, hp)) (ht : t.hasRc = true) :
    Owned { k with heap := hp } (t ::ₘ held) loc := by
  obtain ⟨hnew, hk, hlive, hone, hrest⟩ := gmkPayloadAlloc_some h.heap ha
  have hz := h.dead _ hnew
  have hself := Task.ref_self ht
  have hfront (q : ℕ) : frontRefs { k with heap := hp } (t ::ₘ held) q =
      frontRefs k held q + t.ref q := frontRefs_cons k t held q
  have hback (q : ℕ) : backRefs { k with heap := hp } loc q = backRefs k loc q := rfl
  refine h.recount t.payloadPtr.toNat hk h.reg ?_ ?_ (fun q hq _ => hrest q hq) ?_ ?_ ?_
  · intro q hne
    rw [hfront, Task.ref_of_ne hne]
    exact ⟨rfl, rfl⟩
  · intro q hne
    rw [show Heap.live _ = _ from hlive, Finset.mem_insert]
    exact or_iff_right hne
  · intro _
    rw [show Heap.refcount _ _ = _ from hone, hfront, hback]
    omega
  · intro hmem
    rw [show Heap.live _ = _ from hlive] at hmem
    exact absurd (Finset.mem_insert_self _ _) hmem
  · rw [hfront, hback]
    omega

theorem alloc_fails (h : Owned k held loc) {size : UInt32} {hp : Heap}
    (ha : gmkPayloadAlloc k.heap size = (none, hp)) : Owned { k with heap := hp } held loc := by
  obtain ⟨hk, hlive, hsame⟩ := gmkPayloadAlloc_none h.heap ha
  refine ⟨hk, h.reg, ?_, ?_, h.stage⟩
  · intro q hq
    rw [show Heap.live _ = _ from hlive] at hq
    rw [show Heap.refcount _ q = _ from hsame q]
    exact h.live q hq
  · intro q hq
    rw [show Heap.live _ = _ from hlive] at hq
    exact h.dead q hq

/-- A producer makes a task without counted payload. -/
theorem plain (h : Owned k held loc) (ht : t.hasRc = false) : Owned k (t ::ₘ held) loc := by
  refine h.same rfl h.reg ?_ ?_
  · intro p
    simp [frontRefs, Task.ref_of_not ht]
  · exact fun _ => rfl

end Counts
end Owned
end Ggmk

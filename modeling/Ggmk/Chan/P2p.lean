import Ggmk.Boot
import Ggmk.Chan.Route

/-! Where the messages of a point-to-point channel are after an emit. -/
namespace Ggmk
open RingMpmc

/-- The tasks of the local queue that `_gmk_enqueue` finds for worker `w`. -/
def Sched.lqOf (s : Sched) (w : ℤ) : List Task :=
  if 0 ≤ w ∧ w.toNat < s.nWorkers then (s.lqs w.toNat).items else []

theorem Sched.lqOf_natCast {s : Sched} {i : ℕ} (hi : i < s.nWorkers) :
    s.lqOf i = (s.lqs i).items := by
  simp [lqOf, hi]

/-- Tasks in the local queue of worker `w` or in the ready queue. -/
def Sched.routed (s : Sched) (w : ℤ) : Multiset Task := s.lqOf w + s.rq.tasks

@[simp] theorem Sched.routed_withSeq (s : Sched) (n : UInt32) (w : ℤ) :
    Sched.routed { s with nextSeq := n } w = s.routed w := rfl

theorem gmkEnqueue_routed (s : Sched) (t : Task) (w : ℤ) :
    (gmkEnqueue s t w).2.2.routed w =
      if (gmkEnqueue s t w).1 then s.stamp t ::ₘ s.routed w else s.routed w := by
  have hc := gmkEnqueue_cases s t w
  generalize gmkEnqueue s t w = r at hc ⊢
  cases hc with
  | toLq i lq hw hi hpush =>
    subst hw
    simp only [Sched.routed, if_true, Sched.lqOf_natCast, hi, Function.update_self]
    rw [(gmkLqPush_some hpush).1, ← Multiset.cons_add, Multiset.cons_coe]
    congr 1
    exact Multiset.coe_eq_coe.mpr (List.perm_append_singleton _ _)
  | toRq rq hlq hpush =>
    simp only [Sched.routed, if_true]
    rw [gmkRqPush_tasks hpush, Multiset.add_cons]
    rfl
  | refused hlq hrq => rfl

/-- The messages in the places where an emit on channel `c`, bound to worker `w`, may leave
them, up to sequence numbers. -/
def p2pTasks (k : Kernel) (c : ℕ) (w : ℤ) : Multiset Task :=
  (k.sched.routed w + ((k.chan.channels c).ring.items : Multiset Task)).map Task.content

/-- The emitted message has been added, no other message has gone, and no drop is counted. -/
structure EmitKeeps (k k' : Kernel) (c : ℕ) (t : Task) (w : ℤ) : Prop where
  tasks : p2pTasks k' c w = (markEmit c t).content ::ₘ p2pTasks k c w
  drops : (k'.chan.channels c).dropCount = (k.chan.channels c).dropCount

/-- A point-to-point channel with one active subscriber, whose ring holds `q`. -/
structure Bound (k : Kernel) (c : ℕ) (q : List Task) : Prop where
  mode : (k.chan.channels c).mode = gmkChanP2p
  nSubs : (k.chan.channels c).nSubs = 1
  active : ((k.chan.channels c).subs 0).active
  ring : (k.chan.channels c).ring.Holds q

/-- The message that the drain after a buffered emit picks. -/
def oldest (q : List Task) (t : Task) : Task := q.headD t

section Bound
variable {k k' : Kernel} {c : ℕ} {q : List Task} {t t' : Task}

theorem Bound.fastSub (hb : Bound k c q) :
    Ggmk.fastSub (k.chan.channels c) = some ((k.chan.channels c).subs 0) := by
  rw [Ggmk.fastSub, if_pos ⟨hb.mode, hb.nSubs, hb.active⟩]

/-- After a push that is followed by a pop the ring has kept its messages: a one-cell ring
that was occupied would make the pop spin. -/
theorem push_then_pop {r r₁ : RingMpmc Task} (hq : r.Holds q)
    (hpush : gmkRingMpmcPush r t = .ok r₁) (hspin : gmkRingMpmcPop r₁ ≠ .spin) :
    r₁.Holds (q ++ [t]) := by
  by_contra hno
  have hfull : q.length = r.cap ∧ r.cap = 1 := by
    by_contra hne
    exact hno (hq.of_push hpush fun h1 h2 => hne ⟨h1, h2⟩).1
  obtain ⟨y, rfl⟩ := List.length_eq_one_iff.mp (hfull.1.trans hfull.2)
  obtain ⟨r₂, hr₂, hs⟩ := hq.overfill_spins hfull.2 t
  obtain rfl : r₂ = r₁ := by simpa [hr₂] using hpush
  exact absurd hs hspin

/-- An emit that takes the fast path. -/
theorem emitKeeps_direct {s : Sched} (w : ℤ)
    (henq : gmkEnqueue k.sched (markEmit c t) w = (true, k.sched.stamp (markEmit c t), s)) :
    EmitKeeps k (emitDone { k with sched := s } c (k.sched.stamp (markEmit c t))) c t w := by
  have hr := gmkEnqueue_routed k.sched (markEmit c t) w
  rw [henq] at hr
  constructor
  · simp only [p2pTasks, emitDone_sched, emitDone_channels, countEmit_channels]
    rw [show s.routed w = _ from hr]
    simp
  · simp

/-- A drain of one message from a bound channel routes the oldest one. -/
theorem Bound.drain_one {n : ℕ} (hb : Bound k c (t :: q)) (hc : c < k.chan.nChannels)
    (h : gmkChanDrain k c 1 = some (n, k')) :
    ∃ r : RingMpmc Task, r.Holds q ∧
      k' = (routeP2p (k.setChan c { k.chan.channels c with ring := r }) c t
        ((k.chan.channels c).subs 0)).traceWrite 0 gmkEvChanDrain 0 (UInt32.ofNat c) 1 := by
  obtain ⟨r, hpop, hr, -⟩ := hb.ring.pop_ok
  have hsubs := subsSnap_one hb.nSubs
  rcases gmkChanDrain_one hc (by simp [hsubs]) h with ⟨he, -⟩ | ⟨x, r', he, rfl⟩
  · simp [hpop] at he
  · obtain ⟨rfl, rfl⟩ : t = x ∧ r = r' := by simpa [hpop] using he
    refine ⟨r, hr, ?_⟩
    rw [hsubs, drainTask_p2p (by simpa using hb.mode)]

/-- A buffered emit on a bound channel keeps the messages in its ring until it drains: the
pop from an overfilled ring would not have returned. -/
theorem Bound.buffer {s : Sched} {r : RingMpmc Task} {n : ℕ} (hb : Bound k c q)
    (hc : c < k.chan.nChannels) (hpush : gmkRingMpmcPush (k.chan.channels c).ring t = .ok r)
    (hdrain : gmkChanDrain (buffered k c t s r) c 1 = some (n, k')) :
    Bound (buffered k c t s r) c (q ++ [t]) := by
  have hring : ((buffered k c t s r).chan.channels c).ring = r := by simp [buffered]
  have hspin : gmkRingMpmcPop r ≠ .spin := by
    have hsubs : subsSnap ((buffered k c t s r).chan.channels c) ≠ [] := by
      simp [buffered, subsSnap, hb.nSubs]
    have hone := gmkChanDrain_one (by simpa [buffered] using hc) hsubs hdrain
    rw [hring] at hone
    rcases hone with ⟨he, -⟩ | ⟨x, r', he, -⟩ <;> simp [he]
  refine ⟨?_, ?_, ?_, ?_⟩
  · simpa [buffered] using hb.mode
  · simpa [buffered] using hb.nSubs
  · simpa [buffered] using hb.active
  · rw [hring]
    exact push_then_pop hb.ring hpush hspin

/-- Routing to the subscriber: the message moves to a queue, or is counted as dropped. -/
theorem routeP2p_spec (k : Kernel) (c : ℕ) (t : Task) {sub : ChanSub} (hact : sub.active) :
    (¬ (k.sched.NoLq sub.workerId ∧ k.sched.rq.Refuses t.prio) ∧
      (routeP2p k c t sub).sched.routed sub.workerId =
        k.sched.stamp t ::ₘ k.sched.routed sub.workerId ∧
      (routeP2p k c t sub).chan = k.chan) ∨
    (k.sched.NoLq sub.workerId ∧ k.sched.rq.Refuses t.prio ∧
      (routeP2p k c t sub).sched.routed sub.workerId = k.sched.routed sub.workerId ∧
      ((routeP2p k c t sub).chan.channels c).dropCount = (k.chan.channels c).dropCount + 1 ∧
      (c ≠ gmkChanSysDropped →
        ((routeP2p k c t sub).chan.channels c).ring = (k.chan.channels c).ring)) := by
  have hr := gmkEnqueue_routed k.sched t sub.workerId
  have hf := gmkEnqueue_eq_false_iff k.sched t sub.workerId
  simp only [routeP2p, if_pos hact]
  generalize gmkEnqueue k.sched t sub.workerId = e at hr hf ⊢
  obtain ⟨ok, u, s⟩ := e
  cases ok with
  | true =>
    left
    simpa [hr] using hf
  | false =>
    right
    obtain ⟨r, hd⟩ := routeToDeadLetter_channels { k with sched := s } c u
    obtain ⟨hlq, hrq⟩ := hf.mp rfl
    refine ⟨hlq, hrq, ?_, ?_, ?_⟩
    · simpa using hr
    · simp [hd]
    · intro hc
      simp [routeToDeadLetter_of_ne _ _ _ hc]

/-- No queue takes the emitted message, nor the message that the drain picks. -/
def NoWay (s : Sched) (w : ℤ) (q : List Task) (t : Task) : Prop :=
  s.NoLq w ∧ s.rq.Refuses t.prio ∧ s.rq.Refuses (oldest q t).prio

/-- The two outcomes of a successful emit of `t`. -/
inductive EmitOutcome (k k' : Kernel) (c : ℕ) (q : List Task) (t : Task) (w : ℤ) : Prop
  | kept (hway : ¬ NoWay k.sched w q t) (hkeeps : EmitKeeps k k' c t w)
  | lost (hno : NoWay k.sched w q t)
      (hdrop : (k'.chan.channels c).dropCount = (k.chan.channels c).dropCount + 1)
      (htasks : c ≠ gmkChanSysDropped → (oldest q (markEmit c t)).content ::ₘ p2pTasks k' c w =
        (markEmit c t).content ::ₘ p2pTasks k c w)

theorem EmitOutcome.traceWrite {w : ℤ} {n y : UInt16} {e : ℕ} {a b : UInt32}
    (h : EmitOutcome k k' c q t w) : EmitOutcome k (k'.traceWrite n e y a b) c q t w := by
  cases h with
  | kept hway hkeeps => exact .kept hway ⟨hkeeps.tasks, hkeeps.drops⟩
  | lost hno hdrop htasks => exact .lost hno hdrop htasks

theorem oldest_prio (h : t'.prio = t.prio) : (oldest q t').prio = (oldest q t).prio := by
  cases q with
  | nil => exact h
  | cons x q => rfl

theorem append_eq_oldest_cons (q : List Task) (t : Task) :
    q ++ [t] = oldest q t :: (q ++ [t]).tail := by
  cases q <;> rfl

/-- What routing the oldest of the buffered messages means for an emit of `t`. -/
theorem route_oldest {k₁ : Kernel} {n : UInt32} {sub : ChanSub} (hact : sub.active)
    (hq : (k.chan.channels c).ring.Holds q) (ht : t'.content = (markEmit c t).content)
    (hno : k.sched.NoLq sub.workerId ∧ k.sched.rq.Refuses t.prio)
    (hsched : k₁.sched = { k.sched with nextSeq := n })
    (hring : (k₁.chan.channels c).ring.Holds (q ++ [t']).tail)
    (hdrop : (k₁.chan.channels c).dropCount = (k.chan.channels c).dropCount) :
    EmitOutcome k (routeP2p k₁ c (oldest q t') sub) c q t sub.workerId := by
  have hprio : (oldest q t').prio = (oldest q t).prio := by
    apply oldest_prio
    rw [← t'.content_prio, ht, Task.content_prio, markEmit_prio]
  have hmsgs : (t'.content ::ₘ (q : Multiset Task).map Task.content) =
      (oldest q t').content ::ₘ ((q ++ [t']).tail : Multiset Task).map Task.content := by
    have h : (t' ::ₘ (q : Multiset Task)) = oldest q t' ::ₘ ((q ++ [t']).tail : Multiset Task) := by
      rw [Multiset.cons_coe, Multiset.cons_coe, ← append_eq_oldest_cons]
      exact Multiset.coe_eq_coe.mpr (List.perm_append_singleton t' q).symm
    simpa only [Multiset.map_cons] using congrArg (Multiset.map Task.content) h
  have holdest : (oldest q t').content = (oldest q (markEmit c t)).content := by
    cases q with
    | nil => exact ht
    | cons x q => rfl
  rcases routeP2p_spec k₁ c (oldest q t') hact with
    ⟨hway, hrouted, hchan⟩ | ⟨-, hrq', hrouted, hdrop', hkeep⟩
  · refine .kept ?_ ⟨?_, ?_⟩
    · intro hnoway
      apply hway
      rw [hsched, hprio]
      exact ⟨hnoway.1, hnoway.2.2⟩
    · simp only [p2pTasks, hrouted, hchan, hring.items_eq, hq.items_eq, hsched, ← ht,
        Multiset.map_add, Multiset.map_cons, Sched.stamp_content, Sched.routed_withSeq]
      rw [← Multiset.add_cons, hmsgs, Multiset.add_cons, Multiset.cons_add]
    · rw [hchan, hdrop]
  · rw [hsched, hprio] at hrq'
    refine .lost ⟨hno.1, hno.2, hrq'⟩ ?_ ?_
    · rw [hdrop', hdrop]
    · intro hc
      simp only [p2pTasks, hrouted, hkeep hc, hring.items_eq, hq.items_eq, hsched, ← ht,
        Multiset.map_add, Sched.routed_withSeq, ← holdest]
      rw [← Multiset.add_cons, ← Multiset.add_cons, hmsgs]

/-- A successful emit on a bound channel keeps all messages, or loses the oldest one. -/
theorem Bound.emit_ok (hb : Bound k c q) (h : gmkChanEmit k c t = some (gmkOk, t', k')) :
    EmitOutcome k k' c q t ((k.chan.channels c).subs 0).workerId := by
  cases gmkChanEmit_cases h with
  | rejected rc t₁ k₁ hrc => exact absurd rfl hrc
  | direct sub s ha hfast henq =>
    obtain rfl := Option.some.inj (hb.fastSub.symm.trans hfast)
    refine .kept ?_ (emitKeeps_direct _ henq)
    intro hno
    have hfalse := (gmkEnqueue_eq_false_iff k.sched (markEmit c t) _).mpr
      ⟨hno.1, by simpa using hno.2.1⟩
    simp [henq] at hfalse
  | buffered t₁ s r ha hnd hpush hfree =>
    exact absurd ⟨hb.mode, by simp [hb.nSubs]⟩ hfree
  | drained t₁ s r n k₁ ha hnd hpush hbound hdrain =>
    have hb₁ := hb.buffer ha.id hpush hdrain
    rw [append_eq_oldest_cons] at hb₁
    obtain ⟨r₁, hr₁, rfl⟩ := hb₁.drain_one (by simpa [Ggmk.buffered] using ha.id) hdrain
    obtain ⟨m, rfl⟩ := hnd.sched
    have hsub : ((Ggmk.buffered k c t' { k.sched with nextSeq := m } r).chan.channels c).subs 0 =
        (k.chan.channels c).subs 0 := by simp [Ggmk.buffered]
    rw [hsub]
    apply EmitOutcome.traceWrite
    apply route_oldest hb.active hb.ring hnd.task (hnd.refused _ hb.fastSub)
    · rfl
    · simpa using hr₁
    · simp [Ggmk.buffered]

/-- An emit on a bound channel with a free slot that is not reserved returns. -/
theorem Bound.emit_returns (hb : Bound k c q) (hc : c < k.chan.nChannels)
    (hopen : (k.chan.channels c).isOpen) (hroom : q.length < (k.chan.channels c).ring.cap)
    (hthr : q.length < reserveThreshold (k.chan.channels c)) (t : Task) :
    ∃ t' k', gmkChanEmit k c t = some (gmkOk, t', k') := by
  have hcount := hb.ring.count_eq
  have hbuf : ∀ s t', ∃ u k', emitBuffer { k with sched := s } c t' = some (gmkOk, u, k') := by
    intro s t'
    obtain ⟨r, hpush, hr, -⟩ := hb.ring.push_ok t' hroom
    rw [append_eq_oldest_cons] at hr
    obtain ⟨r₁, hpop, -, -⟩ := hr.pop_ok
    simp only [emitBuffer, hpush, hb.mode, hb.nSubs]
    simp [gmkChanDrain, not_le.mpr hc, subsSnap, drainLoop, hpop]
  have ha : Admits k c t := ⟨hc, hopen, fun hle => absurd hle (by omega)⟩
  rw [ha.emit_fast hb.fastSub]
  split
  · exact ⟨_, _, rfl⟩
  · exact hbuf _ _

end Bound

section Claim
variable {k k' : Kernel} {c : ℕ} {q : List Task} {t t' : Task}

/-- An emit that reports success on a bound channel has lost no message if and only if the
subscriber's local queue had room, or the ready queue had room for the emitted message or for
the oldest message of the channel. -/
theorem emit_ok_keeps_iff (hb : Bound k c q) (h : gmkChanEmit k c t = some (gmkOk, t', k')) :
    EmitKeeps k k' c t ((k.chan.channels c).subs 0).workerId ↔
      ¬ NoWay k.sched ((k.chan.channels c).subs 0).workerId q t := by
  cases hb.emit_ok h with
  | kept hway hkeeps => exact ⟨fun _ => hway, fun _ => hkeeps⟩
  | lost hno hdrop =>
    constructor
    · intro hkeeps
      have hd := hkeeps.drops
      rw [hdrop] at hd
      simp at hd
    · exact fun hway => absurd hno hway

/-- The booted one-worker kernel with the queues `s` and a four-slot channel for worker `w`. -/
def p2pKernel (s : Sched) (w : ℤ) : Kernel :=
  { tinyKernel with
    sched := s
    chan :=
      { channels := Function.update gmkChanRegInit.channels 2
          { ChanEntry.zero with
            mode := gmkChanP2p
            ring := gmkRingMpmcInit 4
            ringCap := 4
            subs := fun _ => ⟨0, w, true⟩
            nSubs := 1
            isOpen := true }
        nChannels := 3 } }

theorem p2pKernel_bound (s : Sched) (w : ℤ) : Bound (p2pKernel s w) 2 [] :=
  ⟨rfl, rfl, rfl, init_holds (k := 2) (by norm_num)⟩

theorem p2pKernel_returns (s : Sched) (w : ℤ) (t : Task) :
    ∃ t' k', gmkChanEmit (p2pKernel s w) 2 t = some (gmkOk, t', k') :=
  (p2pKernel_bound s w).emit_returns (show 2 < 3 by decide) rfl (show 0 < 4 by decide)
    (show 0 < reserveThreshold { ChanEntry.zero with ringCap := 4 } by decide) t

theorem emit_ok_keeps_empty : ∃ t' k',
    gmkChanEmit (p2pKernel (gmkSchedInit 1) 0) 2 { type := 7 } = some (gmkOk, t', k') ∧
      EmitKeeps (p2pKernel (gmkSchedInit 1) 0) k' 2 { type := 7 } 0 := by
  obtain ⟨t', k', h⟩ := p2pKernel_returns (gmkSchedInit 1) 0 { type := 7 }
  refine ⟨t', k', h, (emit_ok_keeps_iff (p2pKernel_bound _ _) h).mpr ?_⟩
  exact fun hno => gmkRqInit_room _ hno.2.1

/-- With a full ready queue and no local queue to go to, the message that the emit has
accepted is gone and a drop is counted. -/
theorem emit_ok_drops : ∃ t' k',
    gmkChanEmit (p2pKernel { gmkSchedInit 1 with rq := fullRq } (-1)) 2 { type := 7 } =
      some (gmkOk, t', k') ∧
    (markEmit 2 { type := 7 }).content ∉ p2pTasks k' 2 (-1) ∧
    (k'.chan.channels 2).dropCount = 1 ∧
    ((p2pKernel { gmkSchedInit 1 with rq := fullRq } (-1)).chan.channels 2).dropCount = 0 := by
  have hb := p2pKernel_bound { gmkSchedInit 1 with rq := fullRq } (-1)
  obtain ⟨t', k', h⟩ := p2pKernel_returns { gmkSchedInit 1 with rq := fullRq } (-1) { type := 7 }
  have hno : NoWay { gmkSchedInit 1 with rq := fullRq } (-1) [] { type := 7 } :=
    ⟨Or.inl (by norm_num), fullRq_refuses _, fullRq_refuses _⟩
  cases hb.emit_ok h with
  | kept hway => exact absurd hno hway
  | lost _ hdrop htasks =>
    refine ⟨t', k', h, ?_, hdrop, rfl⟩
    have hsame := (Multiset.cons_inj_right _).mp (htasks (by decide))
    intro hmem
    rw [show p2pTasks k' 2 (-1) = _ from hsame] at hmem
    obtain ⟨u, hu, hcontent⟩ := Multiset.mem_map.mp hmem
    rw [hb.ring.items_eq] at hu
    have hu : u ∈ (([] : List Task) : Multiset Task) + fullRq.tasks + ([] : List Task) := hu
    obtain rfl : u = default := mem_fullRq_tasks (by simpa using hu)
    exact absurd hcontent (by decide)

end Claim
end Ggmk

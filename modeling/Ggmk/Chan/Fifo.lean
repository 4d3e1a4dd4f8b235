import Ggmk.Chan.P2p
import Ggmk.Lib.Reach

/-! The order in which a point-to-point channel delivers, over runs of emit, subscribe and
drain calls between which worker `w` takes tasks from its local queue. -/
namespace Ggmk
open RingMpmc Guarded

/-- The kernel with two logs up to sequence numbers: the messages whose emit has returned
`GMK_OK`, and the messages that the calls have put into the local queue. -/
structure P2pRun where
  kernel : Kernel
  accepted : List Task
  delivered : List Task

inductive P2pOp where
  | emit (t : Task)
  | sub (moduleId : UInt32)
  | drain (limit : ℕ)
  | pop

/-- What has been appended to the local queue of worker `w`. -/
def lqPuts (w : ℕ) (k k' : Kernel) : List Task :=
  ((k'.sched.lqs w).items.drop (k.sched.lqs w).items.length).map Task.content

section Puts
variable {w : ℕ} {k a b : Kernel}

theorem lqPuts_of_same (h : (a.sched.lqs w).items = (k.sched.lqs w).items) :
    lqPuts w k a = [] := by
  simp [lqPuts, h]

theorem lqPuts_append {t : Task} (hpre : (k.sched.lqs w).items <+: (a.sched.lqs w).items)
    (h : (b.sched.lqs w).items = (a.sched.lqs w).items ++ [t]) :
    lqPuts w k b = lqPuts w k a ++ [t.content] := by
  rw [lqPuts, h, List.drop_append_of_le_length hpre.length_le, List.map_append]
  rfl

theorem lqPuts_single {t : Task} (h : (a.sched.lqs w).items = (k.sched.lqs w).items ++ [t]) :
    lqPuts w k a = [t.content] := by
  rw [lqPuts_append List.prefix_rfl h, lqPuts_of_same rfl, List.nil_append]

theorem Sched.not_noLq {s : Sched} (hw : w < s.nWorkers) (hroom : ¬ (s.lqs w).Refuses) :
    ¬ s.NoLq w := by
  rintro (h | h | h)
  · omega
  · rw [Int.toNat_natCast] at h
    omega
  · exact hroom h

/-- A local queue with room takes the task of an enqueue. -/
theorem gmkEnqueue_toLq {s : Sched} (hw : w < s.nWorkers) (hroom : ¬ (s.lqs w).Refuses) (t : Task) :
    ∃ lq, gmkEnqueue s t w = (true, s.stamp t,
        { s with nextSeq := s.nextSeq + 1, lqs := Function.update s.lqs w lq }) ∧
      lq.items = (s.lqs w).items ++ [s.stamp t] ∧ lq.SameShape (s.lqs w) := by
  have hno := Sched.not_noLq hw hroom
  have hc := gmkEnqueue_cases s t w
  generalize gmkEnqueue s t w = r at hc ⊢
  cases hc with
  | toLq i lq hwi hi hpush =>
    obtain rfl : w = i := by exact_mod_cast hwi
    obtain ⟨hitems, hshape, -⟩ := gmkLqPush_some hpush
    exact ⟨lq, rfl, hitems, hshape⟩
  | toRq rq hlq => exact absurd hlq hno
  | refused hlq => exact absurd hlq hno

/-- An emit to a local queue with room. -/
theorem Admits.emit_toLq {c : ℕ} {t : Task} {sub : ChanSub} (h : Admits k c t)
    (hfast : fastSub (k.chan.channels c) = some sub) (hsub : sub.workerId = w)
    (hw : w < k.sched.nWorkers) (hroom : ¬ (k.sched.lqs w).Refuses) :
    ∃ k', gmkChanEmit k c t = some (gmkOk, k.sched.stamp (markEmit c t), k') ∧
      (k'.sched.lqs w).items = (k.sched.lqs w).items ++ [k.sched.stamp (markEmit c t)] ∧
      (k'.sched.lqs w).SameShape (k.sched.lqs w) := by
  obtain ⟨lq, henq, hitems, hshape⟩ := gmkEnqueue_toLq hw hroom (markEmit c t)
  rw [h.emit_fast hfast, hsub, henq]
  exact ⟨_, rfl, by simpa using hitems, by simpa using hshape⟩

/-- An enqueue only appends to a local queue. -/
theorem gmkEnqueue_lq (s : Sched) (t : Task) (v : ℤ) (w : ℕ) :
    (s.lqs w).items <+: ((gmkEnqueue s t v).2.2.lqs w).items ∧
      ((gmkEnqueue s t v).2.2.lqs w).SameShape (s.lqs w) := by
  have hc := gmkEnqueue_cases s t v
  generalize gmkEnqueue s t v = r at hc ⊢
  cases hc with
  | toLq i lq hv hi hpush =>
    obtain ⟨hitems, hshape, -⟩ := gmkLqPush_some hpush
    by_cases hw : w = i
    · subst hw
      simp [hitems, hshape]
    · simp [Function.update_of_ne hw, Lq.SameShape]
  | toRq rq hlq hpush => exact ⟨List.prefix_rfl, rfl, rfl, rfl⟩
  | refused hlq hrq => exact ⟨List.prefix_rfl, rfl, rfl, rfl⟩

end Puts

namespace P2pRun

/-- The call `op` on channel `c`; a call that never returns is `none`. -/
def call (c w : ℕ) (s : P2pRun) : P2pOp → Option P2pRun
  | .emit t => (gmkChanEmit s.kernel c t).map fun (rc, _, k) =>
      { kernel := k
        accepted := if rc = gmkOk then s.accepted ++ [(markEmit c t).content] else s.accepted
        delivered := s.delivered ++ lqPuts w s.kernel k }
  | .sub moduleId =>
      some { s with kernel := (gmkChanSub s.kernel c moduleId w).2 }
  | .drain limit => (gmkChanDrain s.kernel c limit).map fun (_, k) =>
      { s with
        kernel := k
        delivered := s.delivered ++ lqPuts w s.kernel k }
  | .pop => (gmkLqPop (s.kernel.sched.lqs w)).map fun (_, lq) =>
      { s with kernel := { s.kernel with sched := { s.kernel.sched with
          lqs := Function.update s.kernel.sched.lqs w lq } } }

/-- The local queue of worker `w` is below its yield watermark. -/
def Below (w : ℕ) (k : Kernel) : Prop :=
  (k.sched.lqs w).items.length < (k.sched.lqs w).yieldWatermark

/-- A call that returns and leaves the local queue below its watermark. -/
def Step (c w : ℕ) (s : P2pRun) (op : P2pOp) (s' : P2pRun) : Prop :=
  s.call c w op = some s' ∧ Below w s'.kernel

/-- A point-to-point channel as `gmk_chan_open` leaves it, and worker `w` with a local queue
sized by `gmk_lq_init`. -/
structure Fresh (c w : ℕ) (k : Kernel) : Prop where
  mode : (k.chan.channels c).mode = gmkChanP2p
  nSubs : (k.chan.channels c).nSubs = 0
  ring : (k.chan.channels c).ring.Holds []
  worker : w < k.sched.nWorkers
  watermark : (k.sched.lqs w).yieldWatermark ≤ (k.sched.lqs w).ring.cap
  below : Below w k

def start (k : Kernel) : P2pRun := ⟨k, [], []⟩

/-- An emit that passes the checks finds the ring empty, or a channel without subscriber
whose ring has more than one slot. -/
def InOrder (c : ℕ) (s : P2pRun) : P2pOp → Prop
  | .emit t => Admits s.kernel c t →
      gmkRingMpmcCount (s.kernel.chan.channels c).ring = 0 ∨
      ((s.kernel.chan.channels c).nSubs = 0 ∧ 2 ≤ (s.kernel.chan.channels c).ring.cap)
  | _ => True

/-- The channel's messages are delivered or in the ring, in the order of their emits. -/
structure Inv (c w : ℕ) (s : P2pRun) : Prop where
  mode : (s.kernel.chan.channels c).mode = gmkChanP2p
  bound : (s.kernel.chan.channels c).nSubs = 0 ∨ (s.kernel.chan.channels c).nSubs = 1 ∧
    ((s.kernel.chan.channels c).subs 0).active ∧ ((s.kernel.chan.channels c).subs 0).workerId = w
  worker : w < s.kernel.sched.nWorkers
  watermark : (s.kernel.sched.lqs w).yieldWatermark ≤ (s.kernel.sched.lqs w).ring.cap
  below : Below w s.kernel
  order : ∃ q, (s.kernel.chan.channels c).ring.Holds q ∧
    s.accepted = s.delivered ++ q.map Task.content

theorem Fresh.inv {c w : ℕ} {k : Kernel} (h : Fresh c w k) : Inv c w (start k) :=
  ⟨h.mode, Or.inl h.nSubs, h.worker, h.watermark, h.below, [], h.ring, rfl⟩

section Steps
variable {c w : ℕ} {s : P2pRun}

theorem Inv.room (h : Inv c w s) : ¬ (s.kernel.sched.lqs w).Refuses := by
  have hb := h.below
  have hm := h.watermark
  unfold Below at hb
  rintro (hr | hr) <;> omega

/-- Calls that change neither the queues nor the channel keep the order. -/
theorem Inv.same (h : Inv c w s) {k : Kernel} {n : UInt32}
    (hsched : k.sched = { s.kernel.sched with nextSeq := n })
    (hchan : k.chan.channels c = s.kernel.chan.channels c) : Inv c w { s with kernel := k } := by
  refine ⟨?_, ?_, ?_, ?_, ?_, ?_⟩
  · exact hchan ▸ h.mode
  · exact hchan ▸ h.bound
  · exact hsched ▸ h.worker
  · exact hsched ▸ h.watermark
  · show Below w k
    rw [Below, hsched]
    exact h.below
  · exact hchan ▸ h.order

/-- The message `t`, the oldest that is not delivered, goes to the local queue. -/
theorem Inv.deliver (h : Inv c w s) {k : Kernel} {lq : Lq} {t : Task} {n : UInt32}
    {q accepted : List Task} (horder : accepted = s.delivered ++ t.content :: q.map Task.content)
    (hsched : k.sched = { s.kernel.sched with
      nextSeq := n, lqs := Function.update s.kernel.sched.lqs w lq })
    (hshape : lq.SameShape (s.kernel.sched.lqs w))
    (hchan : ∃ r e, k.chan.channels c = { s.kernel.chan.channels c with ring := r, emitCount := e })
    (hring : (k.chan.channels c).ring.Holds q) (hbelow : Below w k) :
    Inv c w ⟨k, accepted, s.delivered ++ [t.content]⟩ := by
  obtain ⟨r, e, hch⟩ := hchan
  refine ⟨?_, ?_, ?_, ?_, hbelow, q, hring, ?_⟩
  · simpa only [hch] using h.mode
  · simpa only [hch] using h.bound
  · exact hsched ▸ h.worker
  · simpa only [hsched, Function.update_self, hshape.1, hshape.2.1] using h.watermark
  · simpa using horder

/-- An emit by the fast path, which finds the ring empty. -/
theorem Inv.emit_direct (h : Inv c w s) {t : Task} {s₁ : Sched} {sub : ChanSub}
    (hring : (s.kernel.chan.channels c).ring.Holds []) (horder : s.accepted = s.delivered)
    (hsub : sub.workerId = w)
    (henq : gmkEnqueue s.kernel.sched (markEmit c t) sub.workerId =
      (true, s.kernel.sched.stamp (markEmit c t), s₁))
    (hbelow : Below w (emitDone { s.kernel with sched := s₁ } c
      (s.kernel.sched.stamp (markEmit c t)))) :
    Inv c w ⟨emitDone { s.kernel with sched := s₁ } c (s.kernel.sched.stamp (markEmit c t)),
      s.accepted ++ [(markEmit c t).content], s.delivered ++ lqPuts w s.kernel
        (emitDone { s.kernel with sched := s₁ } c (s.kernel.sched.stamp (markEmit c t)))⟩ := by
  obtain ⟨lq, henq', hitems, hshape⟩ := gmkEnqueue_toLq h.worker h.room (markEmit c t)
  rw [hsub, henq'] at henq
  obtain rfl := (Prod.mk.inj (Prod.mk.inj henq).2).2
  rw [lqPuts_single (t := s.kernel.sched.stamp (markEmit c t)) (by simpa using hitems)]
  refine h.deliver (q := []) ?_ rfl hshape ⟨_, _, countEmit_channels _ _ _⟩ ?_ hbelow
  · rw [horder]
    rfl
  · simpa using hring

/-- An emit into the ring of a channel without subscriber. -/
theorem Inv.emit_buffered (h : Inv c w s) {t t' : Task} {r : RingMpmc Task} {n : UInt32}
    (ht : t'.content = (markEmit c t).content)
    (hr : ∀ q, (s.kernel.chan.channels c).ring.Holds q → r.Holds (q ++ [t'])) :
    Inv c w ⟨buffered s.kernel c t' { s.kernel.sched with nextSeq := n } r,
      s.accepted ++ [(markEmit c t).content], s.delivered⟩ := by
  obtain ⟨q, hq, horder⟩ := h.order
  refine ⟨?_, ?_, h.worker, h.watermark, h.below, q ++ [t'], ?_, ?_⟩
  · simpa [buffered] using h.mode
  · simpa [buffered] using h.bound
  · simpa [buffered] using hr q hq
  · simp [horder, ht]

theorem Inv.emit (h : Inv c w s) {t t' : Task} {k : Kernel} {rc : ℤ}
    (hsafe : InOrder c s (.emit t)) (hemit : gmkChanEmit s.kernel c t = some (rc, t', k))
    (hbelow : Below w k) :
    Inv c w ⟨k, if rc = gmkOk then s.accepted ++ [(markEmit c t).content] else s.accepted,
      s.delivered ++ lqPuts w s.kernel k⟩ := by
  obtain ⟨q, hq, horder⟩ := h.order
  cases gmkChanEmit_cases hemit with
  | rejected rc t₁ k₁ hrc ht hheap hchan hsched =>
    obtain ⟨n, hn⟩ := hsched
    rw [if_neg hrc, lqPuts_of_same (by rw [hn]), List.append_nil]
    exact h.same hn (by rw [hchan])
  | direct sub s₁ ha hfast henq =>
    -- a channel with a subscriber had an empty ring
    obtain ⟨-, hn, -, rfl⟩ := fastSub_some hfast
    obtain ⟨-, -, hw⟩ := h.bound.resolve_left (by omega)
    have hcount := (hsafe ha).resolve_right (by omega)
    rw [hq.count_eq, List.length_eq_zero_iff] at hcount
    subst hcount
    exact h.emit_direct hq (by simpa using horder) hw henq hbelow
  | buffered t₁ s₁ r ha hnd hpush hfree =>
    obtain ⟨n, rfl⟩ := hnd.sched
    have hputs : lqPuts w s.kernel (buffered s.kernel c t' { s.kernel.sched with nextSeq := n } r) =
        [] := lqPuts_of_same rfl
    rw [if_pos rfl, hputs, List.append_nil]
    apply h.emit_buffered hnd.task
    intro q' hq'
    refine (hq'.of_push hpush ?_).1
    rintro hfull hone
    have hcount := hq'.count_eq
    rcases hsafe ha with h0 | ⟨-, h2⟩ <;> omega
  | drained t₁ s₁ r n k₁ ha hnd hpush hbound hdrain =>
    -- the local queue has room, so the fast path was taken
    obtain ⟨hn, hact, hw⟩ := h.bound.resolve_left (by omega)
    have hfast : fastSub (s.kernel.chan.channels c) = some ((s.kernel.chan.channels c).subs 0) := by
      rw [fastSub, if_pos ⟨h.mode, hn, hact⟩]
    have hno := (hnd.refused _ hfast).1
    rw [hw] at hno
    exact absurd hno (Sched.not_noLq h.worker h.room)

/-- What holds between the rounds of a drain of `s`: the local queue has only grown, and as
long as it is below its watermark every message has gone there. -/
structure Draining (c w : ℕ) (s : P2pRun) (k : Kernel) : Prop where
  mode : (k.chan.channels c).mode = gmkChanP2p
  grown : (s.kernel.sched.lqs w).items <+: (k.sched.lqs w).items
  watermark : (k.sched.lqs w).yieldWatermark = (s.kernel.sched.lqs w).yieldWatermark
  inv : Below w k → Inv c w ⟨k, s.accepted, s.delivered ++ lqPuts w s.kernel k⟩

theorem Draining.start (h : Inv c w s) : Draining c w s s.kernel := by
  refine ⟨h.mode, List.prefix_rfl, rfl, ?_⟩
  intro _
  rw [lqPuts_of_same rfl, List.append_nil]
  exact h

theorem Draining.traceWrite {k : Kernel} {n y : UInt16} {e : ℕ} {a b : UInt32}
    (h : Draining c w s k) : Draining c w s (k.traceWrite n e y a b) := by
  refine ⟨h.mode, h.grown, h.watermark, ?_⟩
  intro hbelow
  have hinv : Inv c w _ := h.inv hbelow
  exact ⟨hinv.mode, hinv.bound, hinv.worker, hinv.watermark, hinv.below, hinv.order⟩

/-- Routing keeps the mode, and only appends to the local queue. -/
theorem routeP2p_frame (k : Kernel) (c w : ℕ) (t : Task) (sub : ChanSub) :
    ((routeP2p k c t sub).chan.channels c).mode = (k.chan.channels c).mode ∧
      (k.sched.lqs w).items <+: ((routeP2p k c t sub).sched.lqs w).items ∧
      ((routeP2p k c t sub).sched.lqs w).SameShape (k.sched.lqs w) := by
  have hlq := gmkEnqueue_lq k.sched t sub.workerId w
  simp only [routeP2p]
  split
  · split
    · exact ⟨rfl, hlq⟩
    · obtain ⟨r, hr⟩ := routeToDeadLetter_channels
        { k with sched := (gmkEnqueue k.sched t sub.workerId).2.2 } c
        (gmkEnqueue k.sched t sub.workerId).2.1
      simpa [hr] using hlq
  · exact ⟨rfl, List.prefix_rfl, rfl, rfl, rfl⟩

theorem Draining.round {k : Kernel} {t : Task} {r : RingMpmc Task} {sub : ChanSub}
    (hact : sub.active) (hsub : sub.workerId = w) (h : Draining c w s k)
    (hpop : gmkRingMpmcPop (k.chan.channels c).ring = .ok t r) :
    Draining c w s (routeP2p (k.setChan c { k.chan.channels c with ring := r }) c t sub) := by
  obtain ⟨hmode, hgrown, hshape⟩ :=
    routeP2p_frame (k.setChan c { k.chan.channels c with ring := r }) c w t sub
  refine ⟨?_, h.grown.trans hgrown, hshape.2.1.trans h.watermark, ?_⟩
  · rw [hmode, Kernel.setChan_self]
    exact h.mode
  intro hbelow
  -- the queue was below its watermark before the round as well
  have hinv : Inv c w _ := h.inv (by
    unfold Below at hbelow ⊢
    rw [hshape.2.1] at hbelow
    exact hgrown.length_le.trans_lt hbelow)
  obtain ⟨q, hq, horder⟩ := hinv.order
  obtain ⟨l, rfl, hl, -⟩ := hq.of_pop hpop
  obtain ⟨lq, henq, hitems, hshape'⟩ := gmkEnqueue_toLq hinv.worker hinv.room t
  have hroute : routeP2p (k.setChan c { k.chan.channels c with ring := r }) c t sub =
      { k.setChan c { k.chan.channels c with ring := r } with sched := { k.sched with
        nextSeq := k.sched.nextSeq + 1, lqs := Function.update k.sched.lqs w lq } } := by
    simp only [routeP2p, hact, if_true, hsub, Kernel.setChan_sched]
    rw [henq]
    rfl
  rw [hroute] at hbelow ⊢
  rw [lqPuts_append (a := k) (t := k.sched.stamp t) h.grown (by simpa using hitems),
    ← List.append_assoc]
  exact hinv.deliver horder rfl hshape' ⟨r, _, Kernel.setChan_self _ _ _⟩ (by simpa using hl) hbelow

theorem Inv.drain (h : Inv c w s) {limit n : ℕ} {k : Kernel}
    (hdrain : gmkChanDrain s.kernel c limit = some (n, k)) (hbelow : Below w k) :
    Inv c w ⟨k, s.accepted, s.delivered ++ lqPuts w s.kernel k⟩ := by
  rcases h.bound with h0 | ⟨h1, hact, hw⟩
  · rw [gmkChanDrain_unbound h0] at hdrain
    obtain ⟨-, rfl⟩ := Prod.mk.inj (Option.some.inj hdrain)
    exact (Draining.start h).inv hbelow
  · have hend : Draining c w s k := by
      apply gmkChanDrain_induct (Draining.start h) ?_ ?_ hdrain
      · exact fun k n m hk => hk.traceWrite
      · intro k₁ t r hk₁ hpop
        rw [subsSnap_one h1, drainTask_p2p (by simpa using hk₁.mode)]
        exact hk₁.round hact hw hpop
    exact hend.inv hbelow

theorem Inv.sub (h : Inv c w s) (moduleId : UInt32) :
    Inv c w { s with kernel := (gmkChanSub s.kernel c moduleId w).2 } := by
  unfold gmkChanSub
  split
  · exact h
  simp only
  split
  · exact h
  split
  · exact h
  next hfree =>
    split
    · exact h
    have h0 : (s.kernel.chan.channels c).nSubs = 0 := by
      have := mt (And.intro h.mode) hfree
      omega
    refine ⟨?_, ?_, h.worker, h.watermark, h.below, ?_⟩
    · simpa using h.mode
    · simp [h0]
    · simpa using h.order

/-- Worker `w` takes a task. -/
theorem Inv.pop (h : Inv c w s) {t : Task} {lq : Lq}
    (hpop : gmkLqPop (s.kernel.sched.lqs w) = some (t, lq)) :
    Inv c w { s with kernel := { s.kernel with sched := { s.kernel.sched with
      lqs := Function.update s.kernel.sched.lqs w lq } } } := by
  obtain ⟨hitems, hshape⟩ := gmkLqPop_some hpop
  have hb := h.below
  refine ⟨h.mode, h.bound, h.worker, ?_, ?_, h.order⟩
  · simpa only [Function.update_self, hshape.1, hshape.2.1] using h.watermark
  · simp only [Below, Function.update_self, hshape.2.1, hitems, List.length_cons] at hb ⊢
    omega

/-- One call keeps the order. -/
theorem Inv.step {op : P2pOp} {s' : P2pRun} (h : Inv c w s) (hsafe : InOrder c s op)
    (hstep : Step c w s op s') : Inv c w s' := by
  obtain ⟨hcall, hbelow⟩ := hstep
  cases op with
  | emit t =>
    obtain ⟨⟨rc, t', k⟩, hemit, rfl⟩ := Option.map_eq_some_iff.mp hcall
    exact h.emit hsafe hemit hbelow
  | sub moduleId =>
    obtain rfl := Option.some.inj hcall
    exact h.sub moduleId
  | drain limit =>
    obtain ⟨⟨n, k⟩, hdrain, rfl⟩ := Option.map_eq_some_iff.mp hcall
    exact h.drain hdrain hbelow
  | pop =>
    obtain ⟨⟨t, lq⟩, hpop, rfl⟩ := Option.map_eq_some_iff.mp hcall
    exact h.pop hpop

end Steps

/-- In every run whose emits all find the ring empty or the channel without subscriber, the
messages put into the local queue are a prefix of the accepted ones. -/
theorem delivered_prefix {c w : ℕ} {k : Kernel} (hk : Fresh c w k) {s : P2pRun}
    (hrun : Reach (Step c w) (InOrder c) (start k) s) : s.delivered <+: s.accepted := by
  have hinv : Inv c w s := hrun.inv hk.inv fun _ _ _ h hg hs => h.step hg hs
  obtain ⟨q, -, horder⟩ := hinv.order
  exact ⟨_, horder.symm⟩

section Overtake
variable {c w : ℕ} {k : Kernel} {a b : Task}

/-- An emit before the subscription is buffered. -/
theorem Fresh.emit (hk : Fresh c w k) (ha : Admits k c a) :
    ∃ r : RingMpmc Task, r.Holds [markEmit c a] ∧
      gmkChanEmit k c a = some (gmkOk, markEmit c a, buffered k c (markEmit c a) k.sched r) := by
  obtain ⟨r, hpush, hr, -⟩ := hk.ring.push_ok (markEmit c a) (by simpa using hk.ring.cap_pos)
  refine ⟨r, hr, ?_⟩
  rw [ha.emit_slow (by simp [fastSub, hk.nSubs])]
  simp [emitBuffer, hpush, hk.nSubs, buffered]

/-- The kernel after an emit into an unbound channel and a subscription of worker `w`. -/
def bindAfter (k : Kernel) (c w : ℕ) (a : Task) (r : RingMpmc Task) : Kernel :=
  (gmkChanSub (buffered k c (markEmit c a) k.sched r) c 0 w).2

theorem Fresh.bind (hk : Fresh c w k) (ha : Admits k c a) (r : RingMpmc Task) :
    (bindAfter k c w a r).sched = k.sched ∧
    (bindAfter k c w a r).chan.nChannels = k.chan.nChannels ∧
    ∃ e, (bindAfter k c w a r).chan.channels c = { k.chan.channels c with
      ring := r
      subs := Function.update (k.chan.channels c).subs 0 ⟨0, w, true⟩
      nSubs := 1
      emitCount := e } := by
  have hsub := gmkChanSub_first (k := buffered k c (markEmit c a) k.sched r) (c := c)
    (by simpa [buffered] using ha.id) (by simpa [buffered] using ha.isOpen)
    (by simpa [buffered] using hk.nSubs) 0 w
  rw [bindAfter, hsub]
  refine ⟨rfl, rfl, (k.chan.channels c).emitCount + 1, ?_⟩
  simp [buffered]

/-- A message emitted after the subscription overtakes one that was buffered before it. -/
theorem overtakes (hk : Fresh c w k) (ha : Admits k c a)
    (hthr : 2 ≤ reserveThreshold (k.chan.channels c))
    (hlq : (k.sched.lqs w).items.length + 1 < (k.sched.lqs w).yieldWatermark) :
    ∃ s, Reach (Step c w) (fun _ _ => True) (start k) s ∧
      s.accepted = [(markEmit c a).content, (markEmit c b).content] ∧
      s.delivered = [(markEmit c b).content] := by
  obtain ⟨r, hr, hemit⟩ := hk.emit ha
  obtain ⟨hsched, hn, e, hchan⟩ := hk.bind ha r
  have hb : Admits (bindAfter k c w a r) c b := by
    refine ⟨hn ▸ ha.id, by simpa [hchan] using ha.isOpen, ?_⟩
    rw [hchan]
    intro hle
    have hcount : gmkRingMpmcCount r = 1 := hr.count_eq
    have hle : reserveThreshold (k.chan.channels c) ≤ gmkRingMpmcCount r := hle
    omega
  have hfast : fastSub ((bindAfter k c w a r).chan.channels c) = some ⟨0, w, true⟩ := by
    simp [fastSub, hchan, hk.mode]
  have hroom : ¬ ((bindAfter k c w a r).sched.lqs w).Refuses := by
    have hw := hk.watermark
    rw [hsched]
    rintro (h | h) <;> omega
  obtain ⟨k', hemit₂, hitems, hshape⟩ := hb.emit_toLq hfast rfl (hsched.symm ▸ hk.worker) hroom
  have hfirst : Step c w (start k) (.emit a)
      ⟨buffered k c (markEmit c a) k.sched r, [(markEmit c a).content], []⟩ := by
    refine ⟨?_, hk.below⟩
    have hputs : lqPuts w k (buffered k c (markEmit c a) k.sched r) = [] := lqPuts_of_same rfl
    simp [call, start, hemit, hputs]
  have hsecond : Step c w ⟨buffered k c (markEmit c a) k.sched r, [(markEmit c a).content], []⟩
      (.sub 0) ⟨bindAfter k c w a r, [(markEmit c a).content], []⟩ := by
    refine ⟨rfl, ?_⟩
    show Below w (bindAfter k c w a r)
    rw [Below, hsched]
    exact hk.below
  have hthird : Step c w ⟨bindAfter k c w a r, [(markEmit c a).content], []⟩ (.emit b)
      ⟨k', [(markEmit c a).content, (markEmit c b).content], [(markEmit c b).content]⟩ := by
    have hputs := lqPuts_single hitems
    constructor
    · simp [call, hemit₂, hputs]
    · show Below w k'
      rw [Below, hshape.2.1, hitems, hsched]
      simpa using hlq
  exact ⟨_, .next _ (.next _ (.next _ .start trivial hfirst) trivial hsecond) trivial hthird,
    rfl, rfl⟩

/-- A kernel whose channel 2 is point-to-point with four slots and has no subscriber. -/
def openKernel : Kernel :=
  { tinyKernel with
    sched := gmkSchedInit 1
    chan :=
      { channels := Function.update gmkChanRegInit.channels 2
          { ChanEntry.zero with
            mode := gmkChanP2p
            ring := gmkRingMpmcInit 4
            ringCap := 4
            isOpen := true }
        nChannels := 3 } }

theorem openKernel_lq : (openKernel.sched.lqs 0).items = [] :=
  SpscQueue.items_ofList (by decide) (by decide)

theorem openKernel_fresh : Fresh 2 0 openKernel where
  mode := rfl
  nSubs := rfl
  ring := init_holds (k := 2) (by norm_num)
  worker := Nat.one_pos
  watermark := show 768 ≤ 1024 by norm_num
  below := by
    rw [Below, openKernel_lq]
    show 0 < 768
    norm_num

theorem openKernel_admits (t : Task) : Admits openKernel 2 t := by
  refine ⟨show 2 < 3 by norm_num, rfl, fun h => absurd h ?_⟩
  rw [openKernel_fresh.ring.count_eq]
  decide

/-- An emit after the subscription is delivered at once. -/
theorem delivered_prefix_bound : ∃ s, Reach (Step 2 0) (InOrder 2) (start openKernel) s ∧
    s.delivered = [(markEmit 2 { type := 1 }).content] ∧ s.delivered <+: s.accepted := by
  have hsub := gmkChanSub_first (openKernel_admits default).id (openKernel_admits default).isOpen
    openKernel_fresh.nSubs 0 0
  have hbound : Step 2 0 (start openKernel) (.sub 0)
      ⟨(gmkChanSub openKernel 2 0 0).2, [], []⟩ := by
    refine ⟨rfl, ?_⟩
    rw [hsub]
    exact openKernel_fresh.below
  have hring : ((gmkChanSub openKernel 2 0 0).2.chan.channels 2).ring.Holds [] := by
    rw [hsub]
    exact openKernel_fresh.ring
  have ha : Admits (gmkChanSub openKernel 2 0 0).2 2 { type := 1 } := by
    rw [hsub]
    exact ⟨(openKernel_admits default).id, rfl, (openKernel_admits { type := 1 }).room⟩
  have hfast : fastSub ((gmkChanSub openKernel 2 0 0).2.chan.channels 2) = some ⟨0, 0, true⟩ := by
    rw [hsub]
    rfl
  obtain ⟨k', hemit, hitems, hshape⟩ := ha.emit_toLq (w := 0) hfast rfl
    (by rw [hsub]; exact openKernel_fresh.worker) (by rw [hsub]; exact openKernel_fresh.inv.room)
  have hputs := lqPuts_single hitems
  have hsend : Step 2 0 ⟨(gmkChanSub openKernel 2 0 0).2, [], []⟩ (.emit { type := 1 })
      ⟨k', [(markEmit 2 { type := 1 }).content], [(markEmit 2 { type := 1 }).content]⟩ := by
    constructor
    · simp [call, hemit, hputs]
    · show Below 0 k'
      rw [Below, hshape.2.1, hitems, hsub]
      show (openKernel.sched.lqs 0).items.length + 1 < 768
      rw [openKernel_lq]
      decide
  have hfirst : Reach (Step 2 0) (InOrder 2) (start openKernel) _ :=
    .next (.sub 0) .start trivial hbound
  have horder : InOrder 2 ⟨(gmkChanSub openKernel 2 0 0).2, [], []⟩ (.emit { type := 1 }) :=
    fun _ => Or.inl hring.count_eq
  have hrun := hfirst.next _ horder hsend
  exact ⟨_, hrun, rfl, delivered_prefix openKernel_fresh hrun⟩

/-- Messages emitted before the subscription may be overtaken by later ones. -/
theorem delivered_not_prefix : ∃ s,
    Reach (Step 2 0) (fun _ _ => True) (start openKernel) s ∧ ¬ s.delivered <+: s.accepted := by
  obtain ⟨s, hrun, hacc, hdel⟩ := overtakes (a := { type := 1 }) (b := { type := 2 })
    openKernel_fresh (openKernel_admits _) (by decide) (by rw [openKernel_lq]; decide)
  refine ⟨s, hrun, ?_⟩
  rw [hacc, hdel]
  decide

end Overtake
end P2pRun
end Ggmk

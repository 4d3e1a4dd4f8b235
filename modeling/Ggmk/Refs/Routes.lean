import Ggmk.Refs.Owned

/-! What emits, drains and dispatches do with the references they are given. -/
namespace Ggmk
open RingMpmc

/-- The dead-letter ring has no room. -/
def DeadFull (k : Kernel) : Prop :=
  gmkRingMpmcCount (k.chan.channels gmkChanSysDropped).ring =
    (k.chan.channels gmkChanSysDropped).ring.cap

/-- No queue takes `t` for worker `w`. -/
def Refused (k : Kernel) (w : ℤ) (t : Task) : Prop := k.sched.NoLq w ∧ k.sched.rq.Refuses t.prio

/-- A point-to-point message that no queue takes finds a place among the dead letters. -/
def P2pSafe (k : Kernel) (t : Task) (sub : ChanSub) : Prop :=
  t.hasRc = true → Refused k sub.workerId t → ¬ DeadFull k

/-- A copy on a lossless channel that no queue takes finds no place among the dead letters. -/
def CopySafe (k : Kernel) (c : ℕ) (t : Task) (sub : ChanSub) : Prop :=
  t.hasRc = true → (k.chan.channels c).guarantee ≠ gmkChanLossy → Refused k sub.workerId t →
    DeadFull k

/-- Every copy of a fan-out is safe when its turn comes. -/
def CopiesSafe (c : ℕ) (t : Task) : ℕ → List ChanSub → Kernel → Prop
  | _, [], _ => True
  | i, sub :: subs, k =>
      CopySafe k c t sub ∧ CopiesSafe c t (i + 1) subs (deliverCopy k c t i sub)

/-- The kernel in which a fan-out starts to deliver. -/
def fanOutStart (k : Kernel) (t : Task) (subs : List ChanSub) : Kernel :=
  if t.hasRc ∧ 1 < nActive subs then
    { k with heap := retainTimes k.heap t.payloadPtr.toNat (nActive subs - 1) }
  else k

def RouteSafe (k : Kernel) (c : ℕ) (subs : List ChanSub) (t : Task) : Prop :=
  if (k.chan.channels c).mode = gmkChanP2p then ∀ sub ∈ subs.head?, P2pSafe k t sub
  else CopiesSafe c t 0 subs (fanOutStart k t subs)

/-- Every round of a drain is safe when its turn comes. -/
def DrainSafe (c : ℕ) (subs : List ChanSub) : ℕ → Kernel → Prop
  | 0, _ => True
  | n + 1, k => ∀ t r, gmkRingMpmcPop (k.chan.channels c).ring = .ok t r →
      RouteSafe (k.setRing c r) c subs t ∧
      DrainSafe c subs n (drainTask (k.setRing c r) c subs t)

def ChanDrainSafe (k : Kernel) (c limit : ℕ) : Prop :=
  DrainSafe c (subsSnap (k.chan.channels c)) (if limit = 0 then 2 ^ 32 - 1 else limit) k

/-- An accepted message does not overwrite the one in an occupied ring of one slot, and the
message that an emit drains after its fast path has failed is not lost. -/
def EmitSafe (k : Kernel) (c : ℕ) (t : Task) : Prop :=
  Admits k c t →
    (fastSub (k.chan.channels c) = none →
      2 ≤ (k.chan.channels c).ring.cap ∨ gmkRingMpmcCount (k.chan.channels c).ring = 0) ∧
    ∀ sub, fastSub (k.chan.channels c) = some sub → Refused k sub.workerId t →
      P2pSafe k (oldest (k.chan.channels c).ring.items t) sub

section Frame
variable (k : Kernel) (c i : ℕ) (t u : Task) (sub : ChanSub)

theorem routeToDeadLetter_full (h : DeadFull k)
    (hr : (k.chan.channels gmkChanSysDropped).ring.Holds
      (k.chan.channels gmkChanSysDropped).ring.items)
    (h2 : 2 ≤ (k.chan.channels gmkChanSysDropped).ring.cap) : routeToDeadLetter k t = k := by
  have hfull := hr.push_full t (hr.count_eq.symm.trans h) h2
  simp only [routeToDeadLetter, hfull]
  split <;> rfl

theorem routeP2p_nChannels : (routeP2p k c t sub).chan.nChannels = k.chan.nChannels := by
  simp only [routeP2p]
  split
  · split <;> simp
  · rfl

theorem deliverCopy_nChannels :
    (deliverCopy k c t i sub).chan.nChannels = k.chan.nChannels := by
  simp only [deliverCopy, copyFailed]
  split
  · split
    · rfl
    · split <;> split <;> simp
  · rfl

theorem deliverCopies_nChannels (subs : List ChanSub) :
    (deliverCopies c t i subs k).chan.nChannels = k.chan.nChannels := by
  induction subs generalizing i k with
  | nil => rfl
  | cons sub subs ih => rw [deliverCopies, ih, deliverCopy_nChannels]

theorem drainTask_nChannels (subs : List ChanSub) :
    (drainTask k c subs t).chan.nChannels = k.chan.nChannels := by
  simp only [drainTask]
  split
  · split
    · exact routeP2p_nChannels ..
    · rfl
  · simp only [fanOut]
    rw [deliverCopies_nChannels]
    split <;> rfl

end Frame

theorem ChanWf.addSub {ch : ChanEntry} (h : ChanWf ch)
    (hfree : ¬ (ch.mode = gmkChanP2p ∧ 1 ≤ ch.nSubs)) (hmax : ch.nSubs < gmkMaxChanSubs)
    (m : UInt32) (w : ℤ) : ChanWf { ch with
      subs := Function.update ch.subs ch.nSubs ⟨m, w, true⟩
      nSubs := ch.nSubs + 1 } := by
  refine ⟨h.ring, hmax, ?_, ?_⟩
  · intro i hi
    by_cases hn : i = ch.nSubs
    · simp [hn]
    · simp only [Function.update_of_ne hn]
      exact h.active i (by simp only at hi; omega)
  · intro hmode
    have := mt (And.intro hmode) hfree
    simp only
    omega

namespace Owned
variable {k k' : Kernel} {held loc : Multiset Task} {t u : Task} {c : ℕ}

theorem dead_ring (h : Owned k held loc) : (k.chan.channels gmkChanSysDropped).ring.Holds
    (k.chan.channels gmkChanSysDropped).ring.items :=
  h.ring_holds h.reg.dropped_lt (by decide)

/-- A dead-letter ring with room takes every task. -/
theorem dead_room (h : Owned k held loc) (hroom : ¬ DeadFull k) (u : Task) :
    ∃ r, routeToDeadLetter k u = k.setRing gmkChanSysDropped r ∧
      r.Holds ((k.chan.channels gmkChanSysDropped).ring.items ++ [u]) ∧
      r.cap = (k.chan.channels gmkChanSysDropped).ring.cap := by
  have hr := h.dead_ring
  have hlt := hr.room.lt_of_ne fun he => hroom (hr.count_eq.trans he)
  obtain ⟨r, hpush, hr', hcap⟩ := hr.push_ok u hlt
  refine ⟨r, ?_, hr', hcap⟩
  simp [routeToDeadLetter, h.reg.dropped.isOpen, hpush, Kernel.setRing]

/-- A local task that is the only copy of its payload becomes a dead letter. -/
theorem deadLetter (h : Owned k held (t ::ₘ loc)) (hal : Alone k loc t)
    (hroom : t.hasRc = true → ¬ DeadFull k) (hu : u.SameRef t) :
    Owned (routeToDeadLetter k u) held loc := by
  by_cases hfull : DeadFull k
  · rw [routeToDeadLetter_full k u hfull h.dead_ring h.reg.dropped.two_le]
    exact h.drop (by simpa using mt hroom (not_not.mpr hfull))
  · obtain ⟨r, he, hr, hcap⟩ := h.dead_room hfull u
    rw [he]
    exact h.push_loc hal hu h.reg.dropped_lt (by decide) hr hcap

/-- Routing to the one subscriber. -/
theorem routeP2p {sub : ChanSub} (h : Owned k held (t ::ₘ loc)) (hal : Alone k loc t)
    (hact : sub.active) (hsafe : P2pSafe k t sub) :
    Owned (routeP2p k c t sub) held loc := by
  simp only [Ggmk.routeP2p, if_pos hact]
  rcases h.enqueue_loc sub.workerId with ⟨hok, hown⟩ | ⟨hno, href, hu, hready, hown⟩
  · rw [if_pos hok]
    exact hown
  · rw [hno]
    have hdead := hown.deadLetter (hal.of_ready hready) (fun hrc => hsafe hrc href) hu
    exact hdead.frame rfl rfl (sameChans_countDrop _ _)

/-- The end of a local task. -/
theorem giveUp (h : Owned k held (t ::ₘ loc)) :
    Owned (if t.hasRc then k.release t.payloadPtr.toNat else k) held loc := by
  cases ht : t.hasRc with
  | true => exact h.release ht
  | false => exact h.drop ht

theorem copyFailed {i : ℕ} (h : Owned k held (t ::ₘ loc)) (hu : u.SameRef t)
    (hsafe : t.hasRc = true → (k.chan.channels c).guarantee ≠ gmkChanLossy → DeadFull k) :
    Owned (copyFailed k c t u i) held loc := by
  simp only [Ggmk.copyFailed, hu.2]
  by_cases hlossy : (k.chan.channels c).guarantee = gmkChanLossy
  · rw [if_pos hlossy]
    apply giveUp
    exact h.frame rfl rfl (sameChans_countDrop k c)
  · rw [if_neg hlossy]
    cases ht : t.hasRc with
    | true =>
      rw [routeToDeadLetter_full k u (hsafe ht hlossy) h.dead_ring h.reg.dropped.two_le]
      exact h.release ht
    | false =>
      exact h.deadLetter (fun p hp => absurd (Task.ref_of_not ht p) hp) (by simp [ht]) hu

/-- One copy of a fan-out. -/
theorem deliverCopy {sub : ChanSub} {i : ℕ} (h : Owned k held (t ::ₘ loc)) (hact : sub.active)
    (hsafe : CopySafe k c t sub) : Owned (deliverCopy k c t i sub) held loc := by
  simp only [Ggmk.deliverCopy, if_pos hact]
  rcases h.enqueue_loc sub.workerId with ⟨hok, hown⟩ | ⟨hno, href, hu, -, hown⟩
  · rw [if_pos hok]
    exact hown
  · rw [hno]
    exact hown.copyFailed hu fun hrc hlossless => hsafe hrc hlossless href

/-- The count of a payload with one copy. -/
theorem refcount_alone (h : Owned k held (t ::ₘ loc)) (hal : Alone k loc t) (ht : t.hasRc = true) :
    k.heap.refcount t.payloadPtr.toNat = 1 := by
  have hback := hal t.payloadPtr.toNat (by rw [Task.ref_self ht]; decide)
  have hlive := (h.live _ (h.mem_live ht)).1
  have hstage := h.stage t.payloadPtr.toNat
  omega

theorem mem_ringTasks {r : RingMpmc Task} {l : List Task} (hc : c < k.chan.nChannels)
    (hr : r.Holds (l ++ [u])) : u ∈ (k.setRing c r).ringTasks := by
  apply Multiset.mem_sum.mpr
  refine ⟨c, Finset.mem_range.mpr hc, ?_⟩
  simp [Kernel.setRing, hr.items_eq]

/-- The only copy on a lossless channel, when no queue takes it and the dead letters do, is
stored there and its payload is freed. -/
theorem deliverCopy_dangles {sub : ChanSub} {i : ℕ} (h : Owned k held (t ::ₘ loc))
    (hal : Alone k loc t) (hact : sub.active) (hbad : ¬ CopySafe k c t sub) :
    ∃ u ∈ (Ggmk.deliverCopy k c t i sub).ringTasks, u.hasRc = true ∧
      u.payloadPtr.toNat ∉ (Ggmk.deliverCopy k c t i sub).heap.live := by
  simp only [CopySafe, Classical.not_imp] at hbad
  obtain ⟨hrc, hlossless, href, hroom⟩ := hbad
  rcases h.enqueue_loc sub.workerId with ⟨hok, -⟩ | ⟨hno, -, hu, -, hown⟩
  · rw [(gmkEnqueue_eq_false_iff _ _ _).mpr href] at hok
    exact absurd hok (by decide)
  simp only [Ggmk.deliverCopy, if_pos hact]
  generalize gmkEnqueue k.sched t sub.workerId = e at hno hu hown ⊢
  obtain ⟨ok, u, s⟩ := e
  obtain rfl : ok = false := hno
  obtain ⟨r, hroute, hr, -⟩ := hown.dead_room hroom u
  simp only [Bool.false_eq_true, if_false, Ggmk.copyFailed, if_neg hlossless, hrc, if_true, hroute]
  refine ⟨u, mem_ringTasks (k := { k with sched := s }) h.reg.dropped_lt hr, hu.1.trans hrc, ?_⟩
  have hfreed := (gmkPayloadRelease_last h.heap (h.mem_live hrc) (h.refcount_alone hal hrc)).2.1
  rw [hu.2]
  show t.payloadPtr.toNat ∉ (gmkPayloadRelease k.heap t.payloadPtr.toNat).2.live
  rw [hfreed]
  exact Finset.notMem_erase _ _

/-- A copy for each subscriber, each with its own reference. -/
theorem deliverCopies {subs : List ChanSub} {i : ℕ} (hact : ∀ sub ∈ subs, sub.active)
    (h : Owned k held (Multiset.replicate subs.length t + loc))
    (hsafe : CopiesSafe c t i subs k) : Owned (deliverCopies c t i subs k) held loc := by
  induction subs generalizing i k with
  | nil => simpa [Ggmk.deliverCopies] using h
  | cons sub subs ih =>
    rw [List.length_cons, Multiset.replicate_succ, Multiset.cons_add] at h
    have hnext := h.deliverCopy (i := i) (hact sub (by simp)) hsafe.1
    exact ih (fun s hs => hact s (by simp [hs])) hnext hsafe.2

theorem fanOut {subs : List ChanSub} (h : Owned k held (t ::ₘ loc)) (hal : Alone k loc t)
    (hact : ∀ sub ∈ subs, sub.active) (hne : subs ≠ []) (hle : subs.length ≤ gmkMaxChanSubs)
    (hsafe : CopiesSafe c t 0 subs (fanOutStart k t subs)) : Owned (fanOut k c t subs) held loc := by
  have hn : nActive subs = subs.length := List.countP_eq_length.mpr hact
  have hpos := List.length_pos_iff.mpr hne
  apply deliverCopies hact _ hsafe
  have hsplit : Multiset.replicate subs.length t + loc =
      Multiset.replicate (subs.length - 1) t + (t ::ₘ loc) := by
    obtain ⟨m, hm⟩ := Nat.exists_eq_succ_of_ne_zero hpos.ne'
    simp [hm, Multiset.replicate_succ]
  rw [fanOutStart, hn, hsplit]
  by_cases hrc : t.hasRc = true
  · by_cases hmany : 1 < subs.length
    · rw [if_pos ⟨hrc, hmany⟩]
      exact h.retain hrc hal (by omega)
    · rw [if_neg fun hif => hmany hif.2, show subs.length - 1 = 0 by omega]
      simpa using h
  · rw [if_neg fun hif => hrc hif.1]
    refine h.same rfl h.reg (fun _ => rfl) ?_
    intro p
    simp [backRefs, refs_replicate, Task.ref_of_not (Bool.eq_false_of_not_eq_true hrc)]

theorem drainTask {subs : List ChanSub} (h : Owned k held (t ::ₘ loc)) (hal : Alone k loc t)
    (hact : ∀ sub ∈ subs, sub.active) (hne : subs ≠ []) (hle : subs.length ≤ gmkMaxChanSubs)
    (hsafe : RouteSafe k c subs t) : Owned (drainTask k c subs t) held loc := by
  unfold RouteSafe at hsafe
  simp only [Ggmk.drainTask]
  split at hsafe
  next hmode =>
    rw [if_pos hmode]
    obtain ⟨sub, rest, rfl⟩ := List.exists_cons_of_ne_nil hne
    exact h.routeP2p hal (hact sub (by simp)) (hsafe sub (by simp))
  next hmode =>
    rw [if_neg hmode]
    exact h.fanOut hal hact hne hle hsafe

theorem drainLoop {subs : List ChanSub} {n m : ℕ} (h : Owned k held loc)
    (hc : c < k.chan.nChannels) (h0 : c ≠ 0) (hact : ∀ sub ∈ subs, sub.active) (hne : subs ≠ [])
    (hle : subs.length ≤ gmkMaxChanSubs) (hsafe : DrainSafe c subs n k)
    (hloop : drainLoop c subs n k = some (m, k')) : Owned k' held loc := by
  induction n generalizing k m with
  | zero =>
    obtain ⟨-, rfl⟩ := Prod.mk.inj (Option.some.inj hloop)
    exact h
  | succ n ih =>
    simp only [Ggmk.drainLoop] at hloop
    split at hloop
    next => simp at hloop
    next =>
      obtain ⟨-, rfl⟩ := Prod.mk.inj (Option.some.inj hloop)
      exact h
    next t r hpop =>
      obtain ⟨⟨m', k₁⟩, hrest, he⟩ := Option.map_eq_some_iff.mp hloop
      obtain ⟨-, rfl⟩ := Prod.mk.inj he
      obtain ⟨hown, hal⟩ := h.pop_ring hc h0 hpop
      obtain ⟨hround, hlater⟩ := hsafe t r hpop
      have hnext := hown.drainTask hal hact hne hle hround
      apply ih hnext _ hlater hrest
      rw [drainTask_nChannels]
      exact hc

theorem drain {n limit : ℕ} (h : Owned k held loc) (hsafe : ChanDrainSafe k c limit)
    (hdrain : gmkChanDrain k c limit = some (n, k')) : Owned k' held loc := by
  unfold gmkChanDrain at hdrain
  split at hdrain
  next =>
    obtain ⟨-, rfl⟩ := Prod.mk.inj (Option.some.inj hdrain)
    exact h
  next hc =>
    simp only at hdrain
    split at hdrain
    next =>
      obtain ⟨-, rfl⟩ := Prod.mk.inj (Option.some.inj hdrain)
      exact h
    next hne =>
      obtain ⟨⟨m, k₁⟩, hloop, he⟩ := Option.map_eq_some_iff.mp hdrain
      obtain ⟨-, rfl⟩ := Prod.mk.inj he
      have hc := not_le.mp hc
      have h0 : c ≠ 0 := by
        rintro rfl
        exact hne (by simp [subsSnap, h.reg.reserved.2])
      have hw := h.reg.chan c hc h0
      have hact : ∀ sub ∈ subsSnap (k.chan.channels c), sub.active := by
        intro sub hsub
        obtain ⟨i, hi, rfl⟩ := List.mem_map.mp hsub
        exact hw.active i (List.mem_range.mp hi)
      have hle : (subsSnap (k.chan.channels c)).length ≤ gmkMaxChanSubs := by
        simpa [subsSnap] using hw.subs_le
      have hown := h.drainLoop hc h0 hact hne hle hsafe hloop
      simp only
      split
      · exact hown.frame rfl rfl (SameChans.refl _)
      · exact hown

/-- A drain of one message to the one subscriber of a fan-out channel, whose copy is not
safe. -/
theorem drain_dangles {r : RingMpmc Task} {sub : ChanSub} (h : Owned k held loc)
    (hc : c < k.chan.nChannels) (h0 : c ≠ 0) (hmode : (k.chan.channels c).mode ≠ gmkChanP2p)
    (hsubs : subsSnap (k.chan.channels c) = [sub]) (hact : sub.active)
    (hpop : gmkRingMpmcPop (k.chan.channels c).ring = .ok t r)
    (hbad : ¬ CopySafe (k.setRing c r) c t sub) :
    ∃ n k', gmkChanDrain k c 1 = some (n, k') ∧
      ∃ u ∈ k'.ringTasks, u.hasRc = true ∧ u.payloadPtr.toNat ∉ k'.heap.live := by
  obtain ⟨hown, hal⟩ := h.pop_ring hc h0 hpop
  have hround : Ggmk.drainTask (k.setRing c r) c [sub] t =
      Ggmk.deliverCopy (k.setRing c r) c t 0 sub := by
    simp [Ggmk.drainTask, hmode, Ggmk.fanOut, nActive, hact, Ggmk.deliverCopies]
  have hdrain : gmkChanDrain k c 1 = some (1, (Ggmk.deliverCopy (k.setRing c r) c t 0 sub).traceWrite
      0 gmkEvChanDrain 0 (UInt32.ofNat c) 1) := by
    rw [← hround]
    simp [gmkChanDrain, not_le.mpr hc, hsubs, Ggmk.drainLoop, hpop, Kernel.setRing]
  exact ⟨_, _, hdrain, hown.deliverCopy_dangles hal hact hbad⟩

/-- A message goes into the ring of its channel. -/
theorem buffered {s : Sched} {r : RingMpmc Task} (h : Owned k (t ::ₘ held) loc)
    (hc : c < k.chan.nChannels) (h0 : c ≠ 0) (hnd : NotDirect k c t u s)
    (hr : r.Holds ((k.chan.channels c).ring.items ++ [u]))
    (hcap : r.cap = (k.chan.channels c).ring.cap) : Owned (buffered k c u s r) held loc := by
  obtain ⟨n, rfl⟩ := hnd.sched
  have hs : Owned { k with sched := { k.sched with nextSeq := n } } (t ::ₘ held) loc :=
    h.frame rfl rfl (SameChans.refl _)
  have hpush := hs.push_held ⟨hnd.hasRc, hnd.payloadPtr⟩ hc h0 hr hcap
  exact hpush.frame rfl rfl (sameChans_countEmit _ _)

theorem ne_zero (h : Owned k held loc) (ha : Admits k c t) : c ≠ 0 := by
  rintro rfl
  have ho := ha.isOpen
  rw [h.reg.reserved.1] at ho
  exact absurd ho (by decide)

theorem oldest_sameRef {q : List Task} (h : u.SameRef t) : (oldest q u).SameRef (oldest q t) := by
  cases q with
  | nil => exact h
  | cons x q => exact ⟨rfl, rfl⟩

/-- An emit that is buffered because the fast path has failed, and drained at once. -/
theorem emit_drained {s : Sched} {r : RingMpmc Task} {n : ℕ} (h : Owned k (t ::ₘ held) loc)
    (ha : Admits k c t) (hsafe : ∀ sub, fastSub (k.chan.channels c) = some sub →
      Refused k sub.workerId t → P2pSafe k (oldest (k.chan.channels c).ring.items t) sub)
    (hnd : NotDirect k c t u s) (hpush : gmkRingMpmcPush (k.chan.channels c).ring u = .ok r)
    (hbound : (k.chan.channels c).mode = gmkChanP2p ∧ 0 < (k.chan.channels c).nSubs)
    (hdrain : gmkChanDrain (Ggmk.buffered k c u s r) c 1 = some (n, k')) : Owned k' held loc := by
  have h0 := h.ne_zero ha
  have hw := h.reg.chan c ha.id h0
  have hn : (k.chan.channels c).nSubs = 1 := le_antisymm (hw.p2p hbound.1) hbound.2
  have hb : Bound k c (k.chan.channels c).ring.items := ⟨hbound.1, hn, hw.active 0 (by omega), hw.ring⟩
  have hb₁ := hb.buffer ha.id hpush hdrain
  have hring : ((Ggmk.buffered k c u s r).chan.channels c).ring = r := by simp [Ggmk.buffered]
  have hown := h.buffered ha.id h0 hnd (hring ▸ hb₁.ring) (Holds.cap_of_push hpush)
  apply hown.drain _ hdrain
  intro x r₁ hpop
  refine ⟨?_, trivial⟩
  rw [append_eq_oldest_cons] at hb₁
  obtain ⟨l, hx, -⟩ := hb₁.ring.of_pop hpop
  obtain ⟨rfl, -⟩ := List.cons.inj hx
  rw [RouteSafe, if_pos (by simpa [Kernel.setRing] using hb₁.mode), subsSnap_one hb₁.nSubs]
  intro sub hsub hrc href hfull
  obtain rfl : sub = (k.chan.channels c).subs 0 := by
    simpa [Ggmk.buffered] using hsub.symm
  have hdead : gmkChanSysDropped ≠ c := by
    rintro rfl
    exact h.reg.dropped.mode hbound.1
  obtain ⟨hlq, hrq⟩ := hnd.refused _ hb.fastSub
  obtain ⟨m, rfl⟩ := hnd.sched
  refine hsafe _ hb.fastSub ⟨hlq, hrq⟩ ?_ ⟨hlq, ?_⟩ ?_
  · rw [← (oldest_sameRef ⟨hnd.hasRc, hnd.payloadPtr⟩).1]
    exact hrc
  · rw [← oldest_prio hnd.prio]
    exact href.2
  · simpa [DeadFull, Kernel.setRing, Ggmk.buffered, Kernel.setChan_of_ne _ _ _ hdead] using hfull

theorem emit {rc : ℤ} (h : Owned k (t ::ₘ held) loc) (hsafe : EmitSafe k c t)
    (hemit : gmkChanEmit k c t = some (rc, u, k')) :
    Owned k' (if rc = gmkOk then held else u ::ₘ held) loc := by
  cases gmkChanEmit_cases hemit with
  | rejected rc u k' hrc hu hheap hchan hsched =>
    obtain ⟨n, hn⟩ := hsched
    rw [if_neg hrc]
    have hsame : Owned k' (t ::ₘ held) loc :=
      h.frame hheap (by rw [hn]; rfl) (hchan ▸ SameChans.refl _)
    exact hsame.swap_held hu
  | direct sub s ha hfast henq =>
    rw [if_pos rfl]
    have hown := h.enqueue_held (u := markEmit c t) ⟨by simp, rfl⟩ henq
    exact hown.frame rfl rfl (sameChans_countEmit _ _)
  | buffered u s r ha hnd hpush hfree =>
    rw [if_pos rfl]
    have h0 := h.ne_zero ha
    have hring := h.ring_holds ha.id h0
    have hslow : fastSub (k.chan.channels c) = none := by
      by_contra hf
      obtain ⟨sub, hsub⟩ := Option.ne_none_iff_exists'.mp hf
      obtain ⟨hmode, hn, -⟩ := fastSub_some hsub
      exact hfree ⟨hmode, by omega⟩
    have hone := (hsafe ha).1 hslow
    have hpos := hring.cap_pos
    rw [hring.count_eq] at hone
    obtain ⟨hr, hcap⟩ := hring.of_push hpush (by omega)
    exact h.buffered ha.id h0 hnd hr hcap
  | drained u s r n k' ha hnd hpush hbound hdrain =>
    rw [if_pos rfl]
    exact h.emit_drained ha (hsafe ha).2 hnd hpush hbound hdrain

/-- The end of a dispatch: a retry keeps the reference, everything else gives it up. -/
theorem dispatchOutcome {w : ℕ} {rc : ℤ} (h : Owned k held (t ::ₘ loc))
    (hsafe : rc = gmkRetry → t.hasRc = true → ¬ k.sched.rq.Refuses t.prio) :
    Owned (dispatchOutcome k w t rc) held loc := by
  simp only [Ggmk.dispatchOutcome]
  split
  · exact giveUp (h.frame rfl rfl (SameChans.refl _))
  · split
    next hretry =>
      rcases h.enqueue_loc (-1) with ⟨-, hown⟩ | ⟨-, href, -, -, hown⟩
      · exact hown.frame rfl rfl (SameChans.refl _)
      · have hrc : t.hasRc = false := by
          by_contra hrc
          exact hsafe hretry (Bool.eq_true_of_not_eq_false hrc) href.2
        exact (hown.drop hrc).frame rfl rfl (SameChans.refl _)
    · have hfail : Owned (gmkModuleRecordFail k t.type) held (t ::ₘ loc) :=
        h.frame (by simp) (by simp) (by rw [gmkModuleRecordFail_chan]; exact SameChans.refl _)
      exact hfail.giveUp.frame rfl rfl (SameChans.refl _)

/-- A subscription keeps to the limits of its channel. -/
theorem sub (h : Owned k held loc) (m : UInt32) (w : ℤ) :
    Owned (gmkChanSub k c m w).2 held loc := by
  unfold gmkChanSub
  split
  · exact h
  next hc =>
    simp only
    split
    · exact h
    next hopen =>
      split
      · exact h
      next hfree =>
        split
        · exact h
        next hmax =>
          have h0 : c ≠ 0 := by
            rintro rfl
            exact hopen h.reg.reserved.1
          have hw := h.reg.chan c (not_le.mp hc) h0
          have hrings : Kernel.ringTasks (k.setChan c { k.chan.channels c with
              subs := Function.update (k.chan.channels c).subs (k.chan.channels c).nSubs ⟨m, w, true⟩
              nSubs := (k.chan.channels c).nSubs + 1 }) = k.ringTasks := by
            apply Finset.sum_congr rfl
            intro d _
            by_cases hd : d = c
            · subst hd
              simp
            · simp [Kernel.setChan_of_ne _ _ _ hd]
          refine h.same rfl (h.reg.setChan h0 (fun _ => ?_) ?_) ?_ (fun _ => rfl)
          · exact hw.addSub hfree (not_le.mp hmax) m w
          · rintro rfl
            exact ⟨h.reg.dropped.isOpen, h.reg.dropped.lossy, h.reg.dropped.mode,
              h.reg.dropped.two_le⟩
          · intro p
            simp only [frontRefs, hrings]

end Owned
end Ggmk

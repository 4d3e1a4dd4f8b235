import Ggmk.Chan.Buffering

/-! The slots that a channel keeps for critical messages, over every run of emits and drains on a
channel without a point-to-point subscriber. The reserve is a tenth of the capacity, truncated and
taken on 32 bits. -/
namespace Ggmk
open Word Guarded RingMpmc

/-- The capacities that reserve no slot although they have more than one. -/
def unreserved : Finset ℕ := {2, 4, 8, 2 ^ 31}

theorem reserveThreshold_cases {ch : ChanEntry} {j : ℕ} (hj : j ≤ 31) (hcap : ch.ringCap = 2 ^ j) :
    reserveThreshold ch ≤ ch.ringCap ∧
      (reserveThreshold ch = ch.ringCap ↔ ch.ringCap = 1 ∨ ch.ringCap ∈ unreserved) := by
  unfold reserveThreshold
  rw [hcap]
  clear hcap
  revert j
  decide +kernel

namespace BufferRun

/-- While the ring holds no critical message, every critical message is accepted. -/
def Reserves (c : ℕ) (s : BufferRun) : Prop :=
  (∀ m ∈ (s.ch c).ring.items, m.prio ≠ gmkPrioCritical) → ∀ t : Task, t.prio = gmkPrioCritical →
    ∃ t' k, gmkChanEmit s.kernel c t = some (gmkOk, t', k)

/-- A point-to-point channel gets no subscriber. -/
def NoReceiver (c : ℕ) (s : BufferRun) : BufferOp → Prop
  | .sub _ _ => (s.ch c).mode ≠ gmkChanP2p
  | _ => True

/-- The other messages of `q` are at places below `threshold`. -/
def Below (threshold : ℕ) (q : List Task) : Prop :=
  ∀ i (hi : i < q.length), q[i].prio ≠ gmkPrioCritical → i < threshold

/-- The channel has no point-to-point subscriber, and its ring is a single cell or one whose
messages respect the threshold. -/
structure Guards (c cap : ℕ) (s : BufferRun) : Prop where
  id : c < s.kernel.chan.nChannels
  ne_dead : c ≠ gmkChanSysDropped
  isOpen : (s.ch c).isOpen = true
  unbound : (s.ch c).mode = gmkChanP2p → (s.ch c).nSubs = 0
  ringCap : (s.ch c).ringCap = cap
  ring : (s.ch c).ring.OneCell ∨
    2 ≤ (s.ch c).ring.cap ∧ (s.ch c).ring.cap = cap ∧
      ∃ q, (s.ch c).ring.Holds q ∧ Below (reserveThreshold (s.ch c)) q

section Steps
variable {c cap : ℕ} {s : BufferRun}

theorem Below.drop {threshold : ℕ} {q : List Task} (h : Below threshold q) (n : ℕ) :
    Below threshold (q.drop n) := by
  intro i hi hprio
  rw [List.length_drop] at hi
  rw [List.getElem_drop] at hprio
  have hlt := h (n + i) (by omega) hprio
  omega

theorem Below.append {threshold : ℕ} {q : List Task} (h : Below threshold q) {t : Task}
    (ht : threshold ≤ q.length → t.prio = gmkPrioCritical) : Below threshold (q ++ [t]) := by
  intro i hi hprio
  rw [List.length_append, List.length_singleton] at hi
  by_cases hlt : i < q.length
  · rw [List.getElem_append_left hlt] at hprio
    exact h i hlt hprio
  · obtain rfl : i = q.length := by omega
    rw [List.getElem_concat_length rfl] at hprio
    by_contra hle
    exact hprio (ht (not_lt.mp hle))

/-- Without critical messages a ring that respects the threshold is not above it. -/
theorem Below.length_le {threshold : ℕ} {q : List Task} (h : Below threshold q)
    (hprio : ∀ m ∈ q, m.prio ≠ gmkPrioCritical) : q.length ≤ threshold := by
  by_contra hlt
  have hlast := h threshold (by omega) (hprio _ (List.getElem_mem _))
  exact lt_irrefl _ hlast

theorem Guards.slow (h : Guards c cap s) : fastSub (s.ch c) = none := by
  apply if_neg
  rintro ⟨hmode, hone, -⟩
  rw [h.unbound hmode] at hone
  exact absurd hone (by norm_num)

theorem Guards.not_bound (h : Guards c cap s) : ¬ ((s.ch c).mode = gmkChanP2p ∧ 0 < (s.ch c).nSubs) :=
  fun hb => hb.2.ne' (h.unbound hb.1)

/-- The kernel changes as emits and drains change it. -/
theorem Guards.keeps (h : Guards c cap s) {k : Kernel} {accepted drained : List Task} {hung : Bool}
    (hk : s.kernel.Keeps k)
    (hring : ∀ q, 2 ≤ (s.ch c).ring.cap → (s.ch c).ring.Holds q →
      Below (reserveThreshold (s.ch c)) q →
      ∃ q', (k.chan.channels c).ring.Holds q' ∧ Below (reserveThreshold (s.ch c)) q') :
    Guards c cap ⟨k, accepted, drained, hung⟩ where
  id := hk.nChannels ▸ h.id
  ne_dead := h.ne_dead
  isOpen := (hk.entries c).isOpen.trans h.isOpen
  unbound := by
    simp only [ch, (hk.entries c).mode, (hk.entries c).nSubs]
    exact h.unbound
  ringCap := (hk.entries c).ringCap.trans h.ringCap
  ring := by
    have hthr : reserveThreshold (k.chan.channels c) = reserveThreshold (s.ch c) := by
      unfold reserveThreshold
      rw [(hk.entries c).ringCap]
    rcases h.ring with hone | ⟨htwo, hcap, q, hq, hbelow⟩
    · exact .inl (hone.of_moves (hk.entries c).moves)
    · obtain ⟨-, -, hsame⟩ := (hk.entries c).moves.holds hq htwo
      obtain ⟨q', hq', hbelow'⟩ := hring q htwo hq hbelow
      exact .inr ⟨hsame ▸ htwo, hsame.trans hcap, q', hq', hthr ▸ hbelow'⟩

theorem Guards.drain (h : Guards c cap s) (limit : ℕ) : Guards c cap (s.step c (.drain limit)) := by
  rw [BufferRun.step]
  split_ifs
  · exact h
  split
  next => exact ⟨h.id, h.ne_dead, h.isOpen, h.unbound, h.ringCap, h.ring⟩
  next l k hlog =>
    have hdrain : gmkChanDrain s.kernel c limit = some (l.length, k) := by
      rw [gmkChanDrain_eq_log, hlog]
      rfl
    apply h.keeps (.drain hdrain)
    intro q htwo hq hbelow
    obtain ⟨n, k', hk', -, hholds, -⟩ := gmkChanDrainLog_spec h.id h.ne_dead hq limit
    rw [hlog, Option.some.injEq, Prod.mk.injEq] at hk'
    exact ⟨q.drop n, hk'.2 ▸ hholds, hbelow.drop n⟩

/-- An emit that is buffered is one that the threshold admits. -/
theorem Guards.emit (h : Guards c cap s) (t : Task) : Guards c cap (s.step c (.emit t)) := by
  rw [BufferRun.step]
  split_ifs
  · exact h
  split
  next => exact ⟨h.id, h.ne_dead, h.isOpen, h.unbound, h.ringCap, h.ring⟩
  next rc t' k hemit =>
    apply h.keeps (.emit hemit)
    intro q htwo hq hbelow
    cases gmkChanEmit_cases hemit with
    | rejected _ _ _ hrc ht hheap hchan hsched => exact ⟨q, hchan ▸ hq, hbelow⟩
    | direct sub sched ha hfast henq => rw [h.slow] at hfast; cases hfast
    | drained _ sched r n _ ha hnd hpush hbound hdrain => exact absurd hbound h.not_bound
    | buffered _ sched r ha hnd hpush hfree =>
      obtain ⟨hr, -⟩ := hq.of_push hpush (by omega)
      refine ⟨q ++ [t'], by simpa [buffered] using hr, hbelow.append ?_⟩
      intro hle
      rw [← hq.count_eq] at hle
      rw [hnd.prio]
      exact ha.room hle

theorem Guards.sub (h : Guards c cap s) (m : UInt32) (w : ℤ) (hg : s.NoReceiver c (.sub m w)) :
    Guards c cap (s.step c (.sub m w)) := by
  rw [BufferRun.step]
  split_ifs
  · exact h
  show Guards c cap { s with kernel := (gmkChanSub s.kernel c m w).2 }
  rcases ChanWorld.gmkChanSub_cases s.kernel c m w with hsame | ⟨-, -, -, -, hset⟩
  · rw [hsame]
    exact h
  · rw [hset]
    refine ⟨h.id, h.ne_dead, ?_, ?_, ?_, ?_⟩
    · simp only [ch, Kernel.setChan_self]
      exact h.isOpen
    · simp only [ch, Kernel.setChan_self]
      exact fun hmode => absurd hmode hg
    · simp only [ch, Kernel.setChan_self]
      exact h.ringCap
    · simp only [ch, Kernel.setChan_self]
      exact h.ring

theorem Guards.step (h : Guards c cap s) {op : BufferOp} (hg : s.NoReceiver c op) :
    Guards c cap (s.step c op) := by
  cases op with
  | sub m w => exact h.sub m w hg
  | emit t => exact h.emit t
  | drain limit => exact h.drain limit

/-- A critical message is buffered where the ring takes it. -/
theorem Guards.emit_of_push (h : Guards c cap s) {t : Task} (ht : t.prio = gmkPrioCritical)
    {r : RingMpmc Task} (hpush : gmkRingMpmcPush (s.ch c).ring (markEmit c t) = .ok r) :
    ∃ t' k, gmkChanEmit s.kernel c t = some (gmkOk, t', k) := by
  have ha : Admits s.kernel c t := ⟨h.id, h.isOpen, fun _ => ht⟩
  rw [ha.emit_slow h.slow]
  simp only [emitBuffer, hpush, if_neg h.not_bound]
  exact ⟨_, _, rfl⟩

/-- With a reserve, or with a single cell, there is always room for a critical message that is the
only one. -/
theorem Guards.reserves (h : Guards c cap s) (hcap : cap ∉ unreserved) :
    s.Reserves c := by
  intro hprio t ht
  rcases h.ring with hone | ⟨htwo, heq, q, hq, hbelow⟩
  · obtain ⟨r, hpush, -⟩ := hone.push_ok (markEmit c t)
    exact h.emit_of_push ht hpush
  · obtain ⟨j, hj, hpow⟩ := hq.pow
    obtain ⟨hle, hiff⟩ := reserveThreshold_cases hj (h.ringCap.trans (heq ▸ hpow))
    rw [h.ringCap] at hle hiff
    have hlen : q.length ≤ reserveThreshold (s.ch c) := hbelow.length_le (hq.items_eq ▸ hprio)
    have hne : reserveThreshold (s.ch c) ≠ cap := by
      intro hfull
      rcases hiff.mp hfull with hone | hmem
      · omega
      · exact hcap hmem
    obtain ⟨r, hpush, -⟩ := hq.push_ok (markEmit c t) (by omega)
    exact h.emit_of_push ht hpush

/-- A channel that has just been opened, of any mode. -/
theorem start_guards {w w' : ChanWorld} (hw : w.Inv) {name : List UInt8}
    {mode guarantee slots : ℕ} {granted : Bool} (hslots : slots < 2 ^ 32)
    (hopen : w.gmkChanOpen name mode guarantee slots granted = ((c : ℤ), w')) :
    Guards c (Lifecycle.roundSlots slots) (start w'.kernel) ∧ (w'.entry c).ring.Holds [] ∧
      (w'.entry c).ring.cap = Lifecycle.roundSlots slots := by
  obtain ⟨hc, hpow, hn, hentries⟩ := ChanWorld.gmkChanOpen_ok hopen
  obtain ⟨j, hj, hcap⟩ := Lifecycle.pow_of_isPowerOfTwo (Lifecycle.roundSlots_lt hslots) hpow
  have htwo := hw.two_le
  have hself : w'.entry c = w.newEntry mode guarantee slots (gmkRingMpmcInit (2 ^ j)) := by
    rw [ChanWorld.entry, hentries, hc, Kernel.setChan_self, hcap]
  have hholds : (w'.entry c).ring.Holds [] := by
    rw [hself]
    exact init_holds hj
  have heq : (w'.entry c).ring.cap = Lifecycle.roundSlots slots := by
    rw [hself, hcap]
    rfl
  refine ⟨⟨?_, ?_, ?_, ?_, ?_, ?_⟩, hholds, heq⟩
  · simp only [start, hn, hc]
    exact Nat.lt_succ_self _
  · rw [hc]
    simp only [gmkChanSysDropped]
    omega
  · simp only [ch, start, hself, ChanWorld.newEntry]
  · simp only [ch, start, hself, ChanWorld.newEntry, implies_true]
  · simp only [ch, start, hself, ChanWorld.newEntry]
  · show (w'.entry c).ring.OneCell ∨ 2 ≤ (w'.entry c).ring.cap ∧
      (w'.entry c).ring.cap = Lifecycle.roundSlots slots ∧
      ∃ q, (w'.entry c).ring.Holds q ∧ Below (reserveThreshold (w'.entry c)) q
    cases j with
    | zero =>
      left
      rw [hself]
      exact OneCell.init
    | succ j =>
      right
      refine ⟨?_, heq, [], hholds, fun i hi => absurd hi (Nat.not_lt_zero i)⟩
      rw [hself]
      exact Nat.pow_le_pow_right (n := 2) (by norm_num) (Nat.succ_le_succ (Nat.zero_le j))

/-! ## Without a reserve -/

/-- A message of the lowest priority. -/
def lowTask : Task := { type := 1, flags := 3 }

/-- The channel holds `n` messages of low priority. -/
structure Filled (c cap n : ℕ) (s : BufferRun) : Prop where
  guards : Guards c cap s
  returns : s.hung = false
  full : reserveThreshold (s.ch c) = (s.ch c).ring.cap
  two_le : 2 ≤ (s.ch c).ring.cap
  queue : ∃ q, (s.ch c).ring.Holds q ∧ q.length = n ∧ ∀ m ∈ q, m.prio ≠ gmkPrioCritical

/-- Below a threshold that is the whole capacity, a message of low priority is buffered. -/
theorem Filled.emit {n : ℕ} (h : Filled c cap n s) (hn : n < (s.ch c).ring.cap) :
    Filled c cap (n + 1) (s.step c (.emit lowTask)) ∧
      ((s.step c (.emit lowTask)).ch c).ring.cap = (s.ch c).ring.cap := by
  obtain ⟨q, hq, rfl, hlow⟩ := h.queue
  have ha : Admits s.kernel c lowTask := by
    refine ⟨h.guards.id, h.guards.isOpen, ?_⟩
    intro hle
    have hcount : reserveThreshold (s.ch c) ≤ q.length := hq.count_eq ▸ hle
    rw [h.full] at hcount
    omega
  obtain ⟨r, hpush, hr, hcap⟩ := hq.push_ok (markEmit c lowTask) hn
  have hemit : gmkChanEmit s.kernel c lowTask = some (gmkOk, markEmit c lowTask,
      emitDone (s.kernel.setRing c r) c (markEmit c lowTask)) := by
    rw [ha.emit_slow h.guards.slow]
    simp only [emitBuffer, hpush, if_neg h.guards.not_bound]
    rfl
  have hstep : (s.step c (.emit lowTask)).kernel =
      emitDone (s.kernel.setRing c r) c (markEmit c lowTask) ∧
      (s.step c (.emit lowTask)).hung = false := by
    rw [BufferRun.step, if_neg (by simp [h.returns])]
    simp only [hemit]
    exact ⟨trivial, h.returns⟩
  have hkeeps : s.kernel.Keeps (s.step c (.emit lowTask)).kernel := hstep.1 ▸ .emit hemit
  have hring : ((s.step c (.emit lowTask)).ch c).ring = r := by
    rw [ch, hstep.1]
    simp
  have hcap' : ((s.step c (.emit lowTask)).ch c).ring.cap = (s.ch c).ring.cap := by
    rw [hring, hcap]
  refine ⟨⟨h.guards.step trivial, hstep.2, ?_, hcap' ▸ h.two_le, ?_⟩, hcap'⟩
  · rw [hcap', ← h.full, reserveThreshold, reserveThreshold, ch, (hkeeps.entries c).ringCap]
  · refine ⟨q ++ [markEmit c lowTask], hring ▸ hr, by simp, ?_⟩
    intro m hm
    rcases List.mem_append.mp hm with hm | hm
    · exact hlow m hm
    · rw [List.mem_singleton.mp hm, markEmit_prio]
      decide

/-- Messages of low priority fill the whole ring. -/
theorem Filled.fill (h : Filled c cap 0 s) {n : ℕ} (hn : n ≤ (s.ch c).ring.cap) :
    ∃ b, Reach (fun b op b' => b' = b.step c op) (NoReceiver c) s b ∧ Filled c cap n b ∧
      (b.ch c).ring.cap = (s.ch c).ring.cap := by
  induction n with
  | zero => exact ⟨s, .start, h, rfl⟩
  | succ n ih =>
    obtain ⟨b, hrun, hb, hcap⟩ := ih (by omega)
    obtain ⟨hb', hcap'⟩ := hb.emit (by omega)
    exact ⟨_, hrun.next (.emit lowTask) trivial rfl, hb', hcap'.trans hcap⟩

/-- A ring that is full of messages of low priority has no room for a critical one. -/
theorem Filled.not_reserves (h : Filled c cap (s.ch c).ring.cap s) : ¬ s.Reserves c := by
  obtain ⟨q, hq, hlen, hlow⟩ := h.queue
  intro hres
  obtain ⟨t', k, hemit⟩ := hres (hq.items_eq.symm ▸ hlow) { type := 1 } (by decide)
  have ha : Admits s.kernel c { type := 1 } := ⟨h.guards.id, h.guards.isOpen, fun _ => by decide⟩
  rw [ha.emit_slow h.guards.slow] at hemit
  simp only [emitBuffer, hq.push_full _ hlen h.two_le, emitFull, Option.some.injEq,
    Prod.mk.injEq] at hemit
  exact gmkChanFull_ne_ok hemit.1

end Steps

/-- The slots that an open accepts give critical messages their reserve, in every run without a
point-to-point subscriber, unless the capacity is one of those whose tenth is truncated to zero. -/
theorem reserves_iff (k : Kernel) (l : List ChanOp) {w : ChanWorld}
    (hw : l.foldl ChanWorld.step (ChanWorld.start k) = w) {name : Lifecycle.CName}
    {mode guarantee c : ℕ} {slots : UInt32} {granted : Bool} {w' : ChanWorld}
    (hopen : w.gmkChanOpen name mode guarantee slots.toNat granted = ((c : ℤ), w')) :
    (∀ b, Reach (fun b op b' => b' = b.step c op) (NoReceiver c) (start w'.kernel) b →
      b.Reserves c) ↔ Lifecycle.roundSlots slots.toNat ∉ unreserved := by
  have hinv : w.Inv := hw ▸ ((ChanWorld.start_inv k).run l).1
  obtain ⟨hguards, hempty, hcap⟩ := start_guards hinv slots.toNat_lt hopen
  constructor
  · intro hres hmem
    obtain ⟨j, hj, hpow⟩ := hempty.pow
    obtain ⟨-, hiff⟩ := reserveThreshold_cases hj (hguards.ringCap.trans (hcap ▸ hpow))
    rw [hguards.ringCap] at hiff
    have htwo : 2 ≤ Lifecycle.roundSlots slots.toNat := by
      simp only [unreserved, Finset.mem_insert, Finset.mem_singleton] at hmem
      omega
    have hfilled : Filled c _ 0 (start w'.kernel) :=
      ⟨hguards, rfl, (hiff.mpr (.inr hmem)).trans hcap.symm, hcap ▸ htwo, [], hempty, rfl, by simp⟩
    obtain ⟨b, hrun, hb, hbcap⟩ := hfilled.fill le_rfl
    rw [← hbcap] at hb
    exact hb.not_reserves (hres b hrun)
  · intro hnot b hrun
    have hb : Guards c (Lifecycle.roundSlots slots.toNat) b := by
      refine hrun.inv hguards ?_
      rintro b op _ h hg rfl
      exact h.step hg
    exact hb.reserves hnot

/-- Sixteen slots keep one for a critical message. -/
theorem reserves_iff_sixteen :
    ((List.replicate 16 (BufferOp.emit lowTask)).foldl (step 2)
      (start (fanWorld 16).kernel)).Reserves 2 := by
  have hid : (tinyWorld.gmkChanOpen (Lifecycle.NameRun.letters 1) gmkChanFanout gmkChanLossy
      (16 : UInt32).toNat true).1 = ((2 : ℕ) : ℤ) := by decide +kernel
  have hobeys : Obeys (step 2) (NoReceiver 2) (start (fanWorld 16).kernel)
      (List.replicate 16 (.emit lowTask)) := by
    simp [Obeys, List.replicate, NoReceiver]
  exact (reserves_iff tinyKernel [] rfl (Prod.ext hid rfl)).mpr (by decide +kernel) _
    (Reach.foldl hobeys .start)

/-- Of two slots none is kept: after two messages of low priority a critical one is refused. -/
theorem two_slots_unreserved : ∃ (k : Kernel) (l : List ChanOp) (name : Lifecycle.CName)
    (mode guarantee c : ℕ) (slots : UInt32) (granted : Bool) (w' : ChanWorld) (b : BufferRun),
    (l.foldl ChanWorld.step (ChanWorld.start k)).gmkChanOpen name mode guarantee slots.toNat
      granted = ((c : ℤ), w') ∧
    Reach (fun b op b' => b' = b.step c op) (NoReceiver c) (start w'.kernel) b ∧
    ¬ b.Reserves c := by
  have hid : (tinyWorld.gmkChanOpen (Lifecycle.NameRun.letters 1) gmkChanFanout gmkChanLossy
      (2 : UInt32).toNat true).1 = ((2 : ℕ) : ℤ) := by decide +kernel
  have hobeys : Obeys (step 2) (NoReceiver 2) (start (fanWorld 2).kernel)
      [.emit lowTask, .emit lowTask] := ⟨trivial, trivial, trivial⟩
  refine ⟨tinyKernel, [], Lifecycle.NameRun.letters 1, gmkChanFanout, gmkChanLossy, 2, 2, true,
    fanWorld 2, _, Prod.ext hid rfl, Reach.foldl hobeys .start, ?_⟩
  intro hres
  obtain ⟨t', k, hemit⟩ := hres (by decide +kernel) { type := 1 } (by decide)
  have hcode : (gmkChanEmit ([.emit lowTask, .emit lowTask].foldl (step 2)
      (start (fanWorld 2).kernel)).kernel 2 { type := 1 }).map Prod.fst = some gmkChanFull := by
    decide +kernel
  rw [hemit] at hcode
  exact gmkChanFull_ne_ok (Option.some.inj hcode).symm

end BufferRun
end Ggmk

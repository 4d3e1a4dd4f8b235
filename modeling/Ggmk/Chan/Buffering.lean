import Ggmk.Chan.Registry
import Ggmk.Lib.Reach

/-! The buffer of a fan-out channel, for every number of slots that an open accepts: what emits
put into the ring and drains take out of it. -/
namespace Ggmk
open Guarded RingMpmc

/-! ## The messages of a drain -/

/-- The drain loop with the messages that it takes. -/
def drainLog (c : ℕ) (subs : List ChanSub) : ℕ → Kernel → Option (List Task × Kernel)
  | 0, k => some ([], k)
  | n + 1, k =>
      match gmkRingMpmcPop (k.chan.channels c).ring with
      | .spin => none
      | .empty => some ([], k)
      | .ok t r =>
          (drainLog c subs n (drainTask (k.setRing c r) c subs t)).map fun p => (t :: p.1, p.2)

theorem drainLoop_eq_log (c : ℕ) (subs : List ChanSub) (n : ℕ) (k : Kernel) :
    drainLoop c subs n k = (drainLog c subs n k).map fun p => (p.1.length, p.2) := by
  induction n generalizing k with
  | zero => rfl
  | succ n ih =>
    simp only [drainLoop, drainLog]
    cases gmkRingMpmcPop (k.chan.channels c).ring with
    | spin => rfl
    | empty => rfl
    | ok t r =>
      simp only [ih, Option.map_map]
      rfl

/-- A drain that has taken messages is traced. -/
def traceDrained (c n : ℕ) (k : Kernel) : Kernel :=
  if 0 < n then k.traceWrite 0 gmkEvChanDrain 0 (UInt32.ofNat c) (UInt32.ofNat n) else k

@[simp] theorem traceDrained_chan (c n : ℕ) (k : Kernel) : (traceDrained c n k).chan = k.chan := by
  unfold traceDrained
  split <;> rfl

/-- `gmk_chan_drain` with the messages that it takes. -/
def gmkChanDrainLog (k : Kernel) (c limit : ℕ) : Option (List Task × Kernel) :=
  if k.chan.nChannels ≤ c then some ([], k)
  else
    let subs := subsSnap (k.chan.channels c)
    if subs = [] then some ([], k)
    else
      (drainLog c subs (if limit = 0 then 2 ^ 32 - 1 else limit) k).map fun p =>
        (p.1, traceDrained c p.1.length p.2)

theorem gmkChanDrain_eq_log (k : Kernel) (c limit : ℕ) :
    gmkChanDrain k c limit = (gmkChanDrainLog k c limit).map fun p => (p.1.length, p.2) := by
  simp only [gmkChanDrain, gmkChanDrainLog]
  split
  · rfl
  · split
    · rfl
    · rw [drainLoop_eq_log, Option.map_map, Option.map_map]
      rfl

/-- A drain of a ring that represents `q` takes the first messages of `q`. -/
theorem drainLog_spec {c : ℕ} (hc : c ≠ gmkChanSysDropped) (subs : List ChanSub) (n : ℕ)
    {k : Kernel} {q : List Task} (hq : (k.chan.channels c).ring.Holds q) :
    ∃ k', drainLog c subs n k = some (q.take n, k') ∧ k.Keeps k' ∧
      (k'.chan.channels c).ring.Holds (q.drop n) ∧
      (k'.chan.channels c).ring.cap = (k.chan.channels c).ring.cap := by
  induction n generalizing k q with
  | zero => exact ⟨k, by simp [drainLog], .of_chan rfl, hq, rfl⟩
  | succ n ih =>
    cases q with
    | nil =>
      exact ⟨k, by simp [drainLog, hq.pop_empty], .of_chan rfl, by simpa using hq, rfl⟩
    | cons t q =>
      obtain ⟨r, hpop, hr, hcap⟩ := hq.pop_ok
      have hring : ((drainTask (k.setRing c r) c subs t).chan.channels c).ring = r := by
        rw [drainTask_ring hc, Kernel.setRing_self]
      obtain ⟨k', hk', hkeeps, hholds, hcap'⟩ := ih (k := drainTask (k.setRing c r) c subs t)
        (q := q) (by rw [hring]; exact hr)
      refine ⟨k', ?_, ((Kernel.Keeps.pop hpop).trans (.drainTask _ c subs t)).trans hkeeps,
        by simpa using hholds, ?_⟩
      · simp only [drainLog, hpop, hk', Option.map_some, List.take_succ_cons]
      · rw [hcap', hring, hcap]

/-- A drain takes the first messages of a ring that represents `q`. -/
theorem gmkChanDrainLog_spec {k : Kernel} {c : ℕ} {q : List Task} (hid : c < k.chan.nChannels)
    (hc : c ≠ gmkChanSysDropped) (hq : (k.chan.channels c).ring.Holds q) (limit : ℕ) :
    ∃ n k', gmkChanDrainLog k c limit = some (q.take n, k') ∧ k.Keeps k' ∧
      (k'.chan.channels c).ring.Holds (q.drop n) ∧
      (k'.chan.channels c).ring.cap = (k.chan.channels c).ring.cap ∧
      (0 < (k.chan.channels c).nSubs → limit = 0 → n = 2 ^ 32 - 1) := by
  unfold gmkChanDrainLog
  rw [if_neg (not_le.mpr hid)]
  simp only
  split
  next hsubs =>
    refine ⟨0, k, by simp, .of_chan rfl, by simpa using hq, rfl, ?_⟩
    intro hpos
    exact absurd hsubs (by simpa [subsSnap] using hpos.ne')
  next =>
    obtain ⟨k', hk', hkeeps, hholds, hcap⟩ := drainLog_spec hc
      (subsSnap (k.chan.channels c)) (if limit = 0 then 2 ^ 32 - 1 else limit) hq
    refine ⟨if limit = 0 then 2 ^ 32 - 1 else limit, traceDrained c (List.take _ q).length k',
      by rw [hk']; rfl, hkeeps.trans (.of_chan (traceDrained_chan _ _ _)), ?_, ?_, ?_⟩
    · rw [traceDrained_chan]
      exact hholds
    · rw [traceDrained_chan]
      exact hcap
    · exact fun _ hzero => if_pos hzero

/-! ## Runs on one channel -/

/-- The kernel with the messages that emits have put into the ring of the channel and those that
drains have taken out of it. -/
structure BufferRun where
  kernel : Kernel
  accepted : List Task
  drained : List Task
  hung : Bool

inductive BufferOp where
  | sub (moduleId : UInt32) (workerId : ℤ)
  | emit (t : Task)
  | drain (limit : ℕ)

namespace BufferRun

def step (c : ℕ) (s : BufferRun) (op : BufferOp) : BufferRun :=
  if s.hung then s
  else
    match op with
    | .sub moduleId workerId => { s with kernel := (gmkChanSub s.kernel c moduleId workerId).2 }
    | .emit t =>
        match gmkChanEmit s.kernel c t with
        | none => { s with hung := true }
        | some (rc, t, k) =>
            { s with kernel := k, accepted := if rc = gmkOk then s.accepted ++ [t] else s.accepted }
    | .drain limit =>
        match gmkChanDrainLog s.kernel c limit with
        | none => { s with hung := true }
        | some (l, k) => { s with kernel := k, drained := s.drained ++ l }

def start (k : Kernel) : BufferRun := ⟨k, [], [], false⟩

abbrev ch (s : BufferRun) (c : ℕ) : ChanEntry := s.kernel.chan.channels c

/-- Every call has returned and pushes to the dead-letter ring return too; the accepted messages
are the drained ones followed by those of the ring, and a drain without a limit takes them all. -/
structure Works (c : ℕ) (s : BufferRun) : Prop where
  returns : s.hung = false
  deadReturns : ∀ t, gmkRingMpmcPush (s.ch gmkChanSysDropped).ring t ≠ .spin
  intact : s.drained ++ (s.ch c).ring.items = s.accepted
  delivered : 0 < (s.ch c).nSubs → (s.step c (.drain 0)).drained = s.accepted

/-- No critical message is emitted while the ring is a single cell that holds a message. -/
def Roomy (c : ℕ) (s : BufferRun) : BufferOp → Prop
  | .emit t => (s.ch c).ring.cap = 1 → t.prio = gmkPrioCritical →
      gmkRingMpmcCount (s.ch c).ring = 0
  | _ => True

/-- The channel is an open fan-out channel whose ring holds `q`, the accepted messages that have
not been drained. -/
structure Inv (c : ℕ) (s : BufferRun) (q : List Task) : Prop where
  returns : s.hung = false
  id : c < s.kernel.chan.nChannels
  ne_dead : c ≠ gmkChanSysDropped
  dead : ∃ q', (s.ch gmkChanSysDropped).ring.Holds q' ∧ 2 ≤ (s.ch gmkChanSysDropped).ring.cap
  isOpen : (s.ch c).isOpen = true
  fanout : (s.ch c).mode ≠ gmkChanP2p
  cap_eq : (s.ch c).ringCap = (s.ch c).ring.cap
  ring : (s.ch c).ring.Holds q
  queued : s.accepted = s.drained ++ q

section Steps
variable {c : ℕ} {s : BufferRun} {q : List Task}

/-- The dead-letter ring after emits and drains. -/
theorem dead_of_keeps {k k' : Kernel} {d : ℕ} (hk : k.Keeps k')
    (h : ∃ q, (k.chan.channels d).ring.Holds q ∧ 2 ≤ (k.chan.channels d).ring.cap) :
    ∃ q, (k'.chan.channels d).ring.Holds q ∧ 2 ≤ (k'.chan.channels d).ring.cap := by
  obtain ⟨q, hq, htwo⟩ := h
  obtain ⟨q', hq', hcap⟩ := (hk.entries d).moves.holds hq htwo
  exact ⟨q', hq', hcap ▸ htwo⟩

/-- The kernel changes as emits and drains change it. -/
theorem Inv.keeps (h : Inv c s q) {k : Kernel} {q' accepted drained : List Task}
    (hk : s.kernel.Keeps k) (hring : (k.chan.channels c).ring.Holds q')
    (hcap : (k.chan.channels c).ring.cap = (s.ch c).ring.cap)
    (hqueued : accepted = drained ++ q') :
    Inv c { s with kernel := k, accepted := accepted, drained := drained } q' where
  returns := h.returns
  id := hk.nChannels ▸ h.id
  ne_dead := h.ne_dead
  dead := dead_of_keeps hk h.dead
  isOpen := (hk.entries c).isOpen.trans h.isOpen
  fanout := (hk.entries c).mode ▸ h.fanout
  cap_eq := (hk.entries c).ringCap.trans (h.cap_eq.trans hcap.symm)
  ring := hring
  queued := hqueued

theorem Inv.not_hung (h : Inv c s q) : ¬ s.hung = true := by simp [h.returns]

theorem Inv.drain (h : Inv c s q) (limit : ℕ) : ∃ q', Inv c (s.step c (.drain limit)) q' := by
  obtain ⟨n, k, hk, hkeeps, hholds, hcap, -⟩ := gmkChanDrainLog_spec h.id h.ne_dead h.ring limit
  refine ⟨q.drop n, ?_⟩
  rw [BufferRun.step, if_neg h.not_hung]
  simp only [hk]
  apply h.keeps hkeeps hholds hcap
  rw [h.queued, List.append_assoc, List.take_append_drop]

/-- A ring of one cell takes a message that is not critical only when it is empty. -/
theorem Inv.threshold_le (h : Inv c s q) (hone : (s.ch c).ring.cap = 1) (hne : q ≠ []) :
    reserveThreshold (s.ch c) ≤ gmkRingMpmcCount (s.ch c).ring := by
  have hpos := List.length_pos_iff.mpr hne
  rw [h.ring.count_eq, reserveThreshold, h.cap_eq, hone]
  exact hpos

/-- A fan-out channel has no fast path. -/
theorem Inv.emit_eq (h : Inv c s q) (t : Task) :
    gmkChanEmit s.kernel c t =
      if reserveThreshold (s.ch c) ≤ gmkRingMpmcCount (s.ch c).ring ∧ t.prio ≠ gmkPrioCritical then
        some (emitFull s.kernel c (markEmit c t))
      else emitBuffer s.kernel c (markEmit c t) := by
  have hslow : fastSub (s.ch c) = none := if_neg fun hf => h.fanout hf.1
  have hopen : ¬ (s.ch c).isOpen = false := by simp [h.isOpen]
  simp only [gmkChanEmit, if_neg (not_le.mpr h.id), if_neg hopen, hslow, markEmit_prio]

/-- A full ring has room for no message that is admitted, unless it is a single cell. -/
theorem Inv.two_le (h : Inv c s q) {t : Task} (hg : s.Roomy c (.emit t))
    (hadmitted : ¬ (reserveThreshold (s.ch c) ≤ gmkRingMpmcCount (s.ch c).ring ∧
      t.prio ≠ gmkPrioCritical)) (hlen : q.length = (s.ch c).ring.cap) :
    2 ≤ (s.ch c).ring.cap := by
  have hpos := h.ring.cap_pos
  by_contra hlt
  have hone : (s.ch c).ring.cap = 1 := by omega
  have hne : q ≠ [] := List.length_pos_iff.mp (by omega)
  have hprio : t.prio = gmkPrioCritical := by
    by_contra hprio
    exact hadmitted ⟨h.threshold_le hone hne, hprio⟩
  have hzero := hg hone hprio
  rw [h.ring.count_eq] at hzero
  omega

theorem Inv.emit (h : Inv c s q) {t : Task} (hg : s.Roomy c (.emit t)) :
    ∃ q', Inv c (s.step c (.emit t)) q' := by
  have hunbound : ¬ ((s.ch c).mode = gmkChanP2p ∧ 0 < (s.ch c).nSubs) := fun hb => h.fanout hb.1
  have hfull : Inv c { s with
      kernel := (emitFull s.kernel c (markEmit c t)).2.2
      accepted := if gmkChanFull = gmkOk then s.accepted ++ [markEmit c t] else s.accepted } q := by
    rw [if_neg gmkChanFull_ne_ok]
    exact h.keeps (.of_chan rfl) h.ring rfl h.queued
  rw [BufferRun.step, if_neg h.not_hung]
  simp only [h.emit_eq]
  split_ifs with hadmitted
  · exact ⟨q, hfull⟩
  · simp only [emitBuffer]
    rcases h.ring.room.lt_or_eq with hlt | hlen
    · obtain ⟨r, hpush, hr, hcap⟩ := h.ring.push_ok (markEmit c t) hlt
      simp only [hpush, if_neg hunbound, if_true]
      refine ⟨q ++ [markEmit c t], h.keeps ?_ ?_ ?_ ?_⟩
      · exact (Kernel.Keeps.push h.isOpen hpush).trans (.emitDone _ c _)
      · simpa using hr
      · simpa using hcap
      · rw [h.queued, List.append_assoc]
    · simp only [h.ring.push_full _ hlen (h.two_le hg hadmitted hlen)]
      exact ⟨q, hfull⟩

theorem Inv.sub (h : Inv c s q) (m : UInt32) (w : ℤ) : Inv c (s.step c (.sub m w)) q := by
  rw [BufferRun.step, if_neg h.not_hung]
  show Inv c { s with kernel := (gmkChanSub s.kernel c m w).2 } q
  rcases ChanWorld.gmkChanSub_cases s.kernel c m w with hsame | ⟨-, -, -, -, hset⟩
  · rw [hsame]
    exact h
  · rw [hset]
    have hdead : gmkChanSysDropped ≠ c := h.ne_dead.symm
    constructor
    · exact h.returns
    · exact h.id
    · exact h.ne_dead
    · simp only [ch, Kernel.setChan_of_ne _ _ _ hdead]
      exact h.dead
    · simp only [ch, Kernel.setChan_self]
      exact h.isOpen
    · simp only [ch, Kernel.setChan_self]
      exact h.fanout
    · simp only [ch, Kernel.setChan_self]
      exact h.cap_eq
    · simp only [ch, Kernel.setChan_self]
      exact h.ring
    · exact h.queued

theorem Inv.step (h : Inv c s q) {op : BufferOp} (hg : s.Roomy c op) :
    ∃ q', Inv c (s.step c op) q' := by
  cases op with
  | sub m w => exact ⟨q, h.sub m w⟩
  | emit t => exact h.emit hg
  | drain limit => exact h.drain limit

theorem Inv.works (h : Inv c s q) : s.Works c where
  returns := h.returns
  deadReturns := by
    intro t hspin
    obtain ⟨q', hq', htwo⟩ := h.dead
    rcases hq'.room.lt_or_eq with hlt | hfull
    · obtain ⟨r, hr, -⟩ := hq'.push_ok t hlt
      simp [hr] at hspin
    · simp [hq'.push_full t hfull htwo] at hspin
  intact := by rw [h.ring.items_eq, h.queued]
  delivered := by
    intro hpos
    obtain ⟨n, k, hk, -, -, -, hn⟩ := gmkChanDrainLog_spec h.id h.ne_dead h.ring 0
    have hlen := h.ring.length_le
    rw [BufferRun.step, if_neg h.not_hung]
    simp only [hk]
    rw [h.queued, hn hpos rfl, List.take_of_length_le (by omega)]

end Steps

/-- A fan-out channel that has just been opened. -/
theorem start_inv {s s' : ChanWorld} (hs : s.Inv) {name : List UInt8} {guarantee slots c : ℕ}
    {granted : Bool} (hslots : slots < 2 ^ 32)
    (hopen : s.gmkChanOpen name gmkChanFanout guarantee slots granted = ((c : ℤ), s')) :
    Inv c (start s'.kernel) [] := by
  obtain ⟨hc, hpow, hn, hentries⟩ := ChanWorld.gmkChanOpen_ok hopen
  obtain ⟨j, hj, hcap⟩ := Lifecycle.pow_of_isPowerOfTwo (Lifecycle.roundSlots_lt hslots) hpow
  have htwo := hs.two_le
  have hself : s'.kernel.chan.channels c = s.newEntry gmkChanFanout guarantee slots
      (gmkRingMpmcInit (Lifecycle.roundSlots slots)) := by
    rw [hentries, hc, Kernel.setChan_self]
  have hdead : gmkChanSysDropped ≠ s.nChannels := by
    simp only [gmkChanSysDropped]
    omega
  constructor
  · rfl
  · simp only [start, hn, hc]
    exact Nat.lt_succ_self _
  · rw [hc]
    exact hdead.symm
  · simp only [ch, start, hentries, Kernel.setChan_of_ne _ _ _ hdead]
    obtain ⟨q, hq, hqcap⟩ := hs.dropped.2.holds (init_holds (k := 10) (by norm_num)) (by decide)
    exact ⟨q, hq, by rw [hqcap]; decide⟩
  · simp only [ch, start, hself, ChanWorld.newEntry]
  · simp only [ch, start, hself, ChanWorld.newEntry]
    decide
  · simp only [ch, start, hself, ChanWorld.newEntry]
    rfl
  · simp only [ch, start, hself, ChanWorld.newEntry, hcap]
    exact init_holds hj
  · rfl

/-- For every number of slots that an open accepts, the buffer of a fan-out channel works in every
run that emits no critical message into a single cell that is taken. -/
theorem works_of_roomy (k : Kernel) (l : List ChanOp) {s : ChanWorld}
    (hs : l.foldl ChanWorld.step (ChanWorld.start k) = s) {name : Lifecycle.CName}
    {guarantee c : ℕ} {slots : UInt32} {granted : Bool} {s' : ChanWorld}
    (hopen : s.gmkChanOpen name gmkChanFanout guarantee slots.toNat granted = ((c : ℤ), s'))
    {b : BufferRun} (hrun : Reach (fun b op b' => b' = b.step c op) (Roomy c) (start s'.kernel) b) :
    b.Works c := by
  have hinv : ∃ q, Inv c b q := by
    have hstart : Inv c (start s'.kernel) [] := by
      apply start_inv _ slots.toNat_lt hopen
      rw [← hs]
      exact ((ChanWorld.start_inv k).run l).1
    refine Reach.inv (I := fun b => ∃ q, Inv c b q) ⟨[], hstart⟩ ?_ hrun
    rintro b op _ ⟨q, hq⟩ hg rfl
    exact hq.step hg
  obtain ⟨q, hq⟩ := hinv
  exact hq.works

/-- The registry of a one-worker kernel, and a lossy fan-out channel of `slots` slots in it. -/
def tinyWorld : ChanWorld := ChanWorld.start tinyKernel

def fanWorld (slots : UInt32) : ChanWorld :=
  (tinyWorld.gmkChanOpen (Lifecycle.NameRun.letters 1) gmkChanFanout gmkChanLossy slots.toNat
    true).2

/-- One subscriber, two critical messages and a drain. -/
def twoCritical : List BufferOp :=
  [.sub 0 (-1), .emit { type := 1 }, .emit { type := 2 }, .drain 0]

theorem works_of_roomy_three :
    ((twoCritical.foldl (step 2) (start (fanWorld 3).kernel)).accepted.map Task.type = [1, 2]) ∧
      (twoCritical.foldl (step 2) (start (fanWorld 3).kernel)).Works 2 := by
  have hid : (tinyWorld.gmkChanOpen (Lifecycle.NameRun.letters 1) gmkChanFanout gmkChanLossy
      (3 : UInt32).toNat true).1 = ((2 : ℕ) : ℤ) := by decide +kernel
  have hobeys : Obeys (step 2) (Roomy 2) (start (fanWorld 3).kernel) twoCritical := by
    simp only [Obeys, twoCritical, Roomy]
    decide +kernel
  exact ⟨by decide +kernel, works_of_roomy tinyKernel [] rfl (Prod.ext hid rfl)
    (Reach.foldl hobeys .start)⟩

/-- With one slot the second critical message replaces the first and the drain never returns. -/
theorem single_slot_hangs : ∃ (k : Kernel) (l : List ChanOp) (name : Lifecycle.CName)
    (guarantee c : ℕ) (slots : UInt32) (granted : Bool) (s' : ChanWorld) (b : BufferRun),
    (l.foldl ChanWorld.step (ChanWorld.start k)).gmkChanOpen name gmkChanFanout guarantee
      slots.toNat granted = ((c : ℤ), s') ∧
    Reach (fun b op b' => b' = b.step c op) (fun _ _ => True) (start s'.kernel) b ∧
    ¬ b.Works c := by
  have hid : (tinyWorld.gmkChanOpen (Lifecycle.NameRun.letters 1) gmkChanFanout gmkChanLossy
      (1 : UInt32).toNat true).1 = ((2 : ℕ) : ℤ) := by decide +kernel
  have hobeys : Obeys (step 2) (fun _ _ => True) (start (fanWorld 1).kernel) twoCritical := by
    simp [Obeys, twoCritical]
  refine ⟨tinyKernel, [], Lifecycle.NameRun.letters 1, gmkChanLossy, 2, 1, true, fanWorld 1, _,
    Prod.ext hid rfl, Reach.foldl hobeys .start, ?_⟩
  intro h
  exact absurd h.returns (by decide +kernel)

end BufferRun
end Ggmk

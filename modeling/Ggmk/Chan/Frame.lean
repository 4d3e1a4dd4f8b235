import Ggmk.Chan.Route
import Ggmk.Ring.MpmcMoves

/-! What emits and drains leave alone: the ring of a channel that they do not reach, and the
mode, subscribers and open flag of every entry. -/
namespace Ggmk

/-! ## A ring that an operation does not reach -/

namespace Kernel

section
variable (k : Kernel) (i c : ℕ) (r : RingMpmc Task)

theorem setChan_setRing {c : ℕ} (h : c ≠ i) (ch : ChanEntry) :
    (k.setRing i r).setChan c ch = (k.setChan c ch).setRing i r := by
  unfold setRing
  rw [k.setChan_of_ne c ch h.symm]
  simp only [setChan, Function.update_comm h]

theorem traceWrite_setRing (n : UInt16) (e : ℕ) (y : UInt16) (a b : UInt32) :
    (k.setRing i r).traceWrite n e y a b = (k.traceWrite n e y a b).setRing i r := rfl

theorem metricInc_setRing (n : UInt16) (e : ℕ) :
    (k.setRing i r).metricInc n e = (k.metricInc n e).setRing i r := rfl

theorem withSched_setRing (s : Sched) :
    { k.setRing i r with sched := s } = setRing { k with sched := s } i r := rfl

end
end Kernel

open Kernel

/-- Another ring for the entry of channel `i`, in the result of an operation. -/
def drainRing (i : ℕ) (r : RingMpmc Task) (p : ℕ × Kernel) : ℕ × Kernel := (p.1, p.2.setRing i r)

def emitRing (i : ℕ) (r : RingMpmc Task) (p : ℤ × Task × Kernel) : ℤ × Task × Kernel :=
  (p.1, p.2.1, p.2.2.setRing i r)

section Untouched
variable {i c : ℕ} (hdead : gmkChanSysDropped ≠ i) (hc : c ≠ i)
include hc

theorem countDrop_setRing (k : Kernel) (r : RingMpmc Task) :
    countDrop (k.setRing i r) c = (countDrop k c).setRing i r := by
  simp only [countDrop, setRing_of_ne k i r hc, setChan_setRing k i r hc]

theorem countEmit_setRing (k : Kernel) (r : RingMpmc Task) :
    countEmit (k.setRing i r) c = (countEmit k c).setRing i r := by
  simp only [countEmit, setRing_of_ne k i r hc, setChan_setRing k i r hc]

theorem emitDone_setRing (k : Kernel) (r : RingMpmc Task) (t : Task) :
    emitDone (k.setRing i r) c t = (emitDone k c t).setRing i r := by
  simp only [emitDone, countEmit_setRing hc, metricInc_setRing]

omit hc in
include hdead in
theorem routeToDeadLetter_setRing (k : Kernel) (r : RingMpmc Task) (t : Task) :
    routeToDeadLetter (k.setRing i r) t = (routeToDeadLetter k t).setRing i r := by
  simp only [routeToDeadLetter, setRing_of_ne k i r hdead]
  split
  · split
    · rw [setChan_setRing k i r hdead]
    · rfl
  · rfl

include hdead

theorem copyFailed_setRing (k : Kernel) (r : RingMpmc Task) (t u : Task) (j : ℕ) :
    copyFailed (k.setRing i r) c t u j = (copyFailed k c t u j).setRing i r := by
  simp only [copyFailed, setRing_of_ne k i r hc, countDrop_setRing hc, traceWrite_setRing,
    metricInc_setRing, routeToDeadLetter_setRing hdead]
  split
  · split <;> rfl
  · split <;> rfl

theorem deliverCopy_setRing (k : Kernel) (r : RingMpmc Task) (t : Task) (j : ℕ) (sub : ChanSub) :
    deliverCopy (k.setRing i r) c t j sub = (deliverCopy k c t j sub).setRing i r := by
  simp only [deliverCopy, setRing_sched, withSched_setRing, copyFailed_setRing hdead hc]
  split
  · split <;> rfl
  · rfl

theorem deliverCopies_setRing (k : Kernel) (r : RingMpmc Task) (t : Task) (j : ℕ)
    (subs : List ChanSub) :
    deliverCopies c t j subs (k.setRing i r) = (deliverCopies c t j subs k).setRing i r := by
  induction subs generalizing k j with
  | nil => rfl
  | cons sub subs ih => simp only [deliverCopies, deliverCopy_setRing hdead hc, ih]

theorem drainTask_setRing (k : Kernel) (r : RingMpmc Task) (subs : List ChanSub) (t : Task) :
    drainTask (k.setRing i r) c subs t = (drainTask k c subs t).setRing i r := by
  unfold drainTask
  rw [setRing_of_ne k i r hc]
  split
  · cases subs with
    | nil => rfl
    | cons sub subs =>
      simp only [routeP2p, setRing_sched, withSched_setRing, routeToDeadLetter_setRing hdead,
        countDrop_setRing hc]
      split
      · split <;> rfl
      · rfl
  · unfold fanOut
    simp only
    split
    · exact deliverCopies_setRing hdead hc
        { k with heap := retainTimes k.heap t.payloadPtr.toNat (nActive subs - 1) } r t 0 subs
    · exact deliverCopies_setRing hdead hc k r t 0 subs

theorem drainLoop_setRing (k : Kernel) (r : RingMpmc Task) (subs : List ChanSub) (n : ℕ) :
    drainLoop c subs n (k.setRing i r) = (drainLoop c subs n k).map (drainRing i r) := by
  induction n generalizing k with
  | zero => rfl
  | succ n ih =>
    simp only [drainLoop, setRing_of_ne k i r hc]
    split
    · rfl
    · rfl
    · simp only [setChan_setRing k i r hc, drainTask_setRing hdead hc, ih, Option.map_map]
      rfl

theorem gmkChanDrain_setRing (k : Kernel) (r : RingMpmc Task) (limit : ℕ) :
    gmkChanDrain (k.setRing i r) c limit = (gmkChanDrain k c limit).map (drainRing i r) := by
  simp only [gmkChanDrain, setRing_nChannels, setRing_of_ne k i r hc,
    drainLoop_setRing hdead hc, Option.map_map]
  split
  · rfl
  · split
    · rfl
    · rw [Option.map_map]
      congr 1
      funext p
      obtain ⟨n, k'⟩ := p
      cases n <;> rfl

theorem emitBuffer_setRing (k : Kernel) (r : RingMpmc Task) (t : Task) :
    emitBuffer (k.setRing i r) c t = (emitBuffer k c t).map (emitRing i r) := by
  simp only [emitBuffer, setRing_of_ne k i r hc]
  split
  · rfl
  · rfl
  · simp only [setChan_setRing k i r hc, emitDone_setRing hc, gmkChanDrain_setRing hdead hc]
    split
    · rw [Option.map_map, Option.map_map]
      rfl
    · rfl

theorem gmkChanEmit_setRing (k : Kernel) (r : RingMpmc Task) (t : Task) :
    gmkChanEmit (k.setRing i r) c t = (gmkChanEmit k c t).map (emitRing i r) := by
  simp only [gmkChanEmit, setRing_nChannels, setRing_of_ne k i r hc, setRing_sched,
    withSched_setRing, emitBuffer_setRing hdead hc, emitDone_setRing hc]
  split
  · rfl
  · split
    · rfl
    · split
      · rfl
      · split
        · split <;> rfl
        · rfl

end Untouched

/-! ## What emits and drains leave of an entry -/

/-- The entry has its mode, guarantee, capacity, subscribers and open flag, its ring has been used
as a ring, and if it is closed no message has come in. -/
structure ChanEntry.Keeps (a b : ChanEntry) : Prop where
  mode : b.mode = a.mode
  guarantee : b.guarantee = a.guarantee
  ringCap : b.ringCap = a.ringCap
  subs : b.subs = a.subs
  nSubs : b.nSubs = a.nSubs
  isOpen : b.isOpen = a.isOpen
  moves : a.ring.Moves b.ring
  ring : a.isOpen = false → a.ring.PopsTo b.ring

theorem ChanEntry.Keeps.refl (a : ChanEntry) : a.Keeps a :=
  ⟨rfl, rfl, rfl, rfl, rfl, rfl, .refl, fun _ => .refl⟩

theorem ChanEntry.Keeps.trans {a b c : ChanEntry} (h : a.Keeps b) (h' : b.Keeps c) : a.Keeps c where
  mode := h'.mode.trans h.mode
  guarantee := h'.guarantee.trans h.guarantee
  ringCap := h'.ringCap.trans h.ringCap
  subs := h'.subs.trans h.subs
  nSubs := h'.nSubs.trans h.nSubs
  isOpen := h'.isOpen.trans h.isOpen
  moves := h.moves.trans h'.moves
  ring hclosed := (h.ring hclosed).trans (h'.ring (h.isOpen.trans hclosed))

/-- No channel comes or goes and every entry is kept. -/
structure Kernel.Keeps (k k' : Kernel) : Prop where
  nChannels : k'.chan.nChannels = k.chan.nChannels
  entries : ∀ d, (k.chan.channels d).Keeps (k'.chan.channels d)

namespace Kernel.Keeps
variable {k k' k'' : Kernel} {c : ℕ} {r : RingMpmc Task}

theorem of_chan (h : k'.chan = k.chan) : k.Keeps k' :=
  ⟨by rw [h], fun d => by rw [h]; exact .refl _⟩

theorem trans (h : k.Keeps k') (h' : k'.Keeps k'') : k.Keeps k'' :=
  ⟨h'.nChannels.trans h.nChannels, fun d => (h.entries d).trans (h'.entries d)⟩

/-- The entries do not see what else has changed before. -/
theorem of_eq (h : k'.Keeps k'') (hchan : k'.chan = k.chan) : k.Keeps k'' :=
  (of_chan hchan).trans h

theorem setRing (hmoves : (k.chan.channels c).ring.Moves r)
    (h : (k.chan.channels c).isOpen = false → (k.chan.channels c).ring.PopsTo r) :
    k.Keeps (k.setRing c r) := by
  refine ⟨rfl, fun d => ?_⟩
  by_cases hd : d = c
  · subst hd
    rw [setRing_self]
    exact ⟨rfl, rfl, rfl, rfl, rfl, rfl, hmoves, h⟩
  · rw [setRing_of_ne k c r hd]
    exact .refl _

theorem push {t : Task} (hopen : (k.chan.channels c).isOpen = true)
    (h : gmkRingMpmcPush (k.chan.channels c).ring t = .ok r) : k.Keeps (k.setRing c r) :=
  setRing (.single (.inl ⟨t, h⟩)) fun hclosed => absurd hopen (by simp [hclosed])

theorem pop {t : Task} (h : gmkRingMpmcPop (k.chan.channels c).ring = .ok t r) :
    k.Keeps (k.setRing c r) :=
  setRing (.single (.inr ⟨t, h⟩)) fun _ => .single ⟨t, h⟩

theorem countDrop (k : Kernel) (c : ℕ) : k.Keeps (countDrop k c) :=
  ⟨rfl, fun d => by
    rw [countDrop_channels]
    exact ⟨rfl, rfl, rfl, rfl, rfl, rfl, .refl, fun _ => .refl⟩⟩

theorem emitDone (k : Kernel) (c : ℕ) (t : Task) : k.Keeps (emitDone k c t) :=
  ⟨rfl, fun d => by
    rw [emitDone_channels, countEmit_channels]
    exact ⟨rfl, rfl, rfl, rfl, rfl, rfl, .refl, fun _ => .refl⟩⟩

theorem deadLetter (k : Kernel) (t : Task) : k.Keeps (routeToDeadLetter k t) := by
  simp only [routeToDeadLetter]
  split
  next hopen =>
    split
    next r hr => exact push hopen hr
    next => exact of_chan rfl
  next => exact of_chan rfl

theorem copyFailed (k : Kernel) (c : ℕ) (t u : Task) (j : ℕ) : k.Keeps (copyFailed k c t u j) := by
  simp only [Ggmk.copyFailed]
  have hfirst : k.Keeps (if (k.chan.channels c).guarantee = gmkChanLossy then
      ((Ggmk.countDrop k c).traceWrite t.tenant gmkEvChanDrop t.type.toUInt16
        (UInt32.ofNat c) (UInt32.ofNat j)).metricInc t.tenant gmkMetricChanDrops
      else routeToDeadLetter k u) := by
    split
    · exact (countDrop k c).trans (of_chan rfl)
    · exact deadLetter k u
  split
  · exact hfirst.trans (of_chan rfl)
  · exact hfirst

theorem deliverCopy (k : Kernel) (c : ℕ) (t : Task) (j : ℕ) (sub : ChanSub) :
    k.Keeps (deliverCopy k c t j sub) := by
  simp only [Ggmk.deliverCopy]
  split
  · split
    · exact of_chan rfl
    · exact (copyFailed _ c t _ j).of_eq rfl
  · exact of_chan rfl

theorem deliverCopies (k : Kernel) (c : ℕ) (t : Task) (j : ℕ) (subs : List ChanSub) :
    k.Keeps (deliverCopies c t j subs k) := by
  induction subs generalizing k j with
  | nil => exact of_chan rfl
  | cons sub subs ih => exact (deliverCopy k c t j sub).trans (ih _ _)

theorem drainTask (k : Kernel) (c : ℕ) (subs : List ChanSub) (t : Task) :
    k.Keeps (drainTask k c subs t) := by
  simp only [Ggmk.drainTask]
  split
  · cases subs with
    | nil => exact of_chan rfl
    | cons sub subs =>
      simp only [routeP2p]
      split
      · split
        · exact of_chan rfl
        · exact ((deadLetter _ _).trans (countDrop _ c)).of_eq rfl
      · exact of_chan rfl
  · simp only [fanOut]
    split
    · exact (deliverCopies _ c t 0 subs).of_eq rfl
    · exact deliverCopies k c t 0 subs

theorem drain {n limit : ℕ} (h : gmkChanDrain k c limit = some (n, k')) : k.Keeps k' := by
  refine gmkChanDrain_induct (P := fun k₁ => k.Keeps k₁) (of_chan rfl) ?_ ?_ h
  · exact fun k₁ _ _ hk₁ => hk₁.trans (of_chan rfl)
  · intro k₁ t r hk₁ hpop
    exact (hk₁.trans (pop hpop)).trans (drainTask _ c _ t)

theorem buffered {t : Task} {s : Sched} (hopen : (k.chan.channels c).isOpen = true)
    (h : gmkRingMpmcPush (k.chan.channels c).ring t = .ok r) : k.Keeps (buffered k c t s r) :=
  ((push (k := { k with sched := s }) hopen h).trans (emitDone _ c t)).of_eq rfl

theorem emit {rc : ℤ} {t t' : Task} (h : gmkChanEmit k c t = some (rc, t', k')) : k.Keeps k' := by
  cases gmkChanEmit_cases h with
  | rejected rc t' k' hrc ht hheap hchan hsched => exact of_chan hchan
  | direct sub s ha hfast henq => exact (emitDone _ c _).of_eq rfl
  | buffered t' s r ha hnd hpush hfree => exact buffered ha.isOpen hpush
  | drained t' s r n k' ha hnd hpush hbound hdrain =>
    exact (buffered ha.isOpen hpush).trans (drain hdrain)

end Kernel.Keeps

/-! ## Routing a message pushes to the dead-letter ring only -/

section Routing
variable {d : ℕ} (hd : d ≠ gmkChanSysDropped)
include hd

theorem copyFailed_ring (k : Kernel) (c : ℕ) (t u : Task) (j : ℕ) :
    ((copyFailed k c t u j).chan.channels d).ring = (k.chan.channels d).ring := by
  have hlossless : ((routeToDeadLetter k u).chan.channels d).ring = (k.chan.channels d).ring := by
    rw [routeToDeadLetter_of_ne k d u hd]
  have hlossy : ((countDrop k c).chan.channels d).ring = (k.chan.channels d).ring := by
    rw [countDrop_channels]
  simp only [copyFailed]
  split
  · split
    · exact hlossy
    · exact hlossless
  · split
    · exact hlossy
    · exact hlossless

theorem deliverCopies_ring (k : Kernel) (c : ℕ) (t : Task) (j : ℕ) (subs : List ChanSub) :
    ((deliverCopies c t j subs k).chan.channels d).ring = (k.chan.channels d).ring := by
  induction subs generalizing k j with
  | nil => rfl
  | cons sub subs ih =>
    rw [deliverCopies, ih]
    simp only [deliverCopy]
    split
    · split
      · rfl
      · exact copyFailed_ring hd _ c t _ j
    · rfl

theorem drainTask_ring (k : Kernel) (c : ℕ) (subs : List ChanSub) (t : Task) :
    ((drainTask k c subs t).chan.channels d).ring = (k.chan.channels d).ring := by
  simp only [drainTask]
  split
  · cases subs with
    | nil => rfl
    | cons sub subs =>
      simp only [routeP2p]
      split
      · split
        · rfl
        · simp only [countDrop_channels]
          rw [routeToDeadLetter_of_ne _ d _ hd]
      · rfl
  · simp only [fanOut]
    split
    · exact deliverCopies_ring hd _ c t 0 subs
    · exact deliverCopies_ring hd k c t 0 subs

end Routing
end Ggmk

import Ggmk.Chan.Route
import Ggmk.Ring.MpmcExact

/-! The fill level that `gmk_chan_emit` tests, loaded while other threads push and pop.
`gmk_ring_mpmc_count` loads the tail and then the head, and subtracts them on 32 bits. -/
namespace Ggmk
open Word Guarded

/-- What the counting thread does next. With the tail it keeps, as history, the number of push
claims and the fill of the ring at that load; a count that has returned keeps the fill of the ring
at both loads. -/
inductive CountPc where
  | idle
  | tailLoaded (tail pushes fill : ℕ)
  | returned (count fillTail fillHead : ℕ)
  deriving DecidableEq

structure CountRace (α : Type*) extends MpmcThreads α where
  counter : CountPc

inductive CountAct (α : Type*) where
  | ring (act : MpmcAct α)
  | loadTail
  | loadHead

namespace CountRace
variable {α : Type*} {s : CountRace α}

def start [Inhabited α] (k : ℕ) : CountRace α := { MpmcThreads.start k with counter := .idle }

/-- A step of the threads that push and pop, or one of the two loads of a count. -/
def step (s : CountRace α) : CountAct α → CountRace α
  | .ring act => { s.toMpmcThreads.step act with counter := s.counter }
  | .loadTail =>
      match s.counter with
      | .tailLoaded .. => s
      | _ => { s with
          counter := .tailLoaded s.ring.tail s.pushed.length (gmkRingMpmcCount s.ring) }
  | .loadHead =>
      match s.counter with
      | .tailLoaded tail _ fill => { s with
          counter := .returned (sub32 tail s.ring.head) fill (gmkRingMpmcCount s.ring) }
      | _ => s

/-- The pushes and pops are in time for their compare-and-swap. -/
def RingInTime (s : CountRace α) : CountAct α → Prop
  | .ring act => s.toMpmcThreads.Timely act
  | _ => True

/-- Besides, the head has not passed the tail that has been loaded. -/
def InTime (s : CountRace α) : CountAct α → Prop
  | .ring act => s.toMpmcThreads.Timely act
  | .loadTail => True
  | .loadHead =>
      match s.counter with
      | .tailLoaded _ pushes _ => s.popClaims ≤ pushes
      | _ => True

end CountRace

namespace MpmcThreads
variable {α : Type*} {s : MpmcThreads α}

/-- Claims are never taken back. -/
theorem step_mono (s : MpmcThreads α) (act : MpmcAct α) :
    s.popClaims ≤ (s.step act).popClaims ∧ s.pushed.length ≤ (s.step act).pushed.length ∧
      (s.step act).ring.cap = s.ring.cap := by
  cases act with
  | push t x =>
    simp only [step]
    split <;> exact ⟨le_rfl, le_rfl, rfl⟩
  | pop t =>
    simp only [step]
    split <;> exact ⟨le_rfl, le_rfl, rfl⟩
  | run t =>
    simp only [step, run]
    split <;> (try split) <;> (try split) <;> simp [setPc]
  | casFail t =>
    simp only [step, casFail]
    split <;> exact ⟨le_rfl, le_rfl, rfl⟩

/-- The words of the ring count the push claims that no pop claim has followed. -/
theorem Inv.count_eq (h : s.Inv) :
    gmkRingMpmcCount s.ring = s.pushed.length - s.popClaims ∧ s.popClaims ≤ s.pushed.length ∧
      gmkRingMpmcCount s.ring ≤ s.ring.cap := by
  have hle : s.popClaims ≤ s.pushed.length := h.tickets.le
  have hroom : s.pushed.length ≤ s.popClaims + s.ring.cap := h.tickets.room
  have hcap := h.represents.cap_le
  have hcount : gmkRingMpmcCount s.ring = s.pushed.length - s.popClaims := by
    rw [gmkRingMpmcCount, h.represents.tail_eq, h.represents.head_eq]
    unfold sub32 u32
    omega
  exact ⟨hcount, hle, by omega⟩

end MpmcThreads

namespace CountRace
variable {α : Type*} {s : CountRace α}

/-- What the counting thread relies on. -/
def Counting (s : CountRace α) : CountPc → Prop
  | .idle => True
  | .tailLoaded tail pushes fill =>
      tail = u32 pushes ∧ pushes ≤ s.pushed.length ∧ fill ≤ s.ring.cap ∧
        ∃ pops ≤ s.popClaims, pushes = pops + fill
  | .returned count fillTail fillHead =>
      count ≤ s.ring.cap ∧ count ≤ fillTail ∧ count ≤ fillHead

structure Inv (s : CountRace α) : Prop where
  ring : s.toMpmcThreads.Inv
  counting : s.Counting s.counter

theorem Counting.mono {s' : CountRace α} {pc : CountPc} (h : s.Counting pc)
    (hpops : s.popClaims ≤ s'.popClaims) (hpushes : s.pushed.length ≤ s'.pushed.length)
    (hcap : s'.ring.cap = s.ring.cap) : s'.Counting pc := by
  cases pc with
  | idle => trivial
  | tailLoaded tail pushes fill =>
    obtain ⟨htail, hle, hfill, pops, hpop, hsum⟩ := h
    exact ⟨htail, hle.trans hpushes, hcap ▸ hfill, pops, hpop.trans hpops, hsum⟩
  | returned count fillTail fillHead =>
    obtain ⟨hle, htail, hhead⟩ := h
    exact ⟨hcap ▸ hle, htail, hhead⟩

theorem Inv.loadTail (h : s.Inv) : (s.step .loadTail).Inv := by
  obtain ⟨hcount, hle, hfill⟩ := h.ring.count_eq
  simp only [CountRace.step]
  split
  · exact h
  · exact ⟨h.ring, h.ring.represents.tail_eq, le_rfl, hfill, s.popClaims, le_rfl, by omega⟩

/-- The difference of the two loads, when the head has not passed the tail, is at most the fill
of the ring at either of them. -/
theorem Inv.loadHead (h : s.Inv) (hg : s.InTime .loadHead) : (s.step .loadHead).Inv := by
  have hc := h.counting
  obtain ⟨hnow, -, hfillnow⟩ := h.ring.count_eq
  have hcap := h.ring.represents.cap_le
  simp only [InTime] at hg
  simp only [CountRace.step]
  split
  next tail pushes fill heq =>
    rw [heq] at hc hg
    obtain ⟨rfl, hle, hfill, pops, hpop, hsum⟩ := hc
    have hvalue : sub32 (u32 pushes) s.ring.head = pushes - s.popClaims := by
      rw [h.ring.represents.head_eq]
      unfold sub32 u32
      simp only at hg
      omega
    refine ⟨h.ring, ?_, ?_, ?_⟩
    · show sub32 (u32 pushes) s.ring.head ≤ s.ring.cap
      omega
    · rw [hvalue]
      omega
    · rw [hvalue]
      omega
  next => exact h

theorem Inv.step (h : s.Inv) {act : CountAct α} (hg : s.InTime act) : (s.step act).Inv := by
  cases act with
  | ring act =>
    obtain ⟨hpops, hpushes, hcap⟩ := s.toMpmcThreads.step_mono act
    exact ⟨h.ring.step hg, h.counting.mono hpops hpushes hcap⟩
  | loadTail => exact h.loadTail
  | loadHead => exact h.loadHead hg

theorem Inv.of_run [Inhabited α] {k : ℕ} (hk : 1 ≤ k ∧ k ≤ 31)
    (hrun : Reach (fun s act s' => s' = s.step act) InTime (start k) s) : s.Inv := by
  have hstart : (start k : CountRace α).Inv := ⟨MpmcThreads.start_inv hk.1 hk.2, trivial⟩
  refine hrun.inv hstart ?_
  intro s act s' h hg hs
  rw [hs]
  exact h.step hg

/-- A count in whose course the head has not passed the loaded tail is at most the capacity, and
where it makes an emit report a full channel the ring was that full at both loads. -/
theorem count_le_fill [Inhabited α] {k : ℕ} (hk : 1 ≤ k ∧ k ≤ 31)
    (hrun : Reach (fun s act s' => s' = s.step act) InTime (start k) s)
    {count fillTail fillHead : ℕ} (hret : s.counter = .returned count fillTail fillHead) :
    count ≤ s.ring.cap ∧ ∀ ch : ChanEntry, reserveThreshold ch ≤ count →
      reserveThreshold ch ≤ fillTail ∧ reserveThreshold ch ≤ fillHead := by
  have hc := (Inv.of_run hk hrun).counting
  rw [hret] at hc
  obtain ⟨hle, htail, hhead⟩ := hc
  exact ⟨hle, fun ch hfull => ⟨hfull.trans htail, hfull.trans hhead⟩⟩

/-- A count of one element, with a push under way. -/
def countOne : List (CountAct ℕ) :=
  (MpmcThreads.pushing 1 7).map .ring ++ [.ring (.push 1 8), .loadTail, .ring (.run 1), .loadHead]

theorem count_le_fill_one :
    ∃ s : CountRace ℕ, Reach (fun s act s' => s' = s.step act) InTime (start 1) s ∧
      s.counter = .returned 1 1 1 ∧ 1 ≤ s.ring.cap := by
  have hobeys : Obeys step InTime (start 1) countOne := by
    refine ⟨trivial, trivial, trivial, ?_, trivial, trivial, trivial, trivial, trivial, ?_, trivial⟩
    · show 0 < 0 + 2 ^ 31
      norm_num
    · show 0 ≤ 1
      norm_num
  have hrun := Reach.foldl hobeys .start
  have hret : (countOne.foldl step (start 1)).counter = .returned 1 1 1 := by decide +kernel
  exact ⟨_, hrun, hret, (count_le_fill (by decide) hrun hret).1⟩

/-- A head that has passed the loaded tail gives a count above the capacity, unless it is almost a
whole turn of the counters ahead. -/
theorem Inv.count_of_late (h : s.Inv) {tail pushes fill : ℕ}
    (hpc : s.counter = .tailLoaded tail pushes fill) (hlate : pushes < s.popClaims)
    (hturn : s.popClaims + s.ring.cap < pushes + 2 ^ 32) :
    ∃ count fillHead, (s.step .loadHead).counter = .returned count fill fillHead ∧
      s.ring.cap < count := by
  have hc := h.counting
  rw [hpc] at hc
  obtain ⟨rfl, -⟩ := hc
  refine ⟨sub32 (u32 pushes) s.ring.head, gmkRingMpmcCount s.ring, ?_, ?_⟩
  · simp only [CountRace.step, hpc]
  rw [h.ring.represents.head_eq]
  unfold sub32 u32
  omega

/-- The tail is loaded from an empty ring, then another thread pushes and pops an element. -/
def countLate : List (CountAct ℕ) :=
  .loadTail :: (MpmcThreads.pushing 1 7).map .ring ++
    (.pop 1 :: List.replicate 5 (.run 1)).map .ring ++ [.loadHead]

theorem count_exceeds_cap :
    ∃ s : CountRace ℕ, Reach (fun s act s' => s' = s.step act) RingInTime (start 1) s ∧
      s.counter = .returned (2 ^ 32 - 1) 0 0 ∧ s.ring.cap = 2 := by
  have hobeys : Obeys step RingInTime (start 1) countLate := by
    refine ⟨trivial, trivial, trivial, trivial, ?_, trivial, trivial, trivial, trivial, trivial, ?_,
      trivial, trivial, trivial, trivial⟩
    · show 0 < 0 + 2 ^ 31
      norm_num
    · show 1 < 1 + 2 ^ 31
      norm_num
  exact ⟨_, Reach.foldl hobeys .start, by decide +kernel, rfl⟩

end CountRace
end Ggmk

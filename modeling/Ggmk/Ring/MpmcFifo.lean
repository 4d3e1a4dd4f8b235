import Ggmk.Lib.Machine
import Ggmk.Ring.Mpmc

/-! One caller's sequence of operations on the Vyukov ring, against a bounded queue. -/
namespace Ggmk
open Word Machine

inductive RingCall (α : Type*) where
  | push (x : α)
  | pop
  | count

/-- What a call returns; `reload` is a loop that takes its reload branch. -/
inductive RingAnswer (α : Type*) where
  | pushed (ok : Bool)
  | popped (x : Option α)
  | counted (n : ℕ)
  | reload
  deriving DecidableEq

namespace RingMpmc
variable {α : Type*}

def call (r : RingMpmc α) : RingCall α → RingAnswer α × RingMpmc α
  | .push x =>
      match gmkRingMpmcPush r x with
      | .ok r' => (.pushed true, r')
      | .full => (.pushed false, r)
      | .spin => (.reload, r)
  | .pop =>
      match gmkRingMpmcPop r with
      | .ok x r' => (.popped (some x), r')
      | .empty => (.popped none, r)
      | .spin => (.reload, r)
  | .count => (.counted (gmkRingMpmcCount r), r)

end RingMpmc

/-- The bounded first-in first-out queue of `cap` elements that the ring stands for. -/
def fifoCall {α : Type*} (cap : ℕ) (q : List α) : RingCall α → RingAnswer α × List α
  | .push x => if q.length < cap then (.pushed true, q ++ [x]) else (.pushed false, q)
  | .pop =>
      match q with
      | [] => (.popped none, [])
      | x :: l => (.popped (some x), l)
  | .count => (.counted q.length, q)

namespace RingMpmc
variable {α : Type*}

theorem fifoCall_ne_reload (cap : ℕ) (q : List α) (c : RingCall α) :
    (fifoCall cap q c).1 ≠ .reload := by
  cases c with
  | push x =>
    simp only [fifoCall]
    split <;> simp
  | pop => cases q <;> simp [fifoCall]
  | count => simp [fifoCall]

/-- A ring of `cap` cells, two or more, that represents `q`. -/
def Stands (cap : ℕ) (r : RingMpmc α) (q : List α) : Prop :=
  r.Holds q ∧ r.cap = cap ∧ 2 ≤ cap

section Steps
variable {cap : ℕ} {r : RingMpmc α} {q : List α}

theorem Stands.push (h : Stands cap r q) (x : α) :
    (r.call (.push x)).1 = (fifoCall cap q (.push x)).1 ∧
      Stands cap (r.call (.push x)).2 (fifoCall cap q (.push x)).2 := by
  obtain ⟨hq, rfl, htwo⟩ := h
  rcases hq.room.lt_or_eq with hlt | hfull
  · obtain ⟨r', hr', hq', hcap⟩ := hq.push_ok x hlt
    simp only [call, hr', fifoCall, if_pos hlt, true_and]
    exact ⟨hq', hcap, htwo⟩
  · simp only [call, hq.push_full x hfull htwo, fifoCall, if_neg hfull.not_lt, true_and]
    exact ⟨hq, rfl, htwo⟩

theorem Stands.pop (h : Stands cap r q) :
    (r.call .pop).1 = (fifoCall cap q .pop).1 ∧
      Stands cap (r.call .pop).2 (fifoCall cap q .pop).2 := by
  obtain ⟨hq, rfl, htwo⟩ := h
  cases q with
  | nil =>
    simp only [call, hq.pop_empty, fifoCall, true_and]
    exact ⟨hq, rfl, htwo⟩
  | cons x l =>
    obtain ⟨r', hr', hq', hcap⟩ := hq.pop_ok
    simp only [call, hr', fifoCall, true_and]
    exact ⟨hq', hcap, htwo⟩

end Steps

/-- The representation is a simulation of the bounded queue by the ring. -/
theorem simulates_fifo (cap : ℕ) :
    Simulates (call (α := α)) (fifoCall cap) (Stands cap) := by
  intro r q c h
  cases c with
  | push x => exact h.push x
  | pop => exact h.pop
  | count =>
    simp only [call, fifoCall, h.1.count_eq, true_and]
    exact h

/-- From its initialisation on, for every list of calls, the ring answers as the bounded queue
does; its 32-bit positions may wrap any number of times and no loop takes its reload branch. -/
theorem answers_as_fifo [Inhabited α] {k : ℕ} (hpos : 1 ≤ k) (hk : k ≤ 31)
    (l : List (RingCall α)) :
    answers call (gmkRingMpmcInit (2 ^ k)) l = answers (fifoCall (2 ^ k)) [] l ∧
      .reload ∉ answers call (gmkRingMpmcInit (2 ^ k) : RingMpmc α) l := by
  have htwo : 2 ≤ 2 ^ k := Nat.pow_le_pow_right (n := 2) (by norm_num) hpos
  have heq := (simulates_fifo (2 ^ k)).answers_eq ⟨init_holds hk, rfl, htwo⟩ l
  rw [heq]
  exact ⟨rfl, not_mem_answers (fifoCall_ne_reload (2 ^ k)) [] l⟩

/-- Two cells, filled, overfilled and emptied. -/
theorem answers_as_fifo_two :
    answers call (gmkRingMpmcInit (2 ^ 1) : RingMpmc ℕ)
        [.push 5, .push 6, .push 7, .count, .pop, .pop, .pop] =
      [.pushed true, .pushed true, .pushed false, .counted 2, .popped (some 5), .popped (some 6),
        .popped none] :=
  (answers_as_fifo le_rfl (by norm_num) _).1.trans (by decide)

end RingMpmc
end Ggmk

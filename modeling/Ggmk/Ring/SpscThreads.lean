import Ggmk.Lifecycle.Host
import Ggmk.Ring.Spsc

/-! The single-producer ring under its two threads, in steps of one load, slot copy or store
each, in any order. -/
namespace Ggmk
open Word

/-- What the producer does next in `gmk_ring_spsc_push`, with the tail it has loaded. -/
inductive SpscPushPc (α : Type*) where
  | idle
  | loadHead (x : α) (tail : ℕ)
  | copySlot (x : α) (tail : ℕ)
  | storeTail (x : α) (tail : ℕ)

/-- What the consumer does next in `gmk_ring_spsc_pop`, with the head it has loaded. -/
inductive SpscPopPc (α : Type*) where
  | idle
  | loadTail (head : ℕ)
  | copySlot (head : ℕ)
  | storeHead (head : ℕ) (x : α)

/-- The ring and its threads, the elements of the pushes and of the pops that have returned 0,
and how many elements were resident at the second load of each call that has failed. -/
structure SpscThreads (α : Type*) where
  ring : RingSpsc α
  producer : SpscPushPc α
  consumer : SpscPopPc α
  pushed : List α
  popped : List α
  refused : List ℕ
  missed : List ℕ

inductive SpscAct (α : Type*) where
  -- the producer starts a push with the load of its own index, or goes on with it
  | push (x : α)
  | producer
  | pop
  | consumer

namespace SpscThreads
variable {α : Type*}

def resident (s : SpscThreads α) : ℕ := s.pushed.length - s.popped.length

def producerStep (s : SpscThreads α) : SpscThreads α :=
  match s.producer with
  | .idle => s
  | .loadHead x tail =>
      if s.ring.cap ≤ sub32 tail s.ring.head then
        { s with producer := .idle, refused := s.refused ++ [s.resident] }
      else { s with producer := .copySlot x tail }
  | .copySlot x tail =>
      { s with
        ring := { s.ring with buf := Function.update s.ring.buf (tail &&& s.ring.mask) x }
        producer := .storeTail x tail }
  | .storeTail x tail =>
      { s with
        ring := { s.ring with tail := u32 (tail + 1) }
        producer := .idle
        pushed := s.pushed ++ [x] }

def consumerStep (s : SpscThreads α) : SpscThreads α :=
  match s.consumer with
  | .idle => s
  | .loadTail head =>
      if head = s.ring.tail then { s with consumer := .idle, missed := s.missed ++ [s.resident] }
      else { s with consumer := .copySlot head }
  | .copySlot head => { s with consumer := .storeHead head (s.ring.buf (head &&& s.ring.mask)) }
  | .storeHead head x =>
      { s with
        ring := { s.ring with head := u32 (head + 1) }
        consumer := .idle
        popped := s.popped ++ [x] }

/-- A thread that is not in a call may start one, or either thread takes its next step. -/
def step (s : SpscThreads α) : SpscAct α → SpscThreads α
  | .push x =>
      match s.producer with
      | .idle => { s with producer := .loadHead x s.ring.tail }
      | _ => s
  | .producer => s.producerStep
  | .pop =>
      match s.consumer with
      | .idle => { s with consumer := .loadTail s.ring.head }
      | _ => s
  | .consumer => s.consumerStep

def start [Inhabited α] (cap : ℕ) : SpscThreads α where
  ring := gmkRingSpscInit cap
  producer := .idle
  consumer := .idle
  pushed := []
  popped := []
  refused := []
  missed := []

/-- The producer's copy of the tail is never stale, and the room it has found can only grow. -/
def PushFits (r : RingSpsc α) (q : List α) : SpscPushPc α → Prop
  | .idle => True
  | .loadHead _ tail => tail = r.tail
  | .copySlot _ tail => tail = r.tail ∧ q.length < r.cap
  | .storeTail x tail => tail = r.tail ∧ q.length < r.cap ∧ r.buf (tail &&& r.mask) = x

/-- The consumer's copy of the head is never stale, and the element it has found stays. -/
def PopFits (r : RingSpsc α) (q : List α) : SpscPopPc α → Prop
  | .idle => True
  | .loadTail head => head = r.head
  | .copySlot head => head = r.head ∧ q ≠ []
  | .storeHead head x => head = r.head ∧ q.head? = some x

/-- The ring of `cap` cells holds `q`, the pushed elements that have not been popped. -/
structure Inv (cap : ℕ) (s : SpscThreads α) (q : List α) : Prop where
  ring : s.ring.Holds q
  cap_eq : s.ring.cap = cap
  queued : s.pushed = s.popped ++ q
  producer : PushFits s.ring q s.producer
  consumer : PopFits s.ring q s.consumer
  refused : ∀ n ∈ s.refused, n = cap
  missed : ∀ n ∈ s.missed, n = 0

section Steps
variable {cap : ℕ} {s : SpscThreads α} {q : List α}

theorem start_inv [Inhabited α] {k : ℕ} (hk : k ≤ 31) :
    Inv (2 ^ k) (start (2 ^ k) : SpscThreads α) [] := by
  constructor
  · exact RingSpsc.init_holds hk
  all_goals simp [start, gmkRingSpscInit, PushFits, PopFits]

theorem Inv.resident_eq (h : Inv cap s q) : s.resident = q.length := by
  rw [resident, h.queued, List.length_append, Nat.add_sub_cancel_left]

/-- The copy into the slot at the tail is seen by neither index. -/
theorem Inv.copyIn (h : Inv cap s q) {x : α} (hroom : q.length < s.ring.cap) :
    Inv cap { s with
      ring := { s.ring with buf := Function.update s.ring.buf (s.ring.tail &&& s.ring.mask) x }
      producer := .storeTail x s.ring.tail } q := by
  constructor
  · exact h.ring.write_tail x hroom
  · exact h.cap_eq
  · exact h.queued
  · exact ⟨rfl, hroom, Function.update_self _ _ _⟩
  · have hc := h.consumer
    cases hpc : s.consumer <;> simp only [hpc, PopFits] at hc ⊢ <;> exact hc
  · exact h.refused
  · exact h.missed

/-- The store of the tail makes the copied element resident. -/
theorem Inv.publish (h : Inv cap s q) (hroom : q.length < s.ring.cap) {x : α}
    (hx : s.ring.buf (s.ring.tail &&& s.ring.mask) = x) :
    Inv cap { s with
      ring := { s.ring with tail := u32 (s.ring.tail + 1) }
      producer := .idle
      pushed := s.pushed ++ [x] } (q ++ [x]) := by
  subst hx
  constructor
  · exact h.ring.store_tail hroom
  · exact h.cap_eq
  · simp only [h.queued, List.append_assoc]
  · trivial
  · have hc := h.consumer
    cases hpc : s.consumer with
    | idle => trivial
    | loadTail head => simpa only [hpc, PopFits] using hc
    | copySlot head =>
      simp only [hpc, PopFits] at hc ⊢
      exact ⟨hc.1, by simp⟩
    | storeHead head y =>
      simp only [hpc, PopFits] at hc ⊢
      exact ⟨hc.1, by simp [hc.2]⟩
  · exact h.refused
  · exact h.missed

/-- The store of the head frees the slot of the oldest element. -/
theorem Inv.release {x : α} (h : Inv cap s (x :: q)) :
    Inv cap { s with
      ring := { s.ring with head := u32 (s.ring.head + 1) }
      consumer := .idle
      popped := s.popped ++ [x] } q := by
  constructor
  · exact h.ring.store_head
  · exact h.cap_eq
  · simp only [h.queued, List.append_assoc, List.singleton_append]
  · have hp := h.producer
    cases hpc : s.producer with
    | idle => trivial
    | loadHead y tail => simpa only [hpc, PushFits] using hp
    | copySlot y tail =>
      simp only [hpc, PushFits, List.length_cons] at hp ⊢
      exact ⟨hp.1, by omega⟩
    | storeTail y tail =>
      simp only [hpc, PushFits, List.length_cons] at hp ⊢
      exact ⟨hp.1, by omega, hp.2.2⟩
  · trivial
  · exact h.refused
  · exact h.missed

theorem Inv.producerStep (h : Inv cap s q) : ∃ q', Inv cap s.producerStep q' := by
  have hp := h.producer
  unfold SpscThreads.producerStep
  cases hpc : s.producer with
  | idle => exact ⟨q, h⟩
  | loadHead x tail =>
    simp only [hpc, PushFits] at hp
    subst hp
    -- the full test compares the number of resident elements with the capacity
    have hcount : sub32 s.ring.tail s.ring.head = q.length := h.ring.count_eq
    simp only [hcount]
    split
    next hfull =>
      refine ⟨q, h.ring, h.cap_eq, h.queued, trivial, h.consumer, ?_, h.missed⟩
      intro n hn
      rcases List.mem_append.mp hn with hold | hnew
      · exact h.refused n hold
      · rw [List.mem_singleton.mp hnew, h.resident_eq, ← h.cap_eq]
        exact le_antisymm h.ring.room hfull
    next hroom =>
      exact ⟨q, h.ring, h.cap_eq, h.queued, ⟨rfl, not_le.mp hroom⟩, h.consumer, h.refused,
        h.missed⟩
  | copySlot x tail =>
    simp only [hpc, PushFits] at hp
    obtain ⟨rfl, hroom⟩ := hp
    exact ⟨q, h.copyIn hroom⟩
  | storeTail x tail =>
    simp only [hpc, PushFits] at hp
    obtain ⟨rfl, hroom, hx⟩ := hp
    exact ⟨q ++ [x], h.publish hroom hx⟩

theorem Inv.consumerStep (h : Inv cap s q) : ∃ q', Inv cap s.consumerStep q' := by
  have hc := h.consumer
  unfold SpscThreads.consumerStep
  cases hpc : s.consumer with
  | idle => exact ⟨q, h⟩
  | loadTail head =>
    simp only [hpc, PopFits] at hc
    subst hc
    simp only
    split
    next heq =>
      refine ⟨q, h.ring, h.cap_eq, h.queued, h.producer, trivial, h.refused, ?_⟩
      intro n hn
      rcases List.mem_append.mp hn with hold | hnew
      · exact h.missed n hold
      · rw [List.mem_singleton.mp hnew, h.resident_eq]
        cases q with
        | nil => rfl
        | cons x l => exact absurd heq h.ring.ne_tail
    next hne =>
      refine ⟨q, h.ring, h.cap_eq, h.queued, h.producer, ⟨rfl, ?_⟩, h.refused, h.missed⟩
      rintro rfl
      exact hne h.ring.eq_tail
  | copySlot head =>
    simp only [hpc, PopFits] at hc
    obtain ⟨rfl, hne⟩ := hc
    obtain ⟨x, l, rfl⟩ := List.exists_cons_of_ne_nil hne
    exact ⟨x :: l, h.ring, h.cap_eq, h.queued, h.producer, ⟨rfl, by simp [h.ring.read_head]⟩,
      h.refused, h.missed⟩
  | storeHead head x =>
    simp only [hpc, PopFits] at hc
    obtain ⟨rfl, hhead⟩ := hc
    obtain ⟨l, rfl⟩ := List.head?_eq_some_iff.mp hhead
    exact ⟨l, h.release⟩

theorem Inv.step (h : Inv cap s q) (act : SpscAct α) : ∃ q', Inv cap (s.step act) q' := by
  cases act with
  | push x =>
    simp only [SpscThreads.step]
    split
    · exact ⟨q, h.ring, h.cap_eq, h.queued, rfl, h.consumer, h.refused, h.missed⟩
    · exact ⟨q, h⟩
  | producer => exact h.producerStep
  | pop =>
    simp only [SpscThreads.step]
    split
    · exact ⟨q, h.ring, h.cap_eq, h.queued, h.producer, rfl, h.refused, h.missed⟩
    · exact ⟨q, h⟩
  | consumer => exact h.consumerStep

theorem Inv.run (h : Inv cap s q) (l : List (SpscAct α)) :
    ∃ q', Inv cap (l.foldl SpscThreads.step s) q' := by
  induction l generalizing s q with
  | nil => exact ⟨q, h⟩
  | cons act l ih =>
    obtain ⟨q', h'⟩ := h.step act
    exact ih h'

end Steps

/-- In every interleaving of the two threads the popped elements are a prefix of the pushed
ones, at most `cap` are resident, a push fails only on a full ring and a pop on an empty one. -/
theorem two_thread_fifo [Inhabited α] {cap : ℕ} (hcap : cap < 2 ^ 32)
    (hpow : Lifecycle.gmkIsPowerOfTwo cap = true) (l : List (SpscAct α)) :
    (l.foldl step (start cap)).popped <+: (l.foldl step (start cap)).pushed ∧
      (l.foldl step (start cap)).resident ≤ cap ∧
      (∀ n ∈ (l.foldl step (start cap)).refused, n = cap) ∧
      ∀ n ∈ (l.foldl step (start cap)).missed, n = 0 := by
  obtain ⟨k, hk, rfl⟩ := Lifecycle.pow_of_isPowerOfTwo hcap hpow
  obtain ⟨q, h⟩ := (start_inv hk).run l
  have hroom := h.ring.room
  rw [h.cap_eq] at hroom
  rw [h.resident_eq]
  exact ⟨⟨q, h.queued.symm⟩, hroom, h.refused, h.missed⟩

/-- One cell: the consumer misses, the producer pushes, is refused, and the consumer pops. -/
def oneCell : List (SpscAct ℕ) :=
  [.push 5, .pop, .consumer, .producer, .producer, .producer, .push 6, .pop, .producer,
    .consumer, .consumer, .consumer]

theorem two_thread_fifo_oneCell :
    (oneCell.foldl step (start 1)).popped = [5] ∧ (oneCell.foldl step (start 1)).refused = [1] ∧
      (oneCell.foldl step (start 1)).missed = [0] ∧
      (oneCell.foldl step (start 1)).popped <+: (oneCell.foldl step (start 1)).pushed :=
  ⟨by decide, by decide, by decide, (two_thread_fifo (by norm_num) (by decide) oneCell).1⟩

end SpscThreads
end Ggmk

import Ggmk.Lib.Word
import Ggmk.Types

/-! The single-producer single-consumer ring of `ring_spsc.c`, called by one thread
at a time. The interleaved steps of its operations are modelled separately. -/
namespace Ggmk
open Word

structure RingSpsc (α : Type*) where
  head : ℕ
  tail : ℕ
  cap : ℕ
  mask : ℕ
  buf : ℕ → α

variable {α : Type*}

/-- The state `gmk_ring_spsc_init` leaves in zeroed memory once `cap` has been accepted. -/
def gmkRingSpscInit [Inhabited α] (cap : ℕ) : RingSpsc α where
  head := 0
  tail := 0
  cap := cap
  mask := cap - 1
  buf _ := default

def gmkRingSpscPush (r : RingSpsc α) (x : α) : Option (RingSpsc α) :=
  if r.cap ≤ sub32 r.tail r.head then none
  else some { r with
    buf := Function.update r.buf (r.tail &&& r.mask) x
    tail := u32 (r.tail + 1) }

def gmkRingSpscPop (r : RingSpsc α) : Option (α × RingSpsc α) :=
  if r.head = r.tail then none
  else some (r.buf (r.head &&& r.mask), { r with head := u32 (r.head + 1) })

def gmkRingSpscCount (r : RingSpsc α) : ℕ := sub32 r.tail r.head

namespace RingSpsc

/-- The elements between head and tail, oldest first. -/
def items (r : RingSpsc α) : List α :=
  (List.range (gmkRingSpscCount r)).map fun i => r.buf ((u32 (r.head + i)) &&& r.mask)

/-- `r` represents the queue `q`. -/
structure Holds (r : RingSpsc α) (q : List α) : Prop where
  pow : ∃ k ≤ 31, r.cap = 2 ^ k
  mask_eq : r.mask = r.cap - 1
  head_lt : r.head < 2 ^ 32
  tail_eq : r.tail = u32 (r.head + q.length)
  room : q.length ≤ r.cap
  filled : ∀ i (hi : i < q.length), r.buf ((r.head + i) % r.cap) = q[i]

namespace Holds
variable {r : RingSpsc α} {q : List α}

theorem cap_le (h : r.Holds q) : r.cap ≤ 2 ^ 31 := by
  obtain ⟨k, hk, hc⟩ := h.pow
  rw [hc]; exact Nat.pow_le_pow_right (by norm_num) hk

theorem and_mask (h : r.Holds q) (n : ℕ) : u32 n &&& r.mask = n % r.cap := by
  obtain ⟨k, hk, hc⟩ := h.pow
  rw [h.mask_eq, hc, u32_and_mask n hk]

theorem count_eq (h : r.Holds q) : gmkRingSpscCount r = q.length := by
  have hl := h.room.trans h.cap_le
  have hs := sub32_add_left (n := r.head) (d := q.length) (by omega)
  rwa [u32_of_lt h.head_lt, ← h.tail_eq] at hs

theorem items_eq (h : r.Holds q) : r.items = q := by
  apply List.ext_getElem
  · simp [items, h.count_eq]
  · intro i h1 h2
    simp only [items, List.getElem_map, List.getElem_range, h.and_mask]
    exact h.filled i h2

theorem tail_and_mask (h : r.Holds q) : r.tail &&& r.mask = (r.head + q.length) % r.cap := by
  rw [h.tail_eq, h.and_mask]

theorem head_and_mask (h : r.Holds q) : r.head &&& r.mask = r.head % r.cap := by
  have hm := h.and_mask r.head
  rwa [u32_of_lt h.head_lt] at hm

/-- The slot at the tail of a ring with room holds no element of the queue. -/
theorem write_tail (h : r.Holds q) (x : α) (hroom : q.length < r.cap) :
    Holds { r with buf := Function.update r.buf (r.tail &&& r.mask) x } q := by
  refine ⟨h.pow, h.mask_eq, h.head_lt, h.tail_eq, h.room, ?_⟩
  intro i hi
  have hne : (r.head + i) % r.cap ≠ (r.head + q.length) % r.cap := by
    intro he
    have := add_mod_inj (by omega) hroom he
    omega
  simp only [h.tail_and_mask, Function.update_of_ne hne]
  exact h.filled i hi

/-- Storing the next tail appends what stands in the slot at the tail. -/
theorem store_tail (h : r.Holds q) (hroom : q.length < r.cap) :
    Holds { r with tail := u32 (r.tail + 1) } (q ++ [r.buf (r.tail &&& r.mask)]) := by
  refine ⟨h.pow, h.mask_eq, h.head_lt, ?_, by simpa using hroom, ?_⟩
  · simp [h.tail_eq, Nat.add_assoc]
  · intro i hi
    rcases Nat.lt_or_ge i q.length with hlt | hge
    · simpa [List.getElem_append_left hlt] using h.filled i hlt
    · obtain rfl : i = q.length := by simp at hi; omega
      simp [h.tail_and_mask]

theorem push_ok (h : r.Holds q) (x : α) (hroom : q.length < r.cap) :
    ∃ r', gmkRingSpscPush r x = some r' ∧ r'.Holds (q ++ [x]) ∧ r'.cap = r.cap := by
  have hc := h.count_eq
  unfold gmkRingSpscCount at hc
  have hp : gmkRingSpscPush r x = some _ := if_neg (by omega)
  refine ⟨_, hp, ?_, rfl⟩
  simpa using (h.write_tail x hroom).store_tail hroom

theorem push_full (h : r.Holds q) (x : α) (hfull : q.length = r.cap) :
    gmkRingSpscPush r x = none := by
  have hc := h.count_eq
  unfold gmkRingSpscCount at hc
  rw [gmkRingSpscPush, hc, if_pos hfull.ge]

theorem ne_tail {x : α} (h : r.Holds (x :: q)) : r.head ≠ r.tail := by
  have hroom := h.room
  have hle := h.cap_le
  have hlt := h.head_lt
  rw [h.tail_eq, List.length_cons]
  simp only [List.length_cons] at hroom
  unfold u32
  omega

theorem eq_tail (h : r.Holds []) : r.head = r.tail := by
  have ht := h.tail_eq
  simp only [List.length_nil, Nat.add_zero, u32_of_lt h.head_lt] at ht
  exact ht.symm

/-- The slot at the head holds the oldest element. -/
theorem read_head {x : α} (h : r.Holds (x :: q)) : r.buf (r.head &&& r.mask) = x := by
  have hx := h.filled 0 (by simp)
  rwa [Nat.add_zero, ← h.head_and_mask, List.getElem_cons_zero] at hx

/-- Storing the next head drops the oldest element. -/
theorem store_head {x : α} (h : r.Holds (x :: q)) : Holds { r with head := u32 (r.head + 1) } q := by
  have hroom := h.room
  simp only [List.length_cons] at hroom
  have hu (i : ℕ) : u32 (u32 (r.head + 1) + i) = u32 (r.head + (i + 1)) := by
    rw [u32_u32_add]; congr 1; omega
  refine ⟨h.pow, h.mask_eq, u32_lt _, ?_, by simp only; omega, ?_⟩
  · simp only [hu, h.tail_eq, List.length_cons]
  · intro i hi
    have hstep : (u32 (r.head + 1) + i) % r.cap = (r.head + (i + 1)) % r.cap := by
      rw [← h.and_mask, ← h.and_mask, hu]
    simp only [hstep]
    exact h.filled (i + 1) (by simpa using hi)

theorem pop_ok {x : α} (h : r.Holds (x :: q)) :
    ∃ r', gmkRingSpscPop r = some (x, r') ∧ r'.Holds q ∧ r'.cap = r.cap := by
  have hp : gmkRingSpscPop r = some _ := if_neg h.ne_tail
  rw [h.read_head] at hp
  exact ⟨_, hp, h.store_head, rfl⟩

theorem pop_empty (h : r.Holds []) : gmkRingSpscPop r = none := if_pos h.eq_tail

end Holds

/-- The ring that `l` fills from position zero on. -/
def ofList [Inhabited α] (cap : ℕ) (l : List α) : RingSpsc α where
  head := 0
  tail := u32 l.length
  cap := cap
  mask := cap - 1
  buf i := l.getD i default

theorem ofList_holds [Inhabited α] {k : ℕ} (hk : k ≤ 31) {l : List α} (hl : l.length ≤ 2 ^ k) :
    (ofList (2 ^ k) l).Holds l := by
  refine ⟨⟨k, hk, rfl⟩, rfl, by norm_num [ofList], by simp [ofList], hl, ?_⟩
  intro i hi
  simp only [ofList, Nat.zero_add]
  rw [Nat.mod_eq_of_lt (by omega)]
  exact List.getD_eq_getElem _ _ hi

theorem init_holds [Inhabited α] {k : ℕ} (hk : k ≤ 31) :
    (gmkRingSpscInit (2 ^ k) : RingSpsc α).Holds [] :=
  ⟨⟨k, hk, rfl⟩, rfl, by norm_num [gmkRingSpscInit], rfl, by simp, by simp⟩

end RingSpsc

/-- A single-producer ring in a state that its operations reach. -/
structure SpscQueue (α : Type*) where
  ring : RingSpsc α
  holds : ring.Holds ring.items

namespace SpscQueue
open RingSpsc

def items (q : SpscQueue α) : List α := q.ring.items
def cap (q : SpscQueue α) : ℕ := q.ring.cap
def count (q : SpscQueue α) : ℕ := gmkRingSpscCount q.ring

theorem count_eq (q : SpscQueue α) : q.count = q.items.length := q.holds.count_eq

theorem length_le (q : SpscQueue α) : q.items.length ≤ q.cap := q.holds.room

theorem wf_of_push {q : SpscQueue α} {x : α} {r : RingSpsc α}
    (h : gmkRingSpscPush q.ring x = some r) :
    r.items = q.items ++ [x] ∧ r.Holds r.items ∧ r.cap = q.cap := by
  rcases q.length_le.lt_or_eq with hlt | heq
  · obtain ⟨r', hr, hh, hc⟩ := q.holds.push_ok x hlt
    obtain rfl : r' = r := by simpa [hr] using h
    rw [hh.items_eq]
    exact ⟨rfl, hh, hc⟩
  · simp [q.holds.push_full x heq] at h

theorem wf_of_pop {q : SpscQueue α} {x : α} {r : RingSpsc α}
    (h : gmkRingSpscPop q.ring = some (x, r)) :
    q.items = x :: r.items ∧ r.Holds r.items ∧ r.cap = q.cap := by
  cases hi : q.items with
  | nil => simp [Holds.pop_empty (hi ▸ q.holds : q.ring.Holds [])] at h
  | cons y l =>
    obtain ⟨r', hr, hh, hc⟩ := Holds.pop_ok (hi ▸ q.holds : q.ring.Holds (y :: l))
    obtain ⟨rfl, rfl⟩ : y = x ∧ r' = r := by simpa [hr] using h
    rw [hh.items_eq]
    exact ⟨rfl, hh, hc⟩

def push (q : SpscQueue α) (x : α) : Option (SpscQueue α) :=
  match h : gmkRingSpscPush q.ring x with
  | some r => some ⟨r, (wf_of_push h).2.1⟩
  | none => none

def pop (q : SpscQueue α) : Option (α × SpscQueue α) :=
  match h : gmkRingSpscPop q.ring with
  | some (x, r) => some (x, ⟨r, (wf_of_pop h).2.1⟩)
  | none => none

theorem push_some {q q' : SpscQueue α} {x : α} (h : q.push x = some q') :
    q'.items = q.items ++ [x] ∧ q'.cap = q.cap ∧ q.items.length < q.cap := by
  unfold push at h
  split at h
  next r hr =>
    obtain rfl := Option.some.inj h
    have hw := wf_of_push hr
    have hl := hw.2.1.room
    rw [hw.1, hw.2.2] at hl
    exact ⟨hw.1, hw.2.2, by simpa using hl⟩
  next => simp at h

theorem push_eq_none_iff (q : SpscQueue α) (x : α) :
    q.push x = none ↔ q.items.length = q.cap := by
  constructor
  · intro h
    rcases q.length_le.lt_or_eq with hlt | heq
    · obtain ⟨r, hr, -⟩ := q.holds.push_ok x hlt
      unfold push at h
      split at h
      next => simp at h
      next hn => simp [hr] at hn
    · exact heq
  · intro h
    cases hp : q.push x with
    | none => rfl
    | some q' => have := (push_some hp).2.2; omega

theorem pop_some {q q' : SpscQueue α} {x : α} (h : q.pop = some (x, q')) :
    q.items = x :: q'.items ∧ q'.cap = q.cap := by
  unfold pop at h
  split at h
  next y r hr =>
    obtain ⟨rfl, rfl⟩ := Prod.mk.inj (Option.some.inj h)
    exact ⟨(wf_of_pop hr).1, (wf_of_pop hr).2.2⟩
  next => simp at h

theorem pop_eq_none_iff (q : SpscQueue α) : q.pop = none ↔ q.items = [] := by
  constructor
  · intro h
    cases hi : q.items with
    | nil => rfl
    | cons y l =>
      obtain ⟨r, hr, -⟩ := Holds.pop_ok (hi ▸ q.holds : q.ring.Holds (y :: l))
      unfold pop at h
      split at h
      next => simp at h
      next hn => simp [hr] at hn
  · intro h
    cases hp : q.pop with
    | none => rfl
    | some p => simp [(pop_some hp).1] at h

/-- A well-formed ring of `2 ^ k` cells that holds `l`. -/
def ofList [Inhabited α] (k : ℕ) (hk : k ≤ 31) (l : List α) (hl : l.length ≤ 2 ^ k) :
    SpscQueue α where
  ring := RingSpsc.ofList (2 ^ k) l
  holds := by
    have h := ofList_holds hk hl
    rwa [h.items_eq]

@[simp] theorem items_ofList [Inhabited α] {k : ℕ} (hk : k ≤ 31) {l : List α}
    (hl : l.length ≤ 2 ^ k) : (ofList k hk l hl).items = l := (ofList_holds hk hl).items_eq

@[simp] theorem cap_ofList [Inhabited α] {k : ℕ} (hk : k ≤ 31) {l : List α}
    (hl : l.length ≤ 2 ^ k) : (ofList k hk l hl).cap = 2 ^ k := rfl

end SpscQueue
end Ggmk

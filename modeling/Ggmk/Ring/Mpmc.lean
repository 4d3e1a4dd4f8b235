import Ggmk.Lib.Word
import Ggmk.Types

/-! The Vyukov ring of `ring_mpmc.c`, called by one thread at a time. Each cell has
a sequence number; head, tail and the sequence numbers are 32-bit and wrap. -/
namespace Ggmk
open Word

structure RingMpmc (α : Type*) where
  head : ℕ
  tail : ℕ
  cap : ℕ
  mask : ℕ
  seq : ℕ → ℕ
  data : ℕ → α

/-- A push publishes the element, finds the ring full, or reloads an unchanged
tail for ever. -/
inductive PushResult (α : Type*) where
  | ok (r : RingMpmc α)
  | full
  | spin

inductive PopResult (α : Type*) where
  | ok (x : α) (r : RingMpmc α)
  | empty
  | spin

variable {α : Type*}

/-- The state `gmk_ring_mpmc_init` leaves in zeroed memory once `cap` has been accepted. -/
def gmkRingMpmcInit [Inhabited α] (cap : ℕ) : RingMpmc α where
  head := 0
  tail := 0
  cap := cap
  mask := cap - 1
  seq i := i
  data _ := default

/-- With a single caller the compare-and-swap on the tail finds the value just
loaded, so the loop either leaves in its first round or never. -/
def gmkRingMpmcPush (r : RingMpmc α) (x : α) : PushResult α :=
  let c := r.tail &&& r.mask
  let diff := sdiff32 (r.seq c) r.tail
  if diff = 0 then
    .ok { r with
      tail := u32 (r.tail + 1)
      data := Function.update r.data c x
      seq := Function.update r.seq c (u32 (r.tail + 1)) }
  else if diff < 0 then .full
  else .spin

def gmkRingMpmcPop (r : RingMpmc α) : PopResult α :=
  let c := r.head &&& r.mask
  let diff := sdiff32 (r.seq c) (u32 (r.head + 1))
  if diff = 0 then
    .ok (r.data c) { r with
      head := u32 (r.head + 1)
      seq := Function.update r.seq c (u32 (r.head + r.cap)) }
  else if diff < 0 then .empty
  else .spin

def gmkRingMpmcCount (r : RingMpmc α) : ℕ := sub32 r.tail r.head

namespace RingMpmc

/-- The elements between head and tail, oldest first. -/
def items (r : RingMpmc α) : List α :=
  (List.range (gmkRingMpmcCount r)).map fun i => r.data ((u32 (r.head + i)) &&& r.mask)

/-- `r` represents the queue `q`: an occupied cell at distance `i` from the head is
stamped with its position plus one, a free cell with its next position. -/
structure Holds (r : RingMpmc α) (q : List α) : Prop where
  pow : ∃ k ≤ 31, r.cap = 2 ^ k
  mask_eq : r.mask = r.cap - 1
  head_lt : r.head < 2 ^ 32
  tail_eq : r.tail = u32 (r.head + q.length)
  room : q.length ≤ r.cap
  filled : ∀ i (hi : i < q.length), r.seq ((r.head + i) % r.cap) = u32 (r.head + i + 1) ∧
    r.data ((r.head + i) % r.cap) = q[i]
  free : ∀ i, q.length ≤ i → i < r.cap → r.seq ((r.head + i) % r.cap) = u32 (r.head + i)

namespace Holds
variable {r : RingMpmc α} {q : List α}

theorem cap_pos (h : r.Holds q) : 0 < r.cap := by
  obtain ⟨k, -, hk⟩ := h.pow
  rw [hk]; positivity

theorem cap_le (h : r.Holds q) : r.cap ≤ 2 ^ 31 := by
  obtain ⟨k, hk, hc⟩ := h.pow
  rw [hc]; exact Nat.pow_le_pow_right (by norm_num) hk

theorem length_le (h : r.Holds q) : q.length ≤ 2 ^ 31 := h.room.trans h.cap_le

theorem and_mask (h : r.Holds q) (n : ℕ) : u32 n &&& r.mask = n % r.cap := by
  obtain ⟨k, hk, hc⟩ := h.pow
  rw [h.mask_eq, hc, u32_and_mask n hk]

theorem head_and_mask (h : r.Holds q) : r.head &&& r.mask = r.head % r.cap := by
  have hm := h.and_mask r.head
  rwa [u32_of_lt h.head_lt] at hm

theorem tail_and_mask (h : r.Holds q) : r.tail &&& r.mask = (r.head + q.length) % r.cap := by
  rw [h.tail_eq, h.and_mask]

theorem tail_succ (h : r.Holds q) : u32 (r.tail + 1) = u32 (r.head + q.length + 1) := by
  rw [h.tail_eq, u32_u32_add]

theorem count_eq (h : r.Holds q) : gmkRingMpmcCount r = q.length := by
  have hl := h.length_le
  have hs := sub32_add_left (n := r.head) (d := q.length) (by omega)
  rwa [u32_of_lt h.head_lt, ← h.tail_eq] at hs

theorem items_eq (h : r.Holds q) : r.items = q := by
  apply List.ext_getElem
  · simp [items, h.count_eq]
  · intro i h1 h2
    simp only [items, List.getElem_map, List.getElem_range, h.and_mask]
    exact (h.filled i h2).2

/-- The ring after a push into the cell of position `p`. -/
def pushed (r : RingMpmc α) (x : α) (p : ℕ) : RingMpmc α :=
  { r with
    tail := u32 (p + 1)
    data := Function.update r.data (p % r.cap) x
    seq := Function.update r.seq (p % r.cap) (u32 (p + 1)) }

theorem push_of_stamp (h : r.Holds q) (x : α)
    (hseq : r.seq ((r.head + q.length) % r.cap) = u32 (r.head + q.length)) :
    gmkRingMpmcPush r x = .ok (pushed r x (r.head + q.length)) := by
  have hd : sdiff32 (r.seq ((r.head + q.length) % r.cap)) r.tail = 0 := by
    rw [hseq, h.tail_eq, sdiff32_self]
  simp only [gmkRingMpmcPush, hd, ↓reduceIte, h.tail_succ, h.tail_and_mask, pushed]

/-- A free slot takes the element at the back of the queue. -/
theorem push_ok (h : r.Holds q) (x : α) (hroom : q.length < r.cap) :
    ∃ r', gmkRingMpmcPush r x = .ok r' ∧ r'.Holds (q ++ [x]) ∧ r'.cap = r.cap := by
  refine ⟨_, h.push_of_stamp x (h.free q.length le_rfl hroom), ?_, rfl⟩
  refine ⟨h.pow, h.mask_eq, h.head_lt, ?_, by simpa [pushed] using hroom, ?_, ?_⟩
  · simp [pushed, Nat.add_assoc]
  · intro i hi
    by_cases hq : i = q.length
    · subst hq
      simp [pushed]
    · have hlt : i < q.length := by simp at hi; omega
      have hne : (r.head + i) % r.cap ≠ (r.head + q.length) % r.cap :=
        fun he => hq (add_mod_inj (by omega) hroom he)
      simpa [pushed, Function.update_of_ne hne, List.getElem_append_left hlt] using h.filled i hlt
  · intro i hi hic
    simp only [List.length_append, List.length_singleton, pushed] at hi hic
    have hne : (r.head + i) % r.cap ≠ (r.head + q.length) % r.cap :=
      fun he => by have := add_mod_inj hic hroom he; omega
    simpa [pushed, Function.update_of_ne hne] using h.free i (by omega) hic

/-- With two cells or more the oldest element's stamp is behind the tail of a full ring. -/
theorem push_full (h : r.Holds q) (x : α) (hfull : q.length = r.cap) (hcap : 2 ≤ r.cap) :
    gmkRingMpmcPush r x = .full := by
  have hseq := (h.filled 0 (by omega)).1
  have hle := h.cap_le
  have hb : sdiff32 (u32 (r.head + 1)) (u32 (r.head + 1 + (r.cap - 1))) < 0 :=
    sdiff32_behind (by omega) (by omega)
  have hc := h.tail_and_mask
  rw [hfull, Nat.add_mod_right] at hc
  have ht : r.tail = u32 (r.head + 1 + (r.cap - 1)) := by
    rw [h.tail_eq, hfull]; congr 1; omega
  simp only [Nat.add_zero] at hseq
  rw [gmkRingMpmcPush, hc, hseq, ht]
  rw [if_neg hb.ne, if_pos hb]

/-- The ring after the oldest element has been taken. -/
def popped (r : RingMpmc α) : RingMpmc α :=
  { r with
    head := u32 (r.head + 1)
    seq := Function.update r.seq (r.head % r.cap) (u32 (r.head + r.cap)) }

theorem pop_ok {x : α} (h : r.Holds (x :: q)) :
    ∃ r', gmkRingMpmcPop r = .ok x r' ∧ r'.Holds q ∧ r'.cap = r.cap := by
  obtain ⟨hseq, hdata⟩ := h.filled 0 (by simp)
  have hroom := h.room
  simp only [Nat.add_zero, List.getElem_cons_zero, List.length_cons] at hseq hdata hroom
  refine ⟨popped r, ?_, ?_, rfl⟩
  · simp only [gmkRingMpmcPop, h.head_and_mask, hseq, hdata, sdiff32_self, ↓reduceIte, popped]
  have hstep (i : ℕ) : (u32 (r.head + 1) + i) % r.cap = (r.head + (i + 1)) % r.cap := by
    rw [← h.and_mask, ← h.and_mask, u32_u32_add]; congr 2; omega
  have hu (i : ℕ) : u32 (u32 (r.head + 1) + i) = u32 (r.head + (i + 1)) := by
    rw [u32_u32_add]; congr 1; omega
  have hne {i : ℕ} (hi : i + 1 < r.cap) : (r.head + (i + 1)) % r.cap ≠ r.head % r.cap := by
    intro he
    have := add_mod_inj hi h.cap_pos (by simpa only [Nat.add_zero] using he)
    omega
  refine ⟨h.pow, h.mask_eq, u32_lt _, ?_, by simp only [popped]; omega, ?_, ?_⟩
  · simp only [popped, hu, h.tail_eq, List.length_cons]
  · intro i hi
    have hf := h.filled (i + 1) (by simpa using hi)
    simp only [popped, hstep, Function.update_of_ne (hne (show i + 1 < r.cap by omega))]
    refine ⟨?_, by simpa using hf.2⟩
    rw [hf.1, Nat.add_assoc (u32 _), hu]; congr 1
  · intro i hi hic
    simp only [popped, hstep, hu] at hic ⊢
    by_cases hl : i + 1 = r.cap
    · rw [hl, Nat.add_mod_right, Function.update_self]
    · rw [Function.update_of_ne (hne (by omega))]
      exact h.free (i + 1) (by simpa using hi) (by omega)

theorem pop_empty (h : r.Holds []) : gmkRingMpmcPop r = .empty := by
  have hseq := h.free 0 (by simp) h.cap_pos
  have hb : sdiff32 (u32 r.head) (u32 (r.head + 1)) < 0 := sdiff32_behind (by omega) (by norm_num)
  simp only [Nat.add_zero] at hseq
  rw [gmkRingMpmcPop, h.head_and_mask, hseq]
  rw [if_neg hb.ne, if_pos hb]

/-- In a ring of one cell the stamp of an occupied cell is the stamp of the next free
one: a second push overwrites the element and no pop ever leaves its loop. -/
theorem overfill_spins {y : α} (h : r.Holds [y]) (hcap : r.cap = 1) (x : α) :
    ∃ r', gmkRingMpmcPush r x = .ok r' ∧ gmkRingMpmcPop r' = .spin := by
  have hseq := (h.filled 0 (by simp)).1
  have hh := h.head_and_mask
  simp only [hcap, Nat.mod_one, Nat.add_zero] at hseq hh
  refine ⟨_, h.push_of_stamp x (by simpa [hcap, Nat.mod_one] using hseq), ?_⟩
  have ha : 0 < sdiff32 (u32 (r.head + 1 + 1)) (u32 (r.head + 1)) :=
    sdiff32_ahead (by omega) (by norm_num)
  simp only [gmkRingMpmcPop, pushed, hh, hcap, Nat.mod_one, List.length_singleton,
    Function.update_self]
  rw [if_neg ha.ne', if_neg (not_lt.mpr ha.le)]

theorem cap_of_push {r r' : RingMpmc α} {x : α} (h : gmkRingMpmcPush r x = .ok r') :
    r'.cap = r.cap := by
  simp only [gmkRingMpmcPush] at h
  split at h
  · cases h
    rfl
  · split at h <;> simp at h

/-- A push that is not into an occupied ring of one cell appends. -/
theorem of_push (h : r.Holds q) {x : α} {r' : RingMpmc α} (hpush : gmkRingMpmcPush r x = .ok r')
    (hone : q.length = r.cap → r.cap ≠ 1) : r'.Holds (q ++ [x]) ∧ r'.cap = r.cap := by
  rcases h.room.lt_or_eq with hlt | hfull
  · obtain ⟨r₂, hr₂, hh, hc⟩ := h.push_ok x hlt
    obtain rfl : r₂ = r' := by simpa [hr₂] using hpush
    exact ⟨hh, hc⟩
  · have hpos := h.cap_pos
    have hne := hone hfull
    simp [h.push_full x hfull (by omega)] at hpush

/-- What a pop takes is the oldest element. -/
theorem of_pop (h : r.Holds q) {x : α} {r' : RingMpmc α} (hpop : gmkRingMpmcPop r = .ok x r') :
    ∃ l, q = x :: l ∧ r'.Holds l ∧ r'.cap = r.cap := by
  cases q with
  | nil => simp [h.pop_empty] at hpop
  | cons y l =>
    obtain ⟨r₂, hr₂, hh, hc⟩ := h.pop_ok
    obtain ⟨rfl, rfl⟩ : y = x ∧ r₂ = r' := by simpa [hr₂] using hpop
    exact ⟨l, rfl, hh, hc⟩

end Holds

/-- The ring that `l` fills from position zero on. -/
def ofList [Inhabited α] (cap : ℕ) (l : List α) : RingMpmc α where
  head := 0
  tail := u32 l.length
  cap := cap
  mask := cap - 1
  seq i := if i < l.length then i + 1 else i
  data i := l.getD i default

theorem ofList_holds [Inhabited α] {k : ℕ} (hk : k ≤ 31) {l : List α} (hl : l.length ≤ 2 ^ k) :
    (ofList (2 ^ k) l).Holds l := by
  have hle : 2 ^ k ≤ 2 ^ 31 := Nat.pow_le_pow_right (by norm_num) hk
  refine ⟨⟨k, hk, rfl⟩, rfl, by norm_num [ofList], by simp [ofList], hl, ?_, ?_⟩
  · intro i hi
    simp only [ofList, Nat.zero_add]
    rw [Nat.mod_eq_of_lt (by omega), if_pos hi, u32_of_lt (by omega)]
    exact ⟨rfl, List.getD_eq_getElem _ _ hi⟩
  · intro i hi hic
    simp only [ofList, Nat.zero_add] at hic ⊢
    rw [Nat.mod_eq_of_lt hic, if_neg (by omega), u32_of_lt (by omega)]

theorem init_holds [Inhabited α] {k : ℕ} (hk : k ≤ 31) :
    (gmkRingMpmcInit (2 ^ k) : RingMpmc α).Holds [] := by
  have h := ofList_holds (α := α) (l := []) hk (by simp)
  refine ⟨h.pow, rfl, h.head_lt, h.tail_eq, h.room, by simp, ?_⟩
  intro i hi hic
  simpa [ofList, gmkRingMpmcInit] using h.free i hi hic

end RingMpmc

/-- A ring of two cells or more in a state that its operations reach. -/
structure MpmcQueue (α : Type*) where
  ring : RingMpmc α
  holds : ring.Holds ring.items
  two_le : 2 ≤ ring.cap

namespace MpmcQueue
open RingMpmc

def items (q : MpmcQueue α) : List α := q.ring.items
def cap (q : MpmcQueue α) : ℕ := q.ring.cap
def count (q : MpmcQueue α) : ℕ := gmkRingMpmcCount q.ring

theorem count_eq (q : MpmcQueue α) : q.count = q.items.length := q.holds.count_eq

theorem length_le (q : MpmcQueue α) : q.items.length ≤ q.cap := q.holds.room

theorem cap_le (q : MpmcQueue α) : q.cap ≤ 2 ^ 31 := q.holds.cap_le

/-- A push into a well-formed ring is decided by the room that is left. -/
theorem ring_push_cases (q : MpmcQueue α) (x : α) :
    (q.items.length < q.cap ∧ ∃ r, gmkRingMpmcPush q.ring x = .ok r ∧
      r.Holds (q.items ++ [x]) ∧ r.cap = q.cap) ∨
    (q.items.length = q.cap ∧ gmkRingMpmcPush q.ring x = .full) := by
  rcases q.length_le.lt_or_eq with hlt | heq
  · exact Or.inl ⟨hlt, q.holds.push_ok x hlt⟩
  · exact Or.inr ⟨heq, q.holds.push_full x heq q.two_le⟩

theorem ring_pop_cases (q : MpmcQueue α) :
    (∃ x l r, q.items = x :: l ∧ gmkRingMpmcPop q.ring = .ok x r ∧ r.Holds l ∧ r.cap = q.cap) ∨
    (q.items = [] ∧ gmkRingMpmcPop q.ring = .empty) := by
  cases hi : q.items with
  | nil => exact Or.inr ⟨rfl, Holds.pop_empty (hi ▸ q.holds)⟩
  | cons x l =>
    obtain ⟨r, hr, hh, hc⟩ := Holds.pop_ok (hi ▸ q.holds : q.ring.Holds (x :: l))
    exact Or.inl ⟨x, l, r, rfl, hr, hh, hc⟩

theorem wf_of_push {q : MpmcQueue α} {x : α} {r : RingMpmc α}
    (h : gmkRingMpmcPush q.ring x = .ok r) :
    r.items = q.items ++ [x] ∧ r.Holds r.items ∧ r.cap = q.cap := by
  have htwo := q.two_le
  obtain ⟨hh, hc⟩ := q.holds.of_push h (by omega)
  rw [hh.items_eq]
  exact ⟨rfl, hh, hc⟩

theorem wf_of_pop {q : MpmcQueue α} {x : α} {r : RingMpmc α}
    (h : gmkRingMpmcPop q.ring = .ok x r) :
    q.items = x :: r.items ∧ r.Holds r.items ∧ r.cap = q.cap := by
  obtain ⟨l, hl, hh, hc⟩ := q.holds.of_pop h
  rw [hh.items_eq]
  exact ⟨hl, hh, hc⟩

def push (q : MpmcQueue α) (x : α) : Option (MpmcQueue α) :=
  match h : gmkRingMpmcPush q.ring x with
  | .ok r => some ⟨r, (wf_of_push h).2.1, (wf_of_push h).2.2 ▸ q.two_le⟩
  | _ => none

def pop (q : MpmcQueue α) : Option (α × MpmcQueue α) :=
  match h : gmkRingMpmcPop q.ring with
  | .ok x r => some (x, ⟨r, (wf_of_pop h).2.1, (wf_of_pop h).2.2 ▸ q.two_le⟩)
  | _ => none

theorem push_some {q q' : MpmcQueue α} {x : α} (h : q.push x = some q') :
    q'.items = q.items ++ [x] ∧ q'.cap = q.cap ∧ q.items.length < q.cap := by
  unfold push at h
  split at h
  next r hr =>
    obtain rfl := Option.some.inj h
    have hw := wf_of_push hr
    have hl := hw.2.1.room
    rw [hw.1, hw.2.2] at hl
    exact ⟨hw.1, hw.2.2, by simpa using hl⟩
  next => simp at h

theorem push_eq_none_iff (q : MpmcQueue α) (x : α) :
    q.push x = none ↔ q.items.length = q.cap := by
  constructor
  · intro h
    rcases q.ring_push_cases x with ⟨-, r, hr, -⟩ | ⟨hf, -⟩
    · unfold push at h
      split at h
      next => simp at h
      next hn => exact absurd hr (hn r)
    · exact hf
  · intro h
    cases hp : q.push x with
    | none => rfl
    | some q' => have := (push_some hp).2.2; omega

theorem pop_some {q q' : MpmcQueue α} {x : α} (h : q.pop = some (x, q')) :
    q.items = x :: q'.items ∧ q'.cap = q.cap := by
  unfold pop at h
  split at h
  next y r hr =>
    obtain ⟨rfl, rfl⟩ := Prod.mk.inj (Option.some.inj h)
    exact ⟨(wf_of_pop hr).1, (wf_of_pop hr).2.2⟩
  next => simp at h

theorem pop_eq_none_iff (q : MpmcQueue α) : q.pop = none ↔ q.items = [] := by
  constructor
  · intro h
    rcases q.ring_pop_cases with ⟨x, l, r, -, hr, -⟩ | ⟨he, -⟩
    · unfold pop at h
      split at h
      next => simp at h
      next hn => exact absurd hr (hn x r)
    · exact he
  · intro h
    cases hp : q.pop with
    | none => rfl
    | some p => simp [(pop_some hp).1] at h

/-- A well-formed ring of `2 ^ k` cells that holds `l`. -/
def ofList [Inhabited α] (k : ℕ) (hk : 1 ≤ k ∧ k ≤ 31) (l : List α) (hl : l.length ≤ 2 ^ k) :
    MpmcQueue α where
  ring := RingMpmc.ofList (2 ^ k) l
  holds := by
    have h := ofList_holds hk.2 hl
    rwa [h.items_eq]
  two_le := Nat.pow_le_pow_right (n := 2) (by norm_num) hk.1

@[simp] theorem items_ofList [Inhabited α] {k : ℕ} (hk : 1 ≤ k ∧ k ≤ 31) {l : List α}
    (hl : l.length ≤ 2 ^ k) : (ofList k hk l hl).items = l := (ofList_holds hk.2 hl).items_eq

@[simp] theorem cap_ofList [Inhabited α] {k : ℕ} (hk : 1 ≤ k ∧ k ≤ 31) {l : List α}
    (hl : l.length ≤ 2 ^ k) : (ofList k hk l hl).cap = 2 ^ k := rfl

end MpmcQueue
end Ggmk

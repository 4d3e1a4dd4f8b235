import Ggmk.Alloc.SlabRun
import Ggmk.Arch.LockOwners

/-! The slab of `alloc_slab.c` under its lock, one memory access at a time: threads that allocate
and free at once never hold the same object, and the free list stays exact. -/
namespace Ggmk
open Word CriticalSection Slab

/-- What a thread does with the lock: an allocation, or the release of slot `idx`. -/
inductive SlabBody
  | alloc
  | link (idx : ℕ)

/-- The next access of `gmk_slab_alloc` or `gmk_slab_free`, with the locals it needs. -/
inductive SlabPc
  | allocHead
  | allocLink (idx : ℕ)
  | allocStore (idx : ℕ) (next : ℤ)
  | allocCount (idx : ℕ)
  | allocHigh (idx count : ℕ)
  | allocRaise (idx count : ℕ)
  | freeHead (idx : ℕ)
  | freeLink (idx : ℕ) (head : ℤ)
  | freeStore (idx : ℕ)
  | freeCount

/-- Between `gmk_lock_acquire` and `gmk_lock_release`; an allocation answers with its slot. -/
def slabProgram : Program Slab SlabBody SlabPc (Option ℕ) where
  enter
    | .alloc => .allocHead
    | .link idx => .freeHead idx
  step
    | .allocHead, s =>
        if s.freeHead < 0 then (.inr none, s) else (.inl (.allocLink s.freeHead.toNat), s)
    | .allocLink idx, s => (.inl (.allocStore idx (s.links idx)), s)
    | .allocStore idx next, s => (.inl (.allocCount idx), { s with freeHead := next })
    | .allocCount idx, s =>
        let count := u32 (s.allocCount + 1)
        (.inl (.allocHigh idx count), { s with allocCount := count })
    | .allocHigh idx count, s =>
        if s.highWater < count then (.inl (.allocRaise idx count), s) else (.inr (some idx), s)
    | .allocRaise idx count, s => (.inr (some idx), { s with highWater := count })
    | .freeHead idx, s => (.inl (.freeLink idx s.freeHead), s)
    | .freeLink idx head, s =>
        (.inl (.freeStore idx), { s with links := Function.update s.links idx head })
    | .freeStore idx, s => (.inl .freeCount, { s with freeHead := int32 idx })
    | .freeCount, s => (.inr none, { s with allocCount := sub32 s.allocCount 1 })

/-- The checks of `gmk_slab_free` before it takes the lock read fields that never change. -/
def gmkSlabFreeIndex (s : Slab) (ptr : ℕ) : Option ℕ :=
  if ptr = 0 then none
  else if ptr < s.base then none
  else
    let idx := u32 ((ptr - s.base) / s.objSize)
    if s.capacity ≤ idx then none else some idx

/-! ## The accesses add up to the operations -/

theorem slabProgram_alloc (s : Slab) :
    slabProgram.Answers .alloc s ((gmkSlabAlloc s).map fun _ => s.freeHead.toNat)
      ((gmkSlabAlloc s).elim s Prod.snd) := by
  refine ⟨6, ?_⟩
  by_cases hneg : s.freeHead < 0
  · simp [slabProgram, Program.exec, gmkSlabAlloc, hneg]
  · by_cases hhigh : s.highWater < u32 (s.allocCount + 1)
    · simp [slabProgram, Program.exec, gmkSlabAlloc, hneg, hhigh]
    · simp [slabProgram, Program.exec, gmkSlabAlloc, hneg, hhigh]

theorem slabProgram_link {s : Slab} {ptr idx : ℕ} (h : gmkSlabFreeIndex s ptr = some idx) :
    slabProgram.Answers (.link idx) s none (gmkSlabFree s ptr) := by
  refine ⟨4, ?_⟩
  unfold gmkSlabFreeIndex at h
  split_ifs at h with hzero hbase
  dsimp only at h
  split_ifs at h with hcap
  obtain rfl := Option.some.inj h
  simp [slabProgram, Program.exec, gmkSlabFree, hzero, hbase, hcap]

/-! ## The threads -/

/-- Pointers are handed over by a release and handed out by a successful allocation. -/
def slabExchange (s₀ : Slab) : Exchange SlabBody (Option ℕ) ℕ where
  takes
    | .alloc => 0
    | .link idx => {s₀.slot idx}
  gives
    | .alloc, some idx => {s₀.slot idx}
    | _, _ => 0

/-- The split of the slab whose live objects are the pointers of `m`. -/
def SlabGood (s₀ : Slab) (d : Slab) (m : Multiset ℕ) : Prop :=
  d.SameShape s₀ ∧ ∃ r spare used, SlabRun.Split r spare used ∧ r.slab = d ∧ (r.live : Multiset ℕ) = m

theorem slabGood_alloc {s₀ d : Slab} {m : Multiset ℕ} (h : SlabGood s₀ d m) :
    SlabGood s₀ ((gmkSlabAlloc d).elim d Prod.snd)
      ((slabExchange s₀).gives .alloc ((gmkSlabAlloc d).map fun _ => d.freeHead.toNat) + m) := by
  obtain ⟨hshape, r, spare, used, hr, rfl, rfl⟩ := h
  cases ha : gmkSlabAlloc r.slab with
  | none => exact ⟨hshape, r, spare, used, hr, rfl, (zero_add _).symm⟩
  | some res =>
    obtain ⟨ptr, s⟩ := res
    obtain ⟨i, rest, rfl, hr'⟩ := hr.alloc ha
    obtain ⟨j, rest', heq, hptr, hhead, -, -, hsame⟩ := gmkSlabAlloc_some ha hr.list
    refine ⟨hsame.trans hshape, _, rest, i :: used, hr', rfl, ?_⟩
    rw [← Multiset.cons_coe, ← Multiset.singleton_add, hptr, hshape.slot_eq]
    simp [slabExchange, hhead]

/-- Only an object that is live is released. -/
theorem slabGood_link {s₀ d : Slab} {m : Multiset ℕ} {idx : ℕ}
    (h : SlabGood s₀ d (s₀.slot idx ::ₘ m)) :
    gmkSlabFreeIndex d (s₀.slot idx) = some idx ∧ SlabGood s₀ (gmkSlabFree d (s₀.slot idx)) m := by
  obtain ⟨hshape, r, spare, used, hr, rfl, hlive⟩ := h
  rw [← hshape.slot_eq] at hlive ⊢
  have hmem : r.slab.slot idx ∈ r.live := by
    rw [← Multiset.mem_coe, hlive]
    exact Multiset.mem_cons_self _ _
  have hused : idx ∈ used := by
    rwa [hr.live_eq, List.mem_map_of_injective hr.slot_injective] at hmem
  have hlt := hr.lt_of_mem (List.mem_append_right spare hused)
  have hcap := hr.cap_lt
  have hbase := hr.base_ne
  have hfresh : idx ∉ spare := fun hs => List.disjoint_of_nodup_append hr.nodup hs hused
  have hne : r.slab.slot idx ≠ 0 := by
    unfold slot
    omega
  constructor
  · have hidx : u32 ((r.slab.slot idx - r.slab.base) / r.slab.objSize) = idx := by
      rw [slot, Nat.add_sub_cancel_left, Nat.mul_div_cancel _ hr.obj_pos, u32_of_lt (by omega)]
    have hlow : ¬ r.slab.slot idx < r.slab.base := not_lt.mpr (Nat.le_add_right _ _)
    simp only [gmkSlabFreeIndex, hne, hlow, if_false, hidx, not_le.mpr hlt]
  · have hsame := (gmkSlabFree_slot hr.laid hr.list hlt (by omega) hfresh hne).2.1
    refine ⟨hsame.trans hshape, _, _, _, hr.giveBack hused, rfl, ?_⟩
    rw [← Multiset.coe_erase, hlive, Multiset.erase_cons_head]

/-- Allocations and releases exchange objects of the slab for nothing, and back. -/
theorem slabExchange_keeps (s₀ : Slab) : (slabExchange s₀).Keeps slabProgram (SlabGood s₀) := by
  intro d i m h
  cases i with
  | alloc =>
    refine ⟨_, _, slabProgram_alloc d, slabGood_alloc ?_⟩
    rwa [slabExchange, zero_add] at h
  | link idx =>
    rw [slabExchange, Multiset.singleton_add] at h
    obtain ⟨hidx, hgood⟩ := slabGood_link h
    refine ⟨_, _, slabProgram_link hidx, ?_⟩
    rwa [slabExchange, zero_add]

/-- What a thread may do next. A release whose pointer fails the checks before the lock is over
at once. -/
inductive SlabAct (n : ℕ)
  | alloc (t : Fin n)
  | free (t : Fin n) (ptr : ℕ)
  | spin (t : Fin n)
  | body (t : Fin n)
  | loadCurrent (t : Fin n)
  | storeServing (t : Fin n)

abbrev SlabThreads (n : ℕ) := LockOwners n Slab SlabBody SlabPc (Option ℕ) ℕ

namespace SlabThreads
variable {n : ℕ} {s₀ : Slab} {s : SlabThreads n}

def lockCall (s₀ : Slab) : SlabAct n → Option (LockCall n SlabBody)
  | .alloc t => some (.call t .alloc)
  | .free t ptr => (gmkSlabFreeIndex s₀ ptr).map fun idx => .call t (.link idx)
  | .spin t => some (.spin t)
  | .body t => some (.body t)
  | .loadCurrent t => some (.loadCurrent t)
  | .storeServing t => some (.storeServing t)

/-- All threads in every order; at the start nobody has an object. -/
def run (n : ℕ) (s₀ : Slab) (acts : List (SlabAct n)) : SlabThreads n :=
  (LockOwners.start n s₀ 0).run slabProgram (slabExchange s₀) (acts.filterMap (lockCall s₀))

theorem slabGood_init {mem memSize objSize : ℕ} (h : gmkSlabInit mem memSize objSize = some s₀)
    (hobj : 0 < alignUp8 objSize) (hcap : s₀.capacity < 2 ^ 31) : SlabGood s₀ s₀ 0 :=
  ⟨SameShape.refl s₀, _, _, _, SlabRun.gmkSlabInit_split h hobj hcap, rfl, rfl⟩

/-- The objects that are live in the slab are those owned by threads. -/
structure Exact (s₀ d : Slab) (m : Multiset ℕ) : Prop where
  nodup : m.Nodup
  slots : ∀ p ∈ m, ∃ i < s₀.capacity, p = s₀.slot i
  list : ∃ spare, FreeList.Lists d.links d.freeHead spare ∧
    FreeList.endMark d.links d.freeHead spare = -1 ∧
    ∀ i, i ∈ spare ↔ i < s₀.capacity ∧ s₀.slot i ∉ m
  count_eq : d.allocCount = m.card
  full_iff : gmkSlabAlloc d = none ↔ m.card = s₀.capacity

theorem SlabGood.exact {d : Slab} {m : Multiset ℕ} (h : SlabGood s₀ d m) : Exact s₀ d m := by
  obtain ⟨hshape, r, spare, used, hr, rfl, rfl⟩ := h
  have hslot := funext hshape.slot_eq
  have hcap : r.slab.capacity = s₀.capacity := hshape.2.2.2.1
  refine ⟨?_, ?_, ⟨spare, hr.list.lists, hr.ends, fun i => ?_⟩, ?_, ?_⟩
  · rw [hr.live_eq, Multiset.coe_nodup, List.nodup_map_iff hr.slot_injective]
    exact hr.nodup.of_append_right
  · intro p hp
    rw [hr.live_eq, Multiset.mem_coe] at hp
    obtain ⟨i, hi, rfl⟩ := List.mem_map.mp hp
    exact ⟨i, hcap ▸ hr.lt_of_mem (List.mem_append_right spare hi), hshape.slot_eq i⟩
  · rw [hr.live_eq, Multiset.mem_coe, ← hslot, List.mem_map_of_injective hr.slot_injective, ← hcap]
    constructor
    · intro hi
      exact ⟨hr.lt_of_mem (List.mem_append_left used hi),
        List.disjoint_of_nodup_append hr.nodup hi⟩
    · rintro ⟨hlt, hnot⟩
      exact (List.mem_append.mp (hr.perm.mem_iff.mpr (List.mem_range.mpr hlt))).resolve_right hnot
  · rw [hr.live_eq, Multiset.coe_card, List.length_map, hr.count_eq]
  · rw [hr.alloc_eq_none_iff, hcap]
    rfl

end SlabThreads
end Ggmk

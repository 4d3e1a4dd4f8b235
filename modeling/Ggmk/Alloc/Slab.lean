import Ggmk.Lib.FreeList
import Ggmk.Lib.Word

/-! The slab of `alloc_slab.c`: objects of one size at the front of a memory region and
an array of free-list indices behind them. Pointers are byte addresses. -/
namespace Ggmk
open Word FreeList

structure Slab where
  base : ℕ
  totalSize : ℕ
  objSize : ℕ
  capacity : ℕ
  allocCount : ℕ
  highWater : ℕ
  /-- Address of the free-list array. -/
  freeList : ℕ
  /-- Contents of the free-list array. -/
  links : ℕ → ℤ
  freeHead : ℤ

/-- `(n + 7u) & ~7u` on 32 bits. -/
def alignUp8 (n : ℕ) : ℕ := u32 (n + 7) &&& (2 ^ 32 - 8)

theorem alignUp8_mod (n : ℕ) : alignUp8 n % 8 = 0 := by
  have h := Nat.and_mod_two_pow (a := u32 (n + 7)) (b := 2 ^ 32 - 8) (n := 3)
  rw [show (2 ^ 32 - 8) % 2 ^ 3 = 0 by decide, Nat.and_zero] at h
  exact h

/-- The mask clears the three low bits. -/
theorem alignUp8_eq (n : ℕ) : alignUp8 n = u32 (n + 7) / 8 * 8 := by
  have hmod := alignUp8_mod n
  have hlt := u32_lt (n + 7)
  have hdiv := Nat.and_div_two_pow (a := u32 (n + 7)) (b := 2 ^ 32 - 8) (n := 3)
  rw [show (2 ^ 32 - 8) / 2 ^ 3 = 2 ^ 29 - 1 by decide, Nat.and_two_pow_sub_one_eq_mod,
    Nat.mod_eq_of_lt (by omega)] at hdiv
  unfold alignUp8 at hmod ⊢
  omega

/-- The capacity is truncated to 32 bits and the links to signed 32 bits. -/
def gmkSlabInit (mem memSize objSize : ℕ) : Option Slab :=
  if mem = 0 ∨ objSize = 0 then none
  else
    let objSize := alignUp8 objSize
    let capacity := u32 (memSize / (objSize + 4))
    if capacity = 0 then none
    else
      some {
        base := mem
        totalSize := memSize
        objSize := objSize
        capacity := capacity
        allocCount := 0
        highWater := 0
        freeList := mem + capacity * objSize
        links := fun i => if i < capacity - 1 then int32 (i + 1) else -1
        freeHead := 0 }

def gmkSlabAlloc (s : Slab) : Option (ℕ × Slab) :=
  if s.freeHead < 0 then none
  else
    let idx := s.freeHead.toNat
    let count := u32 (s.allocCount + 1)
    some (s.base + idx * s.objSize,
      { s with
        freeHead := s.links idx
        allocCount := count
        highWater := if s.highWater < count then count else s.highWater })

/-- A pointer below the base or past the last object is ignored. -/
def gmkSlabFree (s : Slab) (ptr : ℕ) : Slab :=
  if ptr = 0 then s
  else if ptr < s.base then s
  else
    let idx := u32 ((ptr - s.base) / s.objSize)
    if s.capacity ≤ idx then s
    else
      { s with
        links := Function.update s.links idx s.freeHead
        freeHead := int32 idx
        allocCount := sub32 s.allocCount 1 }

/-- The `len` bytes from `lo` on. -/
def bytes (lo len : ℕ) : Set ℕ := Set.Ico lo (lo + len)

theorem bytes_subset {lo len lo' len' : ℕ} (h : lo' ≤ lo) (h' : lo + len ≤ lo' + len') :
    bytes lo len ⊆ bytes lo' len' := Set.Ico_subset_Ico h h'

theorem bytes_disjoint {lo len lo' len' : ℕ} (h : lo + len ≤ lo') :
    Disjoint (bytes lo len) (bytes lo' len') :=
  Set.disjoint_left.mpr fun _ hx hy => absurd (hx.2.trans_le h) (not_lt.mpr hy.1)

namespace Slab

/-- Address of object `i`. -/
def slot (s : Slab) (i : ℕ) : ℕ := s.base + i * s.objSize

/-- The region the slab was given. -/
def region (s : Slab) : Set ℕ := bytes s.base s.totalSize

/-- The free-list array. -/
def listArea (s : Slab) : Set ℕ := bytes s.freeList (4 * s.capacity)

/-- The objects and then the free-list array lie within the region. -/
structure Laid (s : Slab) : Prop where
  list_eq : s.freeList = s.base + s.capacity * s.objSize
  fits : s.capacity * (s.objSize + 4) ≤ s.totalSize
  cap_lt : s.capacity < 2 ^ 32
  obj_pos : 0 < s.capacity → 0 < s.objSize

/-- The free list visits `free`, all of them objects with a nonnegative signed index. -/
structure Free (s : Slab) (free : List ℕ) : Prop where
  lists : Lists s.links s.freeHead free
  bound : ∀ i ∈ free, i < s.capacity ∧ i < 2 ^ 31

/-- The fields that `gmk_slab_alloc` and `gmk_slab_free` leave alone. -/
def SameShape (s s' : Slab) : Prop :=
  s.base = s'.base ∧ s.totalSize = s'.totalSize ∧ s.objSize = s'.objSize ∧
    s.capacity = s'.capacity ∧ s.freeList = s'.freeList

theorem SameShape.laid {s s' : Slab} (h : s'.SameShape s) (hl : s.Laid) : s'.Laid := by
  obtain ⟨hb, ht, ho, hc, hf⟩ := h
  exact ⟨by rw [hf, hb, hc, ho, hl.list_eq], by rw [hc, ho, ht]; exact hl.fits,
    by rw [hc]; exact hl.cap_lt, by rw [hc, ho]; exact hl.obj_pos⟩

theorem SameShape.slot_eq {s s' : Slab} (h : s'.SameShape s) (i : ℕ) : s'.slot i = s.slot i := by
  rw [slot, slot, h.1, h.2.2.1]

theorem SameShape.trans {s s' s'' : Slab} (h : s''.SameShape s') (h' : s'.SameShape s) :
    s''.SameShape s :=
  ⟨h.1.trans h'.1, h.2.1.trans h'.2.1, h.2.2.1.trans h'.2.2.1, h.2.2.2.1.trans h'.2.2.2.1,
    h.2.2.2.2.trans h'.2.2.2.2⟩

theorem SameShape.refl (s : Slab) : s.SameShape s := ⟨rfl, rfl, rfl, rfl, rfl⟩

section Layout
variable {s : Slab} (hl : s.Laid)
include hl

theorem Laid.slot_end {i : ℕ} (hi : i < s.capacity) :
    s.slot i + s.objSize ≤ s.freeList := by
  have := Nat.mul_le_mul_right s.objSize (Nat.succ_le_of_lt hi)
  rw [hl.list_eq, slot]
  rw [Nat.succ_mul] at this
  omega

theorem Laid.list_end : s.freeList + 4 * s.capacity ≤ s.base + s.totalSize := by
  have := hl.fits
  rw [hl.list_eq]
  rw [Nat.mul_add] at this
  omega

/-- Every object lies in the region, before the free-list array. -/
theorem Laid.slot_subset {i : ℕ} (hi : i < s.capacity) : bytes (s.slot i) s.objSize ⊆ s.region := by
  have := hl.slot_end hi
  have := hl.list_end
  exact bytes_subset (Nat.le_add_right _ _) (by omega)

theorem Laid.slot_disjoint_list {i : ℕ} (hi : i < s.capacity) :
    Disjoint (bytes (s.slot i) s.objSize) s.listArea :=
  bytes_disjoint (hl.slot_end hi)

theorem Laid.list_subset : s.listArea ⊆ s.region := by
  have hend := hl.list_end
  have heq := hl.list_eq
  exact bytes_subset (by omega) hend

end Layout

theorem slot_disjoint (s : Slab) {i j : ℕ} (hij : i ≠ j) :
    Disjoint (bytes (s.slot i) s.objSize) (bytes (s.slot j) s.objSize) := by
  have key {i j : ℕ} (h : i < j) : s.slot i + s.objSize ≤ s.slot j := by
    have := Nat.mul_le_mul_right s.objSize (Nat.succ_le_of_lt h)
    rw [Nat.succ_mul] at this
    unfold slot
    omega
  rcases Nat.lt_or_gt_of_ne hij with h | h
  · exact bytes_disjoint (key h)
  · exact (bytes_disjoint (key h)).symm

end Slab

/-! ## Specifications -/
open Slab

theorem gmkSlabInit_some {mem memSize objSize : ℕ} {s : Slab}
    (h : gmkSlabInit mem memSize objSize = some s) (hobj : 0 < alignUp8 objSize) :
    s.base = mem ∧ s.totalSize = memSize ∧ s.objSize = alignUp8 objSize ∧ s.Laid ∧
      0 < s.capacity ∧ ∃ free, s.Free free := by
  unfold gmkSlabInit at h
  split at h
  next => simp at h
  next =>
    simp only at h
    split at h
    next => simp at h
    next hcap =>
      obtain rfl := Option.some.inj h
      set c := u32 (memSize / (alignUp8 objSize + 4)) with hc
      have hclt : c < 2 ^ 32 := u32_lt _
      refine ⟨rfl, rfl, rfl, ⟨rfl, ?_, hclt, fun _ => hobj⟩, Nat.pos_of_ne_zero hcap, ?_⟩
      · have hle : c ≤ memSize / (alignUp8 objSize + 4) := Nat.mod_le _ _
        exact (Nat.mul_le_mul_right _ hle).trans (Nat.div_mul_le_self _ _)
      · -- the list ends at the capacity, or where the signed index turns negative
        let n := min (c - 1) (2 ^ 31 - 1)
        refine ⟨List.range' 0 (n + 1), ?_, ?_⟩
        · refine lists_range' (n := n) ?_ (Nat.zero_add n) ?_
          · show (if n < c - 1 then int32 (n + 1) else -1) < 0
            split
            next hlt =>
              have hn : n + 1 = 2 ^ 31 := by omega
              rw [hn]
              decide
            next => decide
          · intro j _ hj
            show (if j < c - 1 then int32 (j + 1) else -1) = (j : ℤ) + 1
            rw [if_pos (by omega), int32_eq_self_iff.mpr (by omega)]
            norm_cast
        · intro i hi
          simp only [List.mem_range'_1] at hi
          show i < c ∧ i < 2 ^ 31
          omega

/-- A slot leaves the front of the free list. -/
theorem gmkSlabAlloc_some {s s' : Slab} {p : ℕ} (h : gmkSlabAlloc s = some (p, s'))
    {free : List ℕ} (hf : s.Free free) : ∃ i rest, free = i :: rest ∧ p = s.slot i ∧
      s.freeHead = i ∧ s'.freeHead = s.links i ∧ s'.Free rest ∧ s'.SameShape s := by
  unfold gmkSlabAlloc at h
  split at h
  next => simp at h
  next hpos =>
    obtain ⟨rfl, rfl⟩ := Prod.mk.inj (Option.some.inj h)
    obtain ⟨rest, rfl, hl⟩ := hf.lists.pop (not_lt.mp hpos)
    refine ⟨s.freeHead.toNat, rest, rfl, rfl, by omega, rfl, ⟨hl, ?_⟩, rfl, rfl, rfl, rfl, rfl⟩
    intro i hi
    exact hf.bound i (List.mem_cons_of_mem _ hi)

theorem gmkSlabFree_slot_eq {s : Slab} (hl : s.Laid) {i : ℕ} (hi : i < s.capacity)
    (hi' : i < 2 ^ 31) (hne : s.slot i ≠ 0) : gmkSlabFree s (s.slot i) =
      { s with
        links := Function.update s.links i s.freeHead
        freeHead := i
        allocCount := sub32 s.allocCount 1 } := by
  have hobj : 0 < s.objSize := hl.obj_pos (by omega)
  have hidx : u32 ((s.slot i - s.base) / s.objSize) = i := by
    rw [slot, Nat.add_sub_cancel_left, Nat.mul_div_cancel _ hobj, u32_of_lt (by omega)]
  have hlow : ¬ s.slot i < s.base := not_lt.mpr (Nat.le_add_right _ _)
  simp only [gmkSlabFree, hne, hlow, if_false, hidx, not_le.mpr hi, int32_eq_self_iff.mpr hi']

/-- A slot that is not on the free list goes to its front. -/
theorem gmkSlabFree_slot {s : Slab} (hl : s.Laid) {free : List ℕ} (hf : s.Free free) {i : ℕ}
    (hi : i < s.capacity) (hi' : i < 2 ^ 31) (hfresh : i ∉ free) (hne : s.slot i ≠ 0) :
    (gmkSlabFree s (s.slot i)).Free (i :: free) ∧ (gmkSlabFree s (s.slot i)).SameShape s ∧
      (gmkSlabFree s (s.slot i)).freeHead = i ∧
      (gmkSlabFree s (s.slot i)).links i = s.freeHead := by
  rw [gmkSlabFree_slot_eq hl hi hi' hne]
  refine ⟨⟨hf.lists.push hfresh, ?_⟩, ⟨rfl, rfl, rfl, rfl, rfl⟩, rfl, Function.update_self ..⟩
  intro j hj
  rcases List.mem_cons.mp hj with rfl | hj
  · exact ⟨hi, hi'⟩
  · exact hf.bound j hj

end Ggmk

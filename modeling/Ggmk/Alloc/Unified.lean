import Ggmk.Alloc.Block

/-! The unified allocator of `alloc.c`: one arena cut into task slab, trace slab, block
allocator and bump allocator, and the routing of `gmk_alloc` and `gmk_free`. -/
namespace Ggmk
open Word FreeList Slab

/-- `sizeof(gmk_task_t)` and `sizeof(gmk_trace_ev_t)`. -/
def sizeofTask : ℕ := 48
def sizeofTraceEv : ℕ := 32

structure Bump where
  base : ℕ
  size : ℕ
  offset : ℕ
  highWater : ℕ

def gmkBumpInit (mem memSize : ℕ) : Option Bump :=
  if mem = 0 ∨ memSize = 0 then none else some ⟨mem, memSize, 0, 0⟩

structure Alloc where
  arenaBase : ℕ
  arenaSize : ℕ
  taskSlab : Slab
  traceSlab : Slab
  block : Block
  bump : Bump
  totalAllocBytes : ℕ
  totalAllocFails : ℕ

/-- `mem` is what `gmk_hal_page_alloc` returned for the arena; zero is the null pointer. -/
def gmkAllocInit (mem arenaSize : ℕ) : Option Alloc :=
  if arenaSize < 4096 ∨ mem = 0 then none
  else
    let taskSize := u64 (arenaSize * 10) / 100
    let traceSize := u64 (arenaSize * 2) / 100
    let bumpSize := u64 (arenaSize * 20) / 100
    let blockSize := arenaSize - taskSize - traceSize - bumpSize
    let taskMem := mem
    let traceMem := taskMem + taskSize
    let blockMem := traceMem + traceSize
    let bumpMem := blockMem + blockSize
    match gmkSlabInit taskMem taskSize sizeofTask, gmkSlabInit traceMem traceSize sizeofTraceEv,
      gmkBlockInit blockMem blockSize, gmkBumpInit bumpMem bumpSize with
    | some task, some trace, some block, some bump =>
        some ⟨mem, arenaSize, task, trace, block, bump, 0, 0⟩
    | _, _, _, _ => none

/-- The block allocator serves a request, or nothing changes. -/
def allocFromBlock (a : Alloc) (size : ℕ) : Option (ℕ × Alloc) :=
  (gmkBlockAlloc a.block size).map fun r => (r.1, { a with block := r.2 })

/-- The routed attempt of `gmk_alloc`, before the statistics. -/
def routeAlloc (a : Alloc) (size : ℕ) : Option (ℕ × Alloc) :=
  if size ≤ sizeofTask then
    -- task-sized requests try the task slab first
    if size = sizeofTask then
      match gmkSlabAlloc a.taskSlab with
      | some (p, s) => some (p, { a with taskSlab := s })
      | none => allocFromBlock a size
    else allocFromBlock a size
  else if size ≤ gmkBlockMaxSize then allocFromBlock a size
  else none

def gmkAlloc (a : Alloc) (size : ℕ) : Option ℕ × Alloc :=
  if size = 0 then (none, a)
  else
    match routeAlloc a size with
    | some (p, a') => (some p, { a' with totalAllocBytes := u64 (a'.totalAllocBytes + size) })
    | none => (none, { a with totalAllocFails := u64 (a.totalAllocFails + 1) })

/-- The region that holds the pointer decides where it is freed. -/
def gmkFree (a : Alloc) (ptr size : ℕ) : Alloc :=
  if ptr = 0 ∨ size = 0 then a
  else if a.taskSlab.base ≤ ptr ∧ ptr < a.taskSlab.base + a.taskSlab.totalSize then
    { a with taskSlab := gmkSlabFree a.taskSlab ptr }
  else if a.traceSlab.base ≤ ptr ∧ ptr < a.traceSlab.base + a.traceSlab.totalSize then
    { a with traceSlab := gmkSlabFree a.traceSlab ptr }
  else if a.block.base ≤ ptr ∧ ptr < a.block.base + a.block.totalSize then
    { a with block := gmkBlockFree a.block ptr size }
  else a

/-! ## The fourteen slabs -/

inductive SlabId where
  | task
  | trace
  | bin (i : ℕ)
  deriving DecidableEq

namespace Alloc

def slab (a : Alloc) : SlabId → Slab
  | .task => a.taskSlab
  | .trace => a.traceSlab
  | .bin i => a.block.bins i

/-- Region of the block allocator. -/
def blockRegion (a : Alloc) : Set ℕ := bytes a.block.base a.block.totalSize

def bumpRegion (a : Alloc) : Set ℕ := bytes a.bump.base a.bump.size

def arenaRegion (a : Alloc) : Set ℕ := bytes a.arenaBase a.arenaSize

/-- `a'` is `a` with slab `o` replaced, up to the statistics. -/
structure Replaced (a a' : Alloc) (o : SlabId) (s : Slab) : Prop where
  slab_eq : a'.slab = Function.update a.slab o s
  block_base : a'.block.base = a.block.base
  block_size : a'.block.totalSize = a.block.totalSize
  bump_eq : a'.bump = a.bump
  arena_base : a'.arenaBase = a.arenaBase
  arena_size : a'.arenaSize = a.arenaSize

theorem replaced_task (a : Alloc) (s : Slab) (n f : ℕ) :
    a.Replaced { a with taskSlab := s, totalAllocBytes := n, totalAllocFails := f } .task s := by
  refine ⟨?_, rfl, rfl, rfl, rfl, rfl⟩
  funext o
  cases o <;> simp [slab, Function.update]

theorem replaced_bin (a : Alloc) (i : ℕ) (s : Slab) (n f : ℕ) :
    a.Replaced { a with
      block := { a.block with bins := Function.update a.block.bins i s }
      totalAllocBytes := n
      totalAllocFails := f } (.bin i) s := by
  refine ⟨?_, rfl, rfl, rfl, rfl, rfl⟩
  funext o
  cases o with
  | task => simp [slab, Function.update]
  | trace => simp [slab, Function.update]
  | bin j =>
    by_cases h : j = i
    · subst h
      simp [slab]
    · have hne : SlabId.bin j ≠ SlabId.bin i := fun he => h (SlabId.bin.inj he)
      simp [slab, Function.update_of_ne h, Function.update_of_ne hne]

end Alloc

/-- The slabs that serve requests of `size` bytes. -/
def Serves (o : SlabId) (size : ℕ) : Prop :=
  (o = .task ∧ size = sizeofTask) ∨ ∃ i : ℕ, o = .bin i ∧ binIndex size = i

theorem allocFromBlock_some {a a' : Alloc} {size p : ℕ}
    (h : allocFromBlock a size = some (p, a')) : ∃ o s, Serves o size ∧
      0 < (a.slab o).capacity ∧ gmkSlabAlloc (a.slab o) = some (p, s) ∧
      ∀ n, a.Replaced { a' with totalAllocBytes := n } o s := by
  obtain ⟨⟨q, b⟩, hb, he⟩ := Option.map_eq_some_iff.mp h
  obtain ⟨rfl, rfl⟩ := Prod.mk.inj he
  obtain ⟨i, s, hi, hc, hs, rfl⟩ := gmkBlockAlloc_some hb
  exact ⟨.bin i, s, Or.inr ⟨i, rfl, hi⟩, hc, hs, fun n => a.replaced_bin i s n _⟩

theorem routeAlloc_some {a a' : Alloc} {size p : ℕ} (htask : 0 < a.taskSlab.capacity)
    (h : routeAlloc a size = some (p, a')) : ∃ o s, Serves o size ∧
      0 < (a.slab o).capacity ∧ gmkSlabAlloc (a.slab o) = some (p, s) ∧
      ∀ n, a.Replaced { a' with totalAllocBytes := n } o s := by
  unfold routeAlloc at h
  split at h
  next =>
    split at h
    next hsize =>
      split at h
      next q s hs =>
        obtain ⟨rfl, rfl⟩ := Prod.mk.inj (Option.some.inj h)
        exact ⟨.task, s, Or.inl ⟨rfl, hsize⟩, htask, hs, fun n => a.replaced_task s n _⟩
      next => exact allocFromBlock_some h
    next => exact allocFromBlock_some h
  next =>
    split at h
    next => exact allocFromBlock_some h
    next => simp at h

/-- A served request takes a slot from one slab that serves its size. -/
theorem gmkAlloc_some {a a' : Alloc} {size p : ℕ} (htask : 0 < a.taskSlab.capacity)
    (h : gmkAlloc a size = (some p, a')) : size ≠ 0 ∧ ∃ o s, Serves o size ∧
      0 < (a.slab o).capacity ∧ gmkSlabAlloc (a.slab o) = some (p, s) ∧ a.Replaced a' o s := by
  unfold gmkAlloc at h
  split at h
  next => simp at h
  next hz =>
    split at h
    next q b hr =>
      obtain ⟨hq, rfl⟩ := Prod.mk.inj h
      obtain rfl := Option.some.inj hq
      obtain ⟨o, s, ho, hc, hs, hrep⟩ := routeAlloc_some htask hr
      exact ⟨hz, o, s, ho, hc, hs, hrep _⟩
    next => simp at h

/-- A refused request changes no slab. -/
theorem gmkAlloc_none {a a' : Alloc} {size : ℕ} (h : gmkAlloc a size = (none, a')) :
    a' = { a with totalAllocFails := a'.totalAllocFails } := by
  unfold gmkAlloc at h
  split at h
  next => rw [← (Prod.mk.inj h).2]
  next =>
    split at h
    next => simp at h
    next => rw [← (Prod.mk.inj h).2]

section Free
variable {a : Alloc} {ptr size : ℕ} (hp : ptr ≠ 0) (hz : size ≠ 0)
include hp hz

theorem gmkFree_task (ht : ptr ∈ a.taskSlab.region) :
    gmkFree a ptr size = { a with taskSlab := gmkSlabFree a.taskSlab ptr } := by
  have hin : a.taskSlab.base ≤ ptr ∧ ptr < a.taskSlab.base + a.taskSlab.totalSize := ht
  rw [gmkFree, if_neg (not_or.mpr ⟨hp, hz⟩), if_pos hin]

theorem gmkFree_block (ht : ptr ∉ a.taskSlab.region) (hr : ptr ∉ a.traceSlab.region)
    (hb : ptr ∈ a.blockRegion) :
    gmkFree a ptr size = { a with block := gmkBlockFree a.block ptr size } := by
  have hout : ¬ (a.taskSlab.base ≤ ptr ∧ ptr < a.taskSlab.base + a.taskSlab.totalSize) := ht
  have hout' : ¬ (a.traceSlab.base ≤ ptr ∧ ptr < a.traceSlab.base + a.traceSlab.totalSize) := hr
  have hin : a.block.base ≤ ptr ∧ ptr < a.block.base + a.block.totalSize := hb
  rw [gmkFree, if_neg (not_or.mpr ⟨hp, hz⟩), if_neg hout, if_neg hout', if_pos hin]

end Free

end Ggmk

import Ggmk.Alloc.Bump
import Ggmk.Payload

/-! Alignment of what the allocators hand out. Object sizes are rounded up to eight bytes, but
the regions of an arena start where percentages of its size and sixtieths of a part of it end. -/
namespace Ggmk
open Word Guarded Slab

/-! ## The parts of an arena of `n` bytes -/

def taskPart (n : ℕ) : ℕ := u64 (n * 10) / 100
def tracePart (n : ℕ) : ℕ := u64 (n * 2) / 100
def bumpPart (n : ℕ) : ℕ := u64 (n * 20) / 100
def blockPart (n : ℕ) : ℕ := n - taskPart n - tracePart n - bumpPart n

/-- The share of bin `i` in a block region of `m` bytes, but for the last bin. -/
def binShare (m i : ℕ) : ℕ := u64 (m * binWeights.getD i 0) / binWeights.sum

/-- Where bin `i` starts in its block region. -/
def binOffset (m i : ℕ) : ℕ := ∑ j ∈ Finset.range i, binShare m j

/-- The memory of bin `i`; the last bin gets the rest. -/
def binPart (m i : ℕ) : ℕ := if i = gmkBlockBins - 1 then m - binOffset m i else binShare m i

theorem parts_le (n : ℕ) : taskPart n + tracePart n + bumpPart n ≤ n := by
  have h1 : taskPart n ≤ n * 10 / 100 := Nat.div_le_div_right (u64_le _)
  have h2 : tracePart n ≤ n * 2 / 100 := Nat.div_le_div_right (u64_le _)
  have h3 : bumpPart n ≤ n * 20 / 100 := Nat.div_le_div_right (u64_le _)
  omega

theorem binOffset_le (m : ℕ) {i : ℕ} (hi : i ≤ gmkBlockBins) :
    binOffset m i * 60 ≤ m * ∑ j ∈ Finset.range i, binWeights.getD j 0 := by
  induction i with
  | zero => simp [binOffset]
  | succ i ih =>
    have h := ih (by omega)
    have hshare : binShare m i * 60 ≤ m * binWeights.getD i 0 :=
      (Nat.div_mul_le_self _ _).trans (u64_le _)
    rw [Finset.sum_range_succ, Nat.mul_add, binOffset, Finset.sum_range_succ, Nat.add_mul]
    exact Nat.add_le_add h hshare

/-- The weights add up to sixty, so no share is cut short. -/
theorem binOffset_le_self (m : ℕ) {i : ℕ} (hi : i ≤ gmkBlockBins) : binOffset m i ≤ m := by
  have hsum : ∑ j ∈ Finset.range i, binWeights.getD j 0 ≤ 60 := by
    unfold gmkBlockBins at hi
    interval_cases i <;> decide
  have h := (binOffset_le m hi).trans (Nat.mul_le_mul_left m hsum)
  exact Nat.le_of_mul_le_mul_right h (by decide)

theorem binOffset_succ (m i : ℕ) : binOffset m (i + 1) = binOffset m i + binShare m i :=
  Finset.sum_range_succ _ _

/-- What the loop of `gmk_block_init` gives to bin `i`. -/
theorem binMem_eq (m : ℕ) {i : ℕ} (hi : i < gmkBlockBins) :
    binMem m (m - binOffset m i) i = binPart m i := by
  rw [binMem, binPart]
  by_cases hlast : i = gmkBlockBins - 1
  · simp [if_pos hlast]
  · have hle := binOffset_le_self m (i := i + 1) hi
    have hsucc := binOffset_succ m i
    have hfit : ¬ m - binOffset m i < binShare m i := by omega
    simp only [if_neg hlast]
    exact if_neg hfit

/-- The loop of `gmk_block_init` before bin `i`. -/
theorem initBins_ptr (mem m : ℕ) {i : ℕ} (hi : i < gmkBlockBins) :
    (initBins mem m i).ptr = mem + binOffset m i ∧
      (initBins mem m i).remaining = m - binOffset m i := by
  induction i with
  | zero => simp [initBins, binOffset]
  | succ i ih =>
    obtain ⟨hptr, hrem⟩ := ih (by omega)
    have hnot : ¬ i = gmkBlockBins - 1 := by omega
    have hshare : binPart m i = binShare m i := if_neg hnot
    simp only [initBins, hptr, hrem, binMem_eq m (show i < gmkBlockBins by omega), hshare,
      binOffset_succ]
    omega

theorem initBins_bin (mem m : ℕ) {i k : ℕ} (hi : i < k) (hk : k ≤ gmkBlockBins) :
    (initBins mem m k).bins i = initBin (mem + binOffset m i) (binPart m i) i := by
  induction k with
  | zero => omega
  | succ k ih =>
    obtain ⟨hptr, hrem⟩ := initBins_ptr mem m (i := k) hk
    simp only [initBins]
    by_cases hik : i = k
    · subst hik
      rw [Function.update_self, hptr, hrem, binMem_eq m hk]
    · rw [Function.update_of_ne hik]
      exact ih (by omega) (by omega)

/-! ## Where the regions start -/

theorem gmkAllocInit_parts {mem n : ℕ} {a : Alloc} (h : gmkAllocInit mem n = some a) :
    gmkSlabInit mem (taskPart n) sizeofTask = some a.taskSlab ∧
      gmkSlabInit (mem + taskPart n) (tracePart n) sizeofTraceEv = some a.traceSlab ∧
      gmkBlockInit (mem + taskPart n + tracePart n) (blockPart n) = some a.block ∧
      gmkBumpInit (mem + taskPart n + tracePart n + blockPart n) (bumpPart n) = some a.bump := by
  unfold gmkAllocInit at h
  split at h
  next => simp at h
  next =>
    simp only at h
    split at h
    next task trace block bump htask htrace hblock hbump =>
      obtain rfl := Option.some.inj h
      exact ⟨htask, htrace, hblock, hbump⟩
    next => simp at h

/-- Bin `i` gets room for an object and its free-list entry. -/
def BinFits (n i : ℕ) : Prop :=
  gmkBlockMinSize <<< i + 4 ≤ binPart (blockPart n) i ∧
    u32 (binPart (blockPart n) i / (gmkBlockMinSize <<< i + 4)) ≠ 0

instance (n i : ℕ) : Decidable (BinFits n i) := inferInstanceAs (Decidable (_ ∧ _))

/-- The arena sizes for which every region in use starts at a multiple of its alignment. -/
structure CutAligned (n : ℕ) : Prop where
  trace : taskPart n % 4 = 0
  bin : ∀ i < gmkBlockBins, BinFits n i →
    (taskPart n + tracePart n + binOffset (blockPart n) i) % 8 = 0
  bump : (n - bumpPart n) % 8 = 0

instance (n : ℕ) : Decidable (CutAligned n) :=
  decidable_of_iff (taskPart n % 4 = 0 ∧ (∀ i < gmkBlockBins, BinFits n i →
      (taskPart n + tracePart n + binOffset (blockPart n) i) % 8 = 0) ∧ (n - bumpPart n) % 8 = 0)
    ⟨fun h => ⟨h.1, h.2.1, h.2.2⟩, fun h => ⟨h.trace, h.bin, h.bump⟩⟩

/-! ## Calls -/

/-- A call of the allocator's interface, with any arguments. -/
inductive AllocCall where
  | alloc (size : UInt32)
  | free (ptr : ℕ) (size : UInt32)
  | bump (size : UInt32)
  | bumpResetAll
  | payloadAlloc (size : UInt32)
  | payloadRetain (payload : ℕ)
  | payloadRelease (payload : ℕ)

/-- The pointer a call returns, and the heap after it. -/
def AllocCall.run (h : Heap) : AllocCall → Option ℕ × Heap
  | .alloc size => ((gmkAlloc h.alloc size.toNat).1, { h with
      alloc := (gmkAlloc h.alloc size.toNat).2 })
  | .free ptr size => (none, { h with alloc := gmkFree h.alloc ptr size.toNat })
  | .bump size => ((gmkBump h.alloc size.toNat).1, { h with
      alloc := (gmkBump h.alloc size.toNat).2 })
  | .bumpResetAll => (none, { h with alloc := gmkBumpResetAll h.alloc })
  | .payloadAlloc size => gmkPayloadAlloc h size
  | .payloadRetain payload => (none, gmkPayloadRetain h payload)
  | .payloadRelease payload => (none, (gmkPayloadRelease h payload).2)

namespace Heap

/-- Every pointer the next call may return is a multiple of eight, and every free list of a
slab that was initialised starts at a multiple of four. -/
structure Aligned (h : Heap) : Prop where
  ptr : ∀ (c : AllocCall) (p : ℕ), (c.run h).1 = some p → p % 8 = 0
  list : ∀ o, 0 < (h.alloc.slab o).capacity → (h.alloc.slab o).freeList % 4 = 0

end Heap

/-- What the alignment rests on: the slabs `gmk_alloc` takes objects from and the bump region
start at multiples of eight, and sizes and the offset are multiples of eight. -/
structure Alloc.Even (a : Alloc) : Prop where
  base : ∀ o, o ≠ .trace → 0 < (a.slab o).capacity → (a.slab o).base % 8 = 0
  obj : ∀ o, 0 < (a.slab o).capacity → (a.slab o).objSize % 8 = 0
  list : ∀ o, 0 < (a.slab o).capacity → (a.slab o).freeList % 4 = 0
  task_cap : 0 < a.taskSlab.capacity
  bump_base : a.bump.base % 8 = 0
  bump_offset : a.bump.offset % 8 = 0

theorem gmkSlabAlloc_shape {s s' : Slab} {p : ℕ} (h : gmkSlabAlloc s = some (p, s')) :
    s'.SameShape s ∧ ∃ i, p = s.slot i := by
  unfold gmkSlabAlloc at h
  split at h
  next => simp at h
  next =>
    obtain ⟨rfl, rfl⟩ := Prod.mk.inj (Option.some.inj h)
    exact ⟨⟨rfl, rfl, rfl, rfl, rfl⟩, s.freeHead.toNat, rfl⟩

/-- Whatever pointer is freed, the slab keeps its place. -/
theorem gmkSlabFree_shape (s : Slab) (ptr : ℕ) : (gmkSlabFree s ptr).SameShape s := by
  unfold gmkSlabFree
  simp only
  repeat' split
  all_goals exact ⟨rfl, rfl, rfl, rfl, rfl⟩

theorem gmkFree_replaced (a : Alloc) (ptr size : ℕ) : gmkFree a ptr size = a ∨
    ∃ o, a.Replaced (gmkFree a ptr size) o (gmkSlabFree (a.slab o) ptr) := by
  unfold gmkFree
  split
  next => exact .inl rfl
  next =>
    split
    next => exact .inr ⟨.task, a.replaced_task _ _ _⟩
    next =>
      split
      next =>
        refine .inr ⟨.trace, ?_, rfl, rfl, rfl, rfl, rfl⟩
        funext o
        cases o <;> simp [Alloc.slab, Function.update]
      next =>
        split
        next =>
          unfold gmkBlockFree
          simp only
          repeat' split
          iterate 3 exact .inl rfl
          exact .inr ⟨.bin _, a.replaced_bin _ _ _ _⟩
        next => exact .inl rfl

namespace Alloc.Even
variable {a a' : Alloc} (h : a.Even)
include h

theorem replaced {o : SlabId} {s : Slab} (hr : a.Replaced a' o s) (hs : s.SameShape (a.slab o)) :
    a'.Even := by
  have hl := hr.sameLayout hs
  refine ⟨?_, ?_, ?_, ?_, hr.bump_eq ▸ h.bump_base, hr.bump_eq ▸ h.bump_offset⟩
  · intro o' ho hc
    obtain ⟨hb, -, -, hcap, -⟩ := hl.shape o'
    rw [hb]
    exact h.base o' ho (hcap ▸ hc)
  · intro o' hc
    obtain ⟨-, -, hobj, hcap, -⟩ := hl.shape o'
    rw [hobj]
    exact h.obj o' (hcap ▸ hc)
  · intro o' hc
    obtain ⟨-, -, -, hcap, hlist⟩ := hl.shape o'
    rw [hlist]
    exact h.list o' (hcap ▸ hc)
  · have hcap := (hl.shape .task).2.2.2.1
    exact hcap.symm ▸ h.task_cap

theorem free (ptr size : ℕ) : (gmkFree a ptr size).Even := by
  rcases gmkFree_replaced a ptr size with he | ⟨o, hr⟩
  · rw [he]
    exact h
  · exact h.replaced hr (gmkSlabFree_shape _ _)

theorem slot_mod {o : SlabId} (ho : o ≠ .trace) (hc : 0 < (a.slab o).capacity) (i : ℕ) :
    (a.slab o).slot i % 8 = 0 := by
  have hb := h.base o ho hc
  have hobj : i * (a.slab o).objSize % 8 = 0 := by rw [Nat.mul_mod, h.obj o hc, Nat.mul_zero]
  rw [slot]
  omega

theorem alloc (size : ℕ) : (gmkAlloc a size).2.Even ∧
    ∀ p, (gmkAlloc a size).1 = some p → p % 8 = 0 := by
  cases hg : gmkAlloc a size with
  | mk r a' =>
    cases r with
    | none =>
      refine ⟨?_, by simp⟩
      rw [gmkAlloc_none hg]
      exact ⟨h.base, h.obj, h.list, h.task_cap, h.bump_base, h.bump_offset⟩
    | some p =>
      obtain ⟨-, o, s, hserves, hcap, hslab, hrep⟩ := gmkAlloc_some h.task_cap hg
      obtain ⟨hshape, i, rfl⟩ := gmkSlabAlloc_shape hslab
      refine ⟨h.replaced hrep hshape, ?_⟩
      intro p hp
      obtain rfl := Option.some.inj hp
      have ho : o ≠ .trace := by
        rcases hserves with ⟨rfl, -⟩ | ⟨i, rfl, -⟩ <;> simp
      exact h.slot_mod ho hcap i

/-- Only the offset of the bump allocator moves. -/
theorem withBump {b : Bump} (hb : b.base = a.bump.base) (ho : b.offset % 8 = 0) :
    Alloc.Even { a with bump := b } :=
  ⟨h.base, h.obj, h.list, h.task_cap, by rw [hb]; exact h.bump_base, ho⟩

theorem bump (size : ℕ) : (gmkBump a size).2.Even ∧
    ∀ p, (gmkBump a size).1 = some p → p % 8 = 0 := by
  have hbase := h.bump_base
  have hoff := h.bump_offset
  have hsize := alignUp8_mod size
  have hnew : u32 (a.bump.offset + alignUp8 size) % 8 = 0 := by
    unfold u32
    omega
  simp only [gmkBump, gmkBumpAlloc]
  split
  next => exact ⟨h, by simp⟩
  next =>
    split
    next =>
      refine ⟨h.withBump rfl ?_, by simp⟩
      show sub32 (u32 (a.bump.offset + alignUp8 size)) (alignUp8 size) % 8 = 0
      unfold sub32 u32 at *
      omega
    next =>
      refine ⟨h.withBump rfl hnew, ?_⟩
      intro p hp
      obtain rfl := Option.some.inj hp
      omega

end Alloc.Even

/-- One call keeps the alignment and returns an aligned pointer. -/
theorem AllocCall.run_even {h : Heap} (he : h.alloc.Even) (c : AllocCall) :
    (c.run h).2.alloc.Even ∧ ∀ p, (c.run h).1 = some p → p % 8 = 0 := by
  cases c with
  | alloc size => exact he.alloc size.toNat
  | free ptr size => exact ⟨he.free ptr size.toNat, by simp [run]⟩
  | bump size => exact he.bump size.toNat
  | bumpResetAll => exact ⟨he.withBump rfl rfl, by simp [run]⟩
  | payloadAlloc size =>
    simp only [run, gmkPayloadAlloc]
    split
    next => exact ⟨he, by simp⟩
    next =>
      obtain ⟨heven, hptr⟩ := he.alloc (u32 (sizeofPayloadHdr + size.toNat))
      split
      next mem a hmem =>
        rw [hmem] at heven hptr
        refine ⟨heven, ?_⟩
        intro p hp
        obtain rfl := Option.some.inj hp
        have hmod := hptr mem rfl
        unfold sizeofPayloadHdr
        omega
      next a hmem =>
        rw [hmem] at heven
        exact ⟨heven, by simp⟩
  | payloadRetain payload =>
    refine ⟨?_, by simp [run]⟩
    simp only [run, gmkPayloadRetain]
    split <;> exact he
  | payloadRelease payload =>
    refine ⟨?_, by simp [run]⟩
    simp only [run, gmkPayloadRelease]
    repeat' split
    · exact he
    · exact he.free _ _
    · exact he

/-! ## The start -/

theorem gmkSlabInit_head {mem memSize objSize : ℕ} {s : Slab}
    (h : gmkSlabInit mem memSize objSize = some s) : s.freeHead = 0 := by
  unfold gmkSlabInit at h
  split at h
  next => simp at h
  next =>
    simp only at h
    split at h
    next => simp at h
    next =>
      obtain rfl := Option.some.inj h
      rfl

/-- A bin is initialised when its part has room. -/
theorem initBin_some {ptr share i : ℕ} (hi : i < gmkBlockBins)
    (hc : 0 < (initBin ptr share i).capacity) :
    gmkSlabInit ptr share (gmkBlockMinSize <<< i) = some (initBin ptr share i) ∧
      gmkBlockMinSize <<< i + 4 ≤ share ∧ u32 (share / (gmkBlockMinSize <<< i + 4)) ≠ 0 := by
  unfold initBin at hc ⊢
  simp only [alignUp8_bin hi] at hc ⊢
  split at hc
  next => exact absurd hc (lt_irrefl 0)
  next hroom =>
    rw [if_neg hroom]
    cases hs : gmkSlabInit ptr share (gmkBlockMinSize <<< i) with
    | none =>
      rw [hs] at hc
      exact absurd hc (lt_irrefl 0)
    | some s =>
      refine ⟨rfl, not_lt.mp hroom, ?_⟩
      intro hz
      simp [gmkSlabInit, alignUp8_bin hi, hz] at hs

theorem initBin_capacity {ptr share i : ℕ} (hi : i < gmkBlockBins) (hptr : ptr ≠ 0)
    (hroom : gmkBlockMinSize <<< i + 4 ≤ share)
    (hcap : u32 (share / (gmkBlockMinSize <<< i + 4)) ≠ 0) :
    0 < (initBin ptr share i).capacity := by
  have hobj : gmkBlockMinSize <<< i ≠ 0 := by
    rw [Nat.shiftLeft_eq]
    exact Nat.mul_ne_zero (by decide) (by positivity)
  have hinit := alignUp8_bin hi
  simp only [initBin, hinit, if_neg (not_lt.mpr hroom), gmkSlabInit, hptr, hobj, or_self, if_false,
    if_neg hcap, Option.getD_some]
  exact Nat.pos_of_ne_zero hcap

section Start
variable {mem n : ℕ} {a : Alloc} (ha : gmkAllocInit mem n = some a)
include ha

theorem gmkAllocInit_bin {i : ℕ} (hi : i < gmkBlockBins) : a.slab (.bin i) =
    initBin (mem + taskPart n + tracePart n + binOffset (blockPart n) i)
      (binPart (blockPart n) i) i := by
  have hblock := (gmkAllocInit_parts ha).2.2.1
  unfold gmkBlockInit at hblock
  split at hblock
  next => simp at hblock
  next =>
    rw [Alloc.slab, ← Option.some.inj hblock]
    exact initBins_bin _ _ hi le_rfl

theorem gmkAllocInit_bin_unused {i : ℕ} (hi : gmkBlockBins ≤ i) :
    (a.slab (.bin i)).capacity = 0 := by
  have hblock := (gmkAllocInit_parts ha).2.2.1
  unfold gmkBlockInit at hblock
  split at hblock
  next => simp at hblock
  next hz =>
    have hinv := initBins_inv (blockPart n) (Nat.pos_of_ne_zero (not_or.mp hz).1) le_rfl
    rw [Alloc.slab, ← Option.some.inj hblock]
    exact congrArg Slab.capacity (hinv.untouched i hi)

theorem gmkAllocInit_mem_ne : mem ≠ 0 := by
  obtain ⟨-, _, _, _, _, hcut⟩ := gmkAllocInit_cut ha
  exact Nat.ne_of_gt hcut.mem_pos

/-- The slabs that were initialised, with their places in the arena. -/
theorem gmkAllocInit_slab {o : SlabId} (hc : 0 < (a.slab o).capacity) :
    ∃ ptr share objSize, gmkSlabInit ptr share objSize = some (a.slab o) ∧
      0 < alignUp8 objSize ∧ match o with
        | .task => ptr = mem
        | .trace => ptr = mem + taskPart n
        | .bin i => i < gmkBlockBins ∧ BinFits n i ∧
            ptr = mem + taskPart n + tracePart n + binOffset (blockPart n) i := by
  obtain ⟨htask, htrace, -, -⟩ := gmkAllocInit_parts ha
  rcases o with _ | _ | i
  · exact ⟨_, _, _, htask, by decide, rfl⟩
  · exact ⟨_, _, _, htrace, by decide, rfl⟩
  · have hi : i < gmkBlockBins := by
      by_contra hge
      rw [gmkAllocInit_bin_unused ha (not_lt.mp hge)] at hc
      exact lt_irrefl 0 hc
    rw [gmkAllocInit_bin ha hi] at hc ⊢
    obtain ⟨hs, hroom, hcap⟩ := initBin_some hi hc
    refine ⟨_, _, _, hs, ?_, hi, ⟨hroom, hcap⟩, rfl⟩
    rw [alignUp8_bin hi, Nat.shiftLeft_eq]
    exact Nat.mul_pos (by decide) (by positivity)

theorem gmkAllocInit_bump : a.bump.base = mem + (n - bumpPart n) ∧ a.bump.offset = 0 := by
  have hle := parts_le n
  have hbump := (gmkAllocInit_parts ha).2.2.2
  unfold gmkBumpInit at hbump
  split at hbump
  next => simp at hbump
  next =>
    rw [← Option.some.inj hbump]
    refine ⟨?_, rfl⟩
    simp only [blockPart]
    omega

theorem gmkAllocInit_even (hmem : mem % 64 = 0) (hcut : CutAligned n) : a.Even := by
  have hbase : ∀ o, 0 < (a.slab o).capacity →
      (a.slab o).base % 4 = 0 ∧ (o ≠ .trace → (a.slab o).base % 8 = 0) := by
    intro o hc
    obtain ⟨ptr, share, objSize, hs, hobj, hptr⟩ := gmkAllocInit_slab ha hc
    obtain ⟨hb, -⟩ := gmkSlabInit_some hs hobj
    have htrace := hcut.trace
    rcases o with _ | _ | i
    · simp only at hptr
      omega
    · simp only at hptr
      refine ⟨by omega, fun hne => absurd rfl hne⟩
    · obtain ⟨hi, hfits, hptr⟩ := hptr
      have hbin := hcut.bin i hi hfits
      omega
  have hobj : ∀ o, 0 < (a.slab o).capacity → (a.slab o).objSize % 8 = 0 := by
    intro o hc
    obtain ⟨ptr, share, objSize, hs, hobj, -⟩ := gmkAllocInit_slab ha hc
    obtain ⟨-, -, ho, -⟩ := gmkSlabInit_some hs hobj
    rw [ho, alignUp8_mod]
  have hbump := hcut.bump
  obtain ⟨hbb, hbo⟩ := gmkAllocInit_bump ha
  refine ⟨fun o ho hc => (hbase o hc).2 ho, hobj, ?_, ?_, by omega, by omega⟩
  · intro o hc
    obtain ⟨ptr, share, objSize, hs, hpos, -⟩ := gmkAllocInit_slab ha hc
    obtain ⟨-, -, -, hl, -⟩ := gmkSlabInit_some hs hpos
    have hb := (hbase o hc).1
    have hmul : (a.slab o).capacity * (a.slab o).objSize % 8 = 0 := by
      rw [Nat.mul_mod, hobj o hc, Nat.mul_zero]
    rw [hl.list_eq]
    omega
  · obtain ⟨-, _, _, _, _, hc⟩ := gmkAllocInit_cut ha
    exact hc.task_cap

/-- The first request of a bin's size gets the first object of the bin. -/
theorem gmkAllocInit_first {i : ℕ} (hi : i < gmkBlockBins) (hfits : BinFits n i) :
    (gmkAlloc a (gmkBlockMinSize <<< i)).1 =
      some (mem + taskPart n + tracePart n + binOffset (blockPart n) i) := by
  have hmem := gmkAllocInit_mem_ne ha
  have hcap : 0 < (a.slab (.bin i)).capacity := by
    rw [gmkAllocInit_bin ha hi]
    exact initBin_capacity hi (by omega) hfits.1 hfits.2
  obtain ⟨ptr, share, objSize, hs, hobj, -, -, rfl⟩ := gmkAllocInit_slab ha hcap
  have hhead := gmkSlabInit_head hs
  obtain ⟨hbase, -⟩ := gmkSlabInit_some hs hobj
  obtain ⟨s', hslab⟩ : ∃ s', gmkSlabAlloc (a.block.bins i) = some ((a.block.bins i).base, s') := by
    rw [gmkSlabAlloc, show (a.block.bins i).freeHead = 0 from hhead, if_neg (lt_irrefl 0)]
    simp only [Int.toNat_zero, Nat.zero_mul, Nat.add_zero]
    exact ⟨_, rfl⟩
  -- no bin has objects of the size of a task
  have hroute : routeAlloc a (gmkBlockMinSize <<< i) =
      allocFromBlock a (gmkBlockMinSize <<< i) := by
    unfold gmkBlockBins at hi
    interval_cases i <;> rfl
  have hidx : binIndex (gmkBlockMinSize <<< i) = i := by
    unfold gmkBlockBins at hi
    interval_cases i <;> decide
  have hpos : gmkBlockMinSize <<< i ≠ 0 := by
    rw [Nat.shiftLeft_eq]
    exact Nat.mul_ne_zero (by decide) (by positivity)
  have hneg : ¬ ((i : ℤ) < 0) := by omega
  have hcap' : (a.block.bins i).capacity ≠ 0 := Nat.ne_of_gt hcap
  simp only [gmkAlloc, if_neg hpos, hroute, allocFromBlock, gmkBlockAlloc, hidx, if_neg hneg,
    Int.toNat_natCast, if_neg hcap', hslab, Option.map_some]
  exact congrArg some hbase

theorem cutAligned_of_aligned (hmem : mem % 64 = 0) {hdrs : ℕ → PayloadHdr} {live : Finset ℕ}
    (h : Heap.Aligned ⟨a, hdrs, live⟩) : CutAligned n := by
  obtain ⟨htask, htrace, -, -⟩ := gmkAllocInit_parts ha
  constructor
  · obtain ⟨hb, -, ho, hl, hc, -⟩ := gmkSlabInit_some htrace (by decide)
    have hobj : a.traceSlab.objSize = 32 := ho.trans (by decide)
    have hlist := h.list .trace hc
    rw [show (Alloc.slab a .trace).freeList = _ from hl.list_eq, hb, hobj] at hlist
    omega
  · intro i hi hfits
    have hsize : (UInt32.ofNat (gmkBlockMinSize <<< i)).toNat = gmkBlockMinSize <<< i := by
      unfold gmkBlockBins at hi
      interval_cases i <;> rfl
    have hptr := h.ptr (.alloc (UInt32.ofNat (gmkBlockMinSize <<< i))) _
      (by rw [AllocCall.run, hsize]; exact gmkAllocInit_first ha hi hfits)
    omega
  · -- the size is rounded up to zero, so this call never fails
    obtain ⟨hbase, hoff⟩ := gmkAllocInit_bump ha
    have hrun : (AllocCall.run ⟨a, hdrs, live⟩ (.bump 0xFFFFFFFF)).1 = some a.bump.base := by
      have hround : alignUp8 (0xFFFFFFFF : UInt32).toNat = 0 := by decide
      have hne : (0xFFFFFFFF : UInt32).toNat ≠ 0 := by decide
      have hfit : ¬ u32 a.bump.size < u32 (0 + 0) := by simp [u32]
      simp only [AllocCall.run, gmkBump, gmkBumpAlloc, if_neg hne, hround, hoff, if_neg hfit,
        Nat.add_zero]
    have hptr := h.ptr _ _ hrun
    omega

end Start

/-- The state after a call. -/
def AllocCall.Step (h : Heap) (c : AllocCall) (h' : Heap) : Prop := h' = (c.run h).2

/-- Whatever is called in whatever order, the pointers and free lists of an arena of `n` bytes
are aligned exactly when the regions that are cut from it start at aligned offsets. -/
theorem calls_aligned_iff {mem n : ℕ} {a : Alloc} (ha : gmkAllocInit mem n = some a)
    (hmem : mem % 64 = 0) (hdrs : ℕ → PayloadHdr) :
    (∀ h, Reach AllocCall.Step (fun _ _ => True) ⟨a, hdrs, ∅⟩ h → h.Aligned) ↔ CutAligned n := by
  constructor
  · intro h
    exact cutAligned_of_aligned ha hmem (h _ .start)
  · intro hcut h hr
    have heven : h.alloc.Even := by
      apply hr.inv (I := fun h => h.alloc.Even) (gmkAllocInit_even ha hmem hcut)
      rintro s c _ hs - rfl
      exact (AllocCall.run_even hs c).1
    exact ⟨fun c => (AllocCall.run_even heven c).2, heven.list⟩

/-- An arena of 48000 bytes is cut at multiples of eight. -/
theorem calls_aligned_even : ∃ a, gmkAllocInit 64 48000 = some a ∧
    ∀ hdrs h, Reach AllocCall.Step (fun _ _ => True) ⟨a, hdrs, ∅⟩ h → h.Aligned := by
  have heval : (gmkAllocInit 64 48000).isSome = true := by decide
  obtain ⟨a, ha⟩ := Option.isSome_iff_exists.mp heval
  exact ⟨a, ha, fun hdrs => (calls_aligned_iff ha (by decide) hdrs).mpr (by decide)⟩

/-- In the smallest arena the first bump block starts at offset 3277. -/
theorem calls_misaligned : ∃ a, gmkAllocInit 64 4096 = some a ∧ ∀ hdrs,
    (AllocCall.run ⟨a, hdrs, ∅⟩ (.bump 8)).1 = some (64 + 3277) ∧
      ¬ Heap.Aligned ⟨a, hdrs, ∅⟩ := by
  have heval : (gmkAllocInit 64 4096).map (fun a => (gmkBump a 8).1) =
      some (some (64 + 3277)) := by decide
  obtain ⟨a, ha, hp⟩ := Option.map_eq_some_iff.mp heval
  refine ⟨a, ha, fun hdrs => ⟨hp, ?_⟩⟩
  intro h
  exact absurd (h.ptr (.bump 8) _ hp) (by decide)

end Ggmk

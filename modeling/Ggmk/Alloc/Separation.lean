import Ggmk.Alloc.Unified

/-! Runs of `gmk_alloc` and `gmk_free`: live blocks never overlap each other or the
allocator's own memory, and a freed slot returns to the slab that handed it out. -/
namespace Ggmk
open Word FreeList Slab

/-- A block the program holds; `owner` is the slab that handed it out. -/
structure LiveBlock where
  ptr : ℕ
  size : ℕ
  owner : SlabId
  deriving DecidableEq

structure AllocRun where
  alloc : Alloc
  live : List LiveBlock

/-- `p` is the slot that left the front of the free list of slab `o`, and no other slab
changed. -/
def HandedOut (a a' : Alloc) (o : SlabId) (p : ℕ) : Prop :=
  (∃ i : ℕ, (a.slab o).freeHead = i ∧ p = (a.slab o).slot i ∧
    (a'.slab o).freeHead = (a.slab o).links i) ∧ ∀ o', o' ≠ o → a'.slab o' = a.slab o'

/-- `p` is the slot that joined the front of the free list of slab `o`, and no other slab
changed. -/
def PutBack (a a' : Alloc) (o : SlabId) (p : ℕ) : Prop :=
  (∃ i : ℕ, p = (a.slab o).slot i ∧ (a'.slab o).freeHead = i ∧
    (a'.slab o).links i = (a.slab o).freeHead) ∧ ∀ o', o' ≠ o → a'.slab o' = a.slab o'

/-- Frees pass a live pointer together with the size it was allocated with. -/
inductive AllocStep : AllocRun → AllocRun → Prop
  | alloc {a a' : Alloc} {live : List LiveBlock} {size p : ℕ} {o : SlabId}
      (h : gmkAlloc a size = (some p, a')) (ho : HandedOut a a' o p) :
      AllocStep ⟨a, live⟩ ⟨a', ⟨p, size, o⟩ :: live⟩
  | refuse {a a' : Alloc} {live : List LiveBlock} {size : ℕ}
      (h : gmkAlloc a size = (none, a')) : AllocStep ⟨a, live⟩ ⟨a', live⟩
  | free {a : Alloc} {live : List LiveBlock} {b : LiveBlock} (h : b ∈ live) :
      AllocStep ⟨a, live⟩ ⟨gmkFree a b.ptr b.size, live.erase b⟩

namespace AllocRun

/-- The bytes of a live block: the whole object of its slab. -/
def extent (s : AllocRun) (b : LiveBlock) : Set ℕ := bytes b.ptr (s.alloc.slab b.owner).objSize

structure Separated (s : AllocRun) : Prop where
  apart : s.live.Pairwise fun b c => Disjoint (s.extent b) (s.extent c)
  enough : ∀ b ∈ s.live, b.size ≤ (s.alloc.slab b.owner).objSize
  inside : ∀ b ∈ s.live,
    s.extent b ⊆ s.alloc.taskSlab.region ∨ s.extent b ⊆ s.alloc.blockRegion
  in_arena : ∀ b ∈ s.live, s.extent b ⊆ s.alloc.arenaRegion
  off_lists : ∀ b ∈ s.live, ∀ o, Disjoint (s.extent b) (s.alloc.slab o).listArea
  off_trace : ∀ b ∈ s.live, Disjoint (s.extent b) s.alloc.traceSlab.region
  off_bump : ∀ b ∈ s.live, Disjoint (s.extent b) s.alloc.bumpRegion

end AllocRun

/-- How the arena is cut; no operation changes it. -/
structure Alloc.Layout (a : Alloc) : Prop where
  laid : ∀ o, (a.slab o).Laid
  apart : ∀ o o', o ≠ o' → Disjoint (a.slab o).region (a.slab o').region
  bin_subset : ∀ i, (a.slab (.bin i)).region ⊆ a.blockRegion
  task_block : Disjoint (a.slab .task).region a.blockRegion
  trace_block : Disjoint (a.slab .trace).region a.blockRegion
  off_bump : ∀ o, Disjoint (a.slab o).region a.bumpRegion
  in_arena : ∀ o, (a.slab o).region ⊆ a.arenaRegion
  task_obj : a.taskSlab.objSize = sizeofTask
  bin_obj : ∀ i, 0 < (a.slab (.bin i)).capacity →
    (a.slab (.bin i)).objSize = gmkBlockMinSize <<< i
  base_pos : ∀ o, 0 < (a.slab o).capacity → 0 < (a.slab o).base
  task_cap : 0 < a.taskSlab.capacity

/-- The live blocks are slots off the free lists, in slabs that serve their size. -/
structure AllocRun.Inv (s : AllocRun) : Prop where
  layout : s.alloc.Layout
  owned : ∃ free : SlabId → List ℕ, (∀ o, (s.alloc.slab o).Free (free o)) ∧
    ∀ b ∈ s.live, b.size ≠ 0 ∧ Serves b.owner b.size ∧
      ∃ i < (s.alloc.slab b.owner).capacity, i < 2 ^ 31 ∧ i ∉ free b.owner ∧
        b.ptr = (s.alloc.slab b.owner).slot i
  distinct : s.live.Pairwise fun b c => b.owner = c.owner → b.ptr ≠ c.ptr

/-! ## The initial cut -/

theorem gmkBumpInit_some {mem memSize : ℕ} {b : Bump} (h : gmkBumpInit mem memSize = some b) :
    b.base = mem ∧ b.size = memSize := by
  unfold gmkBumpInit at h
  split at h
  next => simp at h
  next =>
    obtain rfl := Option.some.inj h
    exact ⟨rfl, rfl⟩

/-- The parts of the arena, one behind the other as `gmk_alloc_init` cuts them. -/
structure Alloc.Cut (a : Alloc) (mem taskSize traceSize blockSize bumpSize : ℕ) : Prop where
  mem_pos : 0 < mem
  base : a.arenaBase = mem
  total : a.arenaSize = taskSize + traceSize + blockSize + bumpSize
  task : a.taskSlab.region = bytes mem taskSize
  trace : a.traceSlab.region = bytes (mem + taskSize) traceSize
  block : a.blockRegion = bytes (mem + taskSize + traceSize) blockSize
  bump : a.bumpRegion = bytes (mem + taskSize + traceSize + blockSize) bumpSize
  laid : ∀ o, (a.slab o).Laid
  free : ∀ o, ∃ free, (a.slab o).Free free
  base_pos : ∀ o, 0 < (a.slab o).capacity → 0 < (a.slab o).base
  bin_subset : ∀ i, (a.slab (.bin i)).region ⊆ a.blockRegion
  bin_apart : ∀ i j, i ≠ j → Disjoint (a.slab (.bin i)).region (a.slab (.bin j)).region
  bin_obj : ∀ i, 0 < (a.slab (.bin i)).capacity → (a.slab (.bin i)).objSize = gmkBlockMinSize <<< i
  task_obj : a.taskSlab.objSize = sizeofTask
  task_cap : 0 < a.taskSlab.capacity

theorem gmkAllocInit_cut {mem arenaSize : ℕ} {a : Alloc} (h : gmkAllocInit mem arenaSize = some a) :
    a.arenaSize = arenaSize ∧ ∃ taskSize traceSize blockSize bumpSize,
      a.Cut mem taskSize traceSize blockSize bumpSize := by
  unfold gmkAllocInit at h
  split at h
  next => simp at h
  next hok =>
    simp only at h
    split at h
    next task trace block bump htask htrace hblock hbump =>
      obtain rfl := Option.some.inj h
      have h1 : u64 (arenaSize * 10) / 100 ≤ arenaSize * 10 / 100 :=
        Nat.div_le_div_right (u64_le _)
      have h2 : u64 (arenaSize * 2) / 100 ≤ arenaSize * 2 / 100 := Nat.div_le_div_right (u64_le _)
      have h3 : u64 (arenaSize * 20) / 100 ≤ arenaSize * 20 / 100 :=
        Nat.div_le_div_right (u64_le _)
      obtain ⟨htb, htt, hto, htl, htc, hft⟩ := gmkSlabInit_some htask (by decide)
      obtain ⟨hrb, hrt, hro, hrl, hrc, hfr⟩ := gmkSlabInit_some htrace (by decide)
      obtain ⟨hbb, hbt, hbin, hbapart⟩ := gmkBlockInit_some hblock
      obtain ⟨hub, hut⟩ := gmkBumpInit_some hbump
      refine ⟨rfl, task.totalSize, trace.totalSize, block.totalSize, bump.size,
        ⟨by omega, rfl, ?_, ?_, ?_, ?_, ?_, ?_, ?_, ?_, ?_, hbapart, fun i => (hbin i).obj_eq, hto,
          htc⟩⟩
      · simp only [htt, hrt, hbt, hut]
        omega
      · rw [region, htb]
      · rw [region, hrb, htt]
      · rw [Alloc.blockRegion, hbb, htt, hrt]
      · rw [Alloc.bumpRegion, hub, htt, hrt, hbt]
      · rintro (_ | _ | i)
        · exact htl
        · exact hrl
        · exact (hbin i).laid
      · rintro (_ | _ | i)
        · exact hft
        · exact hfr
        · exact (hbin i).free
      · rintro (_ | _ | i) hc
        · exact htb.symm ▸ (by omega)
        · exact hrb.symm ▸ (by omega)
        · exact (hbin i).base_pos hc
      · intro i
        rw [Alloc.blockRegion, hbb, hbt]
        exact (hbin i).region_subset
    next => simp at h

namespace Alloc.Cut
variable {a : Alloc} {mem taskSize traceSize blockSize bumpSize : ℕ}
  (h : a.Cut mem taskSize traceSize blockSize bumpSize)
include h

theorem task_trace : Disjoint a.taskSlab.region a.traceSlab.region := by
  rw [h.task, h.trace]
  exact bytes_disjoint le_rfl

theorem task_block : Disjoint a.taskSlab.region a.blockRegion := by
  rw [h.task, h.block]
  apply bytes_disjoint
  omega

theorem trace_block : Disjoint a.traceSlab.region a.blockRegion := by
  rw [h.trace, h.block]
  exact bytes_disjoint le_rfl

theorem apart {o o' : SlabId} (hne : o ≠ o') : Disjoint (a.slab o).region (a.slab o').region := by
  rcases o with _ | _ | i <;> rcases o' with _ | _ | j
  · exact absurd rfl hne
  · exact h.task_trace
  · exact h.task_block.mono_right (h.bin_subset j)
  · exact h.task_trace.symm
  · exact absurd rfl hne
  · exact h.trace_block.mono_right (h.bin_subset j)
  · exact (h.task_block.mono_right (h.bin_subset i)).symm
  · exact (h.trace_block.mono_right (h.bin_subset i)).symm
  · exact h.bin_apart i j fun he => hne (congrArg SlabId.bin he)

/-- The bump region starts where the block region ends. -/
theorem off_bump (o : SlabId) : Disjoint (a.slab o).region a.bumpRegion := by
  rw [h.bump]
  rcases o with _ | _ | i
  · rw [show (a.slab .task).region = _ from h.task]
    apply bytes_disjoint
    omega
  · rw [show (a.slab .trace).region = _ from h.trace]
    apply bytes_disjoint
    omega
  · refine Disjoint.mono_left (h.bin_subset i) ?_
    rw [h.block]
    exact bytes_disjoint le_rfl

theorem in_arena (o : SlabId) : (a.slab o).region ⊆ a.arenaRegion := by
  rw [Alloc.arenaRegion, h.base, h.total]
  rcases o with _ | _ | i
  · rw [show (a.slab .task).region = _ from h.task]
    exact bytes_subset le_rfl (by omega)
  · rw [show (a.slab .trace).region = _ from h.trace]
    exact bytes_subset (by omega) (by omega)
  · apply (h.bin_subset i).trans
    rw [h.block]
    exact bytes_subset (by omega) (by omega)

theorem layout : a.Layout :=
  ⟨h.laid, fun _ _ => h.apart, h.bin_subset, h.task_block, h.trace_block, h.off_bump, h.in_arena,
    h.task_obj, h.bin_obj, h.base_pos, h.task_cap⟩

end Alloc.Cut

theorem gmkAllocInit_inv {mem arenaSize : ℕ} {a : Alloc}
    (h : gmkAllocInit mem arenaSize = some a) : (AllocRun.mk a []).Inv := by
  obtain ⟨-, _, _, _, _, hcut⟩ := gmkAllocInit_cut h
  choose free hfree using hcut.free
  exact ⟨hcut.layout, ⟨free, hfree, by simp⟩, List.Pairwise.nil⟩

/-! ## What a step keeps -/

/-- The slabs keep their place and size, and the other regions are the same. -/
structure Alloc.SameLayout (a a' : Alloc) : Prop where
  shape : ∀ o, (a'.slab o).SameShape (a.slab o)
  block_eq : a'.blockRegion = a.blockRegion
  bump_eq : a'.bumpRegion = a.bumpRegion
  arena_eq : a'.arenaRegion = a.arenaRegion

theorem Slab.SameShape.region_eq {s s' : Slab} (h : s'.SameShape s) : s'.region = s.region := by
  rw [region, region, h.1, h.2.1]

theorem Alloc.SameLayout.layout {a a' : Alloc} (h : a.SameLayout a') (hl : a.Layout) :
    a'.Layout where
  laid o := (h.shape o).laid (hl.laid o)
  apart o o' hne := by
    rw [(h.shape o).region_eq, (h.shape o').region_eq]
    exact hl.apart o o' hne
  bin_subset i := by
    rw [(h.shape _).region_eq, h.block_eq]
    exact hl.bin_subset i
  task_block := by
    rw [(h.shape .task).region_eq, h.block_eq]
    exact hl.task_block
  trace_block := by
    rw [(h.shape .trace).region_eq, h.block_eq]
    exact hl.trace_block
  off_bump o := by
    rw [(h.shape o).region_eq, h.bump_eq]
    exact hl.off_bump o
  in_arena o := by
    rw [(h.shape o).region_eq, h.arena_eq]
    exact hl.in_arena o
  task_obj := (h.shape .task).2.2.1.trans hl.task_obj
  bin_obj i hc := by
    obtain ⟨-, -, ho, hcap, -⟩ := h.shape (.bin i)
    rw [ho]
    exact hl.bin_obj i (hcap ▸ hc)
  base_pos o hc := by
    obtain ⟨hb, -, -, hcap, -⟩ := h.shape o
    rw [hb]
    exact hl.base_pos o (hcap ▸ hc)
  task_cap := by
    have hcap := (h.shape .task).2.2.2.1
    exact hcap.symm ▸ hl.task_cap

theorem Alloc.Replaced.sameLayout {a a' : Alloc} {o : SlabId} {s : Slab} (h : a.Replaced a' o s)
    (hs : s.SameShape (a.slab o)) : a.SameLayout a' where
  shape o' := by
    rw [h.slab_eq]
    by_cases ho : o' = o
    · subst ho
      rw [Function.update_self]
      exact hs
    · rw [Function.update_of_ne ho]
      exact SameShape.refl _
  block_eq := by rw [blockRegion, blockRegion, h.block_base, h.block_size]
  bump_eq := by rw [bumpRegion, bumpRegion, h.bump_eq]
  arena_eq := by rw [arenaRegion, arenaRegion, h.arena_base, h.arena_size]

theorem Alloc.Replaced.slab_self {a a' : Alloc} {o : SlabId} {s : Slab} (h : a.Replaced a' o s) :
    a'.slab o = s := by rw [h.slab_eq, Function.update_self]

theorem Alloc.Replaced.slab_of_ne {a a' : Alloc} {o o' : SlabId} {s : Slab}
    (h : a.Replaced a' o s) (hne : o' ≠ o) : a'.slab o' = a.slab o' := by
  rw [h.slab_eq, Function.update_of_ne hne]

theorem Slab.slot_inj {s : Slab} (hl : s.Laid) {i j : ℕ} (hi : i < s.capacity)
    (h : s.slot i = s.slot j) : i = j := by
  have hpos : 0 < s.objSize := hl.obj_pos (by omega)
  exact Nat.eq_of_mul_eq_mul_right hpos (Nat.add_left_cancel h)

/-- The free head moves when a slot is taken. -/
theorem freeHead_ne {s s' : Slab} {p : ℕ} (h : gmkSlabAlloc s = some (p, s')) {free : List ℕ}
    (hf : s.Free free) : s'.freeHead ≠ s.freeHead := by
  obtain ⟨i, rest, rfl, -, hi, -, hf', -⟩ := gmkSlabAlloc_some h hf
  intro he
  rw [hi] at he
  obtain ⟨l, rfl, -⟩ := hf'.lists.pop (he ▸ Int.natCast_nonneg i)
  rw [he, Int.toNat_natCast] at hf
  exact (List.nodup_cons.mp hf.lists.2).1 List.mem_cons_self

theorem Alloc.Layout.slot_mem {a : Alloc} (hl : a.Layout) {o : SlabId} {i : ℕ}
    (hi : i < (a.slab o).capacity) : (a.slab o).slot i ∈ (a.slab o).region := by
  have hpos := (hl.laid o).obj_pos (by omega)
  exact (hl.laid o).slot_subset hi ⟨le_rfl, Nat.lt_add_of_pos_right hpos⟩

theorem Alloc.Layout.slot_ne_zero {a : Alloc} (hl : a.Layout) {o : SlabId} {i : ℕ}
    (hi : i < (a.slab o).capacity) : (a.slab o).slot i ≠ 0 := by
  have hpos := hl.base_pos o (by omega)
  unfold slot
  omega

/-- The address and the size lead `gmk_free` to the slab that served the request. -/
theorem Alloc.Layout.free_replaced {a : Alloc} (hl : a.Layout) {o : SlabId} {size i : ℕ}
    (hs : Serves o size) (hz : size ≠ 0) (hi : i < (a.slab o).capacity) :
    a.Replaced (gmkFree a ((a.slab o).slot i) size) o
      (gmkSlabFree (a.slab o) ((a.slab o).slot i)) := by
  have hmem := hl.slot_mem hi
  have hne := hl.slot_ne_zero hi
  rcases hs with ⟨rfl, -⟩ | ⟨j, rfl, hj⟩
  · rw [gmkFree_task hne hz hmem]
    exact a.replaced_task _ _ _
  · have hblock := hl.bin_subset j hmem
    rw [gmkFree_block hne hz (Set.disjoint_right.mp hl.task_block hblock)
      (Set.disjoint_right.mp hl.trace_block hblock) hblock,
      gmkBlockFree_bin hne hz hj (Nat.zero_lt_of_lt hi)]
    exact a.replaced_bin j _ _ _

/-! ## The invariant over runs -/
namespace AllocRun

theorem inv_alloc {a a' : Alloc} {live : List LiveBlock} {size p : ℕ} {o : SlabId}
    (hs : (mk a live).Inv) (h : gmkAlloc a size = (some p, a')) (ho : HandedOut a a' o p) :
    (mk a' (⟨p, size, o⟩ :: live)).Inv := by
  obtain ⟨free, hfree, hlive⟩ := hs.owned
  obtain ⟨hz, o₁, s, hserves, hcap, hslab, hrep⟩ := gmkAlloc_some hs.layout.task_cap h
  -- the slab that changed is the one that handed the block out
  obtain rfl : o = o₁ := by
    by_contra hne
    apply freeHead_ne hslab (hfree o₁)
    rw [← hrep.slab_self, ho.2 o₁ (Ne.symm hne)]
  obtain ⟨i, rest, hcons, rfl, -, -, hf', hshape⟩ := gmkSlabAlloc_some hslab (hfree o)
  have hlay := hrep.sameLayout hshape
  have hi := (hfree o).bound i (hcons ▸ List.mem_cons_self)
  have hnodup : (i :: rest).Nodup := hcons ▸ (hfree o).lists.2
  have hkeep : ∀ b ∈ live, ∃ j < (a'.slab b.owner).capacity, j < 2 ^ 31 ∧
      j ∉ Function.update free o rest b.owner ∧ b.ptr = (a'.slab b.owner).slot j := by
    intro b hb
    obtain ⟨-, -, j, hj, hj', hnot, hptr⟩ := hlive b hb
    refine ⟨j, (hlay.shape b.owner).2.2.2.1.symm ▸ hj, hj', ?_, ?_⟩
    · by_cases hbo : b.owner = o
      · rw [hbo, Function.update_self]
        rw [hbo, hcons] at hnot
        exact fun hm => hnot (List.mem_cons_of_mem _ hm)
      · rwa [Function.update_of_ne hbo]
    · rw [(hlay.shape b.owner).slot_eq]
      exact hptr
  refine ⟨hlay.layout hs.layout, ⟨Function.update free o rest, ?_, ?_⟩, ?_⟩
  · intro o'
    by_cases ho' : o' = o
    · subst ho'
      rw [Function.update_self, hrep.slab_self]
      exact hf'
    · rw [Function.update_of_ne ho', hrep.slab_of_ne ho']
      exact hfree o'
  · intro b hb
    rcases List.mem_cons.mp hb with rfl | hb
    · refine ⟨hz, hserves, i, (hlay.shape o).2.2.2.1.symm ▸ hi.1, hi.2, ?_, ?_⟩
      · rw [Function.update_self]
        exact (List.nodup_cons.mp hnodup).1
      · exact ((hlay.shape o).slot_eq i).symm
    · exact ⟨(hlive b hb).1, (hlive b hb).2.1, hkeep b hb⟩
  · refine List.pairwise_cons.mpr ⟨fun b hb hob heq => ?_, hs.distinct⟩
    obtain ⟨-, -, j, hj, -, hnot, hptr⟩ := hlive b hb
    simp only at hob heq
    rw [← hob] at hptr hnot
    have hij := Slab.slot_inj (hs.layout.laid o) hi.1 (heq.trans hptr)
    exact hnot (hcons ▸ hij ▸ List.mem_cons_self)

theorem inv_refuse {a a' : Alloc} {live : List LiveBlock} {size : ℕ} (hs : (mk a live).Inv)
    (h : gmkAlloc a size = (none, a')) : (mk a' live).Inv := by
  have hlay : a.SameLayout a' := by
    rw [gmkAlloc_none h]
    exact ⟨fun _ => SameShape.refl _, rfl, rfl, rfl⟩
  refine ⟨hlay.layout hs.layout, ?_, hs.distinct⟩
  rw [gmkAlloc_none h]
  exact hs.owned

/-- A live block is freed into its owner. -/
theorem inv_putBack {s : AllocRun} (hs : s.Inv) {b : LiveBlock} (hb : b ∈ s.live) :
    PutBack s.alloc (gmkFree s.alloc b.ptr b.size) b.owner b.ptr := by
  obtain ⟨free, hfree, hlive⟩ := hs.owned
  obtain ⟨hz, hserves, i, hi, hi', hnot, hptr⟩ := hlive b hb
  have hrep := hs.layout.free_replaced hserves hz hi
  have hput := gmkSlabFree_slot (hs.layout.laid b.owner) (hfree b.owner) hi hi' hnot
    (hs.layout.slot_ne_zero hi)
  rw [hptr]
  refine ⟨⟨i, rfl, ?_, ?_⟩, fun o' ho' => hrep.slab_of_ne ho'⟩
  · rw [hrep.slab_self]
    exact hput.2.2.1
  · rw [hrep.slab_self]
    exact hput.2.2.2

theorem inv_free {a : Alloc} {live : List LiveBlock} {b : LiveBlock} (hs : (mk a live).Inv)
    (hb : b ∈ live) : (mk (gmkFree a b.ptr b.size) (live.erase b)).Inv := by
  obtain ⟨free, hfree, hlive⟩ := hs.owned
  obtain ⟨hz, hserves, i, hi, hi', hnot, hptr⟩ := hlive b hb
  simp only at hfree hi hnot hptr
  have hrep := hs.layout.free_replaced hserves hz hi
  rw [← hptr] at hrep
  have hput := gmkSlabFree_slot (hs.layout.laid b.owner) (hfree b.owner) hi hi' hnot
    (hs.layout.slot_ne_zero hi)
  rw [← hptr] at hput
  have hlay := hrep.sameLayout hput.2.1
  have hperm := List.perm_cons_erase hb
  have hpair := (hperm.pairwise_iff fun hne heq => (hne heq.symm).symm).mp hs.distinct
  obtain ⟨hfirst, hrest⟩ := List.pairwise_cons.mp hpair
  refine ⟨hlay.layout hs.layout, ⟨Function.update free b.owner (i :: free b.owner), ?_, ?_⟩, hrest⟩
  · intro o
    by_cases ho : o = b.owner
    · subst ho
      rw [Function.update_self, hrep.slab_self]
      exact hput.1
    · rw [Function.update_of_ne ho, hrep.slab_of_ne ho]
      exact hfree o
  · intro c hc
    obtain ⟨hcz, hcs, j, hj, hj', hcnot, hcptr⟩ := hlive c (List.mem_of_mem_erase hc)
    simp only at hj hcptr
    refine ⟨hcz, hcs, j, (hlay.shape c.owner).2.2.2.1.symm ▸ hj, hj', ?_, ?_⟩
    · by_cases ho : c.owner = b.owner
      · rw [ho, Function.update_self, List.mem_cons]
        rw [ho] at hcnot hcptr
        rintro (rfl | hm)
        · exact hfirst c hc ho.symm (hptr.trans hcptr.symm)
        · exact hcnot hm
      · rwa [Function.update_of_ne ho]
    · rw [(hlay.shape c.owner).slot_eq]
      exact hcptr

theorem step_inv {s s' : AllocRun} (hs : s.Inv) (h : AllocStep s s') : s'.Inv := by
  cases h with
  | alloc h ho => exact inv_alloc hs h ho
  | refuse h => exact inv_refuse hs h
  | free hb => exact inv_free hs hb

theorem run_inv {mem arenaSize : ℕ} {a : Alloc} (h : gmkAllocInit mem arenaSize = some a)
    {s : AllocRun} (hr : Relation.ReflTransGen AllocStep ⟨a, []⟩ s) : s.Inv := by
  induction hr with
  | refl => exact gmkAllocInit_inv h
  | tail _ hstep ih => exact step_inv ih hstep

/-- Each served request has exactly one slab that handed the block out. -/
theorem inv_handedOut {s : AllocRun} (hs : s.Inv) {size p : ℕ} {a' : Alloc}
    (h : gmkAlloc s.alloc size = (some p, a')) : ∃! o, HandedOut s.alloc a' o p := by
  obtain ⟨free, hfree, -⟩ := hs.owned
  obtain ⟨-, o, slab, -, -, hslab, hrep⟩ := gmkAlloc_some hs.layout.task_cap h
  obtain ⟨i, rest, -, hp, hhead, hnext, -, -⟩ := gmkSlabAlloc_some hslab (hfree o)
  refine ⟨o, ⟨⟨i, hhead, hp, hrep.slab_self.symm ▸ hnext⟩, fun o' ho' => hrep.slab_of_ne ho'⟩, ?_⟩
  intro o₁ ho₁
  by_contra hne
  apply freeHead_ne hslab (hfree o)
  rw [← hrep.slab_self, ho₁.2 o (Ne.symm hne)]

section Separation
variable {s : AllocRun} (hs : s.Inv)
include hs

theorem Inv.slot {b : LiveBlock} (hb : b ∈ s.live) :
    ∃ i < (s.alloc.slab b.owner).capacity, b.ptr = (s.alloc.slab b.owner).slot i := by
  obtain ⟨free, -, hlive⟩ := hs.owned
  obtain ⟨-, -, i, hi, -, -, hptr⟩ := hlive b hb
  exact ⟨i, hi, hptr⟩

theorem Inv.serves {b : LiveBlock} (hb : b ∈ s.live) : Serves b.owner b.size := by
  obtain ⟨free, -, hlive⟩ := hs.owned
  exact (hlive b hb).2.1

theorem Inv.extent_subset {b : LiveBlock} (hb : b ∈ s.live) :
    s.extent b ⊆ (s.alloc.slab b.owner).region := by
  obtain ⟨i, hi, hptr⟩ := hs.slot hb
  rw [extent, hptr]
  exact (hs.layout.laid _).slot_subset hi

theorem Inv.extent_off_list {b : LiveBlock} (hb : b ∈ s.live) (o : SlabId) :
    Disjoint (s.extent b) (s.alloc.slab o).listArea := by
  by_cases ho : b.owner = o
  · obtain ⟨i, hi, hptr⟩ := hs.slot hb
    rw [extent, hptr, ← ho]
    exact (hs.layout.laid _).slot_disjoint_list hi
  · exact (hs.layout.apart _ _ ho).mono (hs.extent_subset hb) (hs.layout.laid o).list_subset

theorem Inv.extent_apart {b c : LiveBlock} (hb : b ∈ s.live) (hc : c ∈ s.live)
    (hne : b.owner = c.owner → b.ptr ≠ c.ptr) : Disjoint (s.extent b) (s.extent c) := by
  by_cases ho : b.owner = c.owner
  · obtain ⟨i, -, hi⟩ := hs.slot hb
    obtain ⟨j, -, hj⟩ := hs.slot hc
    have hij : i ≠ j := by
      rintro rfl
      exact hne ho (by rw [hi, hj, ho])
    rw [extent, extent, hi, hj, ho]
    exact slot_disjoint _ hij
  · exact (hs.layout.apart _ _ ho).mono (hs.extent_subset hb) (hs.extent_subset hc)

theorem Inv.enough {b : LiveBlock} (hb : b ∈ s.live) :
    b.size ≤ (s.alloc.slab b.owner).objSize := by
  obtain ⟨i, hi, -⟩ := hs.slot hb
  rcases hs.serves hb with ⟨ho, hsize⟩ | ⟨j, ho, hj⟩
  · rw [ho, hsize]
    exact hs.layout.task_obj.ge
  · rw [ho] at hi ⊢
    rw [hs.layout.bin_obj j (by omega)]
    exact le_of_binIndex hj

theorem Inv.ptr_mem_extent {b : LiveBlock} (hb : b ∈ s.live) : b.ptr ∈ s.extent b := by
  obtain ⟨i, hi, -⟩ := hs.slot hb
  exact ⟨le_rfl, Nat.lt_add_of_pos_right ((hs.layout.laid b.owner).obj_pos (by omega))⟩

/-- Live blocks start at different addresses. -/
theorem Inv.ptr_pairwise : s.live.Pairwise fun b c => b.ptr ≠ c.ptr := by
  apply hs.distinct.imp_of_mem
  intro b c hb hc hne heq
  have hdis := hs.extent_apart hb hc hne
  exact Set.disjoint_left.mp hdis (hs.ptr_mem_extent hb) (heq ▸ hs.ptr_mem_extent hc)

/-- A slot is never shorter than the smallest bin's objects. -/
theorem Inv.min_le_obj {b : LiveBlock} (hb : b ∈ s.live) :
    gmkBlockMinSize ≤ (s.alloc.slab b.owner).objSize := by
  obtain ⟨i, hi, -⟩ := hs.slot hb
  rcases hs.serves hb with ⟨ho, -⟩ | ⟨j, ho, -⟩
  · rw [ho]
    exact (by decide : gmkBlockMinSize ≤ sizeofTask).trans hs.layout.task_obj.ge
  · rw [ho] at hi ⊢
    rw [hs.layout.bin_obj j (by omega), Nat.shiftLeft_eq]
    exact Nat.le_mul_of_pos_right _ (by positivity)

theorem Inv.owner_ne_trace {b : LiveBlock} (hb : b ∈ s.live) : b.owner ≠ .trace := by
  rcases hs.serves hb with ⟨ho, -⟩ | ⟨j, ho, -⟩ <;> simp [ho]

theorem Inv.separated : s.Separated where
  apart := hs.distinct.imp_of_mem fun hb hc hne => hs.extent_apart hb hc hne
  enough _ hb := hs.enough hb
  inside b hb := by
    have hsub := hs.extent_subset hb
    rcases hs.serves hb with ⟨ho, -⟩ | ⟨j, ho, -⟩
    · rw [ho] at hsub
      exact Or.inl hsub
    · rw [ho] at hsub
      exact Or.inr (hsub.trans (hs.layout.bin_subset j))
  in_arena _ hb := (hs.extent_subset hb).trans (hs.layout.in_arena _)
  off_lists _ hb o := hs.extent_off_list hb o
  off_trace b hb :=
    (hs.layout.apart b.owner .trace (hs.owner_ne_trace hb)).mono_left (hs.extent_subset hb)
  off_bump b hb := (hs.layout.off_bump b.owner).mono_left (hs.extent_subset hb)

end Separation

/-- Dropping a block drops its address and no other. -/
theorem mem_erase_ptr {s : AllocRun} (hs : s.Inv) {b : LiveBlock} (hb : b ∈ s.live) {d p : ℕ}
    (hp : p = b.ptr + d) (q : ℕ) :
    (q ≠ p ∧ ∃ c ∈ s.live, q = c.ptr + d) ↔ ∃ c ∈ s.live.erase b, q = c.ptr + d := by
  have hpair := ((List.perm_cons_erase hb).pairwise_iff fun hne => Ne.symm hne).mp hs.ptr_pairwise
  constructor
  · rintro ⟨hne, c, hc, rfl⟩
    have hcb : c ≠ b := by
      rintro rfl
      exact hne hp.symm
    exact ⟨c, (List.mem_erase_of_ne hcb).mpr hc, rfl⟩
  · rintro ⟨c, hc, rfl⟩
    have hne := (List.pairwise_cons.mp hpair).1 c hc
    exact ⟨by omega, c, List.mem_of_mem_erase hc, rfl⟩

/-- Freeing a live block leaves the arena where it is. -/
theorem free_arena {s : AllocRun} (hs : s.Inv) {b : LiveBlock} (hb : b ∈ s.live) :
    (gmkFree s.alloc b.ptr b.size).arenaBase + (gmkFree s.alloc b.ptr b.size).arenaSize =
      s.alloc.arenaBase + s.alloc.arenaSize := by
  obtain ⟨free, -, hlive⟩ := hs.owned
  obtain ⟨hz, hserves, i, hi, -, -, hptr⟩ := hlive b hb
  have hrep := hs.layout.free_replaced hserves hz hi
  rw [hptr, hrep.arena_base, hrep.arena_size]

/-- A served request adds a live block and leaves the arena where it is. -/
theorem inv_served {a a' : Alloc} {live : List LiveBlock} (hs : (mk a live).Inv) {size p : ℕ}
    (h : gmkAlloc a size = (some p, a')) : ∃ o, (mk a' (⟨p, size, o⟩ :: live)).Inv ∧
      a'.arenaBase + a'.arenaSize = a.arenaBase + a.arenaSize := by
  obtain ⟨o, ho, -⟩ := inv_handedOut hs h
  obtain ⟨-, o', slab, -, -, -, hrep⟩ := gmkAlloc_some hs.layout.task_cap h
  refine ⟨o, inv_alloc hs h ho, ?_⟩
  rw [hrep.arena_base, hrep.arena_size]

/-- In every run the live blocks are separated, every block has one slab that handed it
out, and freeing it returns its slot to that slab. -/
theorem alloc_separation {mem arenaSize : ℕ} {a : Alloc}
    (h : gmkAllocInit mem arenaSize = some a) {s : AllocRun}
    (hr : Relation.ReflTransGen AllocStep ⟨a, []⟩ s) :
    s.Separated ∧
      (∀ size p a', gmkAlloc s.alloc size = (some p, a') → ∃! o, HandedOut s.alloc a' o p) ∧
      ∀ b ∈ s.live, PutBack s.alloc (gmkFree s.alloc b.ptr b.size) b.owner b.ptr := by
  have hs := run_inv h hr
  exact ⟨hs.separated, fun _ _ _ hp => inv_handedOut hs hp, fun _ hb => inv_putBack hs hb⟩

/-- A page-sized arena after one request of a task's size. -/
theorem alloc_separation_page : ∃ a p a' o, gmkAllocInit 64 4096 = some a ∧
    gmkAlloc a 48 = (some p, a') ∧ (AllocRun.mk a' [⟨p, 48, o⟩]).Separated := by
  have heval : (gmkAllocInit 64 4096).map (fun a => (gmkAlloc a 48).1) = some (some 64) := by rfl
  obtain ⟨a, ha, hp⟩ := Option.map_eq_some_iff.mp heval
  have hserved : gmkAlloc a 48 = (some 64, (gmkAlloc a 48).2) := Prod.ext hp rfl
  obtain ⟨o, ho, -⟩ := inv_handedOut (gmkAllocInit_inv ha) hserved
  exact ⟨a, 64, _, o, ha, hserved, (alloc_separation ha (.single (.alloc hserved ho))).1⟩

end AllocRun

end Ggmk

import Ggmk.Arch.Ram
import Ggmk.Arch.HeapBytes

/-! Blocks of the kernel heap. They are handed out in steps of 16 bytes while a free unmaps
whole pages, so that a free makes the bytes of the neighbours in these pages zero. -/
namespace Ggmk
open Word ByteMem PageTree Guarded

namespace Vm

theorem Tables.withHeapNext {s : Vm} (h : s.Tables) (n : ℕ) :
    Tables { s with heapNext := n } :=
  ⟨h.separate, h.used, h.plain, h.root_lt, h.total_le⟩

/-- An allocation where neither the rounded size nor the sum wraps. -/
theorem kmalloc_eq {s : Vm} {size : ℕ} (hsize : size ≠ 0) (hnext : s.heapNext + 15 < 2 ^ 64)
    (hlt : (s.heapNext + 15) / 16 * 16 + (size + 15) / 16 * 16 < 2 ^ 64)
    (hsize15 : size + 15 < 2 ^ 64) :
    s.kmalloc size =
      if vmmHeapEnd < (s.heapNext + 15) / 16 * 16 + (size + 15) / 16 * 16 then none
      else some ((s.heapNext + 15) / 16 * 16, { s with
        heapNext := (s.heapNext + 15) / 16 * 16 + (size + 15) / 16 * 16 }) := by
  simp only [kmalloc, if_neg hsize, uint64, Nat.mod_eq_of_lt hnext, Nat.mod_eq_of_lt hsize15,
    Nat.mod_eq_of_lt hlt]

/-- A block lies between the old and the new bump pointer. -/
theorem kmalloc_cases {s s' : Vm} {size ptr : ℕ} (hbase : vmmHeapBase ≤ s.heapNext)
    (hend : s.heapNext ≤ vmmHeapEnd)
    (hlt : (s.heapNext + 15) / 16 * 16 + (size + 15) / 16 * 16 < 2 ^ 64)
    (hs : s.kmalloc size = some (ptr, s')) :
    (size = 0 ∧ ptr = 0 ∧ s' = s) ∨
    (ptr ≠ 0 ∧ s.heapNext ≤ ptr ∧ ptr + size ≤ s'.heapNext ∧ s'.heapNext ≤ vmmHeapEnd ∧
      s' = { s with heapNext := s'.heapNext }) := by
  have hbase' : 0xffffffff88000000 ≤ s.heapNext := hbase
  have hend' : s.heapNext ≤ 0xffffffff90000000 := hend
  by_cases hsize : size = 0
  · simp only [kmalloc, if_pos hsize] at hs
    obtain ⟨rfl, rfl⟩ := Prod.mk.inj (Option.some.inj hs)
    exact .inl ⟨hsize, rfl, rfl⟩
  · rw [kmalloc_eq hsize (by omega) hlt (by omega)] at hs
    split at hs
    · exact absurd hs (by simp)
    · rename_i hfit
      obtain ⟨rfl, rfl⟩ := Prod.mk.inj (Option.some.inj hs)
      exact .inr ⟨by omega, by omega, by dsimp only; omega, by dsimp only; omega, rfl⟩

/-- Freeing a block makes the pages that it touches zero. -/
theorem Tables.kfree {s : Vm} {ptr size : ℕ} (h : s.Tables) (hptr : vmmHeapBase ≤ ptr)
    (hend : ptr + size ≤ vmmHeapEnd) :
    (s.kfree ptr size).Tables ∧ (s.kfree ptr size).heapNext = s.heapNext ∧
      ∀ w, InHeap w → (s.kfree ptr size).byteAt w = s.byteAt w ∨
        ((s.kfree ptr size).byteAt w = 0 ∧
          ptr / 4096 ≤ w / 4096 ∧ w / 4096 ≤ (ptr + size - 1) / 4096) := by
  unfold Vm.kfree
  split
  · exact ⟨h, rfl, fun _ _ => .inl rfl⟩
  · rename_i hne
    have hptr' : 0xffffffff88000000 ≤ ptr := hptr
    have hend' : ptr + size ≤ 0xffffffff90000000 := hend
    have hwrap : uint64 (ptr + size + 0xFFF) = ptr + size + 0xFFF := Nat.mod_eq_of_lt (by omega)
    have hcount : kfreeCount ptr size = (ptr + size + 0xFFF) / 4096 - ptr / 4096 := by
      unfold kfreeCount pageBase
      rw [hwrap]
      omega
    have hheap : ∀ i < kfreeCount ptr size, InHeap (pageBase ptr + i * 4096) := by
      intro i hi
      unfold InHeap pageBase vmmHeapEnd vmmHeapBase vmmHeapSize
      omega
    have haligned : pageBase ptr % 4096 = 0 := Nat.mul_mod_left _ _
    obtain ⟨htables, hnext, hbytes⟩ := h.unmapPages haligned hheap
    refine ⟨htables, hnext, ?_⟩
    intro w hw
    rw [hbytes w hw]
    split
    · rename_i hin
      unfold pageBase at hin
      exact .inr ⟨rfl, by omega, by omega⟩
    · exact .inl rfl

end Vm

/-- The heap, its live blocks with their sizes, and the bytes stored since they were
allocated. -/
structure HeapRun where
  vm : Vm
  live : List (ℕ × ℕ)
  stored : ℕ → Option UInt8

inductive HeapAct where
  | kmalloc (size : ℕ)
  | kfree (ptr size : ℕ)
  | store (addr : ℕ) (x : UInt8)
  | load (addr : ℕ)

/-- A byte of one of the blocks. -/
def InBlocks (l : List (ℕ × ℕ)) (a : ℕ) : Prop := ∃ b ∈ l, b.1 ≤ a ∧ a < b.1 + b.2

namespace HeapRun

def boot (vm : Vm) : HeapRun := ⟨vm, [], fun _ => none⟩

/-- What is freed is live with its size, and only bytes of live blocks are accessed; after a
panic nothing runs. -/
inductive Step : HeapRun → HeapAct → HeapRun → Prop
  | kmalloc {s : HeapRun} {size ptr : ℕ} {vm : Vm} (h : s.vm.kmalloc size = some (ptr, vm)) :
      Step s (.kmalloc size) {
        vm := vm
        live := if ptr = 0 then s.live else (ptr, size) :: s.live
        stored := fun a => if ptr ≤ a ∧ a < ptr + size then none else s.stored a }
  | kfree {s : HeapRun} {ptr size : ℕ} (h : (ptr, size) ∈ s.live) :
      Step s (.kfree ptr size) { s with
        vm := s.vm.kfree ptr size
        live := s.live.erase (ptr, size) }
  | store {s : HeapRun} {addr : ℕ} {x : UInt8} {vm : Vm} (hlive : InBlocks s.live addr)
      (h : s.vm.storeByte addr x = some vm) :
      Step s (.store addr x) { s with
        vm := vm
        stored := Function.update s.stored addr (some x) }
  | load {s : HeapRun} {addr : ℕ} {x : UInt8} {vm : Vm} (hlive : InBlocks s.live addr)
      (h : s.vm.loadByte addr = some (x, vm)) :
      Step s (.load addr) { s with vm := vm }

/-- The bootloader's tables lead to the heap, where nothing is mapped. -/
structure Booted (vm : Vm) : Prop where
  tables : vm.Tables
  next : vm.heapNext = vmmHeapBase
  empty : ∀ v, InHeap v → vm.frame (pagePath v) = none

/-- A load from a live block returns the byte that was stored, or 0; it panics only when the
page is missing and no page is left. -/
def LoadsStored (s : HeapRun) : Prop :=
  ∀ a, InBlocks s.live a →
    match s.vm.loadByte a with
    | some (x, _) => x = (s.stored a).getD 0
    | none => s.vm.translate a = none ∧ s.vm.vmmDemandPage a = none

/-- An allocation does not wrap, and in the pages that a freed block touches all bytes of other
live blocks are zero. -/
def SparesNeighbours (s : HeapRun) : HeapAct → Prop
  | .kmalloc size => (s.vm.heapNext + 15) / 16 * 16 + (size + 15) / 16 * 16 < 2 ^ 64
  | .kfree ptr size => ∀ a, InBlocks (s.live.erase (ptr, size)) a → ptr / 4096 ≤ a / 4096 →
      a / 4096 ≤ (ptr + size - 1) / 4096 → (s.stored a).getD 0 = 0
  | _ => True

/-- The blocks are below the bump pointer and have the bytes that were stored; above it the
heap is zero. -/
structure Inv (s : HeapRun) : Prop where
  tables : s.vm.Tables
  base_le : vmmHeapBase ≤ s.vm.heapNext
  le_end : s.vm.heapNext ≤ vmmHeapEnd
  blocks : ∀ b ∈ s.live, vmmHeapBase ≤ b.1 ∧ b.1 + b.2 ≤ s.vm.heapNext
  bytes : ∀ a, InBlocks s.live a → s.vm.byteAt a = (s.stored a).getD 0
  fresh : ∀ a, s.vm.heapNext ≤ a → a < vmmHeapEnd → s.vm.byteAt a = 0

variable {s s' : HeapRun} {a : ℕ}

theorem Inv.below (h : s.Inv) (ha : InBlocks s.live a) :
    vmmHeapBase ≤ a ∧ a < s.vm.heapNext := by
  obtain ⟨b, hb, hb1, hb2⟩ := ha
  have hblock := h.blocks b hb
  omega

theorem Inv.inHeap (h : s.Inv) (ha : InBlocks s.live a) : InHeap a :=
  ⟨(h.below ha).1, lt_of_lt_of_le (h.below ha).2 h.le_end⟩

theorem Inv.fresh_inHeap (h : s.Inv) (h1 : s.vm.heapNext ≤ a) (h2 : a < vmmHeapEnd) : InHeap a :=
  ⟨h.base_le.trans h1, h2⟩

theorem Booted.inv {vm : Vm} (h : Booted vm) : (boot vm).Inv where
  tables := h.tables
  base_le := h.next.ge
  le_end := by
    rw [show (boot vm).vm.heapNext = vmmHeapBase from h.next]
    exact Nat.le_add_right _ _
  blocks := fun _ hb => absurd hb (by simp [boot])
  bytes := fun _ ⟨_, hb, _⟩ => absurd hb (by simp [boot])
  fresh := by
    intro a h1 h2
    exact Vm.byteAt_unmapped (h.empty a ⟨h.next ▸ h1, h2⟩)

/-- The bump pointer stays and no block is added. -/
theorem Inv.update (h : s.Inv) (htables : s'.vm.Tables)
    (hnext : s'.vm.heapNext = s.vm.heapNext) (hlive : ∀ b ∈ s'.live, b ∈ s.live)
    (hbytes : ∀ a, InBlocks s'.live a → s'.vm.byteAt a = (s'.stored a).getD 0)
    (hfresh : ∀ a, s.vm.heapNext ≤ a → a < vmmHeapEnd → s'.vm.byteAt a = 0) : s'.Inv where
  tables := htables
  base_le := hnext ▸ h.base_le
  le_end := hnext ▸ h.le_end
  blocks := by
    intro b hb
    rw [hnext]
    exact h.blocks b (hlive b hb)
  bytes := hbytes
  fresh := by
    intro a ha
    rw [hnext] at ha
    exact hfresh a ha

theorem Inv.kmalloc (h : s.Inv) {size ptr : ℕ} {vm : Vm}
    (hlt : (s.vm.heapNext + 15) / 16 * 16 + (size + 15) / 16 * 16 < 2 ^ 64)
    (hs : s.vm.kmalloc size = some (ptr, vm)) : Inv {
      vm := vm
      live := if ptr = 0 then s.live else (ptr, size) :: s.live
      stored := fun a => if ptr ≤ a ∧ a < ptr + size then none else s.stored a } := by
  rcases Vm.kmalloc_cases h.base_le h.le_end hlt hs with
    ⟨rfl, rfl, rfl⟩ | ⟨hptr, hnext, hblock, hend, hvm⟩
  · refine ⟨h.tables, h.base_le, h.le_end, h.blocks, ?_, h.fresh⟩
    intro a ha
    have hnone : ¬ (0 ≤ a ∧ a < 0 + 0) := by omega
    dsimp only
    rw [if_neg hnone]
    exact h.bytes a ha
  · have hbytes : vm.byteAt = s.vm.byteAt := by rw [hvm]; rfl
    have hbase := h.base_le
    simp only [if_neg hptr]
    refine ⟨hvm ▸ h.tables.withHeapNext _, by dsimp only; omega, hend, ?_, ?_, ?_⟩
    · intro b hb
      rcases List.mem_cons.mp hb with rfl | hb
      · exact ⟨hbase.trans hnext, hblock⟩
      · have := h.blocks b hb
        dsimp only
        omega
    · rintro a ⟨b, hb, hb1, hb2⟩
      dsimp only
      rw [hbytes]
      rcases List.mem_cons.mp hb with rfl | hb
      · rw [if_pos ⟨hb1, hb2⟩]
        dsimp only at hb1 hb2
        exact h.fresh a (by omega) (by omega)
      · have hlive : InBlocks s.live a := ⟨b, hb, hb1, hb2⟩
        have hbelow := h.below hlive
        rw [if_neg (by omega)]
        exact h.bytes a hlive
    · intro a ha1 ha2
      dsimp only at ha1 ⊢
      rw [hbytes]
      exact h.fresh a (by omega) ha2

theorem Inv.kfree (h : s.Inv) {ptr size : ℕ} (hmem : (ptr, size) ∈ s.live)
    (hspare : s.SparesNeighbours (.kfree ptr size)) : Inv { s with
      vm := s.vm.kfree ptr size
      live := s.live.erase (ptr, size) } := by
  obtain ⟨hbase, hblock⟩ := h.blocks _ hmem
  obtain ⟨htables, hnext, hbytes⟩ := h.tables.kfree hbase (hblock.trans h.le_end)
  have hlive {a : ℕ} (ha : InBlocks (s.live.erase (ptr, size)) a) : InBlocks s.live a := by
    obtain ⟨b, hb, hab⟩ := ha
    exact ⟨b, List.mem_of_mem_erase hb, hab⟩
  refine h.update htables hnext (fun _ hb => List.mem_of_mem_erase hb) ?_ ?_
  · intro a ha
    rcases hbytes a (h.inHeap (hlive ha)) with hsame | ⟨hzero, h1, h2⟩
    · exact hsame.trans (h.bytes a (hlive ha))
    · exact hzero.trans (hspare a ha h1 h2).symm
  · intro a ha1 ha2
    rcases hbytes a (h.fresh_inHeap ha1 ha2) with hsame | ⟨hzero, -⟩
    · exact hsame.trans (h.fresh a ha1 ha2)
    · exact hzero

theorem Inv.store (h : s.Inv) {addr : ℕ} {x : UInt8} {vm : Vm} (hlive : InBlocks s.live addr)
    (hs : s.vm.storeByte addr x = some vm) : Inv { s with
      vm := vm
      stored := Function.update s.stored addr (some x) } := by
  obtain ⟨htables, hnext, hbytes⟩ := h.tables.storeByte (h.inHeap hlive) hs
  refine h.update htables hnext (fun _ hb => hb) ?_ ?_
  · intro a ha
    dsimp only
    rw [hbytes a (h.inHeap ha)]
    split
    · rename_i haddr
      rw [haddr, Function.update_self]
      rfl
    · rename_i haddr
      rw [Function.update_of_ne haddr]
      exact h.bytes a ha
  · intro a ha1 ha2
    have hbelow := h.below hlive
    dsimp only
    rw [hbytes a (h.fresh_inHeap ha1 ha2), if_neg (by omega)]
    exact h.fresh a ha1 ha2

theorem Inv.load (h : s.Inv) {addr : ℕ} {x : UInt8} {vm : Vm} (hlive : InBlocks s.live addr)
    (hs : s.vm.loadByte addr = some (x, vm)) : Inv { s with vm := vm } := by
  obtain ⟨-, htables, hnext, hbytes⟩ := h.tables.loadByte (h.inHeap hlive) hs
  refine h.update htables hnext (fun _ hb => hb) ?_ ?_
  · intro a ha
    exact (hbytes a (h.inHeap ha)).trans (h.bytes a ha)
  · intro a ha1 ha2
    exact (hbytes a (h.fresh_inHeap ha1 ha2)).trans (h.fresh a ha1 ha2)

theorem Inv.step {act : HeapAct} (h : s.Inv) (hg : s.SparesNeighbours act)
    (hs : Step s act s') : s'.Inv := by
  cases hs with
  | kmalloc hk => exact h.kmalloc hg hk
  | kfree hmem => exact h.kfree hmem hg
  | store hlive hst => exact h.store hlive hst
  | load hlive hld => exact h.load hlive hld

theorem Inv.loadsStored (h : s.Inv) : s.LoadsStored := by
  intro a ha
  cases hl : s.vm.loadByte a with
  | none => exact h.tables.access_none (h.inHeap ha) (Option.map_eq_none_iff.mp hl)
  | some r =>
    obtain ⟨x, vm⟩ := r
    exact (h.tables.loadByte (h.inHeap ha) hl).1.trans (h.bytes a ha)

/-- In every run whose allocations do not wrap and whose frees spare the neighbours, a live
block keeps what was stored in it. -/
theorem loads_stored {vm : Vm} (hboot : Booted vm)
    (hrun : Reach Step SparesNeighbours (boot vm) s) : s.LoadsStored := by
  have hinv : s.Inv := hrun.inv hboot.inv fun _ _ _ h hg hs => h.step hg hs
  exact hinv.loadsStored


/-- Sixteen pages of memory and an empty root table. -/
def smallVm : Vm := (VmRun.boot VmRun.smallMemmap (fun _ => 0) 0x20000).vm

theorem smallVm_mem : smallVm.mem = fun _ => 0 := rfl

theorem smallVm_entry (f i : ℕ) : entry smallVm.mem f i = 0 := by
  rw [smallVm_mem]
  exact readLe_zero _ _

theorem smallVm_frame {p : List ℕ} {f : ℕ} (h : smallVm.frame p = some f) : p = [] ∧ f = 0x20 := by
  cases p with
  | nil => exact ⟨rfl, (Option.some.inj h).symm⟩
  | cons i p =>
    obtain ⟨g, -, hchild⟩ := frameOf_tail h
    rw [child, smallVm_entry, Vm.target_zero] at hchild
    exact absurd hchild (by simp)

theorem smallVm_booted : Booted smallVm where
  tables := by
    refine ⟨?_, ?_, ?_, by decide, by decide +kernel⟩
    · intro p _ q _ f hp hq
      rw [(smallVm_frame hp).1, (smallVm_frame hq).1]
    · intro p _ f hp _
      rw [(smallVm_frame hp).2]
      decide +kernel
    · intro i p f _ _ hpres
      rw [smallVm_entry] at hpres
      exact absurd hpres (by decide)
  next := rfl
  empty := by
    intro v _
    cases hf : smallVm.frame (pagePath v) with
    | none => rfl
    | some f => exact absurd (smallVm_frame hf).1 (by simp [pagePath])

theorem smallVm_kmalloc {n m size : ℕ} (hsize : size ≠ 0) (hn : n % 16 = 0)
    (hm : m = n + (size + 15) / 16 * 16) (hend : m ≤ vmmHeapEnd) :
    Vm.kmalloc { smallVm with heapNext := n } size =
      some (n, { smallVm with heapNext := m }) := by
  have hend' : m ≤ 0xffffffff90000000 := hend
  have hround : (n + 15) / 16 * 16 = n := by omega
  rw [Vm.kmalloc_eq hsize (by dsimp only; omega) (by dsimp only; omega) (by omega)]
  simp only [hround, ← hm]
  rw [if_neg (by omega)]

/-- Two blocks, one after the other. -/
theorem two_blocks {guard : HeapRun → HeapAct → Prop} {size m : ℕ}
    (hg : ∀ s n, n ≤ 4096 → s.vm.heapNext ≤ m → guard s (.kmalloc n)) (hsize : size ≠ 0)
    (hle : size ≤ 4096) (hm : m = vmmHeapBase + (size + 15) / 16 * 16) :
    Reach Step guard (boot smallVm) {
      vm := { smallVm with heapNext := m + 16 }
      live := [(m, 16), (vmmHeapBase, size)]
      stored := fun _ => none } := by
  have hm' : m = 0xffffffff88000000 + (size + 15) / 16 * 16 := hm
  have hnext : smallVm.heapNext = 0xffffffff88000000 := rfl
  have hend : m + 16 ≤ vmmHeapEnd := by
    unfold vmmHeapEnd vmmHeapBase vmmHeapSize
    omega
  have hk1 : smallVm.kmalloc size = some (vmmHeapBase, { smallVm with heapNext := m }) :=
    smallVm_kmalloc hsize (by decide) hm (by omega)
  have hk2 : Vm.kmalloc { smallVm with heapNext := m } 16 =
      some (m, { smallVm with heapNext := m + 16 }) :=
    smallVm_kmalloc (by decide) (by omega) rfl hend
  have hstart : (boot smallVm).vm.heapNext ≤ m := by
    rw [show (boot smallVm).vm.heapNext = smallVm.heapNext from rfl]
    omega
  have h1 : Reach Step guard (boot smallVm) _ :=
    .next (.kmalloc size) .start (hg _ size hle hstart) (.kmalloc hk1)
  have h2 := h1.next (HeapAct.kmalloc 16) (hg _ 16 (by decide) le_rfl) (.kmalloc hk2)
  have hbase : vmmHeapBase ≠ 0 := by decide
  have hm0 : m ≠ 0 := by omega
  simpa [boot, hbase, hm0] using h2

/-- The block in the next page keeps its byte. -/
theorem loads_stored_next_page : ∃ s, Booted smallVm ∧
    Reach Step SparesNeighbours (boot smallVm) s ∧ InBlocks s.live (vmmHeapBase + 4096) ∧
      s.stored (vmmHeapBase + 4096) = some 1 ∧ s.LoadsStored := by
  obtain ⟨vm, hst⟩ : ∃ vm, Vm.storeByte { smallVm with heapNext := vmmHeapBase + 4096 + 16 }
      (vmmHeapBase + 4096) 1 = some vm := Option.isSome_iff_exists.mp (by decide +kernel)
  have hguard : ∀ (s : HeapRun) n, n ≤ 4096 → s.vm.heapNext ≤ vmmHeapBase + 4096 →
      s.SparesNeighbours (.kmalloc n) := by
    intro s n hn hs
    have hs' : s.vm.heapNext ≤ 0xffffffff88000000 + 4096 := hs
    show (s.vm.heapNext + 15) / 16 * 16 + (n + 15) / 16 * 16 < 2 ^ 64
    omega
  have h2 := two_blocks hguard (show 4096 ≠ 0 by decide) le_rfl rfl
  have h3 := h2.next (HeapAct.store (vmmHeapBase + 4096) 1) trivial
    (.store ⟨_, List.mem_cons_self .., le_rfl, by omega⟩ hst)
  have hspare (t : HeapRun) (ht : t.live = [(vmmHeapBase + 4096, 16), (vmmHeapBase, 4096)]) :
      t.SparesNeighbours (.kfree vmmHeapBase 4096) := by
    rintro a ⟨b, hb, hb1, hb2⟩ - hpage
    rw [ht] at hb
    obtain rfl := List.mem_singleton.mp hb
    unfold vmmHeapBase at hb1 hpage
    omega
  have h4 := h3.next (HeapAct.kfree vmmHeapBase 4096) (hspare _ rfl)
    (.kfree (List.mem_cons_of_mem _ (List.mem_cons_self ..)))
  refine ⟨_, smallVm_booted, h4, ⟨_, List.mem_cons_self .., le_rfl, by omega⟩, ?_,
    loads_stored smallVm_booted h4⟩
  dsimp only
  rw [Function.update_self]

/-- Two blocks share a page; when the first is freed, the byte of the second is lost. -/
theorem neighbour_zeroed : Booted smallVm ∧ ∃ s, Reach Step (fun _ _ => True) (boot smallVm) s ∧
    ¬ s.LoadsStored := by
  refine ⟨smallVm_booted, ?_⟩
  obtain ⟨vm, hst⟩ : ∃ vm, Vm.storeByte { smallVm with heapNext := vmmHeapBase + 16 + 16 }
      (vmmHeapBase + 16) 1 = some vm := Option.isSome_iff_exists.mp (by decide +kernel)
  have hval : (Vm.storeByte { smallVm with heapNext := vmmHeapBase + 16 + 16 }
      (vmmHeapBase + 16) 1).map (fun vm => ((vm.kfree vmmHeapBase 16).loadByte
        (vmmHeapBase + 16)).map Prod.fst) = some (some 0) := by decide +kernel
  rw [hst] at hval
  obtain ⟨⟨x, vm'⟩, hload, rfl⟩ := Option.map_eq_some_iff.mp (Option.some.inj hval)
  have h2 : Reach Step (fun _ _ => True) (boot smallVm) _ :=
    two_blocks (fun _ _ _ _ => trivial) (show 16 ≠ 0 by decide) (by decide) rfl
  have h3 := h2.next (HeapAct.store (vmmHeapBase + 16) 1) trivial
    (.store ⟨_, List.mem_cons_self .., le_rfl, by omega⟩ hst)
  have h4 := h3.next (HeapAct.kfree vmmHeapBase 16) trivial
    (.kfree (List.mem_cons_of_mem _ (List.mem_cons_self ..)))
  refine ⟨_, h4, ?_⟩
  intro hloads
  have hbyte := hloads (vmmHeapBase + 16) ⟨_, List.mem_cons_self .., le_rfl, by omega⟩
  dsimp only at hbyte
  rw [hload, Function.update_self] at hbyte
  have hne : (0 : UInt8) ≠ (some 1).getD 0 := by decide
  exact hne hbyte

end HeapRun
end Ggmk

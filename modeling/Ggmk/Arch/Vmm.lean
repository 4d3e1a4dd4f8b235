import Ggmk.Arch.Paging

/-! The kernel heap of `vmm.c`: addresses come from a bump pointer, pages are mapped when they
are first touched, and freeing unmaps whole pages. One CPU runs, so that no other has to be
told of an unmapping. -/
namespace Ggmk
open Word ByteMem

def vmmHeapBase : ℕ := 0xffffffff88000000
def vmmHeapSize : ℕ := 128 * 1024 * 1024
def vmmHeapEnd : ℕ := vmmHeapBase + vmmHeapSize

namespace Vm

/-- The mappings of `vmm_map` from page `i` on. -/
def mapPages (virt phys flags : ℕ) : (n i : ℕ) → Vm → Option Vm
  | 0, _, s => some s
  | n + 1, i, s =>
      (s.pagingMap (uint64 (virt + i * 4096)) (uint64 (phys + i * 4096)) flags).bind
        (mapPages virt phys flags n (i + 1))

/-- Returns the virtual address; the kernel panics when the heap is exhausted. -/
def vmmMap (s : Vm) (phys size flags : ℕ) : Option (ℕ × Vm) :=
  if size = 0 then some (0, s)
  else
    let pages := uint64 (size + 0xFFF) / 4096
    let virt := pageBase (uint64 (s.heapNext + 0xFFF))
    let heapNext := uint64 (virt + pages * 4096)
    if vmmHeapEnd < heapNext then none
    else (mapPages virt (pageBase phys) flags pages 0 { s with heapNext := heapNext }).map
      fun s => (uint64 (virt + phys % 4096), s)

/-- What `vmm_map` does when it returns. -/
theorem vmmMap_cases {s s' : Vm} {phys size flags p : ℕ}
    (hs : s.vmmMap phys size flags = some (p, s')) :
    (size = 0 ∧ p = 0 ∧ s' = s) ∨
      ∃ virt next, size ≠ 0 ∧ virt = pageBase (uint64 (s.heapNext + 0xFFF)) ∧
        next = uint64 (virt + uint64 (size + 0xFFF) / 4096 * 4096) ∧ next ≤ vmmHeapEnd ∧
        p = uint64 (virt + phys % 4096) ∧
        mapPages virt (pageBase phys) flags (uint64 (size + 0xFFF) / 4096) 0
          { s with heapNext := next } = some s' := by
  unfold vmmMap at hs
  dsimp only at hs
  split at hs
  next hzero =>
    obtain ⟨rfl, rfl⟩ := Prod.mk.inj (Option.some.inj hs)
    exact .inl ⟨hzero, rfl, rfl⟩
  next hzero =>
    split at hs
    · exact absurd hs (by simp)
    · rename_i hend
      obtain ⟨t, ht, heq⟩ := Option.map_eq_some_iff.mp hs
      obtain ⟨rfl, rfl⟩ := Prod.mk.inj heq
      exact .inr ⟨_, _, hzero, rfl, rfl, not_lt.mp hend, rfl, ht⟩

/-- One page is unmapped and its frame goes to the page allocator. -/
def unmapPage (s : Vm) (virt : ℕ) : Vm :=
  let (phys, s) := s.pagingUnmap virt
  if phys = 0 then s else { s with pmm := s.pmm.pmmFreePages phys 1 }

/-- The `n` pages from `addr` on are unmapped. -/
def unmapPages (addr : ℕ) : ℕ → Vm → Vm
  | 0, s => s
  | n + 1, s => unmapPages (addr + 4096) n (s.unmapPage addr)

/-- How many pages `vmm_unmap` unmaps. -/
def vmmUnmapCount (virt size : ℕ) : ℕ := uint64 (virt + size - pageBase virt + 0xFFF) / 4096

def vmmUnmap (s : Vm) (virt size : ℕ) : Vm :=
  if virt = 0 ∨ size = 0 then s
  else unmapPages (pageBase virt) (vmmUnmapCount virt size) s

/-- Returns the address of the block; the kernel panics when the heap is exhausted. -/
def kmalloc (s : Vm) (size : ℕ) : Option (ℕ × Vm) :=
  if size = 0 then some (0, s)
  else
    let size := uint64 (size + 15) / 16 * 16
    let addr := uint64 (s.heapNext + 15) / 16 * 16
    let heapNext := uint64 (addr + size)
    if vmmHeapEnd < heapNext then none
    else some (addr, { s with heapNext := heapNext })

/-- What `kmalloc` does when it returns. -/
theorem kmalloc_some {s s' : Vm} {size p : ℕ} (hs : s.kmalloc size = some (p, s')) :
    (size = 0 ∧ p = 0 ∧ s' = s) ∨
      ∃ next, size ≠ 0 ∧ p = uint64 (s.heapNext + 15) / 16 * 16 ∧
        next = uint64 (p + uint64 (size + 15) / 16 * 16) ∧ next ≤ vmmHeapEnd ∧
        s' = { s with heapNext := next } := by
  unfold kmalloc at hs
  dsimp only at hs
  split at hs
  next hzero =>
    obtain ⟨rfl, rfl⟩ := Prod.mk.inj (Option.some.inj hs)
    exact .inl ⟨hzero, rfl, rfl⟩
  next hzero =>
    split at hs
    · exact absurd hs (by simp)
    · rename_i hend
      obtain ⟨rfl, rfl⟩ := Prod.mk.inj (Option.some.inj hs)
      exact .inr ⟨_, hzero, rfl, rfl, not_lt.mp hend, rfl⟩

/-- How many pages `kfree` unmaps. -/
def kfreeCount (ptr size : ℕ) : ℕ :=
  (pageBase (uint64 (ptr + size + 0xFFF)) - pageBase ptr) / 4096

def kfree (s : Vm) (ptr size : ℕ) : Vm :=
  if ptr = 0 ∨ size = 0 then s
  else unmapPages (pageBase ptr) (kfreeCount ptr size) s

/-- A fault outside the heap is not handled; without a page the kernel panics. -/
def vmmDemandPage (s : Vm) (fault : ℕ) : Option (ℤ × Vm) :=
  if fault < vmmHeapBase ∨ vmmHeapEnd ≤ fault then some (-1, s)
  else
    let (phys, pmm) := s.pmm.pmmAllocPages 1
    if phys = 0 then none
    else
      let s : Vm := { s with mem := clear s.mem phys 4096, pmm := pmm }
      (s.pagingMap (pageBase fault) phys (ptePresent ||| pteWritable)).map fun s => (0, s)

/-- A fault in the heap maps a zeroed page of the allocator. -/
theorem vmmDemandPage_cases {s s' : Vm} {fault : ℕ} {rc : ℤ}
    (hs : s.vmmDemandPage fault = some (rc, s')) :
    ((fault < vmmHeapBase ∨ vmmHeapEnd ≤ fault) ∧ rc = -1 ∧ s' = s) ∨
      rc = 0 ∧ ∃ g, s.pmm.pmmAllocPages 1 = (g * 4096, s.pmm.take g 1) ∧
        g < s.pmm.totalPages ∧ s.pmm.bitmap g = false ∧
          Vm.pagingMap { s with
            mem := clear s.mem (g * 4096) 4096
            pmm := s.pmm.take g 1 } (pageBase fault) (g * 4096) (ptePresent ||| pteWritable) =
              some s' := by
  unfold vmmDemandPage at hs
  dsimp only at hs
  split at hs
  next hrange =>
    obtain ⟨rfl, rfl⟩ := Prod.mk.inj (Option.some.inj hs)
    exact .inl ⟨hrange, rfl, rfl⟩
  next =>
    split at hs
    · exact absurd hs (by simp)
    · rename_i hphys
      obtain ⟨t, ht, heq⟩ := Option.map_eq_some_iff.mp hs
      obtain ⟨rfl, rfl⟩ := Prod.mk.inj heq
      obtain ⟨g, hg, hlt, hfree, htake⟩ := Pmm.alloc_one (Prod.eta _).symm hphys
      rw [hg, htake] at ht
      exact .inr ⟨rfl, g, Prod.ext hg htake, hlt, hfree, ht⟩

/-! ## Accesses -/

/-- The frame in an entry, as the processor reads it. -/
def entryFrame (e : ℕ) : ℕ := e / 4096 % 2 ^ 40 * 4096

/-- The processor's translation of an address, or a not-present fault. -/
def translate (s : Vm) (virt : ℕ) : Option ℕ :=
  let pml4e := s.load64 (entryFrame s.cr3 + pml4Idx virt * 8)
  if ¬ present pml4e then none
  else
    let pdpe := s.load64 (entryFrame pml4e + pdpIdx virt * 8)
    if ¬ present pdpe then none
    else if huge pdpe then some (pdpe / 2 ^ 30 % 2 ^ 22 * 2 ^ 30 + virt % 2 ^ 30)
    else
      let pde := s.load64 (entryFrame pdpe + pdIdx virt * 8)
      if ¬ present pde then none
      else if huge pde then some (pde / 2 ^ 21 % 2 ^ 31 * 2 ^ 21 + virt % 2 ^ 21)
      else
        let pte := s.load64 (entryFrame pde + ptIdx virt * 8)
        if ¬ present pte then none
        else some (entryFrame pte + virt % 4096)

/-- An access: the handler of a not-present fault calls `vmm_demand_page` and the access is
made again; a fault that is not handled halts the system. -/
def access (s : Vm) (virt : ℕ) : Option (ℕ × Vm) :=
  match s.translate virt with
  | some a => some (a, s)
  | none => (s.vmmDemandPage virt).bind fun (rc, s) =>
      if rc = 0 then (s.translate virt).map fun a => (a, s) else none

def loadByte (s : Vm) (virt : ℕ) : Option (UInt8 × Vm) :=
  (s.access virt).map fun (a, s) => (s.mem a, s)

def storeByte (s : Vm) (virt : ℕ) (x : UInt8) : Option Vm :=
  (s.access virt).map fun (a, s) => { s with mem := Function.update s.mem a x }

end Vm
end Ggmk

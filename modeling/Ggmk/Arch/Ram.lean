import Ggmk.Lib.Reach
import Ggmk.Arch.Vmm

/-! Which pages the allocator hands out. A set bit of the bitmap says "allocated" as well as
"not memory", so that the pages an unmapping gives back decide what is handed out later. -/
namespace Ggmk
open Word ByteMem Guarded

/-- The memory map has disjoint usable entries and ends below 4 GiB. -/
structure MemmapOk (entries : List MemmapEntry) : Prop where
  disjoint : entries.Pairwise fun e e' => e.type = .usable → e'.type = .usable →
    e.base + e.length ≤ e'.base ∨ e'.base + e'.length ≤ e.base
  below : ∀ e ∈ entries, e.base + e.length < 2 ^ 32

namespace Pmm
variable {entries : List MemmapEntry} {s s' : Pmm}

/-- The free pages by the bitmap. -/
def freeSet (s : Pmm) : Finset ℕ := (Finset.range s.totalPages).filter fun p => s.bitmap p = false

theorem mem_freeSet {p : ℕ} : p ∈ s.freeSet ↔ p < s.totalPages ∧ s.bitmap p = false := by
  simp [freeSet]

/-- The usable pages that the bitmap covers. -/
def usableSet (entries : List MemmapEntry) (total : ℕ) : Finset ℕ :=
  (Finset.range total).filter (InUsable entries)

/-- The counter agrees with the bitmap. -/
def Counted (s : Pmm) : Prop := s.freePages = s.freeSet.card

/-- Only memory is free and only memory was handed out. -/
structure Ram (entries : List MemmapEntry) (s : Pmm) : Prop where
  counted : s.Counted
  free : s.freeSet ⊆ usableSet entries s.totalPages
  usable : s.usablePages = (usableSet entries s.totalPages).card
  handed : ∀ p ∈ s.handed, InUsable entries p

theorem Ram.inUsable (h : s.Ram entries) {p : ℕ} (hp : p ∈ s.freeSet) : InUsable entries p :=
  (Finset.mem_filter.mp (h.free hp)).2

theorem Ram.free_le (h : s.Ram entries) : s.freePages ≤ s.usablePages := by
  rw [h.counted, h.usable]
  exact Finset.card_le_card h.free

/-! ## The operations -/

/-- A page that becomes free is counted. -/
theorem Counted.clear (h : s.Counted) {page : ℕ} (hlt : page < s.totalPages)
    (hbit : s.bitmap page = true) :
    Counted { s with
      bitmap := Function.update s.bitmap page false
      freePages := s.freePages + 1 } := by
  have hset : freeSet { s with
      bitmap := Function.update s.bitmap page false
      freePages := s.freePages + 1 } = insert page s.freeSet := by
    ext p
    simp only [mem_freeSet, Finset.mem_insert, Function.update_apply]
    by_cases hp : p = page
    · simp [hp, hlt]
    · simp [hp]
  have hnot : page ∉ s.freeSet := by simp [mem_freeSet, hbit]
  unfold Counted
  rw [hset, Finset.card_insert_of_notMem hnot]
  exact congrArg (· + 1) h

theorem Counted.take (h : s.Counted) {start count : ℕ} (hle : start + count ≤ s.totalPages)
    (hfree : ∀ p, start ≤ p → p < start + count → s.bitmap p = false) :
    (s.take start count).Counted := by
  have hsub : Finset.Ico start (start + count) ⊆ s.freeSet := by
    intro p hp
    obtain ⟨hp1, hp2⟩ := Finset.mem_Ico.mp hp
    exact mem_freeSet.mpr ⟨by omega, hfree p hp1 hp2⟩
  have hset : (s.take start count).freeSet = s.freeSet \ Finset.Ico start (start + count) := by
    ext p
    simp only [mem_freeSet, Pmm.take, Finset.mem_sdiff, Finset.mem_Ico]
    split
    · simp_all
    · simp_all
  unfold Counted
  rw [hset, Finset.card_sdiff_of_subset hsub, Nat.card_Ico, Nat.add_sub_cancel_left]
  exact congrArg (· - count) h

theorem Ram.alloc (h : s.Ram entries) (count : ℕ) : (s.pmmAllocPages count).2.Ram entries ∧
    (s.pmmAllocPages count).2.totalPages = s.totalPages ∧
    ((s.pmmAllocPages count).1 ≠ 0 → ∀ p, (s.pmmAllocPages count).1 / 4096 ≤ p →
      p < (s.pmmAllocPages count).1 / 4096 + count → InUsable entries p) := by
  rcases s.pmmAllocPages_cases count with hfail | ⟨start, -, -, hle, hfree, hok⟩
  · rw [hfail]
    exact ⟨h, rfl, fun hne => absurd rfl hne⟩
  · have hmem : ∀ p, start ≤ p → p < start + count → InUsable entries p := by
      intro p hp1 hp2
      exact h.inUsable (mem_freeSet.mpr ⟨by omega, hfree p hp1 hp2⟩)
    rw [hok]
    refine ⟨⟨h.counted.take hle hfree, ?_, h.usable, ?_⟩, rfl, ?_⟩
    · intro p hp
      obtain ⟨hlt, hbit⟩ := mem_freeSet.mp hp
      apply h.free
      simp only [Pmm.take] at hlt hbit
      split at hbit
      · exact absurd hbit (by simp)
      · exact mem_freeSet.mpr ⟨hlt, hbit⟩
    · intro p hp
      rcases List.mem_append.mp hp with hp | hp
      · exact h.handed p hp
      · obtain ⟨hp1, hp2⟩ := List.mem_range'_1.mp hp
        exact hmem p hp1 hp2
    · intro _ p hp1 hp2
      simp only [Nat.mul_div_cancel _ (show 0 < 4096 by norm_num)] at hp1 hp2
      exact hmem p hp1 hp2

/-- Freeing a page of memory. -/
theorem Ram.freePage (h : s.Ram entries) {page : ℕ} (hlt : page < s.totalPages)
    (hpage : InUsable entries page) : (s.freePage page).Ram entries := by
  unfold Pmm.freePage
  split
  · rename_i hbit
    refine ⟨h.counted.clear hlt hbit, ?_, h.usable, h.handed⟩
    intro p hp
    obtain ⟨hp1, hp2⟩ := mem_freeSet.mp hp
    by_cases hpp : p = page
    · rw [hpp]
      exact Finset.mem_filter.mpr ⟨Finset.mem_range.mpr hlt, hpage⟩
    · apply h.free
      simp only [Function.update_of_ne hpp] at hp2
      exact mem_freeSet.mpr ⟨hp1, hp2⟩
  · exact h

theorem Ram.free_pages (h : s.Ram entries) {addr count : ℕ}
    (hpages : ∀ p, addr / 4096 ≤ p → p < addr / 4096 + count → p < s.totalPages →
      InUsable entries p) :
    (s.pmmFreePages addr count).Ram entries ∧
      (s.pmmFreePages addr count).totalPages = s.totalPages := by
  have hfold : ∀ (l : List ℕ) (t : Pmm), t.Ram entries → t.totalPages = s.totalPages →
      (∀ p ∈ l, p < s.totalPages ∧ InUsable entries p) →
      (l.foldl Pmm.freePage t).Ram entries ∧
        (l.foldl Pmm.freePage t).totalPages = s.totalPages := by
    intro l
    induction l with
    | nil => exact fun t ht htotal _ => ⟨ht, htotal⟩
    | cons p l ih =>
      intro t ht htotal hl
      obtain ⟨hlt, hp⟩ := hl p (List.mem_cons_self ..)
      exact ih _ (ht.freePage (htotal ▸ hlt) hp) ((freePage_totalPages t p).trans htotal)
        fun q hq => hl q (List.mem_cons_of_mem _ hq)
  refine hfold _ s h rfl ?_
  intro p hp
  obtain ⟨hp1, hp2⟩ := List.mem_range'_1.mp hp
  have hmod : uint64 (addr / 4096 + count) ≤ addr / 4096 + count := Nat.mod_le _ _
  have hlt : p < s.totalPages ∧ p < addr / 4096 + count := by omega
  exact ⟨hlt.1, hpages p hp1 hlt.2 hlt.1⟩

/-! ## The start -/

/-- The second pass over pages that are not free yet. -/
theorem initPages {l : List ℕ} (hl : l.Nodup) (h : s.Counted)
    (hused : ∀ p ∈ l, p < s.totalPages → s.bitmap p = true) :
    (l.foldl initPage s).Counted ∧ (l.foldl initPage s).totalPages = s.totalPages ∧
      (l.foldl initPage s).handed = s.handed ∧
      ∀ p < s.totalPages, (l.foldl initPage s).bitmap p = false ↔ p ∈ l ∨ s.bitmap p = false := by
  induction l generalizing s with
  | nil => exact ⟨h, rfl, rfl, by simp⟩
  | cons q l ih =>
    obtain ⟨hq, hl⟩ := List.nodup_cons.mp hl
    rw [List.foldl_cons]
    by_cases hlt : q < s.totalPages
    · have hbit := hused q (List.mem_cons_self ..) hlt
      have hstep : s.initPage q = { s with
          bitmap := Function.update s.bitmap q false
          freePages := s.freePages + 1 } := if_pos hlt
      have hrest := ih hl (s := s.initPage q) (by rw [hstep]; exact h.clear hlt hbit) (by
        intro p hp hpt
        have hne : p ≠ q := fun he => hq (he ▸ hp)
        rw [hstep] at hpt ⊢
        simp only [Function.update_of_ne hne]
        exact hused p (List.mem_cons_of_mem _ hp) hpt)
      rw [hstep] at hrest ⊢
      refine ⟨hrest.1, hrest.2.1, hrest.2.2.1, ?_⟩
      intro p hp
      rw [hrest.2.2.2 p hp]
      by_cases hpq : p = q
      · simp [hpq]
      · simp [hpq, List.mem_cons]
    · have hstep : s.initPage q = s := if_neg hlt
      rw [hstep]
      obtain ⟨hc, ht, hh, hb⟩ := ih hl h fun p hp => hused p (List.mem_cons_of_mem _ hp)
      refine ⟨hc, ht, hh, ?_⟩
      intro p hp
      have hne : p ≠ q := fun he => hlt (he ▸ hp)
      rw [hb p hp, List.mem_cons]
      simp [hne]

/-- The pages that the second pass frees for one entry are those inside it. -/
theorem mem_entryPages {e : MemmapEntry} (hlt : e.base + e.length < 2 ^ 32) (p : ℕ) :
    p ∈ List.range' (uint64 (e.base + 4095) / 4096)
      (uint64 (e.base + e.length) / 4096 - uint64 (e.base + 4095) / 4096) ↔
    e.base ≤ p * 4096 ∧ (p + 1) * 4096 ≤ e.base + e.length := by
  rw [List.mem_range'_1, uint64_of_lt (by omega), uint64_of_lt (by omega)]
  omega

/-- The second pass after the entries `done`. -/
structure Scanned (total : ℕ) (done : List MemmapEntry) (s : Pmm) : Prop where
  counted : s.Counted
  total_eq : s.totalPages = total
  handed_eq : s.handed = []
  free_iff : ∀ p < total, s.bitmap p = false ↔ InUsable done p

theorem Scanned.initEntry {total : ℕ} {done : List MemmapEntry} {e : MemmapEntry}
    (h : s.Scanned total done) (hlt : e.base + e.length < 2 ^ 32)
    (hdisj : ∀ e' ∈ done, e'.type = .usable → e.type = .usable →
      e'.base + e'.length ≤ e.base ∨ e.base + e.length ≤ e'.base) :
    (s.initEntry e).Scanned total (done ++ [e]) := by
  have happend (p : ℕ) : InUsable (done ++ [e]) p ↔ InUsable done p ∨
      (e.type = .usable ∧ e.base ≤ p * 4096 ∧ (p + 1) * 4096 ≤ e.base + e.length) := by
    simp only [InUsable, List.mem_append, List.mem_singleton, or_and_right, exists_or,
      exists_eq_left]
  unfold Pmm.initEntry
  split
  · rename_i htype
    have hnodup : (List.range' (uint64 (e.base + 4095) / 4096)
        (uint64 (e.base + e.length) / 4096 - uint64 (e.base + 4095) / 4096)).Nodup := List.nodup_range'
    obtain ⟨hc, ht, hh, hb⟩ := initPages hnodup h.counted (by
      intro p hp hpt
      rw [mem_entryPages hlt] at hp
      rw [← Bool.not_eq_false, h.free_iff p (h.total_eq ▸ hpt)]
      -- a page inside two entries would make them overlap
      rintro ⟨e', he', htype', hbase, htop⟩
      rcases hdisj e' he' htype' htype with hd | hd <;> omega)
    refine ⟨hc, ht.trans h.total_eq, hh.trans h.handed_eq, ?_⟩
    intro p hp
    rw [hb p (h.total_eq.symm ▸ hp), mem_entryPages hlt, h.free_iff p hp, happend]
    tauto
  · rename_i htype
    refine ⟨h.counted, h.total_eq, h.handed_eq, ?_⟩
    intro p hp
    rw [h.free_iff p hp, happend]
    tauto

theorem scanned_foldl {total : ℕ} {l done : List MemmapEntry} (h : s.Scanned total done)
    (hok : MemmapOk (done ++ l)) : (l.foldl Pmm.initEntry s).Scanned total (done ++ l) := by
  induction l generalizing s done with
  | nil => simpa using h
  | cons e l ih =>
    have hassoc : done ++ e :: l = (done ++ [e]) ++ l := by simp
    rw [hassoc] at hok ⊢
    refine ih (h.initEntry (hok.below e (by simp)) ?_) hok
    intro e' he' htype' htype
    have hpair := (List.pairwise_append.mp (List.pairwise_append.mp hok.disjoint).1).2.2
    exact hpair e' he' e (List.mem_singleton_self e) htype' htype

theorem pmmInit_ram (hok : MemmapOk entries) : (pmmInit entries).Ram entries := by
  set total := min (highestAddr entries / 4096) maxPages with htotal
  have hstart : Scanned total []
      ⟨fun page => decide (page < (total / 64 + 1) * 64), total, 0, 0, []⟩ := by
    have hused : ∀ p < total, p < (total / 64 + 1) * 64 := by
      intro p hp
      omega
    refine ⟨?_, rfl, rfl, ?_⟩
    · apply Eq.symm
      rw [Finset.card_eq_zero, freeSet, Finset.filter_eq_empty_iff]
      intro p hp
      simpa using hused p (Finset.mem_range.mp hp)
    · intro p hp
      simpa [InUsable] using hused p hp
  have hscan := scanned_foldl (l := entries) hstart (by simpa using hok)
  rw [List.nil_append] at hscan
  have hset : (entries.foldl Pmm.initEntry
      ⟨fun page => decide (page < (total / 64 + 1) * 64), total, 0, 0, []⟩).freeSet =
      usableSet entries total := by
    ext p
    rw [mem_freeSet, hscan.total_eq, usableSet, Finset.mem_filter, Finset.mem_range]
    constructor
    · rintro ⟨hp, hbit⟩
      exact ⟨hp, (hscan.free_iff p hp).mp hbit⟩
    · rintro ⟨hp, husable⟩
      exact ⟨hp, (hscan.free_iff p hp).mpr husable⟩
  have hinit : pmmInit entries = { entries.foldl Pmm.initEntry
      ⟨fun page => decide (page < (total / 64 + 1) * 64), total, 0, 0, []⟩ with
      usablePages := (entries.foldl Pmm.initEntry
        ⟨fun page => decide (page < (total / 64 + 1) * 64), total, 0, 0, []⟩).freePages } := rfl
  rw [hinit]
  refine ⟨hscan.counted, ?_, ?_, ?_⟩
  · intro p hp
    rw [show (usableSet entries _) = usableSet entries total from by rw [hscan.total_eq], ← hset]
    exact hp
  · simp only [hscan.total_eq, ← hset]
    exact hscan.counted
  · simp [hscan.handed_eq]

end Pmm

namespace Vm
variable {entries : List MemmapEntry} {s s' : Vm}

/-- The page allocator only has memory to give. -/
def Ram (entries : List MemmapEntry) (s : Vm) : Prop := s.pmm.Ram entries

theorem Ram.store64 (h : s.Ram entries) (a w : ℕ) : (s.store64 a w).Ram entries := h

theorem Ram.ensureTable (h : s.Ram entries) {slot : ℕ} (hs : s.ensureTable slot = some s') :
    s'.Ram entries := by
  rcases ensureTable_cases hs with ⟨-, rfl⟩ | ⟨-, g, halloc, -, -, rfl⟩
  · exact h
  · have htake := (h.alloc 1).1
    rw [halloc] at htake
    exact htake

theorem Ram.pagingMap (h : s.Ram entries) {virt phys flags : ℕ}
    (hs : s.pagingMap virt phys flags = some s') : s'.Ram entries := by
  obtain ⟨t₄, pdp, h₄, -, ⟨-, rfl⟩ | ⟨t₃, pd, -, h₃, -, ⟨-, rfl⟩ | ⟨t₂, -, h₂, rfl⟩⟩⟩ :=
    pagingMap_cases hs
  · exact h.ensureTable h₄
  · exact (h.ensureTable h₄).ensureTable h₃
  · exact (((h.ensureTable h₄).ensureTable h₃).ensureTable h₂).store64 _ _

theorem Ram.mapPages {virt phys flags n i : ℕ} (h : s.Ram entries)
    (hs : mapPages virt phys flags n i s = some s') : s'.Ram entries := by
  induction n generalizing i s with
  | zero =>
    obtain rfl := Option.some.inj hs
    exact h
  | succ n ih =>
    obtain ⟨t, ht, hs⟩ := Option.bind_eq_some_iff.mp hs
    exact ih (h.pagingMap ht) hs

theorem Ram.vmmMap (h : s.Ram entries) {phys size flags p : ℕ}
    (hs : s.vmmMap phys size flags = some (p, s')) : s'.Ram entries := by
  rcases vmmMap_cases hs with ⟨-, -, rfl⟩ | ⟨virt, next, -, -, -, -, -, hs⟩
  · exact h
  · refine Ram.mapPages ?_ hs
    exact h

theorem Ram.kmalloc (h : s.Ram entries) {size p : ℕ} (hs : s.kmalloc size = some (p, s')) :
    s'.Ram entries := by
  rcases kmalloc_some hs with ⟨-, -, rfl⟩ | ⟨next, -, -, -, -, rfl⟩
  · exact h
  · exact h

theorem Ram.vmmDemandPage (h : s.Ram entries) {fault : ℕ} {rc : ℤ}
    (hs : s.vmmDemandPage fault = some (rc, s')) : s'.Ram entries := by
  rcases vmmDemandPage_cases hs with ⟨-, -, rfl⟩ | ⟨-, g, halloc, -, -, hmap⟩
  · exact h
  · have htake := (h.alloc 1).1
    rw [halloc] at htake
    refine Ram.pagingMap ?_ hmap
    exact htake

/-- What the page at `virt` is mapped to is memory, if the bitmap covers it. -/
def MapsRam (entries : List MemmapEntry) (s : Vm) (virt : ℕ) : Prop :=
  ∀ pte, s.Leaf virt pte → pte / 4096 < s.pmm.totalPages → InUsable entries (pte / 4096)

theorem Ram.unmapPage (h : s.Ram entries) {virt : ℕ} (hv : s.MapsRam entries virt) :
    (s.unmapPage virt).Ram entries ∧ Dimmed s.mem (s.unmapPage virt).mem ∧
      (s.unmapPage virt).cr3 = s.cr3 ∧
      (s.unmapPage virt).pmm.totalPages = s.pmm.totalPages := by
  have hdim := s.dimmed_unmap virt
  by_cases hleaf : ∃ pte, s.Leaf virt pte
  · obtain ⟨pte, hpte⟩ := hleaf
    have hun := pagingUnmap_of_leaf hpte
    rw [hun] at hdim
    simp only [Vm.unmapPage, hun]
    split
    · exact ⟨h, hdim, rfl, rfl⟩
    · have hpages : ∀ p, pageBase pte / 4096 ≤ p → p < pageBase pte / 4096 + 1 →
          p < s.pmm.totalPages → InUsable entries p := by
        intro p hp1 hp2 hlt
        have hp : p = pte / 4096 := by
          unfold pageBase at hp1 hp2
          omega
        rw [hp] at hlt ⊢
        exact hv pte hpte hlt
      have hfree := h.free_pages hpages
      exact ⟨hfree.1, hdim, rfl, hfree.2⟩
  · have hun := pagingUnmap_of_not_leaf fun pte hpte => hleaf ⟨pte, hpte⟩
    simp only [Vm.unmapPage, hun, if_true]
    exact ⟨h, .refl _, trivial, trivial⟩

theorem Ram.unmapPages {addr n : ℕ} (h : s.Ram entries)
    (hv : ∀ i < n, s.MapsRam entries (addr + i * 4096)) : (unmapPages addr n s).Ram entries := by
  induction n generalizing addr s with
  | zero => exact h
  | succ n ih =>
    obtain ⟨hram, hdim, hcr3, htotal⟩ := h.unmapPage (by simpa using hv 0 (by omega))
    refine ih hram ?_
    intro i hi pte hpte hlt
    -- unmapping a page only takes entries away
    have hold := hpte.of_dimmed hdim hcr3
    rw [htotal] at hlt
    have hstep := hv (i + 1) (by omega)
    rw [show addr + (i + 1) * 4096 = addr + 4096 + i * 4096 by omega] at hstep
    exact hstep pte hold hlt

end Vm

/-! ## Runs -/

/-- The kernel's memory with what its callers hold: the live allocations of pages, the ranges
that `vmm_map` has returned, and the blocks of the heap. -/
structure VmRun where
  vm : Vm
  allocs : List (ℕ × ℕ)
  maps : List (ℕ × ℕ)
  blocks : List (ℕ × ℕ)

inductive VmAct where
  | alloc (count : ℕ)
  | free (addr count : ℕ)
  | map (phys size flags : ℕ)
  | unmap (virt size : ℕ)
  | kmalloc (size : ℕ)
  | kfree (ptr size : ℕ)
  | demandPage (fault : ℕ)

namespace VmRun

/-- After `pmm_init` and `vmm_init`, with any memory and any page tables. -/
def boot (entries : List MemmapEntry) (mem : Mem) (cr3 : ℕ) : VmRun where
  vm := ⟨mem, cr3, Pmm.pmmInit entries, vmmHeapBase⟩
  allocs := []
  maps := []
  blocks := []

/-- What is freed or unmapped is live; after a panic nothing runs. -/
inductive Step : VmRun → VmAct → VmRun → Prop
  | alloc {s : VmRun} {count phys : ℕ} {pmm : Pmm}
      (h : s.vm.pmm.pmmAllocPages count = (phys, pmm)) :
      Step s (.alloc count) { s with
        vm := { s.vm with pmm := pmm }
        allocs := if phys = 0 then s.allocs else (phys, count) :: s.allocs }
  | free {s : VmRun} {addr count : ℕ} (h : (addr, count) ∈ s.allocs) :
      Step s (.free addr count) { s with
        vm := { s.vm with pmm := s.vm.pmm.pmmFreePages addr count }
        allocs := s.allocs.erase (addr, count) }
  | map {s : VmRun} {phys size flags virt : ℕ} {vm : Vm}
      (h : s.vm.vmmMap phys size flags = some (virt, vm)) :
      Step s (.map phys size flags) { s with
        vm := vm
        maps := if virt = 0 then s.maps else (virt, size) :: s.maps }
  | unmap {s : VmRun} {virt size : ℕ} (h : (virt, size) ∈ s.maps) :
      Step s (.unmap virt size) { s with
        vm := s.vm.vmmUnmap virt size
        maps := s.maps.erase (virt, size) }
  | kmalloc {s : VmRun} {size ptr : ℕ} {vm : Vm} (h : s.vm.kmalloc size = some (ptr, vm)) :
      Step s (.kmalloc size) { s with
        vm := vm
        blocks := if ptr = 0 then s.blocks else (ptr, size) :: s.blocks }
  | kfree {s : VmRun} {ptr size : ℕ} (h : (ptr, size) ∈ s.blocks) :
      Step s (.kfree ptr size) { s with
        vm := s.vm.kfree ptr size
        blocks := s.blocks.erase (ptr, size) }
  | demandPage {s : VmRun} {fault : ℕ} {rc : ℤ} {vm : Vm}
      (h : s.vm.vmmDemandPage fault = some (rc, vm)) :
      Step s (.demandPage fault) { s with vm := vm }

/-- Every page that was handed out is memory, and no more pages are free than there are. -/
def OnlyRam (entries : List MemmapEntry) (s : VmRun) : Prop :=
  (∀ p ∈ s.vm.pmm.handed, InUsable entries p) ∧ s.vm.pmm.freePages ≤ s.vm.pmm.usablePages

/-- The pages that are unmapped are mapped to memory, or to addresses the bitmap does not
cover. -/
def UnmapsRam (entries : List MemmapEntry) (s : VmRun) : VmAct → Prop
  | .unmap virt size => ∀ i < Vm.vmmUnmapCount virt size,
      s.vm.MapsRam entries (pageBase virt + i * 4096)
  | .kfree ptr size => ∀ i < Vm.kfreeCount ptr size,
      s.vm.MapsRam entries (pageBase ptr + i * 4096)
  | _ => True

/-- The allocator and the live allocations only have memory. -/
structure Inv (entries : List MemmapEntry) (s : VmRun) : Prop where
  ram : s.vm.Ram entries
  live : ∀ a ∈ s.allocs, ∀ p, a.1 / 4096 ≤ p → p < a.1 / 4096 + a.2 → InUsable entries p

theorem boot_inv {entries : List MemmapEntry} (hok : MemmapOk entries) (mem : Mem) (cr3 : ℕ) :
    (boot entries mem cr3).Inv entries :=
  ⟨Pmm.pmmInit_ram hok, fun _ h => absurd h (by simp [boot])⟩

theorem Inv.step {entries : List MemmapEntry} {s s' : VmRun} {act : VmAct} (h : s.Inv entries)
    (hg : s.UnmapsRam entries act) (hs : Step s act s') : s'.Inv entries := by
  cases hs with
  | @alloc count phys pmm halloc =>
    obtain ⟨hram, -, hlive⟩ := h.ram.alloc count
    rw [halloc] at hram hlive
    refine ⟨hram, ?_⟩
    intro a ha
    dsimp only at ha
    split at ha
    · exact h.live a ha
    · rcases List.mem_cons.mp ha with rfl | ha
      · exact hlive (by assumption)
      · exact h.live a ha
  | free hmem =>
    refine ⟨(h.ram.free_pages ?_).1, fun a ha => h.live a (List.mem_of_mem_erase ha)⟩
    intro p hp1 hp2 _
    exact h.live _ hmem p hp1 hp2
  | map hmap => exact ⟨h.ram.vmmMap hmap, h.live⟩
  | unmap hmem =>
    refine ⟨?_, h.live⟩
    dsimp only
    unfold Vm.vmmUnmap
    split
    · exact h.ram
    · exact h.ram.unmapPages hg
  | kmalloc hk => exact ⟨h.ram.kmalloc hk, h.live⟩
  | kfree hmem =>
    refine ⟨?_, h.live⟩
    dsimp only
    unfold Vm.kfree
    split
    · exact h.ram
    · exact h.ram.unmapPages hg
  | demandPage hd => exact ⟨h.ram.vmmDemandPage hd, h.live⟩

/-- In every run whose unmappings only give back memory, only memory is handed out. -/
theorem only_ram {entries : List MemmapEntry} (hok : MemmapOk entries) {mem : Mem} {cr3 : ℕ}
    {s : VmRun} (hrun : Reach Step (UnmapsRam entries) (boot entries mem cr3) s) :
    s.OnlyRam entries := by
  have hinv : s.Inv entries :=
    hrun.inv (boot_inv hok mem cr3) fun _ _ _ h hg hs => h.step hg hs
  exact ⟨hinv.ram.handed, hinv.ram.free_le⟩

/-- Sixteen pages of memory, a page for the root of the tables, and a page that belongs to a
device. -/
def smallMemmap : List MemmapEntry :=
  [⟨0x1000, 0x10000, .usable⟩, ⟨0x20000, 0x1000, .bootloaderReclaimable⟩,
    ⟨0x30000, 0x1000, .reserved⟩]

theorem smallMemmap_ok : MemmapOk smallMemmap := by
  constructor
  · simp [smallMemmap]
  · simp [smallMemmap]

/-- A block of the heap is touched and freed. -/
theorem only_ram_block : ∃ s, Reach Step (UnmapsRam smallMemmap)
    (boot smallMemmap (fun _ => 0) 0x20000) s ∧ s.vm.pmm.handed = [1, 2, 3, 4] ∧
      s.vm.pmm.freePages = 13 ∧ s.OnlyRam smallMemmap := by
  obtain ⟨⟨rc, vm⟩, hd⟩ : ∃ r, Vm.vmmDemandPage
      { (boot smallMemmap (fun _ => 0) 0x20000).vm with heapNext := vmmHeapBase + 16 }
      vmmHeapBase = some r := Option.isSome_iff_exists.mp (by decide +kernel)
  have hval : (Vm.vmmDemandPage
      { (boot smallMemmap (fun _ => 0) 0x20000).vm with heapNext := vmmHeapBase + 16 }
      vmmHeapBase).map (fun r => ((r.2.pagingWalk vmmHeapBase).pte,
        (r.2.kfree vmmHeapBase 16).pmm.handed, (r.2.kfree vmmHeapBase 16).pmm.freePages)) =
      some (0x1003, [1, 2, 3, 4], 13) := by decide +kernel
  rw [hd] at hval
  obtain ⟨hpte, hrest⟩ := Prod.mk.inj (Option.some.inj hval)
  obtain ⟨hhanded, hfree⟩ := Prod.mk.inj hrest
  have h1 : Reach Step (UnmapsRam smallMemmap) (boot smallMemmap (fun _ => 0) 0x20000) _ :=
    .next (.kmalloc 16) .start trivial (.kmalloc rfl)
  have h2 := h1.next (VmAct.demandPage vmmHeapBase) trivial (.demandPage hd)
  have hguard : ∀ i < Vm.kfreeCount vmmHeapBase 16,
      vm.MapsRam smallMemmap (pageBase vmmHeapBase + i * 4096) := by
    intro i hi pte hleaf _
    obtain rfl : i = 0 := Nat.lt_one_iff.mp hi
    rw [← hleaf.2.1, show pageBase vmmHeapBase + 0 * 4096 = vmmHeapBase from rfl, hpte]
    decide
  have h3 := h2.next (VmAct.kfree vmmHeapBase 16) hguard (.kfree (List.mem_singleton_self _))
  exact ⟨_, h3, hhanded, hfree, only_ram smallMemmap_ok h3⟩

/-- A device page is mapped and unmapped; when the memory is used up, it is handed out. -/
theorem device_page_handed_out : MemmapOk smallMemmap ∧ ∃ s, Reach Step (fun _ _ => True)
    (boot smallMemmap (fun _ => 0) 0x20000) s ∧ ¬ s.OnlyRam smallMemmap := by
  refine ⟨smallMemmap_ok, ?_⟩
  obtain ⟨⟨virt, vm⟩, hm⟩ : ∃ r, (boot smallMemmap (fun _ => 0) 0x20000).vm.vmmMap 0x30000 4096 3 =
      some r := Option.isSome_iff_exists.mp (by decide +kernel)
  have hval : ((boot smallMemmap (fun _ => 0) 0x20000).vm.vmmMap 0x30000 4096 3).map (fun r =>
      (r.1, ((((r.2.vmmUnmap r.1 4096).pmm.pmmAllocPages 13).2.pmmAllocPages 1).2.handed).getLast?)) =
      some (vmmHeapBase, some 0x30) := by decide +kernel
  rw [hm] at hval
  obtain ⟨hvirt, hlast⟩ := Prod.mk.inj (Option.some.inj hval)
  dsimp only at hvirt hlast
  have h1 : Reach Step (fun _ _ => True) (boot smallMemmap (fun _ => 0) 0x20000) _ :=
    .next (.map 0x30000 4096 3) .start trivial (.map hm)
  have hne : virt ≠ 0 := by
    rw [hvirt]
    decide
  rw [if_neg hne] at h1
  have h2 := h1.next (VmAct.unmap virt 4096) trivial (.unmap (List.mem_cons_self ..))
  have h3 := h2.next (VmAct.alloc 13) trivial (.alloc rfl)
  have h4 := h3.next (VmAct.alloc 1) trivial (.alloc rfl)
  refine ⟨_, h4, ?_⟩
  rintro ⟨hhanded, -⟩
  exact absurd (hhanded 0x30 (List.mem_of_getLast? hlast)) (by decide)

end VmRun
end Ggmk

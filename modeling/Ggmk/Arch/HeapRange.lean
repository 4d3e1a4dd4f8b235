import Ggmk.Arch.HeapBlocks

/-! The ranges of addresses that the kernel heap hands out. `kmalloc` and `vmm_map` move one bump
pointer, and compare it with the end of the heap after sums that may wrap. -/
namespace Ggmk
open Word Guarded

namespace Vm
variable {s s' : Vm}

theorem ensureTable_heapNext {slot : ℕ} (hs : s.ensureTable slot = some s') :
    s'.heapNext = s.heapNext := by
  rcases ensureTable_cases hs with ⟨-, rfl⟩ | ⟨-, g, -, -, -, rfl⟩
  · rfl
  · rfl

theorem pagingMap_heapNext {virt phys flags : ℕ} (hs : s.pagingMap virt phys flags = some s') :
    s'.heapNext = s.heapNext := by
  obtain ⟨t₄, pdp, h₄, -, ⟨-, rfl⟩ | ⟨t₃, pd, -, h₃, -, ⟨-, rfl⟩ | ⟨t₂, -, h₂, rfl⟩⟩⟩ :=
    pagingMap_cases hs
  · exact ensureTable_heapNext h₄
  · exact (ensureTable_heapNext h₃).trans (ensureTable_heapNext h₄)
  · exact (ensureTable_heapNext h₂).trans
      ((ensureTable_heapNext h₃).trans (ensureTable_heapNext h₄))

theorem mapPages_heapNext {virt phys flags n i : ℕ}
    (hs : mapPages virt phys flags n i s = some s') : s'.heapNext = s.heapNext := by
  induction n generalizing i s with
  | zero =>
    obtain rfl := Option.some.inj hs
    rfl
  | succ n ih =>
    obtain ⟨t, ht, hs⟩ := Option.bind_eq_some_iff.mp hs
    exact (ih hs).trans (pagingMap_heapNext ht)

theorem unmapPage_heapNext (s : Vm) (virt : ℕ) : (s.unmapPage virt).heapNext = s.heapNext := by
  have hun : (s.pagingUnmap virt).2.heapNext = s.heapNext := by
    rw [pagingUnmap_eq]
    split <;> rfl
  unfold unmapPage
  dsimp only
  split
  · exact hun
  · exact hun

theorem unmapPages_heapNext (addr n : ℕ) (s : Vm) :
    (unmapPages addr n s).heapNext = s.heapNext := by
  induction n generalizing addr s with
  | zero => rfl
  | succ n ih => exact (ih _ _).trans (s.unmapPage_heapNext addr)

theorem vmmUnmap_heapNext (s : Vm) (virt size : ℕ) :
    (s.vmmUnmap virt size).heapNext = s.heapNext := by
  unfold vmmUnmap
  split
  · rfl
  · exact unmapPages_heapNext _ _ s

theorem kfree_heapNext (s : Vm) (ptr size : ℕ) : (s.kfree ptr size).heapNext = s.heapNext := by
  unfold kfree
  split
  · rfl
  · exact unmapPages_heapNext _ _ s

theorem vmmDemandPage_heapNext {fault : ℕ} {rc : ℤ} (hs : s.vmmDemandPage fault = some (rc, s')) :
    s'.heapNext = s.heapNext := by
  rcases vmmDemandPage_cases hs with ⟨-, -, rfl⟩ | ⟨-, g, -, -, -, hmap⟩
  · rfl
  · have hnext := pagingMap_heapNext hmap
    exact hnext

end Vm

/-- The heap with the ranges that it has handed out, each with the size that was asked for. -/
structure HeapRanges where
  vm : Vm
  ranges : List (ℕ × ℕ)

inductive HeapCall where
  | kmalloc (size : ℕ)
  | vmmMap (phys size flags : ℕ)
  | kfree (ptr size : ℕ)
  | vmmUnmap (virt size : ℕ)
  | demandPage (fault : ℕ)

namespace HeapRanges

/-- `vmm_init`. -/
def boot (vm : Vm) : HeapRanges := ⟨{ vm with heapNext := vmmHeapBase }, []⟩

/-- A call that does not panic. Addresses are not handed out again after a free. -/
inductive Step : HeapRanges → HeapCall → HeapRanges → Prop
  | kmalloc {s : HeapRanges} {size p : ℕ} {vm : Vm} (h : s.vm.kmalloc size = some (p, vm)) :
      Step s (.kmalloc size) ⟨vm, (p, size) :: s.ranges⟩
  | vmmMap {s : HeapRanges} {phys size flags p : ℕ} {vm : Vm}
      (h : s.vm.vmmMap phys size flags = some (p, vm)) :
      Step s (.vmmMap phys size flags) ⟨vm, (p, size) :: s.ranges⟩
  | kfree {s : HeapRanges} (ptr size : ℕ) :
      Step s (.kfree ptr size) { s with vm := s.vm.kfree ptr size }
  | vmmUnmap {s : HeapRanges} (virt size : ℕ) :
      Step s (.vmmUnmap virt size) { s with vm := s.vm.vmmUnmap virt size }
  | demandPage {s : HeapRanges} {fault : ℕ} {rc : ℤ} {vm : Vm}
      (h : s.vm.vmmDemandPage fault = some (rc, vm)) :
      Step s (.demandPage fault) { s with vm := vm }

/-- The ranges have the bytes that were asked for, inside the heap and apart from each other. -/
structure Sound (s : HeapRanges) : Prop where
  inside : ∀ r ∈ s.ranges, Set.Ico r.1 (r.1 + r.2) ⊆ Set.Ico vmmHeapBase vmmHeapEnd
  apart : s.ranges.Pairwise fun r t => Disjoint (Set.Ico r.1 (r.1 + r.2)) (Set.Ico t.1 (t.1 + t.2))

/-- The new bump pointer does not wrap, and a mapped range fits into as many pages as its size
takes. -/
def Fits (s : HeapRanges) : HeapCall → Prop
  | .kmalloc size => (s.vm.heapNext + 15) / 16 * 16 + (size + 15) / 16 * 16 < 2 ^ 64
  | .vmmMap phys size _ => 0 < size →
      pageBase (s.vm.heapNext + 0xFFF) + (size + 0xFFF) / 4096 * 4096 < 2 ^ 64 ∧
        phys % 4096 + size ≤ (size + 0xFFF) / 4096 * 4096
  | _ => True

/-- The ranges are below the bump pointer. -/
structure Inv (s : HeapRanges) : Prop where
  base_le : vmmHeapBase ≤ s.vm.heapNext
  le_end : s.vm.heapNext ≤ vmmHeapEnd
  below : ∀ r ∈ s.ranges, r.2 = 0 ∨ vmmHeapBase ≤ r.1 ∧ r.1 + r.2 ≤ s.vm.heapNext
  apart : s.ranges.Pairwise fun r t => Disjoint (Set.Ico r.1 (r.1 + r.2)) (Set.Ico t.1 (t.1 + t.2))

variable {s s' : HeapRanges}

theorem boot_inv (vm : Vm) : (boot vm).Inv where
  base_le := le_rfl
  le_end := Nat.le_add_right _ _
  below := by simp [boot]
  apart := .nil

theorem Inv.sound (h : s.Inv) : s.Sound := by
  refine ⟨fun r hr => ?_, h.apart⟩
  rcases h.below r hr with hzero | ⟨hbase, hnext⟩
  · rw [hzero, Nat.add_zero, Set.Ico_self]
    exact Set.empty_subset _
  · exact Set.Ico_subset_Ico hbase (hnext.trans h.le_end)

/-- A range is taken from between the old and the new bump pointer. -/
theorem Inv.grow (h : s.Inv) {vm : Vm} {p size : ℕ} (hlo : s.vm.heapNext ≤ p)
    (hhi : p + size ≤ vm.heapNext) (hend : vm.heapNext ≤ vmmHeapEnd) :
    Inv ⟨vm, (p, size) :: s.ranges⟩ where
  base_le := h.base_le.trans (hlo.trans ((Nat.le_add_right _ _).trans hhi))
  le_end := hend
  below := by
    intro r hr
    rcases List.mem_cons.mp hr with rfl | hr
    · exact .inr ⟨h.base_le.trans hlo, hhi⟩
    · have hold := h.below r hr
      dsimp only
      omega
  apart := by
    refine List.pairwise_cons.mpr ⟨fun r hr => ?_, h.apart⟩
    rcases h.below r hr with hzero | ⟨-, hnext⟩
    · rw [hzero, Nat.add_zero, Set.Ico_self]
      exact Set.disjoint_empty _
    · refine Set.disjoint_left.mpr fun x hx hxr => ?_
      have hp : p ≤ x := hx.1
      have hx' : x < r.1 + r.2 := hxr.2
      omega

theorem Inv.same (h : s.Inv) {vm : Vm} (hnext : vm.heapNext = s.vm.heapNext) :
    Inv { s with vm := vm } :=
  ⟨hnext ▸ h.base_le, hnext ▸ h.le_end, fun r hr => hnext ▸ h.below r hr, h.apart⟩

/-- A call for no bytes hands out none. -/
theorem Inv.empty (h : s.Inv) (p : ℕ) : Inv ⟨s.vm, (p, 0) :: s.ranges⟩ where
  base_le := h.base_le
  le_end := h.le_end
  below := by
    intro r hr
    rcases List.mem_cons.mp hr with rfl | hr
    · exact .inl rfl
    · exact h.below r hr
  apart := by
    refine List.pairwise_cons.mpr ⟨fun r _ => ?_, h.apart⟩
    rw [Nat.add_zero, Set.Ico_self]
    exact Set.empty_disjoint _

theorem Inv.kmalloc (h : s.Inv) {size p : ℕ} {vm : Vm} (hg : s.Fits (.kmalloc size))
    (hs : s.vm.kmalloc size = some (p, vm)) : Inv ⟨vm, (p, size) :: s.ranges⟩ := by
  rcases Vm.kmalloc_cases h.base_le h.le_end hg hs with
    ⟨rfl, -, rfl⟩ | ⟨-, hlo, hhi, hend, -⟩
  · exact h.empty p
  · exact h.grow hlo hhi hend

/-- The page where a mapping starts, and the address in it that is returned. -/
theorem Inv.start (h : s.Inv) {virt p phys : ℕ}
    (hvirt : virt = pageBase (uint64 (s.vm.heapNext + 0xFFF)))
    (hp : p = uint64 (virt + phys % 4096)) :
    virt = (s.vm.heapNext + 0xFFF) / 4096 * 4096 ∧ p = virt + phys % 4096 := by
  have hend : s.vm.heapNext ≤ 0xffffffff90000000 := h.le_end
  rw [uint64_of_lt (by omega)] at hvirt
  have hvirt' : virt = (s.vm.heapNext + 0xFFF) / 4096 * 4096 := hvirt
  rw [uint64_of_lt (by omega)] at hp
  exact ⟨hvirt', hp⟩

theorem Inv.vmmMap (h : s.Inv) {phys size flags p : ℕ} {vm : Vm}
    (hg : s.Fits (.vmmMap phys size flags)) (hs : s.vm.vmmMap phys size flags = some (p, vm)) :
    Inv ⟨vm, (p, size) :: s.ranges⟩ := by
  rcases Vm.vmmMap_cases hs with ⟨rfl, -, rfl⟩ | ⟨virt, next, hsize, hvirt, hnext, hend, hp, hs⟩
  · exact h.empty p
  have hbase : 0xffffffff88000000 ≤ s.vm.heapNext := h.base_le
  obtain ⟨hlt, hfit⟩ := hg (by omega)
  obtain ⟨hvirt, hp⟩ := h.start hvirt hp
  rw [show pageBase (s.vm.heapNext + 0xFFF) = virt from hvirt.symm] at hlt
  rw [uint64_of_lt (by omega : size + 0xFFF < 2 ^ 64), uint64_of_lt hlt] at hnext
  have hnext' : vm.heapNext = next := Vm.mapPages_heapNext hs
  exact h.grow (by omega) (by omega) (hnext' ▸ hend)

theorem Inv.step (h : s.Inv) {c : HeapCall} (hg : s.Fits c) (hs : Step s c s') : s'.Inv := by
  cases hs with
  | kmalloc hs => exact h.kmalloc hg hs
  | vmmMap hs => exact h.vmmMap hg hs
  | kfree ptr size => exact h.same (s.vm.kfree_heapNext ptr size)
  | vmmUnmap virt size => exact h.same (s.vm.vmmUnmap_heapNext virt size)
  | demandPage hs => exact h.same (Vm.vmmDemandPage_heapNext hs)

/-! ## Calls that do not fit -/

/-- A range that reaches the end of the heap is not inside. -/
theorem not_sound_of_end {r : ℕ × ℕ} (hr : r ∈ s.ranges) (hpos : 0 < r.2)
    (hend : vmmHeapEnd < r.1 + r.2) : ¬ s.Sound := by
  intro hsound
  have hlast : r.1 + r.2 - 1 ∈ Set.Ico r.1 (r.1 + r.2) := ⟨by omega, by omega⟩
  have hlt : r.1 + r.2 - 1 < vmmHeapEnd := (hsound.inside r hr hlast).2
  omega

theorem Inv.kmalloc_unsound (h : s.Inv) {size p : ℕ} {vm : Vm} (hbad : ¬ s.Fits (.kmalloc size))
    (hs : s.vm.kmalloc size = some (p, vm)) : ¬ Sound ⟨vm, (p, size) :: s.ranges⟩ := by
  have hend : s.vm.heapNext ≤ 0xffffffff90000000 := h.le_end
  have hwrap : 2 ^ 64 ≤ (s.vm.heapNext + 15) / 16 * 16 + (size + 15) / 16 * 16 := not_lt.mp hbad
  rcases Vm.kmalloc_some hs with ⟨rfl, -, -⟩ | ⟨next, -, hp, -⟩
  · omega
  rw [uint64_of_lt (by omega)] at hp
  refine not_sound_of_end List.mem_cons_self ?_ ?_
  · dsimp only
    omega
  · show 0xffffffff90000000 < p + size
    omega

/-- A range that goes beyond the bump pointer meets the next one. -/
theorem meets_next {p size : ℕ} (hmem : (p, size) ∈ s.ranges)
    (halign : s.vm.heapNext % 4096 = 0) (hp : p ≤ s.vm.heapNext)
    (hlong : s.vm.heapNext < p + size) (hroom : s.vm.heapNext < vmmHeapEnd) :
    ∃ s', Step s (.kmalloc 1) s' ∧ ¬ s'.Sound := by
  have hroom' : s.vm.heapNext < 0xffffffff90000000 := hroom
  have hround : (s.vm.heapNext + 15) / 16 * 16 = s.vm.heapNext := by omega
  have hcall := Vm.kmalloc_eq (s := s.vm) one_ne_zero (by omega) (by omega) (by omega)
  rw [hround, if_neg (by unfold vmmHeapEnd vmmHeapBase vmmHeapSize; omega)] at hcall
  refine ⟨_, .kmalloc hcall, fun hsound => ?_⟩
  have hapart := (List.pairwise_cons.mp hsound.apart).1 _ hmem
  exact Set.disjoint_left.mp hapart ⟨le_rfl, Nat.lt_succ_self _⟩ ⟨hp, hlong⟩

theorem Inv.vmmMap_unsound (h : s.Inv) {phys size flags p : ℕ} {vm : Vm}
    (hbad : ¬ s.Fits (.vmmMap phys size flags))
    (hs : s.vm.vmmMap phys size flags = some (p, vm)) :
    let t : HeapRanges := ⟨vm, (p, size) :: s.ranges⟩
    ¬ t.Sound ∨ ∃ t', Step t (.kmalloc 1) t' ∧ ¬ t'.Sound := by
  intro t
  obtain ⟨hpos, hbad⟩ := Classical.not_imp.mp hbad
  rcases Vm.vmmMap_cases hs with ⟨rfl, -, -⟩ | ⟨virt, next, -, hvirt, hnext, hend, hp, hs⟩
  · exact absurd hpos (lt_irrefl 0)
  have hbase : 0xffffffff88000000 ≤ s.vm.heapNext := h.base_le
  have hle : s.vm.heapNext ≤ 0xffffffff90000000 := h.le_end
  obtain ⟨hvirt, hp⟩ := h.start hvirt hp
  rw [show pageBase (s.vm.heapNext + 0xFFF) = virt from hvirt.symm, not_and_or] at hbad
  by_cases hbeyond : vmmHeapEnd < p + size
  · exact .inl (not_sound_of_end (r := (p, size)) List.mem_cons_self hpos hbeyond)
  have hinside : p + size ≤ 0xffffffff90000000 := not_lt.mp hbeyond
  -- without a wrap the range is longer than its pages
  have hlt : virt + (size + 0xFFF) / 4096 * 4096 < 2 ^ 64 := by omega
  have hlong := hbad.resolve_left (not_not.mpr hlt)
  rw [uint64_of_lt (by omega : size + 0xFFF < 2 ^ 64), uint64_of_lt hlt] at hnext
  have hnext' : vm.heapNext = next := Vm.mapPages_heapNext hs
  refine .inr (meets_next (s := t) (p := p) List.mem_cons_self ?_ ?_ ?_ ?_)
  · show vm.heapNext % 4096 = 0
    omega
  · show p ≤ vm.heapNext
    omega
  · show vm.heapNext < p + size
    omega
  · show vm.heapNext < 0xffffffff90000000
    omega

/-- The first call that does not fit ends the soundness, at once or with the next range. -/
theorem Inv.misfit (h : s.Inv) {c : HeapCall} (hbad : ¬ s.Fits c) (hs : Step s c s') :
    ¬ s'.Sound ∨ ∃ t, Step s' (.kmalloc 1) t ∧ ¬ t.Sound := by
  cases hs with
  | kmalloc hs => exact .inl (h.kmalloc_unsound hbad hs)
  | vmmMap hs => exact h.vmmMap_unsound hbad hs
  | kfree ptr size => exact absurd trivial hbad
  | vmmUnmap virt size => exact absurd trivial hbad
  | demandPage hs => exact absurd trivial hbad

/-- In every run whose calls fit, the ranges lie in the heap and are disjoint, which the first call
that does not fit ends. -/
theorem ranges_sound {vm : Vm} (hrun : Reach Step Fits (boot vm) s) : s.Sound ∧
    ∀ c s', ¬ s.Fits c → Step s c s' →
      ¬ s'.Sound ∨ ∃ t, Step s' (.kmalloc 1) t ∧ ¬ t.Sound := by
  have hinv : s.Inv := hrun.inv (boot_inv vm) fun _ _ _ h hg hs => h.step hg hs
  exact ⟨hinv.sound, fun c s' hbad hs => hinv.misfit hbad hs⟩

/-- A block and a page behind it. -/
theorem ranges_sound_two : ∃ s, Reach Step Fits (boot HeapRun.smallVm) s ∧
    s.ranges = [(vmmHeapBase + 4096, 4096), (vmmHeapBase, 100)] ∧ s.Sound := by
  have hk : (boot HeapRun.smallVm).vm.kmalloc 100 =
      some (vmmHeapBase, { HeapRun.smallVm with heapNext := vmmHeapBase + 112 }) :=
    HeapRun.smallVm_kmalloc (by decide) (by decide) (by decide) (by decide)
  have hm : (Vm.vmmMap { HeapRun.smallVm with heapNext := vmmHeapBase + 112 } 0x30000 4096 3).map
      Prod.fst = some (vmmHeapBase + 4096) := by decide +kernel
  obtain ⟨⟨p, vm⟩, hm, rfl⟩ := Option.map_eq_some_iff.mp hm
  have h1 : Reach Step Fits (boot HeapRun.smallVm) _ :=
    .next (.kmalloc 100) .start (show _ < _ by decide) (.kmalloc hk)
  have h2 := h1.next (HeapCall.vmmMap 0x30000 4096 3) (fun _ => by decide) (.vmmMap hm)
  exact ⟨_, h2, rfl, (ranges_sound h2).1⟩

/-- A request for `2 ^ 64 - 1` bytes is rounded to none, and served. -/
theorem ranges_unsound : ∃ s, Reach Step (fun _ _ => True) (boot HeapRun.smallVm) s ∧
    s.ranges = [(vmmHeapBase, 2 ^ 64 - 1)] ∧ ¬ s.Sound := by
  have hk : ((boot HeapRun.smallVm).vm.kmalloc (2 ^ 64 - 1)).map Prod.fst = some vmmHeapBase := by
    decide +kernel
  obtain ⟨⟨p, vm⟩, hk, rfl⟩ := Option.map_eq_some_iff.mp hk
  exact ⟨_, .next (.kmalloc (2 ^ 64 - 1)) .start trivial (.kmalloc hk), rfl,
    not_sound_of_end List.mem_cons_self (by decide) (by decide)⟩

end HeapRanges
end Ggmk

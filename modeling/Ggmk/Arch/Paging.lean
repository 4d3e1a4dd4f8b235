import Ggmk.Lib.ByteMem
import Ggmk.Arch.Pmm

/-! The four-level page tables of `paging.c`. The tables are pages of physical memory, which
the kernel reaches through the higher-half direct map; an access there is an access at the
physical address. -/
namespace Ggmk
open Word ByteMem

/-- Physical memory, the root of the page tables, the page allocator and the heap's bump
pointer. -/
structure Vm where
  mem : Mem
  cr3 : ℕ
  pmm : Pmm
  heapNext : ℕ

def ptePresent : ℕ := 1
def pteWritable : ℕ := 2

/-- `e & PTE_PRESENT`. -/
def present (e : ℕ) : Bool := e.testBit 0

/-- `e & PTE_PS`. -/
def huge (e : ℕ) : Bool := e.testBit 7

/-- `e & ~0xFFF`. -/
def pageBase (e : ℕ) : ℕ := e / 4096 * 4096

def pml4Idx (virt : ℕ) : ℕ := virt / 2 ^ 39 % 512
def pdpIdx (virt : ℕ) : ℕ := virt / 2 ^ 30 % 512
def pdIdx (virt : ℕ) : ℕ := virt / 2 ^ 21 % 512
def ptIdx (virt : ℕ) : ℕ := virt / 2 ^ 12 % 512

namespace Vm

def load64 (s : Vm) (a : ℕ) : ℕ := readLe s.mem a 8

def store64 (s : Vm) (a w : ℕ) : Vm := { s with mem := writeLe s.mem a 8 w }

/-- A zeroed page for a table; without one the kernel panics. -/
def pagingAllocTable (s : Vm) : Option (ℕ × Vm) :=
  let (phys, pmm) := s.pmm.pmmAllocPages 1
  if phys = 0 then none
  else some (phys, { s with mem := clear s.mem phys 4096, pmm := pmm })

/-- The table that the entry at `slot` points to exists. -/
def ensureTable (s : Vm) (slot : ℕ) : Option Vm :=
  if present (s.load64 slot) then some s
  else s.pagingAllocTable.map fun (page, s) => s.store64 slot (page ||| ptePresent ||| pteWritable)

/-- The entry is a present huge page. -/
def hugeAt (s : Vm) (slot : ℕ) : Bool := present (s.load64 slot) && huge (s.load64 slot)

def pagingMap (s : Vm) (virt phys flags : ℕ) : Option Vm :=
  let pml4 := pageBase s.cr3 + pml4Idx virt * 8
  (s.ensureTable pml4).bind fun s =>
    let pdp := pageBase (s.load64 pml4) + pdpIdx virt * 8
    -- the region of a huge page is mapped already
    if s.hugeAt pdp then some s
    else (s.ensureTable pdp).bind fun s =>
      let pd := pageBase (s.load64 pdp) + pdIdx virt * 8
      if s.hugeAt pd then some s
      else (s.ensureTable pd).bind fun s =>
        let pt := pageBase (s.load64 pd) + ptIdx virt * 8
        some (s.store64 pt (pageBase phys ||| flags))

/-- Returns the physical address that was mapped, or 0. -/
def pagingUnmap (s : Vm) (virt : ℕ) : ℕ × Vm :=
  let pml4e := s.load64 (pageBase s.cr3 + pml4Idx virt * 8)
  if ¬ present pml4e then (0, s)
  else
    let pdpe := s.load64 (pageBase pml4e + pdpIdx virt * 8)
    if ¬ present pdpe then (0, s)
    else if huge pdpe then (0, s)
    else
      let pde := s.load64 (pageBase pdpe + pdIdx virt * 8)
      if ¬ present pde then (0, s)
      else if huge pde then (0, s)
      else
        let pt := pageBase pde + ptIdx virt * 8
        if ¬ present (s.load64 pt) then (0, s)
        else (pageBase (s.load64 pt), s.store64 pt 0)

/-- The raw entries that a walk finds, and the depth it reaches. -/
structure Walk where
  depth : ℕ
  pml4e : ℕ
  pdpe : ℕ
  pde : ℕ
  pte : ℕ

def pagingWalk (s : Vm) (virt : ℕ) : Walk :=
  let pml4e := s.load64 (pageBase s.cr3 + pml4Idx virt * 8)
  if ¬ present pml4e then ⟨1, pml4e, 0, 0, 0⟩
  else
    let pdpe := s.load64 (pageBase pml4e + pdpIdx virt * 8)
    if ¬ present pdpe then ⟨2, pml4e, pdpe, 0, 0⟩
    else if huge pdpe then ⟨2, pml4e, pdpe, 0, 0⟩
    else
      let pde := s.load64 (pageBase pdpe + pdIdx virt * 8)
      if ¬ present pde then ⟨3, pml4e, pdpe, pde, 0⟩
      else if huge pde then ⟨3, pml4e, pdpe, pde, 0⟩
      else ⟨4, pml4e, pdpe, pde, s.load64 (pageBase pde + ptIdx virt * 8)⟩

/-- An entry for a frame with the flags of a present and writable page. -/
theorem entry_flags (g : ℕ) : g * 4096 ||| 3 = g * 4096 + 3 := by
  have h := Nat.two_pow_add_eq_or_of_lt (i := 12) (b := 3) (by norm_num) g
  rw [Nat.mul_comm g, show (4096 : ℕ) = 2 ^ 12 from rfl, ← h]

/-- A table that is missing is a zeroed page of the allocator. -/
theorem ensureTable_cases {s s' : Vm} {slot : ℕ} (hs : s.ensureTable slot = some s') :
    (present (s.load64 slot) = true ∧ s' = s) ∨
      present (s.load64 slot) = false ∧ ∃ g,
        s.pmm.pmmAllocPages 1 = (g * 4096, s.pmm.take g 1) ∧ g < s.pmm.totalPages ∧
          s.pmm.bitmap g = false ∧ s' = { s with
            mem := writeLe (clear s.mem (g * 4096) 4096) slot 8 (g * 4096 + 3)
            pmm := s.pmm.take g 1 } := by
  unfold ensureTable at hs
  split at hs
  next hpres =>
    exact .inl ⟨hpres, (Option.some.inj hs).symm⟩
  next hpres =>
    obtain ⟨⟨page, t⟩, ht, rfl⟩ := Option.map_eq_some_iff.mp hs
    unfold pagingAllocTable at ht
    dsimp only at ht
    split at ht
    · exact absurd ht (by simp)
    · rename_i hphys
      obtain ⟨rfl, rfl⟩ := Prod.mk.inj (Option.some.inj ht)
      obtain ⟨g, hg, hlt, hfree, htake⟩ := Pmm.alloc_one (Prod.eta _).symm hphys
      refine .inr ⟨Bool.eq_false_iff.mpr hpres, g, Prod.ext hg htake, hlt, hfree, ?_⟩
      have hflags : g * 4096 ||| ptePresent ||| pteWritable = g * 4096 + 3 := by
        rw [Nat.or_assoc]
        exact entry_flags g
      simp only [store64, hg, htake, hflags]

/-- A mapping makes the tables it needs, and stops at a huge page. -/
theorem pagingMap_cases {s s' : Vm} {virt phys flags : ℕ}
    (h : s.pagingMap virt phys flags = some s') :
    ∃ t₄ pdp, s.ensureTable (pageBase s.cr3 + pml4Idx virt * 8) = some t₄ ∧
      pdp = pageBase (t₄.load64 (pageBase s.cr3 + pml4Idx virt * 8)) + pdpIdx virt * 8 ∧
      ((t₄.hugeAt pdp = true ∧ s' = t₄) ∨
        ∃ t₃ pd, t₄.hugeAt pdp = false ∧ t₄.ensureTable pdp = some t₃ ∧
          pd = pageBase (t₃.load64 pdp) + pdIdx virt * 8 ∧
          ((t₃.hugeAt pd = true ∧ s' = t₃) ∨
            ∃ t₂, t₃.hugeAt pd = false ∧ t₃.ensureTable pd = some t₂ ∧
              s' = t₂.store64 (pageBase (t₂.load64 pd) + ptIdx virt * 8)
                (pageBase phys ||| flags))) := by
  simp only [pagingMap] at h
  obtain ⟨t₄, h₄, h⟩ := Option.bind_eq_some_iff.mp h
  refine ⟨t₄, _, h₄, rfl, ?_⟩
  split at h
  · rename_i hhuge
    exact .inl ⟨hhuge, (Option.some.inj h).symm⟩
  · rename_i hhuge
    obtain ⟨t₃, h₃, h⟩ := Option.bind_eq_some_iff.mp h
    refine .inr ⟨t₃, _, Bool.eq_false_iff.mpr hhuge, h₃, rfl, ?_⟩
    split at h
    · rename_i hhuge'
      exact .inl ⟨hhuge', (Option.some.inj h).symm⟩
    · rename_i hhuge'
      obtain ⟨t₂, h₂, h⟩ := Option.bind_eq_some_iff.mp h
      exact .inr ⟨t₂, Bool.eq_false_iff.mpr hhuge', h₂, (Option.some.inj h).symm⟩

/-! ## Walks -/

/-- The entries on the way to the page table of `virt`. -/
structure Path (s : Vm) (virt pml4e pdpe pde : ℕ) : Prop where
  pml4e_eq : s.load64 (pageBase s.cr3 + pml4Idx virt * 8) = pml4e
  pml4e_present : present pml4e = true
  pdpe_eq : s.load64 (pageBase pml4e + pdpIdx virt * 8) = pdpe
  pdpe_present : present pdpe = true
  pdpe_huge : huge pdpe = false
  pde_eq : s.load64 (pageBase pdpe + pdIdx virt * 8) = pde
  pde_present : present pde = true
  pde_huge : huge pde = false

/-- A walk that reaches the last level goes along a path. -/
theorem pagingWalk_deep {s : Vm} {virt : ℕ} (h : (s.pagingWalk virt).depth = 4) :
    ∃ pml4e pdpe pde, s.Path virt pml4e pdpe pde := by
  unfold pagingWalk at h
  dsimp only at h
  split at h
  · simp at h
  rename_i h4
  split at h
  · simp at h
  rename_i h3
  split at h
  · simp at h
  rename_i h3'
  split at h
  · simp at h
  rename_i h2
  split at h
  · simp at h
  rename_i h2'
  exact ⟨_, _, _, rfl, not_not.mp h4, rfl, not_not.mp h3, Bool.eq_false_iff.mpr h3', rfl,
    not_not.mp h2, Bool.eq_false_iff.mpr h2'⟩

theorem Path.walk {s : Vm} {virt pml4e pdpe pde : ℕ} (h : s.Path virt pml4e pdpe pde) :
    s.pagingWalk virt =
      ⟨4, pml4e, pdpe, pde, s.load64 (pageBase pde + ptIdx virt * 8)⟩ := by
  simp [pagingWalk, h.pml4e_eq, h.pml4e_present, h.pdpe_eq, h.pdpe_present, h.pdpe_huge, h.pde_eq,
    h.pde_present, h.pde_huge]

/-- The page of `virt` is mapped by the entry `pte`. -/
def Leaf (s : Vm) (virt pte : ℕ) : Prop :=
  (s.pagingWalk virt).depth = 4 ∧ (s.pagingWalk virt).pte = pte ∧ present pte = true

/-! ## Unmapping -/

/-- The address of the page-table entry that a walk reaches. -/
def pteSlot (s : Vm) (virt : ℕ) : ℕ := pageBase (s.pagingWalk virt).pde + ptIdx virt * 8

/-- What is unmapped is the page of the entry that a walk finds. -/
theorem pagingUnmap_eq (s : Vm) (virt : ℕ) :
    s.pagingUnmap virt =
      if (s.pagingWalk virt).depth = 4 ∧ present (s.pagingWalk virt).pte then
        (pageBase (s.pagingWalk virt).pte, s.store64 (s.pteSlot virt) 0)
      else (0, s) := by
  unfold pagingUnmap pteSlot pagingWalk
  dsimp only
  split
  · simp
  split
  · simp
  split
  · simp
  split
  · simp
  split
  · simp
  split
  · rename_i hnot
    simp [Bool.eq_false_iff.mpr hnot]
  · rename_i hpresent
    rw [if_pos ⟨rfl, not_not.mp hpresent⟩]

theorem pagingUnmap_of_leaf {s : Vm} {virt pte : ℕ} (h : s.Leaf virt pte) :
    s.pagingUnmap virt = (pageBase pte, s.store64 (s.pteSlot virt) 0) := by
  obtain ⟨hdepth, rfl, hpresent⟩ := h
  rw [pagingUnmap_eq, if_pos ⟨hdepth, hpresent⟩]

theorem pagingUnmap_of_not_leaf {s : Vm} {virt : ℕ} (h : ∀ pte, ¬ s.Leaf virt pte) :
    s.pagingUnmap virt = (0, s) := by
  rw [pagingUnmap_eq, if_neg]
  rintro ⟨hdepth, hpresent⟩
  exact h _ ⟨hdepth, rfl, hpresent⟩

/-- Aligned words have only been set to zero. -/
def Dimmed (m m' : Mem) : Prop := ∀ a, a % 8 = 0 → readLe m' a 8 = readLe m a 8 ∨ readLe m' a 8 = 0

theorem Dimmed.refl (m : Mem) : Dimmed m m := fun _ _ => .inl rfl

theorem Dimmed.trans {m₁ m₂ m₃ : Mem} (h : Dimmed m₁ m₂) (h' : Dimmed m₂ m₃) : Dimmed m₁ m₃ := by
  intro a ha
  rcases h' a ha with h2 | h2
  · rw [h2]
    exact h a ha
  · exact .inr h2

theorem pageBase_mod (e : ℕ) : pageBase e % 8 = 0 := by
  unfold pageBase
  omega

theorem dimmed_store (s : Vm) {a : ℕ} (ha : a % 8 = 0) : Dimmed s.mem (s.store64 a 0).mem := by
  intro b hb
  by_cases hab : b = a
  · right
    rw [hab, store64, readLe_writeLe_self, Nat.zero_mod]
  · left
    exact readLe_writeLe_of_disjoint (by omega)

theorem pteSlot_mod (s : Vm) (virt : ℕ) : s.pteSlot virt % 8 = 0 := by
  have := pageBase_mod (s.pagingWalk virt).pde
  unfold pteSlot
  omega

theorem dimmed_unmap (s : Vm) (virt : ℕ) : Dimmed s.mem (s.pagingUnmap virt).2.mem := by
  rw [pagingUnmap_eq]
  split
  · exact s.dimmed_store (s.pteSlot_mod virt)
  · exact .refl _

/-- An entry that is still present is the one that was there. -/
theorem Dimmed.load {s t : Vm} (h : Dimmed s.mem t.mem) {a : ℕ} (ha : a % 8 = 0)
    (hp : present (t.load64 a) = true) : s.load64 a = t.load64 a := by
  rcases h a ha with heq | hzero
  · exact heq.symm
  · rw [load64, hzero] at hp
    exact absurd hp (by decide)

/-- A page that is still mapped is mapped as it was. -/
theorem Leaf.of_dimmed {s t : Vm} (h : Dimmed s.mem t.mem) (hcr3 : t.cr3 = s.cr3) {virt pte : ℕ}
    (hleaf : t.Leaf virt pte) : s.Leaf virt pte := by
  obtain ⟨hdepth, rfl, hpresent⟩ := hleaf
  obtain ⟨pml4e, pdpe, pde, hpath⟩ := pagingWalk_deep hdepth
  have hload {e i a : ℕ} (he : t.load64 (pageBase e + i * 8) = a) (hp : present a = true) :
      s.load64 (pageBase e + i * 8) = a := by
    have hmod := pageBase_mod e
    subst he
    exact h.load (by omega) hp
  have hpath' : s.Path virt pml4e pdpe pde :=
    ⟨hcr3 ▸ hload hpath.pml4e_eq hpath.pml4e_present, hpath.pml4e_present,
      hload hpath.pdpe_eq hpath.pdpe_present, hpath.pdpe_present, hpath.pdpe_huge,
      hload hpath.pde_eq hpath.pde_present, hpath.pde_present, hpath.pde_huge⟩
  rw [hpath.walk] at hpresent ⊢
  refine ⟨by rw [hpath'.walk], ?_, hpresent⟩
  rw [hpath'.walk]
  exact hload rfl hpresent

end Vm
end Ggmk

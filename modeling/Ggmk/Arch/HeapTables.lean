import Ggmk.Lib.PageTree
import Ggmk.Arch.Vmm

/-! The page tables below which the heap lies, as a tree of frames. Mapping a page adds leaves
and tables to the tree, unmapping one takes a leaf away, and nothing else moves. -/
namespace Ggmk
open Word ByteMem PageTree

def InHeap (virt : ℕ) : Prop := vmmHeapBase ≤ virt ∧ virt < vmmHeapEnd

/-- The node of the page of an address, the index of the last level first. -/
def pagePath (virt : ℕ) : List ℕ := [ptIdx virt, pdIdx virt, pdpIdx virt, pml4Idx virt]

/-- The tables on the way to the pages of the heap, and these pages. -/
def heapNodes : Set (List ℕ) := { p | ∃ virt, InHeap virt ∧ p <:+ pagePath virt }

theorem heapNodes_tail (i : ℕ) (p : List ℕ) (h : i :: p ∈ heapNodes) : p ∈ heapNodes := by
  obtain ⟨virt, hv, hp⟩ := h
  exact ⟨virt, hv, (List.suffix_cons i p).trans hp⟩

theorem pagePath_mem {virt : ℕ} (h : InHeap virt) : pagePath virt ∈ heapNodes :=
  ⟨virt, h, List.suffix_refl _⟩

theorem heapNodes_length {p : List ℕ} (h : p ∈ heapNodes) : p.length ≤ 4 := by
  obtain ⟨virt, -, hp⟩ := h
  simpa [pagePath] using hp.length_le

theorem heapNodes_index {i : ℕ} {p : List ℕ} (h : i :: p ∈ heapNodes) : i < 512 := by
  obtain ⟨virt, -, hp⟩ := h
  have hmem : i ∈ pagePath virt := hp.subset (List.mem_cons_self ..)
  simp only [pagePath, List.mem_cons, List.not_mem_nil, or_false] at hmem
  unfold ptIdx pdIdx pdpIdx pml4Idx at hmem
  omega

/-- Addresses of the heap with one path are in one page. -/
theorem page_eq_of_path {v w : ℕ} (hv : InHeap v) (hw : InHeap w)
    (h : pagePath v = pagePath w) : v / 4096 = w / 4096 := by
  obtain ⟨hv1, hv2⟩ := hv
  obtain ⟨hw1, hw2⟩ := hw
  simp only [pagePath, List.cons.injEq, and_true, ptIdx, pdIdx, pdpIdx, pml4Idx] at h
  unfold vmmHeapEnd vmmHeapBase vmmHeapSize at *
  omega

theorem path_eq_of_page {v w : ℕ} (h : v / 4096 = w / 4096) : pagePath v = pagePath w := by
  simp only [pagePath, ptIdx, pdIdx, pdpIdx, pml4Idx, List.cons.injEq, and_true]
  omega

/-! ## Entries -/

/-- Entry `i` of the table in frame `f`. -/
def entry (m : Mem) (f i : ℕ) : ℕ := readLe m (f * 4096 + i * 8) 8

/-- The frame that a present entry points to. -/
def target (e : ℕ) : Option ℕ := if present e then some (e / 4096) else none

def child (m : Mem) (f i : ℕ) : Option ℕ := target (entry m f i)

theorem entry_write {m : Mem} {f i f₀ i₀ w : ℕ} (hi : i < 512) (hi₀ : i₀ < 512)
    (hw : w < 2 ^ 64) :
    entry (writeLe m (f₀ * 4096 + i₀ * 8) 8 w) f i =
      if f = f₀ ∧ i = i₀ then w else entry m f i := by
  unfold entry
  split
  · rename_i h
    rw [h.1, h.2, readLe_writeLe_self]
    exact Nat.mod_eq_of_lt hw
  · rename_i h
    apply readLe_writeLe_of_disjoint
    omega

theorem entry_clear {m : Mem} {f i g : ℕ} (hi : i < 512) :
    entry (clear m (g * 4096) 4096) f i = if f = g then 0 else entry m f i := by
  unfold entry
  split
  · rename_i h
    rw [h]
    exact readLe_clear (by omega) (by omega)
  · rename_i h
    apply readLe_clear_of_disjoint
    omega

theorem entry_update {m : Mem} {f i d k : ℕ} {x : UInt8} (hi : i < 512) (hk : k < 4096)
    (hne : f ≠ d) : entry (Function.update m (d * 4096 + k) x) f i = entry m f i := by
  apply readLe_congr
  intro b hb1 hb2
  apply Function.update_of_ne
  omega

theorem present_flags (g : ℕ) : present (g * 4096 + 3) = true := by
  rw [present, Nat.testBit_zero]
  simp only [decide_eq_true_eq]
  omega

theorem huge_flags (g : ℕ) : huge (g * 4096 + 3) = false := by
  rw [huge, Nat.testBit_eq_decide_div_mod_eq]
  simp only [decide_eq_false_iff_not]
  omega

theorem target_flags (g : ℕ) : target (g * 4096 + 3) = some g := by
  rw [target, if_pos (present_flags g)]
  congr 1
  omega

namespace Vm

/-- The frame of a node. -/
def frame (s : Vm) (p : List ℕ) : Option ℕ := frameOf (child s.mem) (s.cr3 / 4096) p

/-- The tables of the heap: each node has a frame of its own, none of them is free, and the
entries are those of ordinary pages. -/
structure Tables (s : Vm) : Prop where
  separate : Separate (child s.mem) (s.cr3 / 4096) heapNodes
  used : ∀ p ∈ heapNodes, ∀ f, s.frame p = some f → f < s.pmm.totalPages → s.pmm.bitmap f = true
  plain : ∀ i p f, i :: p ∈ heapNodes → s.frame p = some f → present (entry s.mem f i) = true →
    huge (entry s.mem f i) = false ∧ entry s.mem f i < 2 ^ 52
  root_lt : s.cr3 < 2 ^ 52
  total_le : s.pmm.totalPages ≤ maxPages

/-- A frame that is not free and has no table of the heap. -/
def Kept (s : Vm) (d : ℕ) : Prop :=
  (d < s.pmm.totalPages → s.pmm.bitmap d = true) ∧
    ∀ p ∈ heapNodes, p.length < 4 → s.frame p ≠ some d

/-- The bytes of frame `d` are the same. -/
def SameFrame (s s' : Vm) (d : ℕ) : Prop :=
  ∀ k < 4096, s'.mem (d * 4096 + k) = s.mem (d * 4096 + k)

/-- Tables were added to the tree; the pages of the heap and all frames that are not tables are
as before. -/
structure Grows (s s' : Vm) : Prop where
  tables : s'.Tables
  cr3_eq : s'.cr3 = s.cr3
  heapNext_eq : s'.heapNext = s.heapNext
  total_eq : s'.pmm.totalPages = s.pmm.totalPages
  nodes : ∀ p ∈ heapNodes, ∀ f, s.frame p = some f → s'.frame p = some f
  pages : ∀ p ∈ heapNodes, p.length = 4 → s'.frame p = s.frame p
  kept : ∀ d, s.Kept d → s'.Kept d ∧ s.SameFrame s' d

section Mapping
variable {s s' t : Vm} {i f g d : ℕ} {p : List ℕ}

theorem Grows.refl (h : s.Tables) : s.Grows s :=
  ⟨h, rfl, rfl, rfl, fun _ _ _ hf => hf, fun _ _ _ => rfl, fun _ hd => ⟨hd, fun _ _ => rfl⟩⟩

theorem Grows.trans (h : s.Grows t) (h' : t.Grows s') : s.Grows s' := by
  refine ⟨h'.tables, h'.cr3_eq.trans h.cr3_eq, h'.heapNext_eq.trans h.heapNext_eq,
    h'.total_eq.trans h.total_eq, fun p hp f hf => h'.nodes p hp f (h.nodes p hp f hf),
    fun p hp hl => (h'.pages p hp hl).trans (h.pages p hp hl), ?_⟩
  intro d hd
  obtain ⟨hd', hsame⟩ := h.kept d hd
  obtain ⟨hd'', hsame'⟩ := h'.kept d hd'
  exact ⟨hd'', fun k hk => (hsame' k hk).trans (hsame k hk)⟩

theorem Tables.not_free (h : s.Tables) (hp : p ∈ heapNodes) (hf : s.frame p = some f)
    (hlt : g < s.pmm.totalPages) (hfree : s.pmm.bitmap g = false) : f ≠ g := by
  rintro rfl
  rw [h.used p hp f hf hlt] at hfree
  exact absurd hfree (by simp)

/-- The entry of a node that has a frame. -/
theorem frame_cons (hf : s.frame p = some f) : s.frame (i :: p) = child s.mem f i :=
  frameOf_cons hf

theorem load64_entry (s : Vm) (f i : ℕ) : s.load64 (f * 4096 + i * 8) = entry s.mem f i := rfl

theorem Tables.not_huge (h : s.Tables) (hip : i :: p ∈ heapNodes) (hf : s.frame p = some f) :
    s.hugeAt (f * 4096 + i * 8) = false := by
  rw [hugeAt, load64_entry]
  cases hpres : present (entry s.mem f i) with
  | false => rfl
  | true => exact (h.plain i p f hip hf hpres).1

/-- The entries of the tables are the same and no page in use becomes free. -/
theorem Tables.congr (h : s.Tables) (hcr3 : s'.cr3 = s.cr3)
    (htotal : s'.pmm.totalPages = s.pmm.totalPages)
    (hbit : ∀ e, s.pmm.bitmap e = true → s'.pmm.bitmap e = true)
    (hentry : ∀ i q e, i :: q ∈ heapNodes → s.frame q = some e →
      entry s'.mem e i = entry s.mem e i) :
    s'.Tables ∧ ∀ q ∈ heapNodes, s'.frame q = s.frame q := by
  have hframe : ∀ q ∈ heapNodes, s'.frame q = s.frame q := by
    unfold frame
    rw [hcr3]
    refine frameOf_congr heapNodes_tail ?_
    intro i q e hq he
    rw [child, child, hentry i q e hq he]
  refine ⟨⟨?_, ?_, ?_, hcr3 ▸ h.root_lt, htotal ▸ h.total_le⟩, hframe⟩
  · intro q hq r hr e hqe hre
    exact h.separate q hq r hr e ((hframe q hq).symm.trans hqe) ((hframe r hr).symm.trans hre)
  · intro q hq e he hl
    rw [hframe q hq] at he
    rw [htotal] at hl
    exact hbit e (h.used q hq e he hl)
  · intro i q e hq he hpres
    rw [hframe q (heapNodes_tail i q hq)] at he
    rw [hentry i q e hq he] at hpres ⊢
    exact h.plain i q e hq he hpres

/-- Entry `i` of the table `f` is empty, and the page `g` is free. -/
structure Missing (s : Vm) (i : ℕ) (p : List ℕ) (f g : ℕ) : Prop where
  mem : i :: p ∈ heapNodes
  short : p.length < 3
  table : s.frame p = some f
  absent : present (entry s.mem f i) = false
  lt : g < s.pmm.totalPages
  free : s.pmm.bitmap g = false

/-- The page `g` is taken, zeroed and hung into entry `i` of `f`. -/
def withTable (s : Vm) (f i g : ℕ) : Vm :=
  { s with
    mem := writeLe (clear s.mem (g * 4096) 4096) (f * 4096 + i * 8) 8 (g * 4096 + 3)
    pmm := s.pmm.take g 1 }

section WithTable
variable (h : s.Tables) (hm : s.Missing i p f g)
include h hm

theorem Missing.fresh : ∀ q ∈ heapNodes, s.frame q ≠ some g :=
  fun _ hq hg => h.not_free hq hg hm.lt hm.free rfl

theorem Missing.small : g * 4096 + 3 < 2 ^ 52 := by
  have htotal := h.total_le
  have hlt := hm.lt
  unfold maxPages at htotal
  omega

theorem Missing.entry_old {e j : ℕ} (hj : j < 512) (he : e ≠ g) :
    entry (s.withTable f i g).mem e j =
      if e = f ∧ j = i then g * 4096 + 3 else entry s.mem e j := by
  have hw : g * 4096 + 3 < 2 ^ 64 := (hm.small h).trans (by norm_num)
  rw [withTable, entry_write hj (heapNodes_index hm.mem) hw, entry_clear hj, if_neg he]

theorem Missing.entry_new {j : ℕ} (hj : j < 512) : entry (s.withTable f i g).mem g j = 0 := by
  have hw : g * 4096 + 3 < 2 ^ 64 := (hm.small h).trans (by norm_num)
  have hfg : f ≠ g := h.not_free (heapNodes_tail i p hm.mem) hm.table hm.lt hm.free
  rw [withTable, entry_write hj (heapNodes_index hm.mem) hw, entry_clear hj,
    if_neg (fun hc => hfg hc.1.symm), if_pos rfl]

/-- Only the empty entry has a new frame. -/
theorem Missing.frame_eq : ∀ q ∈ heapNodes,
    (s.withTable f i g).frame q = if q = i :: p then some g else s.frame q := by
  refine frameOf_link heapNodes_tail h.separate (heapNodes_tail i p hm.mem) hm.table ?_ ?_ ?_
  · rw [child, target, if_neg (by rw [hm.absent]; simp)]
  · intro e j q hq he
    have heg : e ≠ g := fun hc => hm.fresh h q (heapNodes_tail j q hq) (hc ▸ he)
    rw [child, hm.entry_old h (heapNodes_index hq) heg]
    split
    · exact target_flags g
    · rfl
  · intro j hj
    rw [child, hm.entry_new h (heapNodes_index hj)]
    rfl

theorem Missing.tables : (s.withTable f i g).Tables := by
  have hframe := hm.frame_eq h
  refine ⟨h.separate.set (fun e he => Option.some.inj he ▸ hm.fresh h) hframe, ?_, ?_, h.root_lt,
    h.total_le⟩
  · intro q hq e he hlt
    rw [hframe q hq] at he
    split at he
    · obtain rfl := Option.some.inj he
      simp [withTable, Pmm.take]
    · simp only [withTable, Pmm.take, h.used q hq e he hlt, ite_self]
  · intro j q e hq he hpres
    have hj := heapNodes_index hq
    rw [hframe q (heapNodes_tail j q hq)] at he
    split at he
    · obtain rfl := Option.some.inj he
      rw [hm.entry_new h hj] at hpres
      exact absurd hpres (by decide)
    · have heg : e ≠ g := fun hc => hm.fresh h q (heapNodes_tail j q hq) (hc ▸ he)
      rw [hm.entry_old h hj heg] at hpres ⊢
      by_cases hej : e = f ∧ j = i
      · rw [if_pos hej]
        exact ⟨huge_flags g, hm.small h⟩
      · rw [if_neg hej] at hpres ⊢
        exact h.plain j q e hq he hpres

/-- A frame that is kept is neither the new page nor the table above it. -/
theorem Missing.kept (hd : s.Kept d) :
    (s.withTable f i g).Kept d ∧ s.SameFrame (s.withTable f i g) d := by
  obtain ⟨hused, hnot⟩ := hd
  have hshort := hm.short
  have hdg : d ≠ g := by
    rintro rfl
    exact absurd hm.free (by simp [hused hm.lt])
  have hdf : d ≠ f := fun hc => hnot p (heapNodes_tail i p hm.mem) (by omega) (hc ▸ hm.table)
  have hi := heapNodes_index hm.mem
  refine ⟨⟨fun hl => ?_, ?_⟩, ?_⟩
  · simp only [withTable, Pmm.take, hused hl, ite_self]
  · intro q hq hl
    rw [hm.frame_eq h q hq]
    split
    · exact fun hc => hdg (Option.some.inj hc).symm
    · exact hnot q hq hl
  · intro k hk
    simp only [withTable]
    rw [writeLe_of_notMem (by omega), clear, if_neg (by omega)]

/-- A zeroed page of the allocator is hung into an empty entry of the tree. -/
theorem Tables.addTable :
    s.Grows (s.withTable f i g) ∧ (s.withTable f i g).frame (i :: p) = some g := by
  have hframe := hm.frame_eq h
  refine ⟨⟨hm.tables h, rfl, rfl, rfl, ?_, ?_, fun d hd => hm.kept h hd⟩, ?_⟩
  · intro q hq e he
    rw [hframe q hq, if_neg]
    · exact he
    · rintro rfl
      rw [frame_cons hm.table, child, target, if_neg (by rw [hm.absent]; simp)] at he
      exact absurd he (by simp)
  · intro q hq hl
    rw [hframe q hq, if_neg]
    rintro rfl
    have hshort := hm.short
    simp only [List.length_cons] at hl
    omega
  · rw [hframe _ hm.mem, if_pos rfl]

end WithTable

/-- The table below an entry of the tree exists afterwards. -/
theorem Tables.ensureTable (h : s.Tables) (hip : i :: p ∈ heapNodes) (hlen : p.length < 3)
    (hf : s.frame p = some f) (hs : s.ensureTable (f * 4096 + i * 8) = some s') :
    s.Grows s' ∧ ∃ g, s'.frame (i :: p) = some g ∧
      pageBase (s'.load64 (f * 4096 + i * 8)) = g * 4096 := by
  have hgrown : s.Grows s' ∧ ∃ g, s'.frame (i :: p) = some g := by
    rcases ensureTable_cases hs with ⟨hpres, rfl⟩ | ⟨hpres, g, -, hlt, hfree, rfl⟩
    · rw [load64_entry] at hpres
      refine ⟨.refl h, entry s'.mem f i / 4096, ?_⟩
      rw [frame_cons hf, child, target, if_pos hpres]
    · have hadd := h.addTable ⟨hip, hlen, hf, hpres, hlt, hfree⟩
      exact ⟨hadd.1, g, hadd.2⟩
  obtain ⟨hgrows, g, hg⟩ := hgrown
  have hf' := hgrows.nodes p (heapNodes_tail i p hip) f hf
  have hchild := hg
  rw [frame_cons hf', child, target] at hchild
  split at hchild
  · rename_i hpres
    have hbase := Option.some.inj hchild
    refine ⟨hgrows, g, hg, ?_⟩
    rw [← hbase]
    rfl
  · exact absurd hchild (by simp)

/-- The last table on the way to a page. -/
def tablePath (virt : ℕ) : List ℕ := [pdIdx virt, pdpIdx virt, pml4Idx virt]

theorem tablePath_mem {v : ℕ} (hv : InHeap v) : tablePath v ∈ heapNodes :=
  heapNodes_tail (ptIdx v) _ (pagePath_mem hv)

/-- A mapping in the heap makes the tables that are missing and stores the entry. -/
theorem Tables.pagingMap (h : s.Tables) {v phys flags : ℕ} (hv : InHeap v)
    (hs : s.pagingMap v phys flags = some s') :
    ∃ t f, s.Grows t ∧ t.frame (tablePath v) = some f ∧
      s' = t.store64 (f * 4096 + ptIdx v * 8) (pageBase phys ||| flags) := by
  have hpd := tablePath_mem hv
  have hpdp := heapNodes_tail (pdIdx v) _ hpd
  have hpml4 := heapNodes_tail (pdpIdx v) _ hpdp
  have hroot : s.frame [] = some (s.cr3 / 4096) := rfl
  obtain ⟨t₄, pdp, h₄, hpdpslot, hrest⟩ := pagingMap_cases hs
  obtain ⟨hg₄, f₄, hf₄, hbase₄⟩ := h.ensureTable hpml4 (by simp) hroot h₄
  rw [show pageBase s.cr3 = s.cr3 / 4096 * 4096 from rfl, hbase₄] at hpdpslot
  subst hpdpslot
  have hnot₃ := hg₄.tables.not_huge hpdp hf₄
  rcases hrest with ⟨hhuge, -⟩ | ⟨t₃, pd, -, h₃, hpdslot, hrest⟩
  · rw [hnot₃] at hhuge
    exact absurd hhuge (by simp)
  obtain ⟨hg₃, f₃, hf₃, hbase₃⟩ := hg₄.tables.ensureTable hpdp (by simp) hf₄ h₃
  rw [hbase₃] at hpdslot
  subst hpdslot
  have hnot₂ := hg₃.tables.not_huge hpd hf₃
  rcases hrest with ⟨hhuge, -⟩ | ⟨t₂, -, h₂, rfl⟩
  · rw [hnot₂] at hhuge
    exact absurd hhuge (by simp)
  obtain ⟨hg₂, f₂, hf₂, hbase₂⟩ := hg₃.tables.ensureTable hpd (by simp) hf₃ h₂
  exact ⟨t₂, f₂, (hg₄.trans hg₃).trans hg₂, hf₂, by rw [hbase₂]⟩

/-- The entry of a page is set: the page moves to a frame that was not in the tree, or goes. -/
theorem Tables.setPage (h : s.Tables) {v w : ℕ} (hv : InHeap v)
    (hf : s.frame (tablePath v) = some f) (hw : w < 2 ^ 64)
    (hplain : present w = true → huge w = false ∧ w < 2 ^ 52)
    (hkept : ∀ d, target w = some d → s.Kept d)
    (hfresh : ∀ d, target w = some d → ∀ p ∈ heapNodes, p.length = 4 → s.frame p ≠ some d) :
    (s.store64 (f * 4096 + ptIdx v * 8) w).Tables ∧
      (∀ q ∈ heapNodes, (s.store64 (f * 4096 + ptIdx v * 8) w).frame q =
        if q = pagePath v then target w else s.frame q) ∧
      ∀ d, s.Kept d → s.SameFrame (s.store64 (f * 4096 + ptIdx v * 8) w) d := by
  have hpath := pagePath_mem hv
  have hi : ptIdx v < 512 := heapNodes_index hpath
  have hlong : ∀ j, j :: pagePath v ∉ heapNodes := by
    intro j hj
    have := heapNodes_length hj
    simp [pagePath] at this
  have hentry {e j : ℕ} (hj : j < 512) :
      entry (s.store64 (f * 4096 + ptIdx v * 8) w).mem e j =
        if e = f ∧ j = ptIdx v then w else entry s.mem e j := entry_write hj hi hw
  have hframe : ∀ q ∈ heapNodes, (s.store64 (f * 4096 + ptIdx v * 8) w).frame q =
      if q = pagePath v then target w else s.frame q := by
    refine frameOf_set heapNodes_tail h.separate (tablePath_mem hv) hf hlong ?_
    intro e j q hq _
    rw [child, hentry (heapNodes_index hq)]
    split <;> rfl
  have hnode : ∀ d, target w = some d → ∀ p ∈ heapNodes, s.frame p ≠ some d := by
    intro d hd p hp
    rcases Nat.lt_or_ge p.length 4 with hl | hl
    · exact (hkept d hd).2 p hp hl
    · exact hfresh d hd p hp (le_antisymm (heapNodes_length hp) hl)
  refine ⟨⟨h.separate.set hnode hframe, ?_, ?_, h.root_lt, h.total_le⟩, hframe, ?_⟩
  · intro q hq e he hlt
    rw [hframe q hq] at he
    split at he
    · exact (hkept e he).1 hlt
    · exact h.used q hq e he hlt
  · intro j q e hq he hpres
    rw [hframe q (heapNodes_tail j q hq)] at he
    split at he
    · rename_i hqv
      exact absurd (hqv ▸ hq) (hlong j)
    · rw [hentry (heapNodes_index hq)] at hpres ⊢
      split
      · rw [if_pos (by assumption)] at hpres
        exact hplain hpres
      · rw [if_neg (by assumption)] at hpres
        exact h.plain j q e hq he hpres
  · intro d hd k hk
    have hdf : d ≠ f := by
      rintro rfl
      exact hd.2 _ (tablePath_mem hv) (by simp [tablePath]) hf
    exact writeLe_of_notMem (by omega)

end Mapping
end Vm
end Ggmk

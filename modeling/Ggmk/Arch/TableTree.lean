import Ggmk.Arch.HeapTables

/-! The page tables of the whole address space, with pages of three sizes. A mapping makes the
tables it needs and sets one entry, and the pages at all other addresses stay as they are. -/
namespace Ggmk
open Word ByteMem PageTree

/-- The entries on the way to an address, the last level first. Where the upper bits of an index
are `n`, it belongs to a table of level `n`; the root has level 0. -/
def walkPath (v : ℕ) : List ℕ := [1536 + ptIdx v, 1024 + pdIdx v, 512 + pdpIdx v, pml4Idx v]

def walkNodes : Set (List ℕ) := { p | ∃ v, p <:+ walkPath v }

/-- The page table on the way to an address. -/
def tableNode (v : ℕ) : List ℕ := [1024 + pdIdx v, 512 + pdpIdx v, pml4Idx v]

/-- The table that an entry of level `n` points to, if it does not map a page. -/
def link (n e : ℕ) : Option ℕ :=
  if present e = true ∧ (n = 0 ∨ n < 3 ∧ huge e = false) then some (e / 4096) else none

def tableChild (m : Mem) (f i : ℕ) : Option ℕ := link (i / 512) (entry m f (i % 512))

/-- The page of an address among those that four levels of tables tell apart. -/
def pageNumber (v : ℕ) : ℕ := v / 4096 % 2 ^ 36

def Canonical (v : ℕ) : Prop := v < 2 ^ 47 ∨ 2 ^ 64 - 2 ^ 47 ≤ v ∧ v < 2 ^ 64

theorem pageNumber_eq_iff {v w : ℕ} (hv : Canonical v) (hw : Canonical w) :
    pageNumber v = pageNumber w ↔ v / 4096 = w / 4096 := by
  unfold Canonical at hv hw
  unfold pageNumber
  omega

theorem walkPath_eq_iff {v w : ℕ} : walkPath v = walkPath w ↔ pageNumber v = pageNumber w := by
  simp only [walkPath, List.cons.injEq, and_true, ptIdx, pdIdx, pdpIdx, pml4Idx, pageNumber]
  omega

theorem walkNodes_tail (i : ℕ) (p : List ℕ) (h : i :: p ∈ walkNodes) : p ∈ walkNodes := by
  obtain ⟨v, hp⟩ := h
  exact ⟨v, (List.suffix_cons i p).trans hp⟩

theorem suffix_mem {v : ℕ} {p : List ℕ} (h : p <:+ walkPath v) : p ∈ walkNodes := ⟨v, h⟩

theorem suffix_walkPath {v i : ℕ} {p : List ℕ} : i :: p <:+ walkPath v ↔
    i = pml4Idx v ∧ p = [] ∨ i = 512 + pdpIdx v ∧ p = [pml4Idx v] ∨
      i = 1024 + pdIdx v ∧ p = [512 + pdpIdx v, pml4Idx v] ∨
      i = 1536 + ptIdx v ∧ p = tableNode v := by
  simp only [walkPath, tableNode, List.suffix_cons_iff, List.suffix_nil, List.cons.injEq,
    reduceCtorEq, or_false]
  tauto

theorem idx_lt (v : ℕ) : pml4Idx v < 512 ∧ pdpIdx v < 512 ∧ pdIdx v < 512 ∧ ptIdx v < 512 := by
  unfold pml4Idx pdpIdx pdIdx ptIdx
  omega

/-- The level of an entry is the length of the way to its table. -/
theorem walkNodes_level {i : ℕ} {p : List ℕ} (h : i :: p ∈ walkNodes) :
    i / 512 = p.length ∧ p.length < 4 := by
  obtain ⟨v, hp⟩ := h
  obtain ⟨h4, h3, h2, h1⟩ := idx_lt v
  rcases suffix_walkPath.mp hp with ⟨rfl, rfl⟩ | ⟨rfl, rfl⟩ | ⟨rfl, rfl⟩ | ⟨rfl, rfl⟩ <;>
    simp only [tableNode, List.length_cons, List.length_nil] <;> omega

namespace Vm

/-- The frame of a table. -/
def tableAt (s : Vm) (p : List ℕ) : Option ℕ := frameOf (tableChild s.mem) (s.cr3 / 4096) p

/-- Every table is reached by one way only, and entries that point to tables have their upper
bits clear. -/
structure Shaped (s : Vm) : Prop where
  separate : Separate (tableChild s.mem) (s.cr3 / 4096) walkNodes
  plain : ∀ i p f g, i :: p ∈ walkNodes → s.tableAt p = some f → tableChild s.mem f i = some g →
    entry s.mem f (i % 512) < 2 ^ 52

/-- The page allocator has no table to give. -/
structure WellFormed (s : Vm) : Prop extends Shaped s where
  used : ∀ p ∈ walkNodes, ∀ f, s.tableAt p = some f → f < s.pmm.totalPages →
    s.pmm.bitmap f = true
  total_le : s.pmm.totalPages ≤ maxPages

/-- A walk to `v` ends at the present entry `e` of level `n`, which maps a page. -/
def IsLeaf (s : Vm) (v n e : ℕ) : Prop :=
  ∃ i p f, i :: p <:+ walkPath v ∧ i / 512 = n ∧ s.tableAt p = some f ∧
    entry s.mem f (i % 512) = e ∧ present e = true ∧ link n e = none

section Store
variable {s : Vm} {i f w : ℕ} {p : List ℕ}

theorem tableAt_cons (hf : s.tableAt p = some f) : s.tableAt (i :: p) = tableChild s.mem f i :=
  frameOf_cons hf

/-- An entry of the tree is known by its place. -/
theorem Shaped.slot_iff (h : s.Shaped) (hip : i :: p ∈ walkNodes) (hf : s.tableAt p = some f)
    {j e : ℕ} {q : List ℕ} (hjq : j :: q ∈ walkNodes) (he : s.tableAt q = some e) :
    (e = f ∧ j % 512 = i % 512) ↔ j :: q = i :: p := by
  constructor
  · rintro ⟨rfl, hji⟩
    obtain rfl := h.separate q (walkNodes_tail j q hjq) p (walkNodes_tail i p hip) e he hf
    have hj := (walkNodes_level hjq).1
    have hi := (walkNodes_level hip).1
    obtain rfl : j = i := by omega
    rfl
  · intro heq
    obtain ⟨rfl, rfl⟩ := List.cons.inj heq
    exact ⟨Option.some.inj (he.symm.trans hf), rfl⟩

/-- Of the entries of the tree a store changes the one it is meant for. -/
theorem Shaped.entry_store (h : s.Shaped) (hip : i :: p ∈ walkNodes) (hf : s.tableAt p = some f)
    (hw : w < 2 ^ 64) {j e : ℕ} {q : List ℕ} (hjq : j :: q ∈ walkNodes)
    (he : s.tableAt q = some e) :
    entry (s.store64 (f * 4096 + i % 512 * 8) w).mem e (j % 512) =
      if j :: q = i :: p then w else entry s.mem e (j % 512) := by
  rw [store64, entry_write (Nat.mod_lt _ (by norm_num)) (Nat.mod_lt _ (by norm_num)) hw]
  exact if_congr (h.slot_iff hip hf hjq he) rfl rfl

theorem link_flags {n : ℕ} (hn : n < 3) (g : ℕ) : link n (g * 4096 + 3) = some g := by
  rw [link, if_pos ⟨present_flags g, .inr ⟨hn, huge_flags g⟩⟩]
  congr 1
  omega

theorem link_of_absent {n e : ℕ} (h : present e = false) : link n e = none := by
  rw [link, if_neg (by rw [h]; simp)]

/-- Tables were added, and every page is where it was. -/
structure Extends (s s' : Vm) : Prop where
  wf : s'.WellFormed
  cr3_eq : s'.cr3 = s.cr3
  heapNext_eq : s'.heapNext = s.heapNext
  nodes : ∀ p ∈ walkNodes, ∀ f, s.tableAt p = some f → s'.tableAt p = some f
  leaf : ∀ v n e, s'.IsLeaf v n e ↔ s.IsLeaf v n e

theorem Extends.refl (h : s.WellFormed) : s.Extends s :=
  ⟨h, rfl, rfl, fun _ _ _ hf => hf, fun _ _ _ => Iff.rfl⟩

theorem Extends.trans {t s' : Vm} (h : s.Extends t) (h' : t.Extends s') : s.Extends s' :=
  ⟨h'.wf, h'.cr3_eq.trans h.cr3_eq, h'.heapNext_eq.trans h.heapNext_eq,
    fun p hp f hf => h'.nodes p hp f (h.nodes p hp f hf),
    fun v n e => (h'.leaf v n e).trans (h.leaf v n e)⟩

theorem WellFormed.not_free (h : s.WellFormed) (hp : p ∈ walkNodes) (hf : s.tableAt p = some f)
    {g : ℕ} (hlt : g < s.pmm.totalPages) (hfree : s.pmm.bitmap g = false) : f ≠ g := by
  rintro rfl
  rw [h.used p hp f hf hlt] at hfree
  exact absurd hfree (by simp)

section Clear
variable {g : ℕ} (h : s.WellFormed) (hlt : g < s.pmm.totalPages) (hfree : s.pmm.bitmap g = false)
include h hlt hfree

theorem WellFormed.entry_clear {j e : ℕ} {q : List ℕ} (hq : j :: q ∈ walkNodes)
    (he : s.tableAt q = some e) :
    entry (clear s.mem (g * 4096) 4096) e (j % 512) = entry s.mem e (j % 512) := by
  have heg : e ≠ g := h.not_free (walkNodes_tail j q hq) he hlt hfree
  rw [Ggmk.entry_clear (Nat.mod_lt _ (by norm_num)), if_neg heg]

/-- Clearing a page that the allocator gives leaves the tables alone. -/
theorem WellFormed.tableAt_clear {q : List ℕ} (hq : q ∈ walkNodes) :
    Vm.tableAt { s with
      mem := clear s.mem (g * 4096) 4096
      pmm := s.pmm.take g 1 } q = s.tableAt q := by
  refine frameOf_congr walkNodes_tail (fun j r e hr he => ?_) q hq
  rw [tableChild, h.entry_clear hlt hfree hr he]
  rfl

/-- No page moves when a page that the allocator gives is cleared. -/
theorem WellFormed.clearPage : s.Extends { s with
    mem := clear s.mem (g * 4096) 4096
    pmm := s.pmm.take g 1 } := by
  have hframe {q : List ℕ} {e : ℕ} (hq : q ∈ walkNodes) :
      Vm.tableAt { s with
        mem := clear s.mem (g * 4096) 4096
        pmm := s.pmm.take g 1 } q = some e ↔ s.tableAt q = some e := by
    rw [h.tableAt_clear hlt hfree hq]
  have hentry {j e : ℕ} {q : List ℕ} (hq : j :: q ∈ walkNodes) (he : s.tableAt q = some e) :=
    h.entry_clear hlt hfree hq he
  refine ⟨⟨⟨fun q hq r hr e hqe hre => ?_, fun j q e c hq he hc => ?_⟩, fun q hq e he hlt' => ?_,
    h.total_le⟩, rfl, rfl, fun q hq e he => (hframe hq).mpr he, fun v n e => ?_⟩
  · exact h.separate q hq r hr e ((hframe hq).mp hqe) ((hframe hr).mp hre)
  · have hold := (hframe (walkNodes_tail j q hq)).mp he
    rw [tableChild, hentry hq hold] at hc
    exact (hentry hq hold).trans_lt (h.plain j q e c hq hold hc)
  · have hbit := h.used q hq e ((hframe hq).mp he) hlt'
    simp only [Pmm.take, hbit, ite_self]
  · constructor
    · rintro ⟨j, q, e', hsuf, rfl, he', rfl, hpres, hnone⟩
      have hold := (hframe (walkNodes_tail j q (suffix_mem hsuf))).mp he'
      rw [hentry (suffix_mem hsuf) hold] at hpres hnone ⊢
      exact ⟨j, q, e', hsuf, rfl, hold, rfl, hpres, hnone⟩
    · rintro ⟨j, q, e', hsuf, rfl, he', rfl, hpres, hnone⟩
      exact ⟨j, q, e', hsuf, rfl, (hframe (walkNodes_tail j q (suffix_mem hsuf))).mpr he',
        hentry (suffix_mem hsuf) he', hpres, hnone⟩

end Clear

/-- Entry `i` of the table `f` is empty, and `g` is a zeroed page that is no table. -/
structure Linkable (s : Vm) (i : ℕ) (p : List ℕ) (f g : ℕ) : Prop where
  mem : i :: p ∈ walkNodes
  short : p.length < 3
  table : s.tableAt p = some f
  absent : present (entry s.mem f (i % 512)) = false
  fresh : ∀ q ∈ walkNodes, s.tableAt q ≠ some g
  zero : ∀ j < 512, entry s.mem g j = 0
  used : s.pmm.bitmap g = true
  small : g * 4096 + 3 < 2 ^ 52

/-- The page `g` becomes the table below entry `i` of `f`. -/
def hang (s : Vm) (f i g : ℕ) : Vm := s.store64 (f * 4096 + i % 512 * 8) (g * 4096 + 3)

section Hang
variable {g : ℕ} (h : s.WellFormed) (hl : s.Linkable i p f g)
include hl

theorem Linkable.level : i / 512 < 3 := by
  rw [(walkNodes_level hl.mem).1]
  exact hl.short

theorem Linkable.entry_new (j : ℕ) : entry (s.hang f i g).mem g (j % 512) = 0 := by
  have hfg : f ≠ g := fun hc => hl.fresh p (walkNodes_tail i p hl.mem) (hc ▸ hl.table)
  have hw : g * 4096 + 3 < 2 ^ 64 := hl.small.trans (by norm_num)
  rw [hang, store64, entry_write (Nat.mod_lt _ (by norm_num)) (Nat.mod_lt _ (by norm_num)) hw,
    if_neg fun hc => hfg hc.1.symm]
  exact hl.zero _ (Nat.mod_lt _ (by norm_num))

theorem Linkable.child_none : tableChild s.mem f i = none := link_of_absent hl.absent

theorem Linkable.tableAt_none : s.tableAt (i :: p) = none :=
  (tableAt_cons hl.table).trans hl.child_none

include h

theorem Linkable.entry_old {j e : ℕ} {q : List ℕ} (hq : j :: q ∈ walkNodes)
    (he : s.tableAt q = some e) :
    entry (s.hang f i g).mem e (j % 512) =
      if j :: q = i :: p then g * 4096 + 3 else entry s.mem e (j % 512) :=
  h.entry_store hl.mem hl.table (hl.small.trans (by norm_num)) hq he

theorem Linkable.tableAt_hang (q : List ℕ) (hq : q ∈ walkNodes) :
    (s.hang f i g).tableAt q = if q = i :: p then some g else s.tableAt q := by
  refine frameOf_link walkNodes_tail h.separate (walkNodes_tail i p hl.mem) hl.table hl.child_none
    ?_ ?_ q hq
  · intro e j q hq he
    rw [tableChild, hl.entry_old h hq he]
    by_cases hjq : j :: q = i :: p
    · obtain ⟨rfl, rfl⟩ := List.cons.inj hjq
      have hef : e = f := Option.some.inj (he.symm.trans hl.table)
      rw [if_pos rfl, if_pos ⟨hef, rfl⟩, link_flags hl.level]
    · have hne : ¬ (e = f ∧ j = i) := by
        rintro ⟨hef, rfl⟩
        exact hjq ((h.slot_iff hl.mem hl.table hq he).mp ⟨hef, rfl⟩)
      rw [if_neg hjq, if_neg hne]
      rfl
  · intro j _
    rw [tableChild, hl.entry_new]
    exact link_of_absent (by decide)

theorem Linkable.tableAt_kept {q : List ℕ} {e : ℕ} (hq : q ∈ walkNodes)
    (he : s.tableAt q = some e) : (s.hang f i g).tableAt q = some e := by
  rw [hl.tableAt_hang h q hq, if_neg]
  · exact he
  · rintro rfl
    rw [hl.tableAt_none] at he
    exact absurd he (by simp)

/-- An entry of a table that is present afterwards is the new one or an old one. -/
theorem Linkable.entry_cases {j e : ℕ} {q : List ℕ} (hq : j :: q ∈ walkNodes)
    (he : (s.hang f i g).tableAt q = some e)
    (hpres : present (entry (s.hang f i g).mem e (j % 512)) = true) :
    s.tableAt q = some e ∧ (j :: q = i :: p ∧ entry (s.hang f i g).mem e (j % 512) = g * 4096 + 3 ∨
      j :: q ≠ i :: p ∧ entry (s.hang f i g).mem e (j % 512) = entry s.mem e (j % 512)) := by
  rw [hl.tableAt_hang h q (walkNodes_tail j q hq)] at he
  split at he
  · obtain rfl := Option.some.inj he
    rw [hl.entry_new] at hpres
    exact absurd hpres (by decide)
  · have hval := hl.entry_old h hq he
    refine ⟨he, ?_⟩
    by_cases hjq : j :: q = i :: p
    · exact .inl ⟨hjq, by rw [hval, if_pos hjq]⟩
    · exact .inr ⟨hjq, by rw [hval, if_neg hjq]⟩

theorem Linkable.wellFormed : (s.hang f i g).WellFormed := by
  have hframe := hl.tableAt_hang h
  refine ⟨⟨h.separate.set (fun e he => Option.some.inj he ▸ hl.fresh) hframe, ?_⟩, ?_, h.total_le⟩
  · intro j q e c hq he hc
    have hpres : present (entry (s.hang f i g).mem e (j % 512)) = true := by
      by_contra habs
      rw [tableChild, link_of_absent (Bool.eq_false_iff.mpr habs)] at hc
      exact absurd hc (by simp)
    obtain ⟨he', ⟨-, hval⟩ | ⟨-, hval⟩⟩ := hl.entry_cases h hq he hpres
    · rw [hval]
      exact hl.small
    · rw [tableChild, hval] at hc
      rw [hval]
      exact h.plain j q e c hq he' hc
  · intro q hq e he hlt
    rw [hframe q hq] at he
    split at he
    · obtain rfl := Option.some.inj he
      exact hl.used
    · exact h.used q hq e he hlt

theorem Linkable.isLeaf_iff (v n e : ℕ) : (s.hang f i g).IsLeaf v n e ↔ s.IsLeaf v n e := by
  constructor
  · rintro ⟨j, q, e', hsuf, rfl, he', rfl, hpres, hnone⟩
    obtain ⟨hold, ⟨hjq, hval⟩ | ⟨-, hval⟩⟩ := hl.entry_cases h (suffix_mem hsuf) he' hpres
    · obtain ⟨rfl, rfl⟩ := List.cons.inj hjq
      rw [hval, link_flags hl.level] at hnone
      exact absurd hnone (by simp)
    · rw [hval] at hpres hnone ⊢
      exact ⟨j, q, e', hsuf, rfl, hold, rfl, hpres, hnone⟩
  · rintro ⟨j, q, e', hsuf, rfl, he', rfl, hpres, hnone⟩
    have hjq : j :: q ≠ i :: p := by
      intro heq
      obtain ⟨rfl, rfl⟩ := List.cons.inj heq
      obtain rfl := Option.some.inj (he'.symm.trans hl.table)
      rw [hl.absent] at hpres
      exact absurd hpres (by simp)
    have hval := hl.entry_old h (suffix_mem hsuf) he'
    rw [if_neg hjq] at hval
    exact ⟨j, q, e', hsuf, rfl, hl.tableAt_kept h (walkNodes_tail j q (suffix_mem hsuf)) he', hval,
      hpres, hnone⟩

theorem Linkable.extends_hang :
    s.Extends (s.hang f i g) ∧ (s.hang f i g).tableAt (i :: p) = some g := by
  refine ⟨⟨hl.wellFormed h, rfl, rfl, fun q hq e he => hl.tableAt_kept h hq he, hl.isLeaf_iff h⟩, ?_⟩
  rw [hl.tableAt_hang h _ hl.mem, if_pos rfl]

end Hang

/-- A page of the allocator is cleared and hung into an empty entry. -/
theorem WellFormed.addTable (h : s.WellFormed) (hip : i :: p ∈ walkNodes) (hlen : p.length < 3)
    (hf : s.tableAt p = some f) (hnone : present (entry s.mem f (i % 512)) = false) {g : ℕ}
    (hlt : g < s.pmm.totalPages) (hfree : s.pmm.bitmap g = false) :
    let s' : Vm := { s with
      mem := writeLe (clear s.mem (g * 4096) 4096) (f * 4096 + i % 512 * 8) 8 (g * 4096 + 3)
      pmm := s.pmm.take g 1 }
    s.Extends s' ∧ s'.tableAt (i :: p) = some g := by
  intro s'
  have hclear := h.clearPage hlt hfree
  have hlink : Linkable { s with
      mem := clear s.mem (g * 4096) 4096
      pmm := s.pmm.take g 1 } i p f g := by
    refine ⟨hip, hlen, hclear.nodes p (walkNodes_tail i p hip) f hf,
      (congrArg present (h.entry_clear hlt hfree hip hf)).trans hnone, fun q hq => ?_,
      fun j hj => ?_, by simp [Pmm.take], ?_⟩
    · rw [h.tableAt_clear hlt hfree hq]
      exact fun hg => h.not_free hq hg hlt hfree rfl
    · rw [Ggmk.entry_clear hj, if_pos rfl]
    · have htotal := h.total_le
      unfold maxPages at htotal
      omega
  obtain ⟨hext, hnew⟩ := hlink.extends_hang hclear.wf
  exact ⟨hclear.trans hext, hnew⟩

theorem link_some {n e g : ℕ} (h : link n e = some g) : g = e / 4096 := by
  unfold link at h
  split at h
  · exact (Option.some.inj h).symm
  · exact absurd h (by simp)

/-- The table that a present entry points to. -/
theorem tableAt_present (hf : s.tableAt p = some f) (hlevel : i / 512 < 3)
    (hpres : present (s.load64 (f * 4096 + i % 512 * 8)) = true)
    (hnot : i / 512 = 0 ∨ s.hugeAt (f * 4096 + i % 512 * 8) = false) :
    s.tableAt (i :: p) = some (s.load64 (f * 4096 + i % 512 * 8) / 4096) := by
  have hplain : i / 512 = 0 ∨
      i / 512 < 3 ∧ huge (s.load64 (f * 4096 + i % 512 * 8)) = false := by
    refine hnot.imp_right fun hhuge => ⟨hlevel, ?_⟩
    rwa [hugeAt, hpres, Bool.true_and] at hhuge
  exact (tableAt_cons hf).trans (if_pos ⟨hpres, hplain⟩)

/-- The table below an entry that maps no page exists afterwards. -/
theorem WellFormed.ensureTable {s' : Vm} (h : s.WellFormed) (hip : i :: p ∈ walkNodes)
    (hlen : p.length < 3) (hf : s.tableAt p = some f)
    (hnot : i / 512 = 0 ∨ s.hugeAt (f * 4096 + i % 512 * 8) = false)
    (hs : s.ensureTable (f * 4096 + i % 512 * 8) = some s') : s.Extends s' ∧
      s'.tableAt (i :: p) = some (s'.load64 (f * 4096 + i % 512 * 8) / 4096) := by
  have hlevel : i / 512 < 3 := by
    rw [(walkNodes_level hip).1]
    exact hlen
  rcases ensureTable_cases hs with ⟨hpres, rfl⟩ | ⟨hpres, g, -, hlt, hfree, rfl⟩
  · exact ⟨.refl h, tableAt_present hf hlevel hpres hnot⟩
  · obtain ⟨hext, hnew⟩ := h.addTable hip hlen hf hpres hlt hfree
    refine ⟨hext, hnew.trans (congrArg some ?_)⟩
    exact link_some ((tableAt_cons (hext.nodes p (walkNodes_tail i p hip) f hf)).symm.trans hnew)

theorem node_suffix (v : ℕ) : [pml4Idx v] <:+ walkPath v ∧
    [512 + pdpIdx v, pml4Idx v] <:+ walkPath v ∧ tableNode v <:+ walkPath v :=
  ⟨suffix_walkPath.mpr (by simp), suffix_walkPath.mpr (by simp),
    suffix_walkPath.mpr (by simp [tableNode])⟩

theorem idx_mod (v : ℕ) : pml4Idx v % 512 = pml4Idx v ∧ (512 + pdpIdx v) % 512 = pdpIdx v ∧
    (1024 + pdIdx v) % 512 = pdIdx v ∧ (1536 + ptIdx v) % 512 = ptIdx v := by
  obtain ⟨h4, h3, h2, h1⟩ := idx_lt v
  omega

/-- A huge page at `v` is a leaf of one of the middle levels. -/
theorem isLeaf_huge {v n : ℕ} (hsuf : i :: p <:+ walkPath v) (hn : i / 512 = n) (hn0 : n ≠ 0)
    (hf : s.tableAt p = some f) (hhuge : s.hugeAt (f * 4096 + i % 512 * 8) = true) :
    ∃ e, s.IsLeaf v n e := by
  rw [hugeAt, load64_entry, Bool.and_eq_true] at hhuge
  refine ⟨_, i, p, f, hsuf, hn, hf, rfl, hhuge.1, ?_⟩
  rw [link, if_neg]
  rintro ⟨-, hzero | ⟨-, hplain⟩⟩
  · exact hn0 hzero
  · rw [hhuge.2] at hplain
    exact Bool.noConfusion hplain

theorem pageBase_eq (e : ℕ) : pageBase e = e / 4096 * 4096 := rfl

/-- A mapping makes the tables on the way to a page and sets its entry, or ends at a huge page. -/
theorem WellFormed.pagingMap {s' : Vm} (h : s.WellFormed) {v phys flags : ℕ}
    (hs : s.pagingMap v phys flags = some s') :
    ∃ t, s.Extends t ∧ ((∃ n e, (n = 1 ∨ n = 2) ∧ t.IsLeaf v n e) ∧ s' = t ∨
      ∃ f, t.tableAt (tableNode v) = some f ∧
        s' = t.store64 (f * 4096 + ptIdx v * 8) (pageBase phys ||| flags)) := by
  obtain ⟨hsuf4, hsuf3, hsuf2⟩ := node_suffix v
  obtain ⟨hm4, hm3, hm2, -⟩ := idx_mod v
  obtain ⟨hl4, hl3, hl2, -⟩ := idx_lt v
  have hroot : s.tableAt [] = some (s.cr3 / 4096) := rfl
  obtain ⟨t₄, pdp, h₄, hpdp, hrest⟩ := pagingMap_cases hs
  rw [pageBase_eq, ← hm4] at h₄ hpdp
  obtain ⟨hx₄, hf₄⟩ := h.ensureTable (suffix_mem hsuf4) (by simp) hroot (.inl (by omega)) h₄
  rw [pageBase_eq, ← hm3] at hpdp
  subst hpdp
  rcases hrest with ⟨hhuge, hs'⟩ | ⟨t₃, pd, hnot₃, h₃, hpd, hrest⟩
  · obtain ⟨e, he⟩ := isLeaf_huge hsuf3 (show _ = 1 by omega) (by simp) hf₄ hhuge
    exact ⟨t₄, hx₄, .inl ⟨⟨1, e, .inl rfl, he⟩, hs'⟩⟩
  obtain ⟨hx₃, hf₃⟩ := hx₄.wf.ensureTable (suffix_mem hsuf3) (by simp) hf₄ (.inr hnot₃) h₃
  rw [pageBase_eq, ← hm2] at hpd
  subst hpd
  rcases hrest with ⟨hhuge, hs'⟩ | ⟨t₂, hnot₂, h₂, hs'⟩
  · obtain ⟨e, he⟩ := isLeaf_huge hsuf2 (show _ = 2 by omega) (by simp) hf₃ hhuge
    exact ⟨t₃, hx₄.trans hx₃, .inl ⟨⟨2, e, .inr rfl, he⟩, hs'⟩⟩
  obtain ⟨hx₂, hf₂⟩ := hx₃.wf.ensureTable (suffix_mem hsuf2) (by simp) hf₃ (.inr hnot₂) h₂
  rw [pageBase_eq] at hs'
  exact ⟨t₂, (hx₄.trans hx₃).trans hx₂, .inr ⟨_, hf₂, hs'⟩⟩

/-- Above a page table the entries point to tables. -/
theorem link_above {v : ℕ} (hf : s.tableAt (tableNode v) = some f) {j e : ℕ} {q : List ℕ}
    (hup : j :: q <:+ tableNode v) (he : s.tableAt q = some e) :
    link (j / 512) (entry s.mem e (j % 512)) ≠ none := by
  obtain ⟨g, hg⟩ := frameOf_suffix hup hf
  have hlink : tableChild s.mem e j = some g := (tableAt_cons he).symm.trans hg
  rw [← tableChild, hlink]
  exact Option.some_ne_none g

/-- The entry of the page of `v` is set to `w`, and no other page changes. -/
structure SetsPage (s s' : Vm) (v w : ℕ) : Prop where
  shaped : s'.Shaped
  nodes : ∀ q ∈ walkNodes, s'.tableAt q = s.tableAt q
  self : ∀ n e, s'.IsLeaf v n e ↔ n = 3 ∧ e = w ∧ present w = true
  other : ∀ u, pageNumber u ≠ pageNumber v → ∀ n e, s'.IsLeaf u n e ↔ s.IsLeaf u n e

theorem link_last (e : ℕ) : link 3 e = none := by
  rw [link, if_neg]
  omega

theorem walkPath_level {v j : ℕ} {q : List ℕ} (heq : j :: q = walkPath v) : j / 512 = 3 := by
  obtain ⟨-, -, -, hl1⟩ := idx_lt v
  rw [(List.cons.inj heq).1]
  omega

section SetPage
variable {v j e : ℕ} {q : List ℕ} (h : s.Shaped) (hf : s.tableAt (tableNode v) = some f)
  (hw : w < 2 ^ 64)
include h hf hw

theorem Shaped.page_entry (hjq : j :: q ∈ walkNodes) (he : s.tableAt q = some e) :
    entry (s.store64 (f * 4096 + ptIdx v * 8) w).mem e (j % 512) =
      if j :: q = walkPath v then w else entry s.mem e (j % 512) := by
  obtain ⟨-, -, -, hm1⟩ := idx_mod v
  rw [← hm1]
  exact h.entry_store (suffix_mem (List.suffix_refl (walkPath v))) hf hw hjq he

/-- The entry of a page is no link, so the tables stay where they are. -/
theorem Shaped.page_child (hjq : j :: q ∈ walkNodes) (he : s.tableAt q = some e) :
    tableChild (s.store64 (f * 4096 + ptIdx v * 8) w).mem e j = tableChild s.mem e j := by
  rw [tableChild, h.page_entry hf hw hjq he, tableChild]
  split
  next heq => rw [walkPath_level heq, link_last, link_last]
  next => rfl

theorem Shaped.page_nodes : ∀ q ∈ walkNodes,
    (s.store64 (f * 4096 + ptIdx v * 8) w).tableAt q = s.tableAt q :=
  frameOf_congr walkNodes_tail fun _ _ _ hq he => h.page_child hf hw hq he

theorem Shaped.page_shaped : (s.store64 (f * 4096 + ptIdx v * 8) w).Shaped := by
  have hnodes := h.page_nodes hf hw
  refine ⟨?_, ?_⟩
  · intro q hq r hr e hqe hre
    exact h.separate q hq r hr e ((hnodes q hq).symm.trans hqe) ((hnodes r hr).symm.trans hre)
  · intro j q e g hq he hg
    rw [hnodes q (walkNodes_tail j q hq)] at he
    rw [h.page_child hf hw hq he] at hg
    have hne : j :: q ≠ walkPath v := by
      intro heq
      rw [tableChild, walkPath_level heq, link_last] at hg
      exact absurd hg (by simp)
    rw [h.page_entry hf hw hq he, if_neg hne]
    exact h.plain j q e g hq he hg

theorem Shaped.page_self (n e : ℕ) :
    (s.store64 (f * 4096 + ptIdx v * 8) w).IsLeaf v n e ↔ n = 3 ∧ e = w ∧ present w = true := by
  have hnodes := h.page_nodes hf hw
  have hpath : (1536 + ptIdx v) :: tableNode v <:+ walkPath v := List.suffix_refl _
  constructor
  · rintro ⟨j, q, e', hsuf, rfl, he', rfl, hpres, hnone⟩
    rw [hnodes q (walkNodes_tail j q (suffix_mem hsuf))] at he'
    rcases List.suffix_cons_iff.mp hsuf with heq | hup
    · have hval := (h.page_entry hf hw (suffix_mem hsuf) he').trans (if_pos heq)
      rw [hval] at hpres ⊢
      exact ⟨walkPath_level heq, rfl, hpres⟩
    · rw [← tableChild, h.page_child hf hw (suffix_mem hsuf) he', tableChild] at hnone
      exact absurd hnone (link_above hf hup he')
  · rintro ⟨rfl, rfl, hpres⟩
    obtain ⟨-, -, -, hl1⟩ := idx_lt v
    refine ⟨_, _, f, hpath, by omega, (hnodes _ (suffix_mem (node_suffix v).2.2)).trans hf, ?_,
      hpres, link_last _⟩
    rw [h.page_entry hf hw (suffix_mem hpath) hf]
    exact if_pos rfl

/-- Addresses of other pages have the leaves they had. -/
theorem Shaped.page_other {u : ℕ} (hu : pageNumber u ≠ pageNumber v) (n e : ℕ) :
    (s.store64 (f * 4096 + ptIdx v * 8) w).IsLeaf u n e ↔ s.IsLeaf u n e := by
  have hnodes := h.page_nodes hf hw
  have hne {j : ℕ} {q : List ℕ} (hsuf : j :: q <:+ walkPath u) : j :: q ≠ walkPath v := by
    intro heq
    have hsame : walkPath v = walkPath u := (heq ▸ hsuf).eq_of_length rfl
    exact hu (walkPath_eq_iff.mp hsame.symm)
  constructor
  · rintro ⟨j, q, e', hsuf, rfl, he', rfl, hpres, hnone⟩
    rw [hnodes q (walkNodes_tail j q (suffix_mem hsuf))] at he'
    rw [h.page_entry hf hw (suffix_mem hsuf) he', if_neg (hne hsuf)] at hpres hnone ⊢
    exact ⟨j, q, e', hsuf, rfl, he', rfl, hpres, hnone⟩
  · rintro ⟨j, q, e', hsuf, rfl, he', rfl, hpres, hnone⟩
    refine ⟨j, q, e', hsuf, rfl, ?_, ?_, hpres, hnone⟩
    · rwa [hnodes q (walkNodes_tail j q (suffix_mem hsuf))]
    · rw [h.page_entry hf hw (suffix_mem hsuf) he', if_neg (hne hsuf)]

theorem Shaped.setPage : s.SetsPage (s.store64 (f * 4096 + ptIdx v * 8) w) v w :=
  ⟨h.page_shaped hf hw, h.page_nodes hf hw, h.page_self hf hw,
    fun _ hu => h.page_other hf hw hu⟩

end SetPage

theorem link_eq_some {n e g : ℕ} : link n e = some g ↔
    present e = true ∧ (n = 0 ∨ n < 3 ∧ huge e = false) ∧ g = e / 4096 := by
  unfold link
  split
  next h =>
    rw [Option.some.injEq]
    exact ⟨fun hg => ⟨h.1, h.2, hg.symm⟩, fun hc => hc.2.2.symm⟩
  next h =>
    simp only [reduceCtorEq, false_iff]
    exact fun hc => h ⟨hc.1, hc.2.1⟩

theorem tableAt_cons_iff {g : ℕ} : s.tableAt (i :: p) = some g ↔
    ∃ f, s.tableAt p = some f ∧ tableChild s.mem f i = some g := Option.bind_eq_some_iff

end Store

/-! ## Walks -/

/-- The level and the entry of the page that a walk ends at. -/
def Walk.leaf (k : Walk) : Option (ℕ × ℕ) :=
  match k.depth with
  | 2 => if present k.pdpe then some (1, k.pdpe) else none
  | 3 => if present k.pde then some (2, k.pde) else none
  | 4 => if present k.pte then some (3, k.pte) else none
  | _ => none

section Walks
variable {s : Vm} {v f n e : ℕ}

theorem tableAt_pdp_iff : s.tableAt [pml4Idx v] = some f ↔
    present (s.load64 (pageBase s.cr3 + pml4Idx v * 8)) = true ∧
      f = s.load64 (pageBase s.cr3 + pml4Idx v * 8) / 4096 := by
  obtain ⟨hl4, -⟩ := idx_lt v
  obtain ⟨hm4, -⟩ := idx_mod v
  have hroot : s.tableAt [] = some (s.cr3 / 4096) := rfl
  rw [tableAt_cons hroot, tableChild, link_eq_some, hm4, Nat.div_eq_of_lt hl4]
  simp only [true_or, true_and]
  exact Iff.rfl

/-- A table of a lower level is the one that a plain entry points to. -/
theorem tableAt_next {i : ℕ} {p : List ℕ} (hn0 : i / 512 ≠ 0) (hn3 : i / 512 < 3) :
    s.tableAt (i :: p) = some f ↔ ∃ g, s.tableAt p = some g ∧
      present (s.load64 (g * 4096 + i % 512 * 8)) = true ∧
      huge (s.load64 (g * 4096 + i % 512 * 8)) = false ∧
      f = s.load64 (g * 4096 + i % 512 * 8) / 4096 := by
  rw [tableAt_cons_iff]
  refine exists_congr fun g => and_congr_right fun _ => ?_
  rw [tableChild, link_eq_some]
  exact and_congr_right fun _ =>
    and_congr_left fun _ => ⟨fun h => (h.resolve_left hn0).2, fun h => .inr ⟨hn3, h⟩⟩

/-- The leaves by level. -/
theorem isLeaf_iff : s.IsLeaf v n e ↔
    n = 1 ∧ (∃ g, s.tableAt [pml4Idx v] = some g ∧ s.load64 (g * 4096 + pdpIdx v * 8) = e ∧
      present e = true ∧ huge e = true) ∨
    n = 2 ∧ (∃ g, s.tableAt [512 + pdpIdx v, pml4Idx v] = some g ∧
      s.load64 (g * 4096 + pdIdx v * 8) = e ∧ present e = true ∧ huge e = true) ∨
    n = 3 ∧ ∃ g, s.tableAt (tableNode v) = some g ∧ s.load64 (g * 4096 + ptIdx v * 8) = e ∧
      present e = true := by
  obtain ⟨hm4, hm3, hm2, hm1⟩ := idx_mod v
  obtain ⟨hl4, hl3, hl2, hl1⟩ := idx_lt v
  have hlink (k : ℕ) (hk : present e = true) :
      link k e = none ↔ k ≠ 0 ∧ (3 ≤ k ∨ huge e = true) := by
    rw [link, ite_eq_right_iff]
    simp only [hk, true_and, reduceCtorEq, imp_false, not_or, not_and, Bool.not_eq_false]
    exact and_congr_right fun _ => ⟨fun h => (Nat.lt_or_ge k 3).symm.imp_right h,
      fun h hlt => h.resolve_left (by omega)⟩
  constructor
  · rintro ⟨i, p, f, hsuf, rfl, hf, hval, hpres, hnone⟩
    rw [hlink _ hpres] at hnone
    rcases suffix_walkPath.mp hsuf with ⟨rfl, rfl⟩ | ⟨rfl, rfl⟩ | ⟨rfl, rfl⟩ | ⟨rfl, rfl⟩
    · omega
    · rw [hm3] at hval
      exact .inl ⟨by omega, f, hf, hval, hpres, hnone.2.resolve_left (by omega)⟩
    · rw [hm2] at hval
      exact .inr (.inl ⟨by omega, f, hf, hval, hpres, hnone.2.resolve_left (by omega)⟩)
    · rw [hm1] at hval
      exact .inr (.inr ⟨by omega, f, hf, hval, hpres⟩)
  · rintro (⟨rfl, g, hg, hval, hpres, hhuge⟩ | ⟨rfl, g, hg, hval, hpres, hhuge⟩ |
      ⟨rfl, g, hg, hval, hpres⟩)
    · exact ⟨512 + pdpIdx v, _, g, suffix_walkPath.mpr (.inr (.inl ⟨rfl, rfl⟩)), by omega, hg,
        (congrArg (entry s.mem g) hm3).trans hval, hpres,
        (hlink 1 hpres).mpr ⟨by omega, .inr hhuge⟩⟩
    · exact ⟨1024 + pdIdx v, _, g, suffix_walkPath.mpr (.inr (.inr (.inl ⟨rfl, rfl⟩))), by omega,
        hg, (congrArg (entry s.mem g) hm2).trans hval, hpres,
        (hlink 2 hpres).mpr ⟨by omega, .inr hhuge⟩⟩
    · exact ⟨1536 + ptIdx v, _, g, suffix_walkPath.mpr (.inr (.inr (.inr ⟨rfl, rfl⟩))), by omega,
        hg, (congrArg (entry s.mem g) hm1).trans hval, hpres,
        (hlink 3 hpres).mpr ⟨by omega, .inl le_rfl⟩⟩

/-- The leaf of a walk that finds the entries `a`, `b`, `c` and `d` at the four levels. -/
theorem leaf_of_entries (a b c d n e : ℕ) :
    (if ¬ present a then (⟨1, a, 0, 0, 0⟩ : Walk)
      else if ¬ present b then ⟨2, a, b, 0, 0⟩
      else if huge b then ⟨2, a, b, 0, 0⟩
      else if ¬ present c then ⟨3, a, b, c, 0⟩
      else if huge c then ⟨3, a, b, c, 0⟩
      else ⟨4, a, b, c, d⟩).leaf = some (n, e) ↔
    n = 1 ∧ present a = true ∧ b = e ∧ present e = true ∧ huge e = true ∨
    n = 2 ∧ present a = true ∧ present b = true ∧ huge b = false ∧ c = e ∧ present e = true ∧
      huge e = true ∨
    n = 3 ∧ present a = true ∧ present b = true ∧ huge b = false ∧ present c = true ∧
      huge c = false ∧ d = e ∧ present e = true := by
  unfold Walk.leaf
  by_cases ha : present a = true
  · by_cases hb : present b = true
    · by_cases hb' : huge b = true
      · grind
      · by_cases hc : present c = true
        · by_cases hc' : huge c = true
          · grind
          · grind
        · grind
    · grind
  · grind

/-- A walk finds the leaves of the tree. -/
theorem pagingWalk_leaf : (s.pagingWalk v).leaf = some (n, e) ↔ s.IsLeaf v n e := by
  obtain ⟨-, hm3, hm2, -⟩ := idx_mod v
  obtain ⟨-, hl3, hl2, -⟩ := idx_lt v
  have hpd {f : ℕ} := tableAt_next (s := s) (f := f) (i := 512 + pdpIdx v) (p := [pml4Idx v])
    (by omega) (by omega)
  have hpt {f : ℕ} := tableAt_next (s := s) (f := f) (i := 1024 + pdIdx v)
    (p := [512 + pdpIdx v, pml4Idx v]) (by omega) (by omega)
  rw [hm3] at hpd
  rw [hm2] at hpt
  refine (leaf_of_entries _ _ _ _ n e).trans ?_
  rw [isLeaf_iff, tableNode]
  simp only [hpt, hpd, tableAt_pdp_iff, and_assoc, exists_and_left, exists_eq_left, pageBase_eq]

theorem isLeaf_congr {u : ℕ} (h : pageNumber u = pageNumber v) :
    s.IsLeaf u n e ↔ s.IsLeaf v n e := by
  rw [IsLeaf, IsLeaf, walkPath_eq_iff.mpr h]

/-- Where there is a page table there is no huge page. -/
theorem isLeaf_of_table (hf : s.tableAt (tableNode v) = some f) (h : s.IsLeaf v n e) : n = 3 := by
  obtain ⟨-, -, -, hl1⟩ := idx_lt v
  obtain ⟨i, p, g, hsuf, rfl, hg, rfl, -, hnone⟩ := h
  rcases List.suffix_cons_iff.mp hsuf with heq | hup
  · rw [(List.cons.inj heq).1]
    omega
  · exact absurd hnone (link_above hf hup hg)

theorem leaf_congr {s' : Vm} (h : ∀ n e, s'.IsLeaf v n e ↔ s.IsLeaf v n e) :
    (s'.pagingWalk v).leaf = (s.pagingWalk v).leaf := by
  apply Option.ext
  rintro ⟨n, e⟩
  rw [pagingWalk_leaf, pagingWalk_leaf, h]

theorem Walk.leaf_last {k : Walk} :
    k.leaf = some (3, e) ↔ k.depth = 4 ∧ k.pte = e ∧ present e = true := by
  unfold Walk.leaf
  split <;> grind

/-- The pages of the last level are those that are unmapped. -/
theorem leaf_iff : s.Leaf v e ↔ s.IsLeaf v 3 e := by
  rw [← pagingWalk_leaf, Walk.leaf_last]
  exact Iff.rfl

/-- No huge page is on the way to `v`. -/
def NoHuge (s : Vm) (v : ℕ) : Prop := ∀ n e, (s.pagingWalk v).leaf = some (n, e) → n = 3

theorem noHuge_iff : s.NoHuge v ↔ ∀ n e, s.IsLeaf v n e → n = 3 :=
  forall₂_congr fun _ _ => imp_congr_left pagingWalk_leaf

theorem tableAt_pd {a : ℕ} (ha : s.tableAt [pml4Idx v] = some (a / 4096))
    (hpres : present (s.load64 (pageBase a + pdpIdx v * 8)) = true)
    (hplain : huge (s.load64 (pageBase a + pdpIdx v * 8)) = false) :
    s.tableAt [512 + pdpIdx v, pml4Idx v] =
      some (s.load64 (pageBase a + pdpIdx v * 8) / 4096) := by
  obtain ⟨-, hm3, -⟩ := idx_mod v
  obtain ⟨-, hl3, -⟩ := idx_lt v
  refine (tableAt_next (by omega) (by omega)).mpr ⟨_, ha, ?_⟩
  rw [hm3]
  exact ⟨hpres, hplain, rfl⟩

theorem tableAt_pt {b : ℕ} (hb : s.tableAt [512 + pdpIdx v, pml4Idx v] = some (b / 4096))
    (hpres : present (s.load64 (pageBase b + pdIdx v * 8)) = true)
    (hplain : huge (s.load64 (pageBase b + pdIdx v * 8)) = false) :
    s.tableAt (tableNode v) = some (s.load64 (pageBase b + pdIdx v * 8) / 4096) := by
  obtain ⟨-, -, hm2, -⟩ := idx_mod v
  obtain ⟨-, -, hl2, -⟩ := idx_lt v
  refine (tableAt_next (by omega) (by omega)).mpr ⟨_, hb, ?_⟩
  rw [hm2]
  exact ⟨hpres, hplain, rfl⟩

theorem Path.tableAt {a b c : ℕ} (h : s.Path v a b c) :
    s.tableAt (tableNode v) = some (c / 4096) := by
  obtain ⟨rfl, hpa, rfl, hpb, hhb, rfl, hpc, hhc⟩ := h
  exact tableAt_pt (tableAt_pd (tableAt_pdp_iff.mpr ⟨hpa, rfl⟩) hpb hhb) hpc hhc

/-- The page table of a page and the entry that unmapping it clears. -/
theorem pagingUnmap_of_isLeaf (h : s.IsLeaf v 3 e) : ∃ f, s.tableAt (tableNode v) = some f ∧
    s.pagingUnmap v = (pageBase e, s.store64 (f * 4096 + ptIdx v * 8) 0) := by
  have hleaf := leaf_iff.mpr h
  obtain ⟨a, b, c, hpath⟩ := pagingWalk_deep hleaf.1
  refine ⟨c / 4096, hpath.tableAt, ?_⟩
  rw [pagingUnmap_of_leaf hleaf, pteSlot, hpath.walk]
  rfl

/-- The page of `v` is gone, and every other page is where it was. -/
structure TakesPage (s s' : Vm) (v : ℕ) : Prop where
  shaped : s'.Shaped
  nodes : ∀ q ∈ walkNodes, s'.tableAt q = s.tableAt q
  self : ∀ e, ¬ s'.IsLeaf v 3 e
  huge : s.NoHuge v → s'.NoHuge v
  other : ∀ u, pageNumber u ≠ pageNumber v → ∀ n e, s'.IsLeaf u n e ↔ s.IsLeaf u n e

theorem Shaped.pagingUnmap (h : s.Shaped) (v : ℕ) : s.TakesPage (s.pagingUnmap v).2 v := by
  by_cases hleaf : ∃ e, s.IsLeaf v 3 e
  · obtain ⟨e, he⟩ := hleaf
    obtain ⟨f, hf, hun⟩ := pagingUnmap_of_isLeaf he
    rw [hun]
    have hset := h.setPage hf (w := 0) (by norm_num)
    have hgone : ∀ n e, ¬ (s.store64 (f * 4096 + ptIdx v * 8) 0).IsLeaf v n e := by
      intro n e hl
      exact absurd ((hset.self n e).mp hl).2.2 (by decide)
    exact ⟨hset.shaped, hset.nodes, hgone 3, fun _ => noHuge_iff.mpr fun n e hl =>
      absurd hl (hgone n e), hset.other⟩
  · rw [pagingUnmap_of_not_leaf fun e he => hleaf ⟨e, leaf_iff.mp he⟩]
    exact ⟨h, fun _ _ => rfl, fun e he => hleaf ⟨e, he⟩, id, fun _ _ _ _ => Iff.rfl⟩

end Walks
end Vm
end Ggmk

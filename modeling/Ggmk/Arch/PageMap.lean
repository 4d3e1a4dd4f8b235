import Ggmk.Arch.TableTree

/-! Mapping and unmapping one page, in any address space whose tables are a tree: what a walk
finds afterwards, and the frame that unmapping returns. -/
namespace Ggmk
open Word ByteMem PageTree

/-- The flags of `paging.h` besides `PTE_PRESENT`. -/
structure PteFlags where
  writable : Bool
  user : Bool
  pwt : Bool
  pcd : Bool
  ps : Bool
  nx : Bool

/-- The flags of a present page. -/
def PteFlags.bits (f : PteFlags) : ℕ :=
  ptePresent ||| (if f.writable then pteWritable else 0) ||| (if f.user then 2 ^ 2 else 0) |||
    (if f.pwt then 2 ^ 3 else 0) ||| (if f.pcd then 2 ^ 4 else 0) |||
    (if f.ps then 2 ^ 7 else 0) ||| if f.nx then 2 ^ 63 else 0

namespace Vm
variable {s s' : Vm} {v p flags : ℕ}

theorem WellFormed.of_nodes (h : s.WellFormed) (hshaped : s'.Shaped)
    (hnodes : ∀ q ∈ walkNodes, s'.tableAt q = s.tableAt q) (hpmm : s'.pmm = s.pmm) :
    s'.WellFormed := by
  refine ⟨hshaped, fun q hq f hf => ?_, hpmm ▸ h.total_le⟩
  rw [hnodes q hq] at hf
  rw [hpmm]
  exact h.used q hq f hf

/-- Without a huge page on the way, a mapping sets the entry of the page after the tables are
there. -/
theorem WellFormed.pagingMap_sets (h : s.WellFormed) (hv : s.NoHuge v)
    (hw : pageBase p ||| flags < 2 ^ 64) (hs : s.pagingMap v p flags = some s') :
    ∃ t, s.Extends t ∧ t.SetsPage s' v (pageBase p ||| flags) ∧ s'.WellFormed := by
  obtain ⟨t, hext, ⟨⟨n, e, hn, hleaf⟩, -⟩ | ⟨f, hf, rfl⟩⟩ := h.pagingMap hs
  · have hthree := noHuge_iff.mp hv n e ((hext.leaf v n e).mp hleaf)
    omega
  · have hset := hext.wf.toShaped.setPage hf hw
    exact ⟨t, hext, hset, hext.wf.of_nodes hset.shaped hset.nodes rfl⟩

theorem SetsPage.leaf_self {w : ℕ} (h : s.SetsPage s' v w) (hw : present w = true) :
    (s'.pagingWalk v).leaf = some (3, w) :=
  pagingWalk_leaf.mpr ((h.self 3 w).mpr ⟨rfl, rfl, hw⟩)

/-- What a mapping of `v` leads to. -/
structure MapsPage (s s' : Vm) (v p flags : ℕ) : Prop where
  depth : (s'.pagingWalk v).depth = 4
  pte : (s'.pagingWalk v).pte = p ||| flags
  other : ∀ u, pageNumber u ≠ pageNumber v →
    (s'.pagingWalk u).leaf = (s.pagingWalk u).leaf
  noHuge : s'.NoHuge v
  wellFormed : s'.WellFormed

/-- What unmapping `v` leads to. -/
structure UnmapsPage (s : Vm) (v : ℕ) : Prop where
  gone : ((s.pagingUnmap v).2.pagingWalk v).leaf = none
  other : ∀ u, pageNumber u ≠ pageNumber v →
    ((s.pagingUnmap v).2.pagingWalk u).leaf = (s.pagingWalk u).leaf
  wellFormed : (s.pagingUnmap v).2.WellFormed

theorem pagingUnmap_pmm (s : Vm) (v : ℕ) : (s.pagingUnmap v).2.pmm = s.pmm := by
  rw [pagingUnmap_eq]
  split <;> rfl

theorem leaf_none_of {u : ℕ} (hhuge : s.NoHuge u) (hlast : ∀ e, ¬ s.IsLeaf u 3 e) :
    (s.pagingWalk u).leaf = none := by
  rw [Option.eq_none_iff_forall_not_mem]
  rintro ⟨n, e⟩ hmem
  obtain rfl := hhuge n e hmem
  exact hlast e (pagingWalk_leaf.mp hmem)

theorem pageBase_of_mod {a : ℕ} (h : a % 4096 = 0) : pageBase a = a := by
  unfold pageBase
  omega

theorem or_lt_two_pow {a b : ℕ} (ha : a < 2 ^ 52) (hb : b < 2 ^ 64) : a ||| b < 2 ^ 64 :=
  Nat.or_lt_two_pow (by omega) hb

theorem present_or {a b : ℕ} (hb : present b = true) : present (a ||| b) = true := by
  rw [present] at hb ⊢
  rw [Nat.testBit_or, hb, Bool.or_true]

/-- A mapping and an unmapping change the page they are for, whatever the address space. -/
theorem paging_exact (h : s.WellFormed) (hv : s.NoHuge v) :
    (∀ p flags s', p % 4096 = 0 → p < 2 ^ 52 → flags < 4096 → present flags = true →
      s.pagingMap v p flags = some s' → s.MapsPage s' v p flags) ∧ s.UnmapsPage v := by
  constructor
  · intro p flags s' hp hlt hflags hpres hs
    have hbase := pageBase_of_mod hp
    have hw : pageBase p ||| flags < 2 ^ 64 := hbase.symm ▸ or_lt_two_pow hlt (by omega)
    obtain ⟨t, hext, hset, hwf⟩ := h.pagingMap_sets hv hw hs
    rw [hbase] at hset
    have hleaf := hset.leaf_self (present_or hpres)
    obtain ⟨hdepth, hpte, -⟩ := Walk.leaf_last.mp hleaf
    refine ⟨hdepth, hpte, fun u hu => ?_, fun n e hne => ?_, hwf⟩
    · exact leaf_congr fun n e => (hset.other u hu n e).trans (hext.leaf u n e)
    · rw [hleaf] at hne
      exact (Prod.mk.inj (Option.some.inj hne)).1.symm
  · have htake := h.toShaped.pagingUnmap v
    exact ⟨leaf_none_of (htake.huge hv) htake.self, fun u hu => leaf_congr (htake.other u hu),
      h.of_nodes htake.shaped htake.nodes (s.pagingUnmap_pmm v)⟩

/-- Zeroed memory of eight pages, with the root of the tables in the first. -/
def blank : Vm := ⟨fun _ => 0, 0, ⟨fun page => page == 0, 8, 7, 7, []⟩, vmmHeapBase⟩

theorem blank_tableAt {q : List ℕ} {f : ℕ} (h : blank.tableAt q = some f) : q = [] ∧ f = 0 := by
  cases q with
  | nil => exact ⟨rfl, (Option.some.inj h).symm⟩
  | cons i q =>
    obtain ⟨g, -, hg⟩ := tableAt_cons_iff.mp h
    have hzero : entry blank.mem g (i % 512) = 0 := readLe_zero _ _
    rw [tableChild, hzero, link_of_absent (by decide)] at hg
    exact absurd hg (by simp)

theorem blank_wellFormed : blank.WellFormed where
  separate := by
    intro q _ r _ f hq hr
    rw [(blank_tableAt hq).1, (blank_tableAt hr).1]
  plain := by
    intro i q f g _ _ hg
    have hzero : entry blank.mem f (i % 512) = 0 := readLe_zero _ _
    rw [hzero]
    norm_num
  used := by
    intro q _ f hf _
    rw [(blank_tableAt hf).2]
    rfl
  total_le := by decide

theorem blank_noHuge (v : ℕ) : blank.NoHuge v := by
  refine noHuge_iff.mpr ?_
  rintro n e ⟨i, q, f, -, -, -, hval, hpres, -⟩
  have hzero : entry blank.mem f (i % 512) = 0 := readLe_zero _ _
  rw [← hval, hzero] at hpres
  exact absurd hpres (by decide)

/-- The second page is mapped to frame 5. -/
theorem paging_exact_blank : ∃ s', blank.pagingMap 0x1000 0x5000 3 = some s' ∧
    blank.MapsPage s' 0x1000 0x5000 3 ∧ s'.UnmapsPage 0x1000 := by
  obtain ⟨s', hs⟩ : ∃ s', blank.pagingMap 0x1000 0x5000 3 = some s' :=
    Option.isSome_iff_exists.mp (by decide +kernel)
  have hmap := (paging_exact blank_wellFormed (blank_noHuge 0x1000)).1 0x5000 3 s' (by decide)
    (by decide) (by decide) (by decide) hs
  exact ⟨s', hs, hmap, (paging_exact hmap.wellFormed hmap.noHuge).2⟩

/-! ## What unmapping returns -/

theorem pteFlags_high (f : PteFlags) : f.bits / 4096 = if f.nx then 2 ^ 51 else 0 := by
  obtain ⟨a, b, c, d, e, n⟩ := f
  revert a b c d e n
  decide

theorem pteFlags_present (f : PteFlags) : present f.bits = true := by
  obtain ⟨a, b, c, d, e, n⟩ := f
  revert a b c d e n
  decide

/-- The mask that unmapping takes the flags off with leaves `PTE_NX`. -/
theorem pageBase_or_flags (hp : p % 4096 = 0) (hlt : p < 2 ^ 52) (f : PteFlags) :
    pageBase (p ||| f.bits) = p + if f.nx then 2 ^ 63 else 0 := by
  have hdiv : (p ||| f.bits) / 2 ^ 12 = p / 2 ^ 12 ||| f.bits / 2 ^ 12 := Nat.or_div_two_pow
  have hsum : p / 2 ^ 12 ||| 2 ^ 51 = 2 ^ 51 + p / 2 ^ 12 := by
    have h := Nat.two_pow_add_eq_or_of_lt (i := 51) (b := p / 2 ^ 12) (by omega) 1
    rw [Nat.or_comm, ← Nat.mul_one (2 ^ 51), h]
  rw [show (2 : ℕ) ^ 12 = 4096 from rfl, pteFlags_high] at hdiv
  rw [pageBase, hdiv]
  split
  next =>
    rw [show (4096 : ℕ) = 2 ^ 12 from rfl, hsum]
    omega
  next =>
    rw [Nat.or_zero]
    omega

theorem pteFlags_lt (f : PteFlags) : f.bits < 2 ^ 64 := by
  have hhigh := pteFlags_high f
  split at hhigh <;> omega

/-- What was mapped is returned exactly when execution was not forbidden. -/
theorem unmap_returns_iff (h : s.WellFormed) (hv : s.NoHuge v) (hp : p % 4096 = 0)
    (hlt : p < 2 ^ 52) (f : PteFlags) (hs : s.pagingMap v p f.bits = some s') :
    (s'.pagingUnmap v).1 = p ↔ f.nx = false := by
  have hbase := pageBase_of_mod hp
  have hw : pageBase p ||| f.bits < 2 ^ 64 := hbase.symm ▸ or_lt_two_pow hlt (pteFlags_lt f)
  obtain ⟨t, -, hset, -⟩ := h.pagingMap_sets hv hw hs
  rw [hbase] at hset
  obtain ⟨g, -, hun⟩ := pagingUnmap_of_isLeaf
    ((hset.self 3 _).mpr ⟨rfl, rfl, present_or (pteFlags_present f)⟩)
  rw [hun]
  show pageBase (p ||| f.bits) = p ↔ f.nx = false
  rw [pageBase_or_flags hp hlt]
  cases f.nx with
  | false => simp
  | true => simp

theorem unmap_returns_blank : ∃ s', blank.pagingMap 0x1000 0x5000 3 = some s' ∧
    (s'.pagingUnmap 0x1000).1 = 0x5000 := by
  obtain ⟨s', hs⟩ : ∃ s', blank.pagingMap 0x1000 0x5000 3 = some s' :=
    Option.isSome_iff_exists.mp (by decide +kernel)
  exact ⟨s', hs, (unmap_returns_iff blank_wellFormed (blank_noHuge 0x1000) (by decide) (by decide)
    ⟨true, false, false, false, false, false⟩ hs).mpr rfl⟩

/-- A data page that must not be executed. -/
theorem unmap_returns_nx : ¬ ∀ (s s' : Vm) (v p : ℕ) (f : PteFlags), s.WellFormed → s.NoHuge v →
    p % 4096 = 0 → 0 < p → p < 2 ^ 52 → s.pagingMap v p f.bits = some s' →
      (s'.pagingUnmap v).1 = p := by
  intro hall
  obtain ⟨s', hs⟩ : ∃ s', blank.pagingMap 0x1000 0x5000 (2 ^ 63 + 3) = some s' :=
    Option.isSome_iff_exists.mp (by decide +kernel)
  have hret : (blank.pagingMap 0x1000 0x5000 (2 ^ 63 + 3)).map (fun s' => (s'.pagingUnmap 0x1000).1) =
      some (2 ^ 63 + 0x5000) := by decide +kernel
  rw [hs] at hret
  have hp := hall blank s' 0x1000 0x5000 ⟨true, false, false, false, false, true⟩ blank_wellFormed
    (blank_noHuge _) (by decide) (by decide) (by decide) hs
  exact absurd ((Option.some.inj hret).symm.trans hp) (by decide)

end Vm
end Ggmk

import Ggmk.Arch.PageMap

/-! The ranges that `vmm_map` maps. It counts the pages of the size alone, while `vmm_unmap` counts
those that the range with its offset in the first page touches. -/
namespace Ggmk
open Word ByteMem PageTree

namespace Vm
variable {s s' : Vm} {v : ℕ}

/-- The physical address of `v` in a page of level `n` with entry `e`. -/
def pageAddr (v n e : ℕ) : ℕ :=
  if n = 1 then e / 2 ^ 30 % 2 ^ 22 * 2 ^ 30 + v % 2 ^ 30
  else if n = 2 then e / 2 ^ 21 % 2 ^ 31 * 2 ^ 21 + v % 2 ^ 21
  else entryFrame e + v % 4096

/-- The processor with the entries `a`, `b`, `c` and `d` at the four levels. -/
theorem translate_of_entries {a b c d : ℕ} (ha : s.load64 (entryFrame s.cr3 + pml4Idx v * 8) = a)
    (hb : present a = true → s.load64 (entryFrame a + pdpIdx v * 8) = b)
    (hc : present a = true → present b = true → huge b = false →
      s.load64 (entryFrame b + pdIdx v * 8) = c)
    (hd : present a = true → present b = true → huge b = false → present c = true →
      huge c = false → s.load64 (entryFrame c + ptIdx v * 8) = d) :
    s.translate v = (if ¬ present a then (⟨1, a, 0, 0, 0⟩ : Walk)
      else if ¬ present b then ⟨2, a, b, 0, 0⟩
      else if huge b then ⟨2, a, b, 0, 0⟩
      else if ¬ present c then ⟨3, a, b, c, 0⟩
      else if huge c then ⟨3, a, b, c, 0⟩
      else ⟨4, a, b, c, d⟩).leaf.map fun x => pageAddr v x.1 x.2 := by
  unfold translate
  simp only [ha]
  by_cases hpa : present a = true
  · simp only [hpa, hb hpa, not_true_eq_false, if_false]
    by_cases hpb : present b = true
    · cases hhb : huge b with
      | true => simp [hpb, Walk.leaf, pageAddr]
      | false =>
        simp only [hpb, hc hpa hpb hhb, not_true_eq_false, if_false, Bool.false_eq_true]
        by_cases hpc : present c = true
        · cases hhc : huge c with
          | true => simp [hpc, Walk.leaf, pageAddr]
          | false =>
            simp only [hpc, hd hpa hpb hhb hpc hhc, not_true_eq_false, if_false,
              Bool.false_eq_true]
            by_cases hpd : present d = true
            · simp [hpd, Walk.leaf, pageAddr]
            · simp [hpd, Walk.leaf]
        · simp [hpc, Walk.leaf]
    · simp [hpb, Walk.leaf]
  · simp [hpa, Walk.leaf]

theorem entryFrame_of_lt {e : ℕ} (h : e < 2 ^ 52) : entryFrame e = pageBase e := by
  unfold entryFrame pageBase
  rw [Nat.mod_eq_of_lt (by omega)]

/-- Entries that point to tables have their upper bits clear. -/
theorem Shaped.link_lt (h : s.Shaped) {i f g : ℕ} {p : List ℕ} (hip : i :: p <:+ walkPath v)
    (hf : s.tableAt p = some f) (hg : s.tableAt (i :: p) = some g) :
    s.load64 (f * 4096 + i % 512 * 8) < 2 ^ 52 :=
  h.plain i p f g (suffix_mem hip) hf ((tableAt_cons hf).symm.trans hg)

/-- The processor finds the page that a walk ends at. -/
theorem Shaped.translate_eq (h : s.Shaped) (hcr3 : s.cr3 < 2 ^ 52) (v : ℕ) :
    s.translate v = (s.pagingWalk v).leaf.map fun x => pageAddr v x.1 x.2 := by
  obtain ⟨hsuf4, hsuf3, hsuf2⟩ := node_suffix v
  obtain ⟨hm4, hm3, hm2, -⟩ := idx_mod v
  obtain ⟨hl4, hl3, hl2, -⟩ := idx_lt v
  have hroot : s.tableAt [] = some (s.cr3 / 4096) := rfl
  have hframe {e i : ℕ} (he : e < 2 ^ 52) :
      s.load64 (entryFrame e + i) = s.load64 (pageBase e + i) := by rw [entryFrame_of_lt he]
  have hlt {i f e : ℕ} {p : List ℕ} (hip : i :: p <:+ walkPath v) (hf : s.tableAt p = some f)
      (hg : s.tableAt (i :: p) = some (e / 4096))
      (he : s.load64 (f * 4096 + i % 512 * 8) = e) : e < 2 ^ 52 := he ▸ h.link_lt hip hf hg
  refine translate_of_entries (hframe hcr3) (fun hpa => hframe ?_) (fun hpa hpb hhb => hframe ?_)
    (fun hpa hpb hhb hpc hhc => hframe ?_)
  · exact hlt hsuf4 hroot (tableAt_pdp_iff.mpr ⟨hpa, rfl⟩) (by rw [hm4]; rfl)
  · have hpdp := tableAt_pdp_iff.mpr ⟨hpa, rfl⟩
    exact hlt hsuf3 hpdp (tableAt_pd hpdp hpb hhb) (by rw [hm3]; rfl)
  · have hpd := tableAt_pd (tableAt_pdp_iff.mpr ⟨hpa, rfl⟩) hpb hhb
    exact hlt hsuf2 hpd (tableAt_pt hpd hpc hhc) (by rw [hm2]; rfl)

/-! ## Steps that keep the tables -/

/-- The tables stay, and others may have been added. -/
structure KeepsTables (s s' : Vm) : Prop where
  wf : s'.WellFormed
  cr3_eq : s'.cr3 = s.cr3
  nodes : ∀ q ∈ walkNodes, ∀ f, s.tableAt q = some f → s'.tableAt q = some f

theorem KeepsTables.refl (h : s.WellFormed) : s.KeepsTables s := ⟨h, rfl, fun _ _ _ hf => hf⟩

theorem KeepsTables.trans {t : Vm} (h : s.KeepsTables t) (h' : t.KeepsTables s') :
    s.KeepsTables s' :=
  ⟨h'.wf, h'.cr3_eq.trans h.cr3_eq, fun q hq f hf => h'.nodes q hq f (h.nodes q hq f hf)⟩

theorem Extends.keeps (h : s.Extends s') : s.KeepsTables s' := ⟨h.wf, h.cr3_eq, h.nodes⟩

theorem WellFormed.setPage_keeps (h : s.WellFormed) {f w : ℕ}
    (hf : s.tableAt (tableNode v) = some f) (hw : w < 2 ^ 64) :
    s.KeepsTables (s.store64 (f * 4096 + ptIdx v * 8) w) := by
  have hset := h.toShaped.setPage hf hw
  refine ⟨h.of_nodes hset.shaped hset.nodes rfl, rfl, fun q hq g hg => ?_⟩
  rw [hset.nodes q hq]
  exact hg

theorem WellFormed.pagingMap_keeps (h : s.WellFormed) {p flags : ℕ} (hp : p < 2 ^ 64)
    (hflags : flags < 2 ^ 64) (hs : s.pagingMap v p flags = some s') : s.KeepsTables s' := by
  have hbase : pageBase p < 2 ^ 64 := by
    unfold pageBase
    omega
  obtain ⟨t, hext, ⟨-, rfl⟩ | ⟨f, hf, rfl⟩⟩ := h.pagingMap hs
  · exact hext.keeps
  · exact hext.keeps.trans (hext.wf.setPage_keeps hf (Nat.or_lt_two_pow hbase hflags))

theorem WellFormed.vmmDemandPage (h : s.WellFormed) {fault : ℕ} {rc : ℤ}
    (hs : s.vmmDemandPage fault = some (rc, s')) : s.KeepsTables s' := by
  rcases vmmDemandPage_cases hs with ⟨-, -, rfl⟩ | ⟨-, g, -, hlt, hfree, hmap⟩
  · exact .refl h
  · have hclear := (h.clearPage hlt hfree).keeps
    have htotal := h.total_le
    have hlt' : g * 4096 < 2 ^ 64 := by
      unfold maxPages at htotal
      omega
    exact hclear.trans (hclear.wf.pagingMap_keeps hlt' (by decide) hmap)

theorem WellFormed.bump (h : s.WellFormed) (next : ℕ) :
    s.KeepsTables { s with heapNext := next } :=
  ⟨⟨⟨h.separate, h.plain⟩, h.used, h.total_le⟩, rfl, fun _ _ _ hf => hf⟩

theorem WellFormed.kmalloc (h : s.WellFormed) {size p : ℕ}
    (hs : s.kmalloc size = some (p, s')) : s.KeepsTables s' := by
  rcases kmalloc_some hs with ⟨-, -, rfl⟩ | ⟨next, -, -, -, -, rfl⟩
  · exact .refl h
  · exact h.bump next

theorem WellFormed.mapPages_keeps {virt phys flags n i : ℕ} (h : s.WellFormed)
    (hflags : flags < 2 ^ 64) (hs : mapPages virt phys flags n i s = some s') :
    s.KeepsTables s' := by
  induction n generalizing i s with
  | zero =>
    obtain rfl := Option.some.inj hs
    exact .refl h
  | succ n ih =>
    obtain ⟨t, ht, hs⟩ := Option.bind_eq_some_iff.mp hs
    have hkeep := h.pagingMap_keeps (Nat.mod_lt _ (by norm_num)) hflags ht
    exact hkeep.trans (ih hkeep.wf hs)

theorem WellFormed.vmmMap {phys size flags p : ℕ} (h : s.WellFormed) (hflags : flags < 2 ^ 64)
    (hs : s.vmmMap phys size flags = some (p, s')) : s.KeepsTables s' := by
  rcases vmmMap_cases hs with ⟨-, -, rfl⟩ | ⟨virt, next, -, -, -, -, -, hs⟩
  · exact .refl h
  · exact (h.bump next).trans ((h.bump next).wf.mapPages_keeps hflags hs)

/-! ## Ranges of pages -/

/-- Fewer than `2 ^ 36` pages in a row are all different. -/
theorem pageNumber_inj {a j k : ℕ} (hj : j < 2 ^ 36) (hk : k < 2 ^ 36) :
    pageNumber (a + j * 4096) = pageNumber (a + k * 4096) ↔ j = k := by
  unfold pageNumber
  omega

/-- Of the pages from `virt` on, the `n` with numbers from `i` on lead to those from `phys` on, and
no other page changes. -/
structure MapsPages (s s' : Vm) (virt phys flags i n : ℕ) : Prop where
  keeps : s.KeepsTables s'
  self : ∀ j, i ≤ j → j < i + n → s'.IsLeaf (virt + j * 4096) 3 (phys + j * 4096 ||| flags)
  other : ∀ u, (∀ j, i ≤ j → j < i + n → pageNumber u ≠ pageNumber (virt + j * 4096)) →
    ∀ m e, s'.IsLeaf u m e ↔ s.IsLeaf u m e

theorem WellFormed.mapPages {virt phys flags n i : ℕ} (h : s.WellFormed) (hflags : flags < 2 ^ 64)
    (hpres : present flags = true) (hvirt : ∀ j < i + n, virt + j * 4096 < 2 ^ 64)
    (halign : phys % 4096 = 0) (hphys : ∀ j < i + n, phys + j * 4096 < 2 ^ 52) (hn : i + n ≤ 2 ^ 36)
    (hv : ∀ j, i ≤ j → j < i + n → s.NoHuge (virt + j * 4096))
    (hs : mapPages virt phys flags n i s = some s') : s.MapsPages s' virt phys flags i n := by
  induction n generalizing i s with
  | zero =>
    obtain rfl := Option.some.inj hs
    exact ⟨.refl h, fun j hij hj => by omega, fun _ _ _ _ => Iff.rfl⟩
  | succ n ih =>
    obtain ⟨t, ht, hs⟩ := Option.bind_eq_some_iff.mp hs
    have hlt := hphys i (by omega)
    rw [uint64_of_lt (hvirt i (by omega)),
      uint64_of_lt (by omega : phys + i * 4096 < 2 ^ 64)] at ht
    have hbase : pageBase (phys + i * 4096) = phys + i * 4096 := pageBase_of_mod (by omega)
    have hw : pageBase (phys + i * 4096) ||| flags < 2 ^ 64 :=
      hbase.symm ▸ or_lt_two_pow hlt hflags
    obtain ⟨t₀, hext, hset, hwf⟩ := h.pagingMap_sets (hv i le_rfl (by omega)) hw ht
    rw [hbase] at hset
    have hkeep := h.pagingMap_keeps (by omega) hflags ht
    have hother : ∀ u, pageNumber u ≠ pageNumber (virt + i * 4096) →
        ∀ m e, t.IsLeaf u m e ↔ s.IsLeaf u m e :=
      fun u hu m e => (hset.other u hu m e).trans (hext.leaf u m e)
    have hne {j : ℕ} (hij : i + 1 ≤ j) (hj : j < i + 1 + n) :
        pageNumber (virt + j * 4096) ≠ pageNumber (virt + i * 4096) := by
      rw [Ne, pageNumber_inj (by omega) (by omega)]
      omega
    have hv' (j : ℕ) (hij : i + 1 ≤ j) (hj : j < i + 1 + n) : t.NoHuge (virt + j * 4096) := by
      rw [noHuge_iff]
      intro m e he
      exact noHuge_iff.mp (hv j (by omega) (by omega)) m e ((hother _ (hne hij hj) m e).mp he)
    have hrest := ih hwf (fun j hj => hvirt j (by omega)) (fun j hj => hphys j (by omega))
      (by omega) hv' hs
    refine ⟨hkeep.trans hrest.keeps, fun j hij hj => ?_, fun u hu m e => ?_⟩
    · rcases Nat.eq_or_lt_of_le hij with rfl | hlt
      · rw [hrest.other _ fun j hj hj' => (hne hj hj').symm]
        exact (hset.self 3 _).mpr ⟨rfl, rfl, present_or hpres⟩
      · exact hrest.self j hlt (by omega)
    · rw [hrest.other u fun j hij hj => hu j (by omega) (by omega)]
      exact hother u (hu i le_rfl (by omega)) m e

/-- The `n` pages from `addr` on are gone, and no other page changes. -/
structure TakesPages (s s' : Vm) (addr n : ℕ) : Prop where
  shaped : s'.Shaped
  nodes : ∀ q ∈ walkNodes, s'.tableAt q = s.tableAt q
  self : ∀ j < n, ∀ e, ¬ s'.IsLeaf (addr + j * 4096) 3 e
  other : ∀ u, (∀ j < n, pageNumber u ≠ pageNumber (addr + j * 4096)) →
    ∀ m e, s'.IsLeaf u m e ↔ s.IsLeaf u m e

theorem Shaped.unmapPage (h : s.Shaped) (v : ℕ) : s.TakesPage (s.unmapPage v) v := by
  have htake := h.pagingUnmap v
  unfold Vm.unmapPage
  dsimp only
  split
  · exact htake
  · exact ⟨⟨htake.shaped.separate, htake.shaped.plain⟩, htake.nodes, htake.self, htake.huge,
      htake.other⟩

theorem Shaped.unmapPages {addr n : ℕ} (h : s.Shaped) (hn : n ≤ 2 ^ 36) :
    s.TakesPages (unmapPages addr n s) addr n := by
  induction n generalizing addr s with
  | zero => exact ⟨h, fun _ _ => rfl, fun j hj => by omega, fun _ _ _ _ => Iff.rfl⟩
  | succ n ih =>
    have htake := h.unmapPage addr
    have hrest := @ih (s.unmapPage addr) (addr + 4096) htake.shaped (by omega)
    have hshift (j : ℕ) : addr + 4096 + j * 4096 = addr + (j + 1) * 4096 := by ring
    have hne {j : ℕ} (hj : j < n) : pageNumber addr ≠ pageNumber (addr + (j + 1) * 4096) := by
      unfold pageNumber
      omega
    refine ⟨hrest.shaped, fun q hq => (hrest.nodes q hq).trans (htake.nodes q hq), ?_, ?_⟩
    · rintro (- | j) hj e he
      · rw [Nat.zero_mul, Nat.add_zero] at he
        refine htake.self e ((hrest.other addr (fun j hj => ?_) 3 e).mp he)
        rw [hshift]
        exact hne hj
      · rw [← hshift] at he
        exact hrest.self j (by omega) e he
    · intro u hu m e
      refine (hrest.other u (fun j hj => ?_) m e).trans (htake.other u ?_ m e)
      · rw [hshift]
        exact hu (j + 1) (by omega)
      · simpa using hu 0 (by omega)

/-! ## What `vmm_map` returns -/

/-- The page of `u` is one of those that `vmm_map` installs for `size` bytes at `p`. -/
def Installed (p size u : ℕ) : Prop :=
  ∃ j < (size + 4095) / 4096, pageNumber u = pageNumber (pageBase p + j * 4096)

/-- A later allocation, or a fault in one. -/
inductive AllocStep : Vm → Vm → Prop
  | kmalloc {s s' : Vm} {size p : ℕ} (h : s.kmalloc size = some (p, s')) : AllocStep s s'
  | vmmMap {s s' : Vm} {phys size flags p : ℕ} (hflags : flags < 2 ^ 64)
      (h : s.vmmMap phys size flags = some (p, s')) : AllocStep s s'
  | demandPage {s s' : Vm} {fault : ℕ} {rc : ℤ} (h : s.vmmDemandPage fault = some (rc, s')) :
      AllocStep s s'

/-- The range at `p` leads to the one at `phys`, and unmapping it at any later time takes away
the pages that were installed for it and no others. -/
structure MapsRange (s : Vm) (p phys size : ℕ) : Prop where
  covers : ∀ i < size, s.translate (p + i) = some (phys + i)
  undone : ∀ s', Relation.ReflTransGen AllocStep s s' → ∀ u,
    (Installed p size u → ((s'.vmmUnmap p size).pagingWalk u).leaf = none) ∧
    (¬ Installed p size u → ((s'.vmmUnmap p size).pagingWalk u).leaf = (s'.pagingWalk u).leaf)

theorem WellFormed.allocSteps (h : s.WellFormed) (hs : Relation.ReflTransGen AllocStep s s') :
    s.KeepsTables s' := by
  induction hs with
  | refl => exact .refl h
  | tail _ hstep ih =>
    refine ih.trans ?_
    cases hstep with
    | kmalloc hs => exact ih.wf.kmalloc hs
    | vmmMap hflags hs => exact ih.wf.vmmMap hflags hs
    | demandPage hs => exact ih.wf.vmmDemandPage hs

/-- The frame of an entry with flags. -/
theorem entryFrame_or {a flags : ℕ} (ha : a % 4096 = 0) (hlt : a < 2 ^ 52)
    (hflags : flags / 4096 % 2 ^ 40 = 0) : entryFrame (a ||| flags) = a := by
  have hdiv : (a ||| flags) / 2 ^ 12 % 2 ^ 40 =
      a / 2 ^ 12 % 2 ^ 40 ||| flags / 2 ^ 12 % 2 ^ 40 := by
    rw [Nat.or_div_two_pow, Nat.or_mod_two_pow]
  rw [show (2 : ℕ) ^ 12 = 4096 from rfl, hflags, Nat.or_zero] at hdiv
  rw [entryFrame, hdiv]
  omega

theorem NoHuge.congr {u : ℕ} (h : s.NoHuge v) (huv : pageNumber u = pageNumber v) :
    s.NoHuge u := by
  rw [noHuge_iff] at h ⊢
  exact fun m e he => h m e ((isLeaf_congr huv).mp he)

/-- What `vmm_map` did: the pages from `virt` on are those of the range, and the address that it
returned lies in the first. -/
structure MappedAt (s s' : Vm) (virt p phys size flags : ℕ) : Prop where
  aligned : virt % 4096 = 0
  le_virt : vmmHeapBase ≤ virt
  le_end : virt + (size + 4095) / 4096 * 4096 ≤ vmmHeapEnd
  p_eq : p = virt + phys % 4096
  pages : s.MapsPages s' virt (pageBase phys) flags 0 ((size + 4095) / 4096)

section Range
variable {virt p phys size flags : ℕ}

theorem WellFormed.mappedAt (h : s.WellFormed) (hbase : vmmHeapBase ≤ s.heapNext)
    (hsize : 1 ≤ size)
    (hroom : pageBase (s.heapNext + 0xFFF) + (size + 4095) / 4096 * 4096 ≤ vmmHeapEnd)
    (hphys : phys + size ≤ 2 ^ 52) (hflags : flags < 2 ^ 64) (hpres : present flags = true)
    (hs : s.vmmMap phys size flags = some (p, s')) (hhuge : ∀ i < size, s.NoHuge (p + i)) :
    s.MappedAt s' (pageBase (s.heapNext + 0xFFF)) p phys size flags := by
  obtain ⟨hzero, -, -⟩ | ⟨virt, next, -, hvirt, -, -, hp, hs⟩ := vmmMap_cases hs
  · omega
  have hbase' : 0xffffffff88000000 ≤ s.heapNext := hbase
  have hroom' : (s.heapNext + 0xFFF) / 4096 * 4096 + (size + 4095) / 4096 * 4096 ≤
    0xffffffff90000000 := hroom
  rw [uint64_of_lt (by omega)] at hvirt
  have hvirt' : virt = (s.heapNext + 0xFFF) / 4096 * 4096 := hvirt
  rw [uint64_of_lt (by omega)] at hp
  have hcount : uint64 (size + 0xFFF) / 4096 = (size + 4095) / 4096 := by
    rw [uint64_of_lt (by omega)]
  rw [hcount] at hs
  have hbaseEq : pageBase phys = phys / 4096 * 4096 := rfl
  have hmap := (h.bump next).wf.mapPages (i := 0) hflags hpres (fun j hj => by omega) (by omega)
    (fun j hj => by omega) (by omega) (fun j _ hj => ?_) hs
  · rw [← hvirt]
    exact ⟨by omega, hbase.trans (by omega), by omega, hp,
      ⟨(h.bump next).trans hmap.keeps, hmap.self, hmap.other⟩⟩
  · -- the first byte of the range in page `j`
    refine NoHuge.congr (hhuge (j * 4096 - phys % 4096) (by omega)) ?_
    unfold pageNumber
    omega

theorem MappedAt.pageBase_eq (h : s.MappedAt s' virt p phys size flags) : pageBase p = virt := by
  have hp := h.p_eq
  have halign := h.aligned
  unfold pageBase
  omega

/-- The bytes of the pages lead to the range. -/
theorem MappedAt.translate (h : s.MappedAt s' virt p phys size flags) (hcr3 : s.cr3 < 2 ^ 52)
    (hphys : phys + size ≤ 2 ^ 52) (hflags : flags / 4096 % 2 ^ 40 = 0) {i : ℕ} (hi : i < size)
    (hfit : phys % 4096 + i < (size + 4095) / 4096 * 4096) :
    s'.translate (p + i) = some (phys + i) := by
  have hp := h.p_eq
  have halign := h.aligned
  have hbase : pageBase phys = phys / 4096 * 4096 := rfl
  have hleaf := h.pages.self ((phys % 4096 + i) / 4096) (by omega) (by omega)
  rw [← isLeaf_congr (v := virt + (phys % 4096 + i) / 4096 * 4096) (u := p + i)
    (by unfold pageNumber; omega), ← pagingWalk_leaf] at hleaf
  rw [h.pages.keeps.wf.translate_eq (h.pages.keeps.cr3_eq ▸ hcr3), hleaf, Option.map_some]
  have hframe := entryFrame_or (a := pageBase phys + (phys % 4096 + i) / 4096 * 4096) (by omega)
    (by omega) hflags
  simp only [pageAddr, OfNat.ofNat_ne_one, if_false, Nat.reduceEqDiff]
  rw [hframe]
  refine congrArg some ?_
  omega

/-- Unmapping goes from the first page of the range to its last. -/
theorem MappedAt.vmmUnmap (h : s.MappedAt s' virt p phys size flags) (hsize : 1 ≤ size) (t : Vm) :
    t.vmmUnmap p size = unmapPages virt ((phys % 4096 + size + 4095) / 4096) t := by
  have hp := h.p_eq
  have hle := h.le_virt
  have hend := h.le_end
  have hbase : 0xffffffff88000000 ≤ virt := hle
  have hend' : virt + (size + 4095) / 4096 * 4096 ≤ 0xffffffff90000000 := hend
  have hcount : vmmUnmapCount p size = (phys % 4096 + size + 4095) / 4096 := by
    rw [vmmUnmapCount, h.pageBase_eq, uint64_of_lt (by omega)]
    omega
  rw [Vm.vmmUnmap, if_neg (by omega), h.pageBase_eq, hcount]

/-- What unmapping the range does to the page of `u`. -/
theorem MappedAt.takes (h : s.MappedAt s' virt p phys size flags) (hsize : 1 ≤ size) {t : Vm}
    (ht : t.Shaped) :
    t.TakesPages (t.vmmUnmap p size) virt ((phys % 4096 + size + 4095) / 4096) := by
  rw [h.vmmUnmap hsize]
  refine ht.unmapPages ?_
  have hend : virt + (size + 4095) / 4096 * 4096 ≤ 0xffffffff90000000 := h.le_end
  have hbase : 0xffffffff88000000 ≤ virt := h.le_virt
  omega

theorem MappedAt.table (h : s.MappedAt s' virt p phys size flags) {u : ℕ}
    (hu : Installed p size u) : ∃ f, s'.tableAt (tableNode u) = some f := by
  obtain ⟨j, hj, huj⟩ := hu
  rw [h.pageBase_eq] at huj
  have hleaf := h.pages.self j (by omega) (by omega)
  obtain ⟨f, hf, -⟩ := pagingUnmap_of_isLeaf ((isLeaf_congr huj).mpr hleaf)
  exact ⟨f, hf⟩

theorem noHuge_of_table {f : ℕ} (hf : s.tableAt (tableNode v) = some f) : s.NoHuge v :=
  noHuge_iff.mpr fun _ _ => isLeaf_of_table hf

/-- Where the pages of the size hold the range, unmapping takes away what was installed. -/
theorem MappedAt.undone (h : s.MappedAt s' virt p phys size flags) (hsize : 1 ≤ size)
    (hfit : phys % 4096 + size ≤ (size + 4095) / 4096 * 4096) {t : Vm}
    (ht : Relation.ReflTransGen AllocStep s' t) (u : ℕ) :
    (Installed p size u → ((t.vmmUnmap p size).pagingWalk u).leaf = none) ∧
    (¬ Installed p size u → ((t.vmmUnmap p size).pagingWalk u).leaf = (t.pagingWalk u).leaf) := by
  have hkeep := h.pages.keeps.wf.allocSteps ht
  have htake := h.takes hsize hkeep.wf.toShaped
  have hcount : (phys % 4096 + size + 4095) / 4096 = (size + 4095) / 4096 := by omega
  rw [hcount] at htake
  constructor
  · intro hu
    obtain ⟨f, hf⟩ := h.table hu
    obtain ⟨j, hj, huj⟩ := hu
    have hnode : tableNode u ∈ walkNodes := suffix_mem (node_suffix u).2.2
    have hf' := (htake.nodes _ hnode).trans (hkeep.nodes _ hnode f hf)
    refine leaf_none_of (noHuge_of_table hf') fun e he => ?_
    rw [h.pageBase_eq] at huj
    exact htake.self j hj e ((isLeaf_congr huj).mp he)
  · intro hu
    refine leaf_congr (htake.other u fun j hj huj => hu ⟨j, hj, ?_⟩)
    rw [h.pageBase_eq]
    exact huj

/-- Otherwise the range ends in a page that was not installed, and unmapping takes it away. -/
theorem MappedAt.not_mapsRange (h : s.MappedAt s' virt p phys size flags) (hsize : 1 ≤ size)
    (hhuge : ∀ i < size, s.NoHuge (p + i)) (hcr3 : s.cr3 < 2 ^ 52)
    (hlong : (size + 4095) / 4096 * 4096 < phys % 4096 + size) : ¬ s'.MapsRange p phys size := by
  intro hmaps
  have hp := h.p_eq
  have hbase : 0xffffffff88000000 ≤ virt := h.le_virt
  have hend : virt + (size + 4095) / 4096 * 4096 ≤ 0xffffffff90000000 := h.le_end
  obtain ⟨i, hi, hpi⟩ : ∃ i < size, p + i = virt + (size + 4095) / 4096 * 4096 :=
    ⟨(size + 4095) / 4096 * 4096 - phys % 4096, by omega, by omega⟩
  have hne : ∀ j < (size + 4095) / 4096, pageNumber (p + i) ≠ pageNumber (virt + j * 4096) := by
    intro j hj
    rw [hpi, Ne, pageNumber_inj (by omega) (by omega)]
    omega
  have hwf := h.pages.keeps.wf
  have hcover := hmaps.covers i hi
  rw [hwf.translate_eq (h.pages.keeps.cr3_eq ▸ hcr3), Option.map_eq_some_iff] at hcover
  obtain ⟨⟨n, e⟩, hleaf, -⟩ := hcover
  have hother := h.pages.other (p + i) (fun j _ hj => hne j (by omega))
  obtain rfl := noHuge_iff.mp (hhuge i hi) n e ((hother n e).mp (pagingWalk_leaf.mp hleaf))
  -- the page is not an installed one, so it has to stay
  have hkept := (hmaps.undone s' .refl (p + i)).2 ?_
  · rw [hleaf, pagingWalk_leaf, hpi] at hkept
    exact (h.takes hsize hwf.toShaped).self ((size + 4095) / 4096) (by omega) e hkept
  · rintro ⟨j, hj, huj⟩
    rw [h.pageBase_eq] at huj
    exact hne j hj huj

/-- A range is mapped, and can be unmapped, as long as it fits into as many pages as its size
takes. -/
theorem maps_range_iff (h : s.WellFormed) (hcr3 : s.cr3 < 2 ^ 52)
    (hbase : vmmHeapBase ≤ s.heapNext) (hsize : 1 ≤ size)
    (hroom : pageBase (s.heapNext + 0xFFF) + (size + 4095) / 4096 * 4096 ≤ vmmHeapEnd)
    (hphys : phys + size ≤ 2 ^ 52) (hflags : flags < 2 ^ 64) (hpres : present flags = true)
    (haddr : flags / 4096 % 2 ^ 40 = 0) (hs : s.vmmMap phys size flags = some (p, s'))
    (hhuge : ∀ i < size, s.NoHuge (p + i)) :
    s'.MapsRange p phys size ↔ phys % 4096 + size ≤ (size + 4095) / 4096 * 4096 := by
  have hmapped := h.mappedAt hbase hsize hroom hphys hflags hpres hs hhuge
  constructor
  · intro hmaps
    by_contra hlong
    exact hmapped.not_mapsRange hsize hhuge hcr3 (not_le.mp hlong) hmaps
  · intro hfit
    exact ⟨fun i hi => hmapped.translate hcr3 hphys haddr hi (by omega),
      fun t ht u => hmapped.undone hsize hfit ht u⟩

end Range

/-- A page and a half from a page boundary on. -/
theorem maps_range_blank : ∃ s', blank.vmmMap 0x5000 0x1800 3 = some (vmmHeapBase, s') ∧
    s'.MapsRange vmmHeapBase 0x5000 0x1800 := by
  have hfst : (blank.vmmMap 0x5000 0x1800 3).map Prod.fst = some vmmHeapBase := by decide +kernel
  obtain ⟨⟨p, s'⟩, hs, rfl⟩ := Option.map_eq_some_iff.mp hfst
  exact ⟨s', hs, (maps_range_iff blank_wellFormed (by decide) le_rfl (by decide) (by decide)
    (by decide) (by decide) (by decide) (by decide) hs fun _ _ => blank_noHuge _).mpr (by decide)⟩

/-- A page from the middle of one on: its second half is in no page that was installed. -/
theorem maps_range_short : ¬ ∀ (s s' : Vm) (p phys size flags : ℕ), s.WellFormed →
    s.cr3 < 2 ^ 52 → vmmHeapBase ≤ s.heapNext → 1 ≤ size →
    pageBase (s.heapNext + 0xFFF) + (size + 4095) / 4096 * 4096 ≤ vmmHeapEnd →
    phys + size ≤ 2 ^ 52 → flags < 2 ^ 64 → present flags = true → flags / 4096 % 2 ^ 40 = 0 →
    s.vmmMap phys size flags = some (p, s') → (∀ i < size, s.NoHuge (p + i)) →
      s'.MapsRange p phys size := by
  intro hall
  have hbyte : (blank.vmmMap 0x5800 0x1000 3).map (fun r => (r.1, r.2.translate (r.1 + 0x800))) =
      some (vmmHeapBase + 0x800, none) := by decide +kernel
  obtain ⟨⟨p, s'⟩, hs, heq⟩ := Option.map_eq_some_iff.mp hbyte
  have hmaps := hall blank s' p 0x5800 0x1000 3 blank_wellFormed (by decide) le_rfl (by decide)
    (by decide) (by decide) (by decide) (by decide) (by decide) hs fun _ _ => blank_noHuge _
  have hcover := hmaps.covers 0x800 (by decide)
  rw [(Prod.mk.inj heq).2] at hcover
  exact absurd hcover (by simp)

end Vm
end Ggmk

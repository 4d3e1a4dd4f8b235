import Ggmk.Arch.HeapTables

/-! The heap as its users see it: a byte for every address, zero where no page is mapped. An
access that faults changes no byte, a store changes one, and an unmapping makes whole pages
zero. -/
namespace Ggmk
open Word ByteMem PageTree

namespace Vm

/-- The byte that an access to the heap finds. -/
def byteAt (s : Vm) (virt : ℕ) : UInt8 :=
  match s.frame (pagePath virt) with
  | some f => s.mem (f * 4096 + virt % 4096)
  | none => 0

section
variable {s s' : Vm} {v w d f g : ℕ} {q : List ℕ}

theorem byteAt_mapped (h : s.frame (pagePath v) = some f) :
    s.byteAt v = s.mem (f * 4096 + v % 4096) := by
  rw [byteAt, h]

theorem byteAt_unmapped (h : s.frame (pagePath v) = none) : s.byteAt v = 0 := by
  rw [byteAt, h]

theorem byteAt_congr (hframe : s'.frame (pagePath v) = s.frame (pagePath v))
    (hsame : ∀ d, s.frame (pagePath v) = some d → s.SameFrame s' d) :
    s'.byteAt v = s.byteAt v := by
  cases hf : s.frame (pagePath v) with
  | none => rw [byteAt_unmapped hf, byteAt_unmapped (hframe.trans hf)]
  | some d =>
    rw [byteAt_mapped hf, byteAt_mapped (hframe.trans hf)]
    exact hsame d hf _ (Nat.mod_lt _ (by norm_num))

/-- The frame of a page of the heap is not free and not a table. -/
theorem Tables.kept_page (h : s.Tables) (hq : q ∈ heapNodes) (hl : q.length = 4)
    (hf : s.frame q = some d) : s.Kept d := by
  refine ⟨h.used q hq d hf, ?_⟩
  intro p hp hlt hpd
  rw [h.separate p hp q hq d hpd hf] at hlt
  omega

theorem Tables.byteAt_eq (h : s.Tables) (hv : InHeap v)
    (hframe : s'.frame (pagePath v) = s.frame (pagePath v))
    (hkept : ∀ d, s.Kept d → s.SameFrame s' d) : s'.byteAt v = s.byteAt v :=
  byteAt_congr hframe fun d hd => hkept d (h.kept_page (pagePath_mem hv) rfl hd)

/-! ## Translation -/

theorem entryFrame_eq {e : ℕ} (he : e < 2 ^ 52) : entryFrame e = e / 4096 * 4096 := by
  unfold entryFrame
  rw [Nat.mod_eq_of_lt (by omega)]

/-- An entry of the tree is empty, or it points to the table or page below. -/
theorem Tables.level (h : s.Tables) {i : ℕ} (hip : i :: q ∈ heapNodes) (hf : s.frame q = some f) :
    (present (s.load64 (f * 4096 + i * 8)) = false ∧ s.frame (i :: q) = none) ∨
    ∃ g, present (s.load64 (f * 4096 + i * 8)) = true ∧
      huge (s.load64 (f * 4096 + i * 8)) = false ∧ s.frame (i :: q) = some g ∧
      pageBase (s.load64 (f * 4096 + i * 8)) = g * 4096 ∧
      entryFrame (s.load64 (f * 4096 + i * 8)) = g * 4096 := by
  rw [frame_cons hf, child, target, load64_entry]
  cases hpres : present (entry s.mem f i) with
  | false => exact .inl ⟨rfl, rfl⟩
  | true =>
    obtain ⟨hhuge, hlt⟩ := h.plain i q f hip hf hpres
    exact .inr ⟨entry s.mem f i / 4096, rfl, hhuge, rfl, rfl, entryFrame_eq hlt⟩

theorem frame_cons_none {i : ℕ} (hf : s.frame q = none) : s.frame (i :: q) = none := by
  rw [frame, frameOf]
  rw [frame] at hf
  rw [hf]
  rfl

/-- The processor finds the page of the tree. -/
theorem Tables.translate (h : s.Tables) (hv : InHeap v) :
    s.translate v = (s.frame (pagePath v)).map fun f => f * 4096 + v % 4096 := by
  have hpath := pagePath_mem hv
  have hpd := tablePath_mem hv
  have hpdp := heapNodes_tail (pdIdx v) _ hpd
  have hpml4 := heapNodes_tail (pdpIdx v) _ hpdp
  have hroot : s.frame [] = some (s.cr3 / 4096) := rfl
  simp only [Vm.translate, entryFrame_eq h.root_lt]
  rcases h.level hpml4 hroot with ⟨hno, hnone⟩ | ⟨g₄, hyes₄, -, hf₄, -, hbase₄⟩
  · have hpage : s.frame (pagePath v) = none :=
      frame_cons_none (frame_cons_none (frame_cons_none hnone))
    simp [hno, hpage]
  simp only [hyes₄, hbase₄]
  rcases h.level hpdp hf₄ with ⟨hno, hnone⟩ | ⟨g₃, hyes₃, hhuge₃, hf₃, -, hbase₃⟩
  · have hpage : s.frame (pagePath v) = none := frame_cons_none (frame_cons_none hnone)
    simp [hno, hpage]
  simp only [hyes₃, hhuge₃, hbase₃]
  rcases h.level hpd hf₃ with ⟨hno, hnone⟩ | ⟨g₂, hyes₂, hhuge₂, hf₂, -, hbase₂⟩
  · have hpage : s.frame (pagePath v) = none := frame_cons_none hnone
    simp [hno, hpage]
  simp only [hyes₂, hhuge₂, hbase₂]
  rcases h.level hpath hf₂ with ⟨hno, hnone⟩ | ⟨g₁, hyes₁, -, hf₁, -, hbase₁⟩
  · have hpage : s.frame (pagePath v) = none := hnone
    simp [hno, hpage]
  · have hpage : s.frame (pagePath v) = some g₁ := hf₁
    simp [hyes₁, hbase₁, hpage]

/-- Unmapping empties the entry of the page and returns its frame. -/
theorem Tables.pagingUnmap (h : s.Tables) (hv : InHeap v) :
    (s.frame (pagePath v) = none ∧ s.pagingUnmap v = (0, s)) ∨
    ∃ f d, s.frame (tablePath v) = some f ∧ s.frame (pagePath v) = some d ∧
      s.pagingUnmap v = (d * 4096, s.store64 (f * 4096 + ptIdx v * 8) 0) := by
  have hpath := pagePath_mem hv
  have hpd := tablePath_mem hv
  have hpdp := heapNodes_tail (pdIdx v) _ hpd
  have hpml4 := heapNodes_tail (pdpIdx v) _ hpdp
  have hroot : s.frame [] = some (s.cr3 / 4096) := rfl
  simp only [Vm.pagingUnmap, show pageBase s.cr3 = s.cr3 / 4096 * 4096 from rfl]
  rcases h.level hpml4 hroot with ⟨hno, hnone⟩ | ⟨g₄, hyes₄, -, hf₄, hbase₄, -⟩
  · exact .inl ⟨frame_cons_none (frame_cons_none (frame_cons_none hnone)), by simp [hno]⟩
  simp only [hyes₄, hbase₄]
  rcases h.level hpdp hf₄ with ⟨hno, hnone⟩ | ⟨g₃, hyes₃, hhuge₃, hf₃, hbase₃, -⟩
  · exact .inl ⟨frame_cons_none (frame_cons_none hnone), by simp [hno]⟩
  simp only [hyes₃, hhuge₃, hbase₃]
  rcases h.level hpd hf₃ with ⟨hno, hnone⟩ | ⟨g₂, hyes₂, hhuge₂, hf₂, hbase₂, -⟩
  · exact .inl ⟨frame_cons_none hnone, by simp [hno]⟩
  simp only [hyes₂, hhuge₂, hbase₂]
  rcases h.level hpath hf₂ with ⟨hno, hnone⟩ | ⟨g₁, hyes₁, -, hf₁, hbase₁, -⟩
  · exact .inl ⟨hnone, by simp [hno]⟩
  · exact .inr ⟨g₂, g₁, hf₂, hf₁, by simp [hyes₁, hbase₁]⟩

/-! ## Faults -/

/-- A page is taken from the allocator; the tree is not affected. -/
theorem Tables.allocFrame (h : s.Tables) (hlt : g < s.pmm.totalPages)
    (hfree : s.pmm.bitmap g = false) :
    let s' : Vm := { s with pmm := s.pmm.take g 1 }
    s'.Tables ∧ s'.Kept g ∧ ∀ d, s.Kept d → s'.Kept d := by
  intro s'
  have hbit : ∀ e, s.pmm.bitmap e = true → s'.pmm.bitmap e = true := by
    intro e he
    simp only [s', Pmm.take, he, ite_self]
  obtain ⟨htables, -⟩ := h.congr (show s'.cr3 = s.cr3 from rfl) rfl hbit fun _ _ _ _ _ => rfl
  refine ⟨htables, ⟨?_, ?_⟩, ?_⟩
  · intro _
    simp [s', Pmm.take]
  · intro q hq _ hqg
    exact h.not_free hq hqg hlt hfree rfl
  · intro d hd
    exact ⟨fun hl => hbit d (hd.1 hl), hd.2⟩

/-- A page outside the tree is zeroed. -/
theorem Tables.clearFrame (h : s.Tables) (hnot : ∀ q ∈ heapNodes, s.frame q ≠ some g) :
    let s' : Vm := { s with mem := clear s.mem (g * 4096) 4096 }
    s'.Tables ∧ (∀ q ∈ heapNodes, s'.frame q = s.frame q) ∧ (∀ d, s.Kept d → s'.Kept d) ∧
      ∀ d, d ≠ g → s.SameFrame s' d := by
  intro s'
  have hentry : ∀ i q e, i :: q ∈ heapNodes → s.frame q = some e →
      entry s'.mem e i = entry s.mem e i := by
    intro i q e hq he
    have heg : e ≠ g := fun hc => hnot q (heapNodes_tail i q hq) (hc ▸ he)
    simp only [s', entry_clear (heapNodes_index hq), if_neg heg]
  obtain ⟨htables, hframe⟩ := h.congr (show s'.cr3 = s.cr3 from rfl) rfl (fun _ he => he) hentry
  refine ⟨htables, hframe, ?_, ?_⟩
  · intro d hd
    refine ⟨hd.1, ?_⟩
    intro q hq hl
    rw [hframe q hq]
    exact hd.2 q hq hl
  · intro d hd k hk
    exact if_neg (by omega)

/-- A page is taken from the allocator and zeroed. -/
theorem Tables.takePage (h : s.Tables) (hlt : g < s.pmm.totalPages)
    (hfree : s.pmm.bitmap g = false) :
    let s' : Vm := { s with mem := clear s.mem (g * 4096) 4096, pmm := s.pmm.take g 1 }
    s'.Tables ∧ (∀ q ∈ heapNodes, s'.frame q = s.frame q) ∧ s'.Kept g ∧
      ∀ d, s.Kept d → s.SameFrame s' d := by
  intro s'
  obtain ⟨htaken, hkept, -⟩ := h.allocFrame hlt hfree
  have hnot : ∀ q ∈ heapNodes, s.frame q ≠ some g := fun q hq hg => h.not_free hq hg hlt hfree rfl
  obtain ⟨hcleared, hframe, hkeep, hsame⟩ := htaken.clearFrame hnot
  refine ⟨hcleared, hframe, hkeep g hkept, ?_⟩
  intro d hd
  apply hsame
  rintro rfl
  rw [hd.1 hlt] at hfree
  exact absurd hfree (by simp)

theorem inHeap_pageBase (hv : InHeap v) : InHeap (pageBase v) := by
  obtain ⟨h1, h2⟩ := hv
  unfold InHeap pageBase vmmHeapEnd vmmHeapBase vmmHeapSize at *
  omega

theorem pagePath_pageBase (v : ℕ) : pagePath (pageBase v) = pagePath v := by
  apply path_eq_of_page
  unfold pageBase
  omega

/-- The entry that a fault stores for frame `d`. -/
theorem demand_entry (d : ℕ) :
    pageBase (d * 4096) ||| (ptePresent ||| pteWritable) = d * 4096 + 3 := by
  rw [pageBase, Nat.mul_div_cancel _ (by norm_num)]
  exact entry_flags d

/-- A page outside the tree is mapped at an address of the heap, which moves nothing else. -/
theorem Tables.mapPage (h : s.Tables) (hv : InHeap v) (hmax : d < maxPages) (hkept : s.Kept d)
    (hfresh : ∀ p ∈ heapNodes, p.length = 4 → s.frame p ≠ some d)
    (hs : s.pagingMap (pageBase v) (d * 4096) (ptePresent ||| pteWritable) = some s') :
    s'.Tables ∧ s'.heapNext = s.heapNext ∧
      (∀ p ∈ heapNodes, p.length = 4 →
        s'.frame p = if p = pagePath v then some d else s.frame p) ∧
      ∀ e, s.Kept e → s'.Kept e ∧ s.SameFrame s' e := by
  have hv' := inHeap_pageBase hv
  obtain ⟨u, f, hgrows, hf, rfl⟩ := h.pagingMap hv' hs
  have hlt : d * 4096 + 3 < 2 ^ 52 := by
    unfold maxPages at hmax
    omega
  rw [demand_entry]
  obtain ⟨hfinal, hframe, hsame⟩ := hgrows.tables.setPage hv' hf
    (show d * 4096 + 3 < 2 ^ 64 by omega) (fun _ => ⟨huge_flags d, hlt⟩)
    (by
      intro e hde
      rw [target_flags] at hde
      obtain rfl := Option.some.inj hde
      exact (hgrows.kept d hkept).1)
    (by
      intro e hde p hp hl hpe
      rw [target_flags] at hde
      obtain rfl := Option.some.inj hde
      rw [hgrows.pages p hp hl] at hpe
      exact hfresh p hp hl hpe)
  refine ⟨hfinal, hgrows.heapNext_eq, ?_, ?_⟩
  · intro p hp hl
    rw [hframe p hp, pagePath_pageBase, target_flags, hgrows.pages p hp hl]
  · intro e he
    obtain ⟨hku, hsu⟩ := hgrows.kept e he
    refine ⟨⟨hku.1, ?_⟩, fun k hk => (hsame e hku k hk).trans (hsu k hk)⟩
    intro q hq hl
    rw [hframe q hq, if_neg]
    · exact hku.2 q hq hl
    · rintro rfl
      exact absurd hl (by simp [pagePath])

/-- A fault on an address of the heap maps a page there and changes no byte. -/
theorem Tables.vmmDemandPage (h : s.Tables) (hv : InHeap v) (hnone : s.frame (pagePath v) = none)
    {rc : ℤ} (hs : s.vmmDemandPage v = some (rc, s')) :
    rc = 0 ∧ s'.Tables ∧ s'.heapNext = s.heapNext ∧ (∃ d, s'.frame (pagePath v) = some d) ∧
      ∀ w, InHeap w → s'.byteAt w = s.byteAt w := by
  have hrange : ¬ (v < vmmHeapBase ∨ vmmHeapEnd ≤ v) := by
    have := hv.1
    have := hv.2
    omega
  obtain ⟨hout, -⟩ | ⟨rfl, d, -, hlt, hfree, ht⟩ := vmmDemandPage_cases hs
  · exact absurd hout hrange
  obtain ⟨htables, hframe, hkept, hsame⟩ := h.takePage hlt hfree
  have hnew : ∀ p ∈ heapNodes, p.length = 4 → Vm.frame { s with
      mem := clear s.mem (d * 4096) 4096
      pmm := s.pmm.take d 1 } p ≠ some d := by
    intro p hp _
    rw [hframe p hp]
    exact fun hpd => h.not_free hp hpd hlt hfree rfl
  obtain ⟨hfinal, hnext, hpages, hkeep⟩ := htables.mapPage hv (lt_of_lt_of_le hlt h.total_le)
    hkept hnew ht
  have hmapped := hpages _ (pagePath_mem hv) rfl
  rw [if_pos rfl] at hmapped
  refine ⟨rfl, hfinal, hnext, ⟨d, hmapped⟩, ?_⟩
  intro w hw
  have hwpath := pagePath_mem hw
  by_cases hwv : pagePath w = pagePath v
  · -- the fresh page is zero, as the missing one was
    have hk : w % 4096 < 4096 := Nat.mod_lt _ (by norm_num)
    rw [← hwv] at hnone hmapped
    rw [byteAt_unmapped hnone, byteAt_mapped hmapped, (hkeep d hkept).2 _ hk]
    exact if_pos (by omega)
  · have hkeepframe := hpages _ hwpath rfl
    rw [if_neg hwv] at hkeepframe
    rw [htables.byteAt_eq hw hkeepframe fun e he => (hkeep e he).2,
      h.byteAt_eq hw (hframe _ hwpath) hsame]

/-! ## Loads and stores -/

theorem Tables.access (h : s.Tables) (hv : InHeap v) {a : ℕ} (hs : s.access v = some (a, s')) :
    s'.Tables ∧ s'.heapNext = s.heapNext ∧
      (∃ d, s'.frame (pagePath v) = some d ∧ a = d * 4096 + v % 4096) ∧
      ∀ w, InHeap w → s'.byteAt w = s.byteAt w := by
  have htranslate := h.translate hv
  unfold Vm.access at hs
  cases hf : s.frame (pagePath v) with
  | some d =>
    rw [hf] at htranslate
    rw [htranslate] at hs
    obtain ⟨rfl, rfl⟩ := Prod.mk.inj (Option.some.inj hs)
    exact ⟨h, rfl, ⟨d, hf, rfl⟩, fun _ _ => rfl⟩
  | none =>
    rw [hf] at htranslate
    rw [htranslate] at hs
    obtain ⟨⟨rc, t⟩, ht, hs⟩ := Option.bind_eq_some_iff.mp hs
    obtain ⟨rfl, htables, hnext, ⟨d, hd⟩, hbytes⟩ := h.vmmDemandPage hv hf ht
    dsimp only at hs
    rw [if_pos rfl, htables.translate hv, hd] at hs
    obtain ⟨rfl, rfl⟩ := Prod.mk.inj (Option.some.inj hs)
    exact ⟨htables, hnext, ⟨d, hd, rfl⟩, hbytes⟩

/-- An access fails only when the page is missing and no page is left for it. -/
theorem Tables.access_none (h : s.Tables) (hv : InHeap v) (hs : s.access v = none) :
    s.translate v = none ∧ s.vmmDemandPage v = none := by
  unfold Vm.access at hs
  split at hs
  · exact absurd hs (by simp)
  · rename_i hmiss
    refine ⟨hmiss, ?_⟩
    cases hd : s.vmmDemandPage v with
    | none => rfl
    | some r =>
      obtain ⟨rc, t⟩ := r
      have hf : s.frame (pagePath v) = none := by
        rw [h.translate hv] at hmiss
        exact Option.map_eq_none_iff.mp hmiss
      obtain ⟨rfl, htables, -, ⟨d, hd'⟩, -⟩ := h.vmmDemandPage hv hf hd
      rw [hd, Option.bind_some] at hs
      dsimp only at hs
      rw [if_pos rfl, htables.translate hv, hd'] at hs
      exact absurd hs (by simp)

/-- A load returns the byte of the heap and changes none. -/
theorem Tables.loadByte (h : s.Tables) (hv : InHeap v) {x : UInt8}
    (hs : s.loadByte v = some (x, s')) : x = s.byteAt v ∧ s'.Tables ∧
      s'.heapNext = s.heapNext ∧ ∀ w, InHeap w → s'.byteAt w = s.byteAt w := by
  obtain ⟨⟨a, t⟩, ht, he⟩ := Option.map_eq_some_iff.mp hs
  obtain ⟨rfl, rfl⟩ := Prod.mk.inj he
  obtain ⟨htables, hnext, ⟨d, hd, rfl⟩, hbytes⟩ := h.access hv ht
  refine ⟨?_, htables, hnext, hbytes⟩
  rw [← hbytes v hv, byteAt_mapped hd]

/-- A byte of a page of the heap is stored; the tree is not affected. -/
theorem Tables.storePage (h : s.Tables) (hv : InHeap v) (hd : s.frame (pagePath v) = some d)
    {k : ℕ} (hk : k < 4096) (x : UInt8) :
    let s' : Vm := { s with mem := Function.update s.mem (d * 4096 + k) x }
    s'.Tables ∧ ∀ q ∈ heapNodes, s'.frame q = s.frame q := by
  intro s'
  have hentry : ∀ i q e, i :: q ∈ heapNodes → s.frame q = some e →
      entry s'.mem e i = entry s.mem e i := by
    intro i q e hq he
    have hne : e ≠ d := by
      rintro rfl
      have hlen := heapNodes_length hq
      rw [h.separate q (heapNodes_tail i q hq) _ (pagePath_mem hv) e he hd] at hlen
      simp [pagePath] at hlen
    exact entry_update (heapNodes_index hq) hk hne
  exact h.congr (show s'.cr3 = s.cr3 from rfl) rfl (fun _ he => he) hentry

/-- A store changes the one byte. -/
theorem Tables.storeByte (h : s.Tables) (hv : InHeap v) {x : UInt8}
    (hs : s.storeByte v x = some s') : s'.Tables ∧ s'.heapNext = s.heapNext ∧
      ∀ w, InHeap w → s'.byteAt w = if w = v then x else s.byteAt w := by
  obtain ⟨⟨a, t⟩, ht, rfl⟩ := Option.map_eq_some_iff.mp hs
  obtain ⟨htables, hnext, ⟨d, hd, rfl⟩, hbytes⟩ := h.access hv ht
  have hk : v % 4096 < 4096 := Nat.mod_lt _ (by norm_num)
  obtain ⟨hstored, hframe⟩ := htables.storePage hv hd hk x
  refine ⟨hstored, hnext, ?_⟩
  intro w hw
  rw [← hbytes w hw]
  have hwframe := hframe _ (pagePath_mem hw)
  cases hf : t.frame (pagePath w) with
  | none =>
    have hne : w ≠ v := by
      rintro rfl
      rw [hd] at hf
      exact absurd hf (by simp)
    rw [if_neg hne, byteAt_unmapped hf, byteAt_unmapped (hwframe.trans hf)]
  | some e =>
    rw [byteAt_mapped hf, byteAt_mapped (hwframe.trans hf)]
    by_cases hwv : w = v
    · subst hwv
      rw [if_pos rfl, ← Option.some.inj (hd.symm.trans hf)]
      exact Function.update_self _ _ _
    · have haddr : e * 4096 + w % 4096 ≠ d * 4096 + v % 4096 := by
        intro haddr
        -- one frame belongs to one page, where the offsets differ
        have hed : e = d := by omega
        rw [hed] at hf
        have hpage := page_eq_of_path hw hv
          (htables.separate _ (pagePath_mem hw) _ (pagePath_mem hv) d hf hd)
        omega
      rw [if_neg hwv]
      show Function.update t.mem (d * 4096 + v % 4096) x (e * 4096 + w % 4096) = _
      rw [Function.update_of_ne haddr]

/-! ## Unmapping -/

theorem target_zero : target 0 = none := by decide

theorem Tables.frame_lt (h : s.Tables) {i : ℕ} (hip : i :: q ∈ heapNodes)
    (hf : s.frame (i :: q) = some d) : d < 2 ^ 40 := by
  obtain ⟨e, he, hchild⟩ := frameOf_tail hf
  rw [child, target] at hchild
  split at hchild
  · rename_i hpres
    have hlt := (h.plain i q e hip he hpres).2
    have hd := Option.some.inj hchild
    omega
  · exact absurd hchild (by simp)

/-- A frame that is no longer in the tree goes to the allocator. -/
theorem Tables.freeFrame (h : s.Tables) (hlt : d < 2 ^ 40)
    (hnot : ∀ q ∈ heapNodes, s.frame q ≠ some d) :
    Tables { s with pmm := s.pmm.pmmFreePages (d * 4096) 1 } := by
  rw [Pmm.pmmFreePages_one _ (by omega)]
  split
  · refine ⟨h.separate, ?_, h.plain, h.root_lt, ?_⟩
    · intro q hq e he hl
      have hed : e ≠ d := by
        rintro rfl
        exact hnot q hq he
      dsimp only at hl ⊢
      rw [Pmm.freePage_totalPages] at hl
      rw [Pmm.freePage_bitmap, if_neg hed]
      exact h.used q hq e he hl
    · dsimp only
      rw [Pmm.freePage_totalPages]
      exact h.total_le
  · exact h

/-- Unmapping a page takes it out of the tree and frees its frame. -/
theorem Tables.unmapFrame (h : s.Tables) (hv : InHeap v) :
    (s.unmapPage v).Tables ∧ (s.unmapPage v).heapNext = s.heapNext ∧
      (∀ q ∈ heapNodes, (s.unmapPage v).frame q = if q = pagePath v then none else s.frame q) ∧
      (∀ e, s.Kept e → s.SameFrame (s.unmapPage v) e) ∧
      ∀ e, s.Kept e → s.frame (pagePath v) ≠ some e → (s.unmapPage v).Kept e := by
  rcases h.pagingUnmap hv with ⟨hnone, hun⟩ | ⟨f, d, hf, hd, hun⟩
  · simp only [Vm.unmapPage, hun, if_true]
    refine ⟨h, trivial, ?_, fun _ _ _ _ => rfl, fun _ he _ => he⟩
    intro q _
    split
    next hq => rw [hq, hnone]
    next => rfl
  · obtain ⟨htables, hframe, hsame⟩ := h.setPage hv hf (show 0 < 2 ^ 64 by norm_num)
      (fun hp => absurd hp (by decide)) (fun e he => absurd he (by simp [target_zero]))
      (fun e he => absurd he (by simp [target_zero]))
    simp only [target_zero] at hframe
    have hgone : ∀ q ∈ heapNodes, (s.store64 (f * 4096 + ptIdx v * 8) 0).frame q ≠ some d := by
      intro q hq hqd
      rw [hframe q hq] at hqd
      split at hqd
      · exact absurd hqd (by simp)
      · rename_i hqv
        exact hqv (h.separate q hq _ (pagePath_mem hv) d hqd hd)
    have htable (e : ℕ) (he : s.Kept e) : ∀ q ∈ heapNodes, q.length < 4 →
        (s.store64 (f * 4096 + ptIdx v * 8) 0).frame q ≠ some e := by
      intro q hq hl
      rw [hframe q hq]
      split
      · simp
      · exact he.2 q hq hl
    have hdlt := h.frame_lt (pagePath_mem hv) hd
    simp only [Vm.unmapPage, hun]
    split
    · exact ⟨htables, rfl, hframe, hsame, fun e he _ => ⟨he.1, htable e he⟩⟩
    · refine ⟨htables.freeFrame hdlt hgone, rfl, hframe, hsame, ?_⟩
      intro e he hed
      refine ⟨?_, htable e he⟩
      have hne : e ≠ d := fun hc => hed (hc ▸ hd)
      show e < ((s.store64 _ 0).pmm.pmmFreePages (d * 4096) 1).totalPages →
        ((s.store64 _ 0).pmm.pmmFreePages (d * 4096) 1).bitmap e = true
      rw [Pmm.pmmFreePages_one _ (by omega)]
      split
      · rw [Pmm.freePage_totalPages, Pmm.freePage_bitmap, if_neg hne]
        exact he.1
      · exact he.1

/-- Unmapping a page makes its bytes zero. -/
theorem Tables.unmapPage (h : s.Tables) (hv : InHeap v) :
    (s.unmapPage v).Tables ∧ (s.unmapPage v).heapNext = s.heapNext ∧
      ∀ w, InHeap w → (s.unmapPage v).byteAt w = if w / 4096 = v / 4096 then 0 else s.byteAt w := by
  obtain ⟨htables, hnext, hframe, hsame, -⟩ := h.unmapFrame hv
  refine ⟨htables, hnext, ?_⟩
  intro w hw
  have hwframe := hframe _ (pagePath_mem hw)
  split
  · rename_i hpage
    rw [if_pos (path_eq_of_page hpage)] at hwframe
    exact byteAt_unmapped hwframe
  · rename_i hpage
    rw [if_neg fun he => hpage (page_eq_of_path hw hv he)] at hwframe
    exact h.byteAt_eq hw hwframe hsame

/-- Unmapping pages of the heap makes them zero. -/
theorem Tables.unmapPages {addr n : ℕ} (h : s.Tables) (haddr : addr % 4096 = 0)
    (hheap : ∀ i < n, InHeap (addr + i * 4096)) :
    (unmapPages addr n s).Tables ∧ (unmapPages addr n s).heapNext = s.heapNext ∧
      ∀ w, InHeap w → (unmapPages addr n s).byteAt w =
        if addr ≤ w ∧ w < addr + n * 4096 then 0 else s.byteAt w := by
  induction n generalizing addr s with
  | zero =>
    refine ⟨h, rfl, ?_⟩
    intro w hw
    rw [if_neg (by omega)]
    rfl
  | succ n ih =>
    obtain ⟨htables, hnext, hbytes⟩ := h.unmapPage (by simpa using hheap 0 (by omega))
    have hheap' : ∀ i < n, InHeap (addr + 4096 + i * 4096) := by
      intro i hi
      have hstep := hheap (i + 1) (by omega)
      rwa [show addr + (i + 1) * 4096 = addr + 4096 + i * 4096 by omega] at hstep
    obtain ⟨htables', hnext', hbytes'⟩ := ih htables (by omega) hheap'
    refine ⟨htables', hnext'.trans hnext, ?_⟩
    intro w hw
    rw [Vm.unmapPages, hbytes' w hw, hbytes w hw]
    split <;> split <;> first | rfl | (split <;> first | rfl | omega) | omega

end
end Vm
end Ggmk

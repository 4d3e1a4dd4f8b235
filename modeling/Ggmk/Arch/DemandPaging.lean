import Ggmk.Lib.Tally
import Ggmk.Arch.HeapBlocks

/-! Demand paging on several CPUs, whose handlers of not-present faults take their steps in any
order. Nothing keeps two of them from handling a fault on one page. -/
namespace Ggmk
open Word ByteMem PageTree Guarded

instance (virt : ℕ) : Decidable (InHeap virt) := inferInstanceAs (Decidable (_ ∧ _))

/-- Where a CPU is in the handler, named by the step it has just taken. -/
inductive FaultPc where
  | idle
  | faulted (virt : ℕ)
  | allocated (virt phys : ℕ)
  | zeroed (virt phys : ℕ)
  deriving DecidableEq

namespace FaultPc

/-- The address of the fault. -/
def virt? : FaultPc → Option ℕ
  | .idle => none
  | .faulted virt | .allocated virt _ | .zeroed virt _ => some virt

/-- The page that was taken for it. -/
def phys? : FaultPc → Option ℕ
  | .idle | .faulted _ => none
  | .allocated _ phys | .zeroed _ phys => some phys

/-- One while the CPU has a page that it has not mapped. -/
def holds (pc : FaultPc) : ℕ := if pc.phys?.isSome then 1 else 0

end FaultPc

/-- `taken` and `unmapped` are the history of the pages that faults have taken and of those that
were unmapped. -/
structure DemandRun (n : ℕ) where
  vm : Vm
  cpu : Fin n → FaultPc
  halted : Bool
  taken : ℕ
  unmapped : ℕ

inductive DemandAct (n : ℕ) where
  | fault (i : Fin n) (virt : ℕ)
  | alloc (i : Fin n)
  | zero (i : Fin n)
  | map (i : Fin n)
  | unmap (virt : ℕ)

/-- The action unmaps the page of `virt`. -/
def DemandAct.Unmaps {n : ℕ} (virt : ℕ) : DemandAct n → Prop
  | .unmap w => w / 4096 = virt / 4096
  | _ => False

/-- The pages of the heap that the processor finds mapped. -/
def mappedPages (vm : Vm) : Finset ℕ :=
  (Finset.range (vmmHeapSize / 4096)).filter fun k =>
    (vm.translate (vmmHeapBase + k * 4096)).isSome

/-! ## Counting the mapped pages -/

/-- The number of an address's page in the heap. -/
def heapPage (virt : ℕ) : ℕ := (virt - vmmHeapBase) / 4096

theorem inHeap_page {k : ℕ} (hk : k < vmmHeapSize / 4096) : InHeap (vmmHeapBase + k * 4096) := by
  unfold vmmHeapSize at hk
  unfold InHeap vmmHeapEnd vmmHeapBase vmmHeapSize
  omega

theorem heapPage_lt {v : ℕ} (hv : InHeap v) : heapPage v < vmmHeapSize / 4096 := by
  obtain ⟨h1, h2⟩ := hv
  unfold heapPage
  unfold vmmHeapEnd vmmHeapBase vmmHeapSize at *
  omega

theorem pagePath_heapPage {v k : ℕ} (hv : InHeap v) (hk : k < vmmHeapSize / 4096) :
    pagePath (vmmHeapBase + k * 4096) = pagePath v ↔ k = heapPage v := by
  have hpages : (vmmHeapBase + k * 4096) / 4096 = v / 4096 ↔ k = heapPage v := by
    obtain ⟨h1, h2⟩ := hv
    unfold heapPage
    unfold vmmHeapEnd vmmHeapBase vmmHeapSize at *
    omega
  rw [← hpages]
  exact ⟨page_eq_of_path (inHeap_page hk) hv, path_eq_of_page⟩

namespace Vm
variable {s s' : Vm}

theorem Tables.card_mappedPages (h : s.Tables) : (mappedPages s).card =
    ∑ k ∈ Finset.range (vmmHeapSize / 4096),
      if (s.frame (pagePath (vmmHeapBase + k * 4096))).isSome then 1 else 0 := by
  rw [mappedPages, Finset.card_filter]
  apply Finset.sum_congr rfl
  intro k hk
  rw [h.translate (inHeap_page (Finset.mem_range.mp hk)), Option.isSome_map]

/-- One page of the heap is mapped, moved or unmapped. -/
theorem Tables.card_mappedPages_set (h : s.Tables) (h' : s'.Tables) {v : ℕ} (hv : InHeap v)
    {c : Option ℕ} (hframe : ∀ p ∈ heapNodes, p.length = 4 →
      s'.frame p = if p = pagePath v then c else s.frame p) :
    (mappedPages s').card + (if (s.frame (pagePath v)).isSome then 1 else 0) =
      (mappedPages s).card + if c.isSome then 1 else 0 := by
  set f : ℕ → Option ℕ := fun k => s.frame (pagePath (vmmHeapBase + k * 4096)) with hf
  have hpage : f (heapPage v) = s.frame (pagePath v) := by
    rw [hf]
    dsimp only
    rw [(pagePath_heapPage hv (heapPage_lt hv)).mpr rfl]
  have hupdate : ∀ k ∈ Finset.range (vmmHeapSize / 4096),
      s'.frame (pagePath (vmmHeapBase + k * 4096)) = Function.update f (heapPage v) c k := by
    intro k hk
    have hk := Finset.mem_range.mp hk
    rw [hframe _ (pagePath_mem (inHeap_page hk)) rfl, Function.update_apply]
    simp only [pagePath_heapPage hv hk, hf]
  have hsum := Tally.sum_update_add (Finset.range (vmmHeapSize / 4096))
    (fun o : Option ℕ => if o.isSome then 1 else 0) f (Finset.mem_range.mpr (heapPage_lt hv)) c
  rw [hpage] at hsum
  have hsame : (mappedPages s').card = ∑ k ∈ Finset.range (vmmHeapSize / 4096),
      if (Function.update f (heapPage v) c k).isSome then 1 else 0 := by
    rw [h'.card_mappedPages]
    apply Finset.sum_congr rfl
    intro k hk
    rw [hupdate k hk]
  rw [hsame, h.card_mappedPages, ← hsum]

/-- A frame that is in use and not in the tree of the heap. -/
def Spare (s : Vm) (d : ℕ) : Prop := s.Kept d ∧ ∀ q ∈ heapNodes, s.frame q ≠ some d

end Vm

namespace DemandRun
variable {n : ℕ}

def setCpu (s : DemandRun n) (i : Fin n) (pc : FaultPc) : DemandRun n :=
  { s with cpu := Function.update s.cpu i pc }

/-- A CPU that is not at the step leaves the state; without memory the kernel panics. -/
def step (s : DemandRun n) (a : DemandAct n) : DemandRun n :=
  if s.halted then s
  else
    match a with
    | .fault i virt =>
        if s.cpu i = .idle ∧ InHeap virt ∧ s.vm.translate virt = none then
          s.setCpu i (.faulted virt)
        else s
    | .alloc i =>
        match s.cpu i with
        | .faulted virt =>
            let (phys, pmm) := s.vm.pmm.pmmAllocPages 1
            if phys = 0 then { s with halted := true }
            else
              { s with vm := { s.vm with pmm := pmm }, taken := s.taken + 1 }.setCpu i
                (.allocated virt phys)
        | _ => s
    | .zero i =>
        match s.cpu i with
        | .allocated virt phys =>
            { s with vm := { s.vm with mem := clear s.vm.mem phys 4096 } }.setCpu i
              (.zeroed virt phys)
        | _ => s
    | .map i =>
        match s.cpu i with
        | .zeroed virt phys =>
            match s.vm.pagingMap (pageBase virt) phys (ptePresent ||| pteWritable) with
            | some vm => { s with vm := vm }.setCpu i .idle
            | none => { s with halted := true }
        | _ => s
    | .unmap virt =>
        if InHeap virt then
          { s with
            vm := s.vm.unmapPage virt
            unmapped := s.unmapped + if (s.vm.translate virt).isSome then 1 else 0 }
        else s

def start (n : ℕ) (vm : Vm) : DemandRun n where
  vm := vm
  cpu _ := .idle
  halted := false
  taken := 0
  unmapped := 0

abbrev Run (guard : DemandRun n → DemandAct n → Prop) : DemandRun n → DemandRun n → Prop :=
  Reach (fun s a s' => s' = s.step a) guard

/-- A mapped page keeps its frame until it is unmapped, and once the handlers have returned there
is a mapped page for each page that a fault has taken and that was not unmapped. -/
structure Sound (guard : DemandRun n → DemandAct n → Prop) (s : DemandRun n) : Prop where
  stays : ∀ virt a, InHeap virt → s.vm.translate virt = some a →
    ∀ s', Run (fun t x => guard t x ∧ ¬ x.Unmaps virt) s s' → s'.vm.translate virt = some a
  counted : (∀ i, s.cpu i = .idle) → s.taken = (mappedPages s.vm).card + s.unmapped

/-- No other CPU handles a fault on the page when a fault is taken. -/
def Alone (s : DemandRun n) : DemandAct n → Prop
  | .fault _ virt => ∀ j, ∀ w ∈ (s.cpu j).virt?, w / 4096 ≠ virt / 4096
  | _ => True

instance (s : DemandRun n) : DecidablePred s.Alone
  | .fault _ _ => inferInstanceAs (Decidable (∀ j, ∀ w ∈ (s.cpu j).virt?, _))
  | .alloc _ | .zero _ | .map _ | .unmap _ => .isTrue trivial

/-! ## The invariant -/

/-- What a handler relies on: its page is missing and the frame it took is its own. -/
structure Handles (vm : Vm) (pc : FaultPc) : Prop where
  missing : ∀ v, pc.virt? = some v → InHeap v ∧ vm.frame (pagePath v) = none
  spare : ∀ p, pc.phys? = some p → ∃ d, p = d * 4096 ∧ d < maxPages ∧ vm.Spare d

/-- The handlers are on different pages and have taken different frames. -/
structure Apart (pc pc' : FaultPc) : Prop where
  virt : ∀ v w, pc.virt? = some v → pc'.virt? = some w → v / 4096 ≠ w / 4096
  phys : ∀ p, pc.phys? = some p → pc'.phys? ≠ some p

structure Inv (s : DemandRun n) : Prop where
  tables : s.vm.Tables
  handles : ∀ i, Handles s.vm (s.cpu i)
  apart : ∀ i j, i ≠ j → Apart (s.cpu i) (s.cpu j)
  count : s.taken = (mappedPages s.vm).card + ∑ i, (s.cpu i).holds + s.unmapped

/-- Every page of the heap that is mapped keeps its frame. -/
def Keeps (vm vm' : Vm) : Prop :=
  ∀ v d, InHeap v → vm.frame (pagePath v) = some d → vm'.frame (pagePath v) = some d

theorem Apart.symm {pc pc' : FaultPc} (h : Apart pc pc') : Apart pc' pc where
  virt v w hv hw := (h.virt w v hw hv).symm
  phys p hp hp' := h.phys p hp' hp

theorem handles_idle (vm : Vm) : Handles vm .idle :=
  ⟨fun _ hv => absurd hv (by simp [FaultPc.virt?]), fun _ hp => absurd hp (by simp [FaultPc.phys?])⟩

theorem apart_idle (pc : FaultPc) : Apart .idle pc :=
  ⟨fun _ _ hv => absurd hv (by simp [FaultPc.virt?]), fun _ hp => absurd hp (by simp [FaultPc.phys?])⟩

section Steps
variable {s : DemandRun n} {i : Fin n} {vm : Vm} {virt phys : ℕ}

/-- Handlers go on where the pages they miss and the frames they have are as before. -/
theorem Handles.mono {pc : FaultPc} (h : Handles s.vm pc)
    (hmiss : ∀ v, pc.virt? = some v → s.vm.frame (pagePath v) = none →
      vm.frame (pagePath v) = none)
    (hspare : ∀ d, pc.phys? = some (d * 4096) → s.vm.Spare d → vm.Spare d) : Handles vm pc := by
  constructor
  · intro v hv
    obtain ⟨hheap, hnone⟩ := h.missing v hv
    exact ⟨hheap, hmiss v hv hnone⟩
  · intro p hp
    obtain ⟨d, rfl, hmax, hd⟩ := h.spare p hp
    exact ⟨d, rfl, hmax, hspare d hp hd⟩

/-- CPU `i` moves on. -/
theorem Inv.move (h : s.Inv) (taken : ℕ) (htables : vm.Tables) {pc : FaultPc}
    (hothers : ∀ j, j ≠ i → Handles vm (s.cpu j)) (hself : Handles vm pc)
    (hapart : ∀ j, j ≠ i → Apart pc (s.cpu j))
    (hcount : taken + (s.cpu i).holds + (mappedPages s.vm).card =
      s.taken + pc.holds + (mappedPages vm).card) :
    Inv { s with vm := vm, cpu := Function.update s.cpu i pc, taken := taken } := by
  refine ⟨htables, ?_, ?_, ?_⟩
  · intro j
    by_cases hj : j = i
    · subst hj
      simpa only [Function.update_self] using hself
    · simpa only [Function.update_of_ne hj] using hothers j hj
  · intro j k hjk
    simp only [Function.update_apply]
    split
    next hj =>
      rw [if_neg fun hk => hjk (hj.trans hk.symm)]
      exact hapart k fun hk => hjk (hj.trans hk.symm)
    next hj =>
      split
      next => exact (hapart j hj).symm
      next => exact h.apart j k hjk
  · have hsum := Tally.sum_update_add Finset.univ FaultPc.holds s.cpu (Finset.mem_univ i) pc
    have hold := h.count
    dsimp only
    omega

theorem Inv.fault (h : s.Inv) (hidle : s.cpu i = .idle) (hv : InHeap virt)
    (hmiss : s.vm.translate virt = none)
    (hg : ∀ j, ∀ w ∈ (s.cpu j).virt?, w / 4096 ≠ virt / 4096) :
    (s.setCpu i (.faulted virt)).Inv := by
  have hnone : s.vm.frame (pagePath virt) = none := by
    rw [h.tables.translate hv] at hmiss
    exact Option.map_eq_none_iff.mp hmiss
  refine h.move s.taken h.tables (fun j _ => h.handles j) ⟨?_, ?_⟩ ?_ ?_
  · intro v hv'
    obtain rfl := Option.some.inj hv'
    exact ⟨hv, hnone⟩
  · exact fun _ hp => absurd hp (by simp [FaultPc.phys?])
  · intro j _
    refine ⟨?_, fun _ hp => absurd hp (by simp [FaultPc.phys?])⟩
    intro v w hv' hw
    obtain rfl := Option.some.inj hv'
    exact (hg j w hw).symm
  · rw [hidle]
    rfl

theorem Inv.alloc (h : s.Inv) (hcpu : s.cpu i = .faulted virt) {pmm : Pmm}
    (halloc : s.vm.pmm.pmmAllocPages 1 = (phys, pmm)) (hphys : phys ≠ 0) :
    Inv ({ s with vm := { s.vm with pmm := pmm }, taken := s.taken + 1 }.setCpu i
      (.allocated virt phys)) := by
  obtain ⟨d, rfl, hlt, hfree, rfl⟩ := Pmm.alloc_one halloc hphys
  obtain ⟨htables, hkept, hkeep⟩ := h.tables.allocFrame hlt hfree
  have hnot : ∀ q ∈ heapNodes, s.vm.frame q ≠ some d :=
    fun q hq hd => h.tables.not_free hq hd hlt hfree rfl
  have hself := h.handles i
  have hvirt : (FaultPc.allocated virt (d * 4096)).virt? = (s.cpu i).virt? := by rw [hcpu]; rfl
  refine h.move (s.taken + 1) htables ?_ ⟨?_, ?_⟩ ?_ ?_
  · intro j _
    exact (h.handles j).mono (fun _ _ hnone => hnone) fun e _ he => ⟨hkeep e he.1, he.2⟩
  · intro v hv
    rw [hvirt] at hv
    exact hself.missing v hv
  · intro p hp
    obtain rfl := Option.some.inj hp
    exact ⟨d, rfl, lt_of_lt_of_le hlt h.tables.total_le, hkept, hnot⟩
  · intro j hj
    constructor
    · intro v w hv hw
      rw [hvirt] at hv
      exact (h.apart i j hj.symm).virt v w hv hw
    · intro p hp hp'
      obtain rfl := Option.some.inj hp
      -- a frame that another handler has is not free
      obtain ⟨e, hed, -, he⟩ := (h.handles j).spare _ hp'
      have hde : d = e := by omega
      rw [hde] at hlt hfree
      rw [he.1.1 hlt] at hfree
      exact absurd hfree (by simp)
  · rw [hcpu]
    have hcard : (mappedPages { s.vm with pmm := s.vm.pmm.take d 1 }).card =
        (mappedPages s.vm).card := rfl
    rw [hcard]
    rfl

theorem Inv.zero (h : s.Inv) (hcpu : s.cpu i = .allocated virt phys) :
    Inv ({ s with vm := { s.vm with mem := clear s.vm.mem phys 4096 } }.setCpu i
      (.zeroed virt phys)) ∧ Keeps s.vm { s.vm with mem := clear s.vm.mem phys 4096 } := by
  obtain ⟨d, rfl, -, hspare⟩ := (h.handles i).spare phys (by rw [hcpu]; rfl)
  obtain ⟨htables, hframe, hkeep, -⟩ := h.tables.clearFrame hspare.2
  have hall (j : Fin n) :
      Handles { s.vm with mem := clear s.vm.mem (d * 4096) 4096 } (s.cpu j) := by
    apply (h.handles j).mono
    · intro v hv hnone
      rw [hframe _ (pagePath_mem ((h.handles j).missing v hv).1)]
      exact hnone
    · intro e _ he
      refine ⟨hkeep e he.1, ?_⟩
      intro q hq
      rw [hframe q hq]
      exact he.2 q hq
  have hsame : (FaultPc.zeroed virt (d * 4096)).virt? = (s.cpu i).virt? ∧
      (FaultPc.zeroed virt (d * 4096)).phys? = (s.cpu i).phys? := by
    rw [hcpu]
    exact ⟨rfl, rfl⟩
  constructor
  · refine h.move s.taken htables (fun j _ => hall j) ?_ ?_ ?_
    · have hself := hall i
      exact ⟨fun v hv => hself.missing v (hsame.1 ▸ hv), fun p hp => hself.spare p (hsame.2 ▸ hp)⟩
    · intro j hj
      have hij := h.apart i j hj.symm
      exact ⟨fun v w hv => hij.virt v w (hsame.1 ▸ hv), fun p hp => hij.phys p (hsame.2 ▸ hp)⟩
    · have hcard : (mappedPages { s.vm with mem := clear s.vm.mem (d * 4096) 4096 }).card =
          (mappedPages s.vm).card := by
        rw [htables.card_mappedPages, h.tables.card_mappedPages]
        apply Finset.sum_congr rfl
        intro k hk
        rw [hframe _ (pagePath_mem (inHeap_page (Finset.mem_range.mp hk)))]
      rw [hcard, hcpu]
      rfl
  · intro v e hv he
    rw [hframe _ (pagePath_mem hv)]
    exact he

theorem Inv.map (h : s.Inv) (hcpu : s.cpu i = .zeroed virt phys)
    (hmap : s.vm.pagingMap (pageBase virt) phys (ptePresent ||| pteWritable) = some vm) :
    Inv ({ s with vm := vm }.setCpu i .idle) ∧ Keeps s.vm vm := by
  obtain ⟨hv, hnone⟩ := (h.handles i).missing virt (by rw [hcpu]; rfl)
  obtain ⟨d, rfl, hmax, hspare⟩ := (h.handles i).spare phys (by rw [hcpu]; rfl)
  obtain ⟨htables, -, hpages, hkeep⟩ := h.tables.mapPage hv hmax hspare.1
    (fun p hp _ => hspare.2 p hp) hmap
  constructor
  · refine h.move s.taken htables ?_ (handles_idle _) (fun j _ => apart_idle _) ?_
    · intro j hj
      have hij := h.apart i j hj.symm
      apply (h.handles j).mono
      · intro w hw hwnone
        have hwheap := ((h.handles j).missing w hw).1
        have hne := hij.virt virt w (by rw [hcpu]; rfl) hw
        rw [hpages _ (pagePath_mem hwheap) rfl, if_neg fun he => hne (page_eq_of_path hwheap hv he).symm]
        exact hwnone
      · intro e hej he
        have hde : d ≠ e := by
          rintro rfl
          exact hij.phys (d * 4096) (by rw [hcpu]; rfl) hej
        have hkept := (hkeep e he.1).1
        refine ⟨hkept, ?_⟩
        intro q hq
        rcases Nat.lt_or_ge q.length 4 with hl | hl
        · exact hkept.2 q hq hl
        · rw [hpages q hq (le_antisymm (heapNodes_length hq) hl)]
          split
          next => exact fun hc => hde (Option.some.inj hc)
          next => exact he.2 q hq
    · have hcard := h.tables.card_mappedPages_set htables hv hpages
      rw [hnone] at hcard
      rw [hcpu]
      simp only [FaultPc.holds, FaultPc.phys?, Option.isSome_some, Option.isSome_none, if_true,
        Bool.false_eq_true, if_false] at hcard ⊢
      omega
  · intro v e hv' he
    rw [hpages _ (pagePath_mem hv') rfl, if_neg]
    · exact he
    · intro hpath
      rw [hpath, hnone] at he
      exact absurd he (by simp)

theorem Inv.unmap (h : s.Inv) (hv : InHeap virt) :
    Inv { s with
      vm := s.vm.unmapPage virt
      unmapped := s.unmapped + if (s.vm.translate virt).isSome then 1 else 0 } ∧
    ∀ v d, InHeap v → v / 4096 ≠ virt / 4096 → s.vm.frame (pagePath v) = some d →
      (s.vm.unmapPage virt).frame (pagePath v) = some d := by
  obtain ⟨htables, -, hframe, -, hkeep⟩ := h.tables.unmapFrame hv
  refine ⟨⟨htables, ?_, h.apart, ?_⟩, ?_⟩
  · intro j
    apply (h.handles j).mono
    · intro w hw hnone
      rw [hframe _ (pagePath_mem ((h.handles j).missing w hw).1), hnone, ite_self]
    · intro e _ he
      refine ⟨hkeep e he.1 (he.2 _ (pagePath_mem hv)), ?_⟩
      intro q hq
      rw [hframe q hq]
      split
      next => simp
      next => exact he.2 q hq
  · have hcard := h.tables.card_mappedPages_set htables hv fun p hp _ => hframe p hp
    have hold := h.count
    rw [h.tables.translate hv, Option.isSome_map]
    simp only [Option.isSome_none, Bool.false_eq_true, if_false] at hcard ⊢
    omega
  · intro v d hv' hne hd
    rw [hframe _ (pagePath_mem hv'), if_neg fun he => hne (page_eq_of_path hv' hv he)]
    exact hd

/-- A step keeps the invariant, and every mapping that it does not remove. -/
theorem Inv.step (h : s.Inv) {a : DemandAct n} (hg : s.Alone a) : (s.step a).Inv ∧
    ∀ v d, InHeap v → ¬ a.Unmaps v → s.vm.frame (pagePath v) = some d →
      (s.step a).vm.frame (pagePath v) = some d := by
  have hstay : s.Inv ∧ ∀ v d, InHeap v → ¬ a.Unmaps v → s.vm.frame (pagePath v) = some d →
      s.vm.frame (pagePath v) = some d := ⟨h, fun _ _ _ _ hd => hd⟩
  have hhalt : Inv { s with halted := true } := ⟨h.tables, h.handles, h.apart, h.count⟩
  unfold DemandRun.step
  split
  · exact hstay
  cases a with
  | fault i virt =>
    simp only
    split
    next hf => exact ⟨h.fault hf.1 hf.2.1 hf.2.2 hg, hstay.2⟩
    next => exact hstay
  | alloc i =>
    simp only
    split
    next virt hcpu =>
      split
      next => exact ⟨hhalt, hstay.2⟩
      next hphys => exact ⟨h.alloc hcpu rfl hphys, hstay.2⟩
    next => exact hstay
  | zero i =>
    simp only
    split
    next virt phys hcpu =>
      obtain ⟨hinv, hkeeps⟩ := h.zero hcpu
      exact ⟨hinv, fun v d hv _ hd => hkeeps v d hv hd⟩
    next => exact hstay
  | map i =>
    simp only
    split
    next virt phys hcpu =>
      split
      next vm hmap =>
        obtain ⟨hinv, hkeeps⟩ := h.map hcpu hmap
        exact ⟨hinv, fun v d hv _ hd => hkeeps v d hv hd⟩
      next => exact ⟨hhalt, hstay.2⟩
    next => exact hstay
  | unmap virt =>
    simp only
    split
    next hv =>
      obtain ⟨hinv, hkeeps⟩ := h.unmap hv
      exact ⟨hinv, fun v d hv' hun hd => hkeeps v d hv' (fun he => hun he.symm) hd⟩
    next => exact hstay

theorem start_inv {vm : Vm} (hboot : HeapRun.Booted vm) : (start n vm).Inv := by
  refine ⟨hboot.tables, fun _ => handles_idle vm, fun _ _ _ => apart_idle _, ?_⟩
  have hcard : (mappedPages vm).card = 0 := by
    rw [hboot.tables.card_mappedPages]
    apply Finset.sum_eq_zero
    intro k hk
    rw [hboot.empty _ (inHeap_page (Finset.mem_range.mp hk))]
    rfl
  have hholds : ∑ i, ((start n vm).cpu i).holds = 0 := Finset.sum_eq_zero fun _ _ => rfl
  rw [hholds]
  simp only [start, hcard]

end Steps

/-- On any number of CPUs, in every run in which no two of them handle a fault on one page at a
time, demand paging replaces no mapping and loses no page. -/
theorem sound_of_alone {vm : Vm} (hboot : HeapRun.Booted vm) {s : DemandRun n}
    (hrun : Run Alone (start n vm) s) : s.Sound Alone := by
  have hinv : s.Inv := by
    refine Reach.inv (start_inv hboot) ?_ hrun
    rintro t a _ ht hg rfl
    exact (ht.step hg).1
  constructor
  · intro virt a hv ha s' hrun'
    rw [hinv.tables.translate hv] at ha
    obtain ⟨d, hd, rfl⟩ := Option.map_eq_some_iff.mp ha
    have hlater : s'.Inv ∧ s'.vm.frame (pagePath virt) = some d := by
      refine Reach.inv (I := fun t : DemandRun n => t.Inv ∧ t.vm.frame (pagePath virt) = some d)
        ⟨hinv, hd⟩ ?_ hrun'
      rintro t x _ ⟨ht, htd⟩ hg rfl
      exact ⟨(ht.step hg.1).1, (ht.step hg.1).2 virt d hv hg.2 htd⟩
    rw [hlater.1.tables.translate hv, hlater.2]
    rfl
  · intro hidle
    have hholds : ∑ i, (s.cpu i).holds = 0 := by
      apply Finset.sum_eq_zero
      intro i _
      rw [hidle i]
      rfl
    have hcount := hinv.count
    omega

/-- Alone, a handler does what `vmm_demand_page` does. -/
theorem handler_eq_vmmDemandPage {s : DemandRun n} {i : Fin n} {virt : ℕ} {rc : ℤ} {vm : Vm}
    (hrun : s.halted = false) (hidle : s.cpu i = .idle) (hv : InHeap virt)
    (hmiss : s.vm.translate virt = none) (hd : s.vm.vmmDemandPage virt = some (rc, vm)) :
    [.fault i virt, .alloc i, .zero i, .map i].foldl step s =
      { s with vm := vm, taken := s.taken + 1 } := by
  have hrange : ¬ (virt < vmmHeapBase ∨ vmmHeapEnd ≤ virt) := by
    have := hv.1
    have := hv.2
    omega
  simp only [Vm.vmmDemandPage, if_neg hrange] at hd
  split at hd
  · exact absurd hd (by simp)
  rename_i hphys
  obtain ⟨t, ht, he⟩ := Option.map_eq_some_iff.mp hd
  obtain ⟨-, rfl⟩ := Prod.mk.inj he
  have hback : Function.update s.cpu i .idle = s.cpu := by
    rw [← hidle, Function.update_eq_self]
  simp [step, setCpu, hrun, hidle, hv, hmiss, hphys, ht, hback]

/-- Two CPUs on two pages of the heap. -/
def twoPages : List (DemandAct 2) :=
  [.fault 0 vmmHeapBase, .fault 1 (vmmHeapBase + 4096), .alloc 1, .alloc 0, .zero 0, .map 0,
    .zero 1, .map 1]

theorem sound_of_alone_two_pages : HeapRun.Booted HeapRun.smallVm ∧
    (twoPages.foldl step (start 2 HeapRun.smallVm)).taken = 2 ∧
    (twoPages.foldl step (start 2 HeapRun.smallVm)).Sound Alone := by
  have hobeys : Obeys step Alone (start 2 HeapRun.smallVm) twoPages := by
    simp only [Obeys, twoPages]
    decide +kernel
  exact ⟨HeapRun.smallVm_booted, by decide +kernel,
    sound_of_alone HeapRun.smallVm_booted (Reach.foldl hobeys .start)⟩

/-- Two CPUs fault on one page, and the first of them maps it. -/
def firstMaps : List (DemandAct 2) :=
  [.fault 0 vmmHeapBase, .fault 1 (vmmHeapBase + 8), .alloc 0, .zero 0, .map 0]

def secondMaps : List (DemandAct 2) := [.alloc 1, .zero 1, .map 1]

/-- The handler of the second CPU puts another page in its place. -/
theorem second_fault_replaces : HeapRun.Booted HeapRun.smallVm ∧
    ¬ ∀ s, Run (fun _ _ => True) (start 2 HeapRun.smallVm) s → s.Sound fun _ _ => True := by
  refine ⟨HeapRun.smallVm_booted, ?_⟩
  intro hall
  set s := firstMaps.foldl step (start 2 HeapRun.smallVm) with hs
  have hrun : Run (fun _ _ => True) (start 2 HeapRun.smallVm) s :=
    Reach.foldl (by simp [Obeys, firstMaps]) .start
  have hrest : Run (fun _ x => True ∧ ¬ x.Unmaps vmmHeapBase) s (secondMaps.foldl step s) :=
    Reach.foldl (by simp [Obeys, secondMaps, DemandAct.Unmaps]) .start
  have hfirst : s.vm.translate vmmHeapBase = some 4096 := by
    rw [hs]
    decide +kernel
  have hsecond : (secondMaps.foldl step s).vm.translate vmmHeapBase = some 20480 := by
    rw [hs]
    decide +kernel
  have hstays := (hall s hrun).stays vmmHeapBase 4096 (by decide +kernel) hfirst _ hrest
  rw [hsecond] at hstays
  exact absurd hstays (by decide)

end DemandRun
end Ggmk

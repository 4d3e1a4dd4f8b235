import Ggmk.Arch.Ram

/-! Runs of `pmm_alloc_pages` and `pmm_free_pages`: when an allocation finds pages, what the
counter says, and whom the pages belong to. -/
namespace Ggmk
open Word Guarded

namespace Pmm
variable {entries : List MemmapEntry} {s : Pmm}

/-- The `count` pages from `start` on exist and are free. -/
def FreeRun (s : Pmm) (start count : ℕ) : Prop :=
  start + count ≤ s.totalPages ∧ ∀ p, start ≤ p → p < start + count → s.bitmap p = false

/-- First fit: the search stops at the latest where a run of free pages begins. -/
theorem search_le_run {bitmap : ℕ → Bool} {count n i run start k : ℕ} (hrun : run < count)
    (hrun' : run ≤ i) (hstart : run ≠ 0 → start = i - run) (hk : i - run ≤ k)
    (hend : k + count ≤ i + n) (hfree : ∀ p, k ≤ p → p < k + count → bitmap p = false) :
    ∃ j ≤ k, search bitmap count n i run start = some j := by
  induction n generalizing i run start with
  | zero => omega
  | succ n ih =>
    rw [search]
    by_cases hbit : bitmap i = true
    · -- the run does not contain page `i`, so it begins behind it
      have hout : ¬ (k ≤ i ∧ i < k + count) := by
        rintro ⟨h1, h2⟩
        rw [hfree i h1 h2] at hbit
        exact Bool.noConfusion hbit
      rw [if_pos hbit]
      exact ih (by omega) (by omega) (by omega) (by omega) (by omega)
    · rw [if_neg hbit]
      have hst : (if run = 0 then i else start) = i - run := by
        split
        · omega
        · exact hstart (by assumption)
      simp only [hst]
      split
      · exact ⟨i - run, hk, rfl⟩
      · exact ih (by omega) (by omega) (by omega) (by omega) (by omega)

theorem FreeRun.subset {start count : ℕ} (h : s.FreeRun start count) :
    Finset.Ico start (start + count) ⊆ s.freeSet := by
  intro p hp
  obtain ⟨hp1, hp2⟩ := Finset.mem_Ico.mp hp
  have hle := h.1
  exact mem_freeSet.mpr ⟨by omega, h.2 p hp1 hp2⟩

theorem Counted.le_of_run (hs : s.Counted) {start count : ℕ} (h : s.FreeRun start count) :
    count ≤ s.freePages := by
  have hcard := Finset.card_le_card h.subset
  rwa [Nat.card_Ico, Nat.add_sub_cancel_left, ← hs] at hcard

/-- With the counter right, an allocation fails for want of pages or takes the first run. -/
theorem Counted.alloc_cases (hs : s.Counted) {count : ℕ} (hcount : 1 ≤ count) :
    (s.pmmAllocPages count = (0, s) ∧ ∀ start, ¬ s.FreeRun start count) ∨
      ∃ start, s.FreeRun start count ∧ (∀ k < start, ¬ s.FreeRun k count) ∧
        s.pmmAllocPages count = (start * 4096, s.take start count) := by
  have hleast {k : ℕ} (hk : s.FreeRun k count) :
      ∃ j ≤ k, search s.bitmap count s.totalPages 0 0 0 = some j :=
    search_le_run (by omega) le_rfl (by omega) (by omega) (by rw [Nat.zero_add]; exact hk.1) hk.2
  unfold pmmAllocPages
  by_cases hearly : count = 0 ∨ s.freePages < count
  · rw [if_pos hearly]
    refine .inl ⟨rfl, fun start hrun => ?_⟩
    have hle := hs.le_of_run hrun
    omega
  · rw [if_neg hearly]
    cases hsearch : search s.bitmap count s.totalPages 0 0 0 with
    | none =>
      refine .inl ⟨rfl, fun start hrun => ?_⟩
      obtain ⟨j, -, hj⟩ := hleast hrun
      rw [hsearch] at hj
      exact absurd hj (by simp)
    | some start =>
      obtain ⟨hle, hfree⟩ := search_spec le_rfl (by omega) (by omega) hsearch
      refine .inr ⟨start, ⟨by omega, hfree⟩, fun k hk hrun => ?_, rfl⟩
      obtain ⟨j, hjk, hj⟩ := hleast hrun
      obtain rfl := Option.some.inj (hsearch.symm.trans hj)
      omega

/-- Freeing pages that exist, in use or not. -/
theorem Counted.freePages {l : List ℕ} (hs : s.Counted) (hl : ∀ p ∈ l, p < s.totalPages) :
    (l.foldl freePage s).Counted ∧ (l.foldl freePage s).totalPages = s.totalPages ∧
      ∀ p, (l.foldl freePage s).bitmap p = if p ∈ l then false else s.bitmap p := by
  induction l generalizing s with
  | nil => exact ⟨hs, rfl, fun p => by simp⟩
  | cons q l ih =>
    have hcount : (s.freePage q).Counted := by
      unfold freePage
      split
      next hbit => exact hs.clear (hl q (List.mem_cons_self ..)) hbit
      next => exact hs
    obtain ⟨hc, ht, hb⟩ := ih hcount fun p hp => by
      rw [freePage_totalPages]
      exact hl p (List.mem_cons_of_mem _ hp)
    rw [List.foldl_cons]
    refine ⟨hc, ht.trans (freePage_totalPages s q), fun p => ?_⟩
    rw [hb, freePage_bitmap]
    simp only [List.mem_cons]
    by_cases hp : p ∈ l
    · simp [hp]
    · simp [hp]

/-- The pages that `pmm_free_pages` clears. -/
theorem Counted.free (hs : s.Counted) (addr count : ℕ) :
    (s.pmmFreePages addr count).Counted ∧
      (s.pmmFreePages addr count).totalPages = s.totalPages ∧
      ∀ p, (s.pmmFreePages addr count).bitmap p =
        if addr / 4096 ≤ p ∧ p < min (uint64 (addr / 4096 + count)) s.totalPages then false
        else s.bitmap p := by
  obtain ⟨hc, ht, hb⟩ := hs.freePages (l := List.range' (addr / 4096)
    (min (uint64 (addr / 4096 + count)) s.totalPages - addr / 4096)) fun p hp => by
      have hmem := List.mem_range'_1.mp hp
      omega
  refine ⟨hc, ht, fun p => (hb p).trans (if_congr ?_ rfl rfl)⟩
  rw [List.mem_range'_1]
  omega

/-- A request for `count` pages returns 0 exactly when no run of free pages is long enough, and
then it changes nothing. -/
structure AllocOk (s : Pmm) (count : ℕ) : Prop where
  zero_iff : (s.pmmAllocPages count).1 = 0 ↔ ∀ start, ¬ s.FreeRun start count
  unchanged : (s.pmmAllocPages count).1 = 0 →
    (s.pmmAllocPages count).2.bitmap = s.bitmap ∧
      (s.pmmAllocPages count).2.freePages = s.freePages

/-- The run at page 0 is found first, and its address is the failure code. -/
theorem Counted.allocOk_iff (hs : s.Counted) {count : ℕ} (hcount : 1 ≤ count) :
    s.AllocOk count ↔ ¬ s.FreeRun 0 count := by
  rcases hs.alloc_cases hcount with ⟨halloc, hnone⟩ | ⟨start, hrun, hleast, halloc⟩
  · refine iff_of_true ⟨?_, ?_⟩ (hnone 0)
    · rw [halloc]
      exact iff_of_true rfl hnone
    · rw [halloc]
      exact fun _ => ⟨rfl, rfl⟩
  · constructor
    · rintro ⟨hzero, -⟩ hrun0
      obtain rfl : start = 0 := by
        by_contra hne
        exact hleast 0 (by omega) hrun0
      rw [halloc, Nat.zero_mul] at hzero
      exact hzero.mp rfl 0 hrun0
    · intro hrun0
      have hne : start ≠ 0 := fun heq => hrun0 (heq ▸ hrun)
      have haddr : (s.pmmAllocPages count).1 ≠ 0 := by
        rw [halloc]
        show start * 4096 ≠ 0
        omega
      exact ⟨iff_of_false haddr fun hnone => hnone start hrun, fun h => absurd h haddr⟩

theorem foldl_totalPages {α : Type*} {f : Pmm → α → Pmm}
    (hf : ∀ s x, (f s x).totalPages = s.totalPages) (l : List α) (s : Pmm) :
    (l.foldl f s).totalPages = s.totalPages := by
  induction l generalizing s with
  | nil => rfl
  | cons x l ih => rw [List.foldl_cons, ih, hf]

theorem initPage_totalPages (s : Pmm) (page : ℕ) :
    (s.initPage page).totalPages = s.totalPages := by
  unfold initPage
  split <;> rfl

theorem initEntry_totalPages (s : Pmm) (e : MemmapEntry) :
    (s.initEntry e).totalPages = s.totalPages := by
  unfold initEntry
  split
  · exact foldl_totalPages initPage_totalPages _ s
  · rfl

theorem pmmInit_totalPages (entries : List MemmapEntry) :
    (pmmInit entries).totalPages = min (highestAddr entries / 4096) maxPages :=
  foldl_totalPages initEntry_totalPages entries _

end Pmm

/-! ## Runs -/

inductive PmmOp where
  | alloc (count : ℕ)
  | free (addr count : ℕ)

/-- The allocator, with the allocations that have not been freed. -/
structure PmmRun where
  pmm : Pmm
  live : List (ℕ × ℕ)

namespace PmmRun
variable {entries : List MemmapEntry} {s s' : PmmRun}

def start (entries : List MemmapEntry) : PmmRun := ⟨Pmm.pmmInit entries, []⟩

def step (s : PmmRun) : PmmOp → PmmRun
  | .alloc count =>
      let (addr, pmm) := s.pmm.pmmAllocPages count
      ⟨pmm, if addr = 0 then s.live else (addr, count) :: s.live⟩
  | .free addr count => ⟨s.pmm.pmmFreePages addr count, s.live.erase (addr, count)⟩

/-- Only live allocations are freed. -/
def OnlyLive (s : PmmRun) : PmmOp → Prop
  | .alloc _ => True
  | .free addr count => (addr, count) ∈ s.live

/-- The states that operations which meet `guard` lead to. -/
abbrev Run (entries : List MemmapEntry) (guard : PmmRun → PmmOp → Prop) : PmmRun → Prop :=
  Reach (fun s op s' => s' = step s op) guard (start entries)

def pagesOf (a : ℕ × ℕ) : Finset ℕ := Finset.Ico (a.1 / 4096) (a.1 / 4096 + a.2)

theorem counted_step (h : s.pmm.Counted) (op : PmmOp) : (s.step op).pmm.Counted := by
  cases op with
  | alloc count =>
    rcases s.pmm.pmmAllocPages_cases count with hfail | ⟨page, -, -, hle, hfree, hok⟩
    · rwa [step, hfail]
    · rw [step, hok]
      exact h.take hle hfree
  | free addr count => exact (h.free addr count).1

/-- The counter is right whatever is freed. -/
theorem counted_run {guard : PmmRun → PmmOp → Prop} (hok : MemmapOk entries)
    (hrun : Run entries guard s) : s.pmm.Counted := by
  refine hrun.inv (I := fun s : PmmRun => s.pmm.Counted) (Pmm.pmmInit_ram hok).counted ?_
  rintro s op _ hs - rfl
  exact counted_step hs op

/-- In every state, a request for pages is answered right unless a run at page 0 would be
taken. -/
theorem alloc_ok_iff (hok : MemmapOk entries) (hrun : Run entries (fun _ _ => True) s) {count : ℕ}
    (hcount : 1 ≤ count) : s.pmm.AllocOk count ↔ ¬ s.pmm.FreeRun 0 count :=
  (counted_run hok hrun).allocOk_iff hcount

/-- Sixteen pages of memory from page 1 on. -/
theorem alloc_ok_small : Pmm.AllocOk (Pmm.pmmInit VmRun.smallMemmap) 1 :=
  (alloc_ok_iff VmRun.smallMemmap_ok .start le_rfl).mpr fun hrun =>
    absurd (hrun.2 0 le_rfl zero_lt_one) (by decide +kernel)

/-- With page 0 among the memory, the first page handed out is reported as a failure. -/
theorem alloc_zero_fails : ¬ ∀ entries, MemmapOk entries → ∀ s, Run entries (fun _ _ => True) s →
    ∀ count, 1 ≤ count → s.pmm.AllocOk count := by
  intro h
  have hok : MemmapOk [⟨0, 0x10000, .usable⟩] := by
    constructor
    · simp
    · simp
  have hgood := h _ hok _ .start 1 le_rfl
  refine ((Pmm.pmmInit_ram hok).counted.allocOk_iff le_rfl).mp hgood ⟨by decide +kernel, ?_⟩
  intro p _ hp
  obtain rfl : p = 0 := by omega
  decide +kernel

/-- The live allocations have their pages to themselves, and page 0 is not for use. -/
structure Inv (s : PmmRun) : Prop where
  counted : s.pmm.Counted
  covered : s.pmm.totalPages ≤ maxPages
  zero : 0 ∉ s.pmm.freeSet
  taken : ∀ a ∈ s.live, a.1 / 4096 + a.2 ≤ s.pmm.totalPages ∧
    ∀ p ∈ pagesOf a, s.pmm.bitmap p = true
  apart : s.live.Pairwise fun a b => Disjoint (pagesOf a) (pagesOf b)
  pos : ∀ a ∈ s.live, 0 < a.1 / 4096

theorem start_inv (hok : MemmapOk entries) (h0 : ¬ InUsable entries 0) :
    (start entries).Inv where
  counted := (Pmm.pmmInit_ram hok).counted
  covered := (Pmm.pmmInit_totalPages entries).trans_le (min_le_right _ _)
  zero := fun hfree => h0 ((Pmm.pmmInit_ram hok).inUsable hfree)
  taken := by simp [start]
  apart := by simp [start]
  pos := by simp [start]

theorem mem_pagesOf {page count p : ℕ} :
    p ∈ pagesOf (page * 4096, count) ↔ page ≤ p ∧ p < page + count := by
  rw [pagesOf, Nat.mul_div_cancel _ (by norm_num), Finset.mem_Ico]

/-- What a request that is granted takes. -/
structure Grants (s : PmmRun) (a : ℕ × ℕ) (pmm : Pmm) : Prop where
  inside : ∀ p ∈ pagesOf a, p < s.pmm.totalPages
  free : ∀ p ∈ pagesOf a, s.pmm.bitmap p = false
  apart : ∀ b ∈ s.live, Disjoint (pagesOf a) (pagesOf b)
  bitmap : ∀ p, pmm.bitmap p = if p ∈ pagesOf a then true else s.pmm.bitmap p

theorem Inv.alloc_cases (h : s.Inv) (count : ℕ) : s.pmm.pmmAllocPages count = (0, s.pmm) ∨
    ∃ page, 0 < page ∧ page + count ≤ s.pmm.totalPages ∧
      s.pmm.pmmAllocPages count = (page * 4096, s.pmm.take page count) ∧
      s.Grants (page * 4096, count) (s.pmm.take page count) := by
  rcases s.pmm.pmmAllocPages_cases count with hfail | ⟨page, hcount, -, hle, hfree, hok⟩
  · exact .inl hfail
  · have hpos : 0 < page := by
      rw [Nat.pos_iff_ne_zero]
      rintro rfl
      exact h.zero (Pmm.mem_freeSet.mpr ⟨by omega, hfree 0 le_rfl (by omega)⟩)
    have hclear : ∀ p ∈ pagesOf (page * 4096, count), s.pmm.bitmap p = false := fun p hp =>
      hfree p (mem_pagesOf.mp hp).1 (mem_pagesOf.mp hp).2
    refine .inr ⟨page, hpos, hle, hok, fun p hp => ?_, hclear, fun b hb => ?_, fun p => ?_⟩
    · have hmem := mem_pagesOf.mp hp
      omega
    · rw [Finset.disjoint_left]
      intro p hp hpb
      have htaken := (h.taken b hb).2 p hpb
      rw [hclear p hp] at htaken
      exact Bool.noConfusion htaken
    · simp only [Pmm.take, mem_pagesOf]

theorem Inv.alloc (h : s.Inv) (count : ℕ) : (s.step (.alloc count)).Inv := by
  rcases h.alloc_cases count with hfail | ⟨page, hpos, hle, hok, hgrant⟩
  · rw [step, hfail]
    exact h
  · have hstep : s.step (.alloc count) =
        ⟨s.pmm.take page count, (page * 4096, count) :: s.live⟩ := by
      simp only [step, hok]
      rw [if_neg (by omega)]
    have hcounted := counted_step h.counted (.alloc count)
    rw [hstep] at hcounted ⊢
    have hstay {p : ℕ} (hp : s.pmm.bitmap p = true) : (s.pmm.take page count).bitmap p = true := by
      rw [hgrant.bitmap, hp, ite_self]
    refine ⟨hcounted, h.covered, ?_, ?_, List.pairwise_cons.mpr ⟨hgrant.apart, h.apart⟩, ?_⟩
    · intro hzero
      obtain ⟨hlt, hbit⟩ := Pmm.mem_freeSet.mp hzero
      refine h.zero (Pmm.mem_freeSet.mpr ⟨hlt, ?_⟩)
      by_contra hset
      rw [Bool.not_eq_false] at hset
      exact absurd (hstay hset) (by rw [hbit]; decide)
    · intro a ha
      rcases List.mem_cons.mp ha with rfl | ha
      · refine ⟨?_, fun p hp => by rw [hgrant.bitmap, if_pos hp]⟩
        rw [Nat.mul_div_cancel _ (by norm_num)]
        exact hle
      · exact ⟨(h.taken a ha).1, fun p hp => hstay ((h.taken a ha).2 p hp)⟩
    · intro a ha
      rcases List.mem_cons.mp ha with rfl | ha
      · rwa [Nat.mul_div_cancel _ (by norm_num)]
      · exact h.pos a ha

theorem Inv.free (h : s.Inv) {addr count : ℕ} (hlive : (addr, count) ∈ s.live) :
    (s.step (.free addr count)).Inv := by
  obtain ⟨hc, ht, hb⟩ := h.counted.free addr count
  have hend := (h.taken _ hlive).1
  have hcov := h.covered
  simp only [maxPages] at hcov
  have hbit (p : ℕ) : (s.pmm.pmmFreePages addr count).bitmap p =
      if p ∈ pagesOf (addr, count) then false else s.pmm.bitmap p := by
    rw [hb, uint64_of_lt (by omega), Nat.min_eq_left hend]
    simp only [pagesOf, Finset.mem_Ico]
  -- the other live allocations keep their pages
  have hperm := List.perm_cons_erase hlive
  have hapart := (hperm.pairwise_iff fun {a b} hab => Disjoint.symm hab).mp h.apart
  obtain ⟨hother, hrest⟩ := List.pairwise_cons.mp hapart
  refine ⟨hc, ht.trans_le h.covered, ?_, ?_, hrest, ?_⟩
  · intro hzero
    obtain ⟨hlt, hfree⟩ := Pmm.mem_freeSet.mp hzero
    have hout : 0 ∉ pagesOf (addr, count) := fun hmem => by
      have hpos := h.pos _ hlive
      have hle := (Finset.mem_Ico.mp hmem).1
      omega
    have hclear := (hbit 0).symm.trans hfree
    rw [if_neg hout] at hclear
    exact h.zero (Pmm.mem_freeSet.mpr ⟨hlt.trans_eq ht, hclear⟩)
  · intro a ha
    have hmem := List.mem_of_mem_erase ha
    refine ⟨(h.taken a hmem).1.trans_eq ht.symm, fun p hp => (hbit p).trans ?_⟩
    rw [if_neg (Finset.disjoint_right.mp (hother a ha) hp)]
    exact (h.taken a hmem).2 p hp
  · exact fun a ha => h.pos a (List.mem_of_mem_erase ha)

theorem Inv.step (h : s.Inv) {op : PmmOp} (hg : s.OnlyLive op) : (s.step op).Inv := by
  cases op with
  | alloc count => exact h.alloc count
  | free addr count => exact h.free hg

/-- In every run the counter is the number of free pages; if only live allocations are freed,
these are apart, and each request that is granted takes free pages that no other allocation has
and changes no other page. -/
theorem pmm_separated (hok : MemmapOk entries) (h0 : ¬ InUsable entries 0) :
    (∀ s, Run entries (fun _ _ => True) s → s.pmm.freePages = s.pmm.freeSet.card) ∧
    ∀ s, Run entries OnlyLive s →
      s.live.Pairwise (fun a b => Disjoint (pagesOf a) (pagesOf b)) ∧
      ∀ count addr pmm, s.pmm.pmmAllocPages count = (addr, pmm) → addr ≠ 0 →
        s.Grants (addr, count) pmm := by
  refine ⟨fun s hrun => counted_run hok hrun, fun s hrun => ?_⟩
  have hinv : s.Inv := by
    refine hrun.inv (start_inv hok h0) ?_
    rintro s op _ h hg rfl
    exact h.step hg
  refine ⟨hinv.apart, fun count addr pmm halloc hne => ?_⟩
  rcases hinv.alloc_cases count with hfail | ⟨page, -, -, hsome, hgrant⟩
  · rw [hfail] at halloc
    exact absurd (Prod.mk.inj halloc).1.symm hne
  · rw [hsome] at halloc
    obtain ⟨rfl, rfl⟩ := Prod.mk.inj halloc
    exact hgrant

/-- Two pages are live when one more is taken. -/
theorem pmm_separated_small : ∃ s pmm, Run VmRun.smallMemmap OnlyLive s ∧
    s.live = [(0x1000, 2)] ∧ s.pmm.freePages = s.pmm.freeSet.card ∧ s.Grants (0x3000, 1) pmm := by
  obtain ⟨hcount, hsep⟩ := pmm_separated VmRun.smallMemmap_ok (by decide)
  have hrun : Run VmRun.smallMemmap OnlyLive _ := .next (.alloc 2) .start trivial rfl
  have hany : Run VmRun.smallMemmap (fun _ _ => True) _ := .next (.alloc 2) .start trivial rfl
  have haddr : ((start VmRun.smallMemmap).step (.alloc 2)).pmm.pmmAllocPages 1 =
      (0x3000, (((start VmRun.smallMemmap).step (.alloc 2)).pmm.pmmAllocPages 1).2) :=
    Prod.ext (by decide +kernel) rfl
  exact ⟨_, _, hrun, by decide +kernel, hcount _ hany, (hsep _ hrun).2 1 _ _ haddr (by decide)⟩

end PmmRun
end Ggmk

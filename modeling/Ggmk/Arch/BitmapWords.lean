import Ggmk.Arch.PmmRun

/-! The words of the bitmap that `pmm.c` reads and writes, loop by loop. The bit of a page is in
word `page / 64`. -/
namespace Ggmk
open Word Guarded

/-- The words that a loop over `l` accesses, if its body `f` accesses those of `words`. -/
def loopWords {σ α : Type*} (f : σ → α → σ) (words : σ → α → List ℕ) : σ → List α → List ℕ
  | _, [] => []
  | s, x :: l => words s x ++ loopWords f words (f s x) l

/-- The accesses are inside the array. -/
def InBitmap (words : List ℕ) : Prop := ∀ i ∈ words, i < maxPages / 64

theorem InBitmap.append {l l' : List ℕ} (h : InBitmap l) (h' : InBitmap l') :
    InBitmap (l ++ l') :=
  List.forall_mem_append.mpr ⟨h, h'⟩

theorem inBitmap_loop {σ α : Type*} {f : σ → α → σ} {words : σ → α → List ℕ} {I : σ → Prop}
    {l : List α} (hstep : ∀ s x, I s → I (f s x))
    (hwords : ∀ s, I s → ∀ x ∈ l, InBitmap (words s x)) {s : σ} (hs : I s) :
    InBitmap (loopWords f words s l) := by
  induction l generalizing s with
  | nil => exact fun i hi => absurd hi List.not_mem_nil
  | cons x l ih =>
    refine (hwords s hs x (List.mem_cons_self ..)).append ?_
    exact ih (fun s hs y hy => hwords s hs y (List.mem_cons_of_mem _ hy)) (hstep s x hs)

namespace Pmm

def initPageWords (s : Pmm) (page : ℕ) : List ℕ :=
  if page < s.totalPages then [page / 64] else []

def initEntryWords (s : Pmm) (e : MemmapEntry) : List ℕ :=
  if e.type = .usable then
    let base := uint64 (e.base + 4095) / 4096
    let top := uint64 (e.base + e.length) / 4096
    loopWords initPage initPageWords s (List.range' base (top - base))
  else []

def pmmInitWords (entries : List MemmapEntry) : List ℕ :=
  let total := min (highestAddr entries / 4096) maxPages
  List.range (total / 64 + 1) ++ loopWords initEntry initEntryWords
    ⟨fun page => decide (page < (total / 64 + 1) * 64), total, 0, 0, []⟩ entries

def searchWords (bitmap : ℕ → Bool) (count : ℕ) : (n i run : ℕ) → List ℕ
  | 0, _, _ => []
  | n + 1, i, run =>
      i / 64 ::
        if bitmap i then searchWords bitmap count n (i + 1) 0
        else if run + 1 = count then []
        else searchWords bitmap count n (i + 1) (run + 1)

def pmmAllocWords (s : Pmm) (count : ℕ) : List ℕ :=
  if count = 0 ∨ s.freePages < count then []
  else searchWords s.bitmap count s.totalPages 0 0 ++
    match search s.bitmap count s.totalPages 0 0 0 with
    | some start => (List.range' start count).map (· / 64)
    | none => []

/-- A page in use is tested and cleared, a free one only tested. -/
def freePageWords (s : Pmm) (page : ℕ) : List ℕ :=
  if s.bitmap page then [page / 64, page / 64] else [page / 64]

def pmmFreeWords (s : Pmm) (addr count : ℕ) : List ℕ :=
  let start := addr / 4096
  loopWords freePage freePageWords s
    (List.range' start (min (uint64 (start + count)) s.totalPages - start))

/-! `pmm_find_contiguous` looks at every page. -/

/-- The longest run that has ended, and the run at the page the loop is at. -/
structure RunScan where
  bestStart : ℕ
  bestLen : ℕ
  run : ℕ
  start : ℕ

/-- A run that is longer than the best becomes the best. -/
def RunScan.close (r : RunScan) : RunScan :=
  if r.bestLen < r.run then { r with bestStart := r.start, bestLen := r.run } else r

def scanPage (bitmap : ℕ → Bool) (r : RunScan) (i : ℕ) : RunScan :=
  if bitmap i then { r.close with run := 0 }
  else { r with start := if r.run = 0 then i else r.start, run := r.run + 1 }

/-- Returns the address and sets `out_size`, or returns 0. -/
def pmmFindContiguous (s : Pmm) (minSize : ℕ) : ℕ × Option ℕ :=
  let minPages := uint64 (minSize + 4095) / 4096
  let r := ((List.range s.totalPages).foldl (scanPage s.bitmap) ⟨0, 0, 0, 0⟩).close
  if r.bestLen < minPages then (0, none) else (r.bestStart * 4096, some (r.bestLen * 4096))

def pmmFindContiguousWords (s : Pmm) : List ℕ :=
  loopWords (scanPage s.bitmap) (fun _ i => [i / 64]) ⟨0, 0, 0, 0⟩ (List.range s.totalPages)

/-- What the scan of `pmm_find_contiguous` knows before page `i`. -/
structure RunScan.Inv (bitmap : ℕ → Bool) (i : ℕ) (r : RunScan) : Prop where
  run_le : r.run ≤ i
  start_eq : r.run ≠ 0 → r.start = i - r.run
  run_clear : ∀ p, i - r.run ≤ p → p < i → bitmap p = false
  best_le : r.bestStart + r.bestLen ≤ i
  best_clear : ∀ p, r.bestStart ≤ p → p < r.bestStart + r.bestLen → bitmap p = false
  /-- The run at the end is maximal. -/
  suffix : ∀ k ≤ i, (∀ p, k ≤ p → p < i → bitmap p = false) → i - r.run ≤ k
  longest : ∀ k n, k + n ≤ i → (∀ p, k ≤ p → p < k + n → bitmap p = false) →
    n ≤ max r.bestLen r.run

theorem RunScan.Inv.close {bitmap : ℕ → Bool} {i : ℕ} {r : RunScan} (h : r.Inv bitmap i) :
    r.close.Inv bitmap i ∧ r.close.run = r.run ∧ r.run ≤ r.close.bestLen := by
  unfold RunScan.close
  split
  next hlt =>
    have hstart := h.start_eq (by omega)
    refine ⟨⟨h.run_le, h.start_eq, h.run_clear, ?_, fun p hp1 hp2 => ?_, h.suffix, ?_⟩, rfl, le_rfl⟩
    · have hle := h.run_le
      show r.start + r.run ≤ i
      omega
    · have hle := h.run_le
      have hp1' : r.start ≤ p := hp1
      have hp2' : p < r.start + r.run := hp2
      exact h.run_clear p (by omega) (by omega)
    · intro k n hn hclear
      have hle := h.longest k n hn hclear
      show n ≤ max r.run r.run
      omega
  next hle => exact ⟨h, rfl, not_lt.mp hle⟩

theorem RunScan.Inv.scanPage {bitmap : ℕ → Bool} {i : ℕ} {r : RunScan} (h : r.Inv bitmap i) :
    (scanPage bitmap r i).Inv bitmap (i + 1) := by
  unfold Pmm.scanPage
  split
  next hbit =>
    obtain ⟨hc, hrun, hbest⟩ := h.close
    have hout : ∀ {k n}, (∀ p, k ≤ p → p < n → bitmap p = false) → ¬ (k ≤ i ∧ i < n) :=
      fun hclear hi => by
        rw [hclear i hi.1 hi.2] at hbit
        exact Bool.noConfusion hbit
    refine ⟨Nat.zero_le _, fun hne => absurd rfl hne, fun p hp1 hp2 => ?_,
      hc.best_le.trans (Nat.le_succ i), hc.best_clear, fun k hk hclear => ?_, ?_⟩
    · have hp1' : i + 1 - 0 ≤ p := hp1
      omega
    · have hnot := hout hclear
      show i + 1 - 0 ≤ k
      omega
    · intro k n hn hclear
      have hnot := hout hclear
      have hshort : n ≤ max r.close.bestLen r.close.run := by
        rcases Nat.eq_zero_or_pos n with rfl | hpos
        · exact Nat.zero_le _
        · exact hc.longest k n (by omega) hclear
      show n ≤ max r.close.bestLen 0
      omega
  next hbit =>
    have hle := h.run_le
    have hclear_i : bitmap i = false := Bool.eq_false_iff.mpr hbit
    have hlast : ∀ p, i - r.run ≤ p → p < i + 1 → bitmap p = false := by
      intro p hp1 hp2
      rcases Nat.lt_succ_iff_lt_or_eq.mp hp2 with hlt | rfl
      · exact h.run_clear p hp1 hlt
      · exact hclear_i
    refine ⟨Nat.succ_le_succ hle, fun _ => ?_, fun p hp1 hp2 => ?_,
      h.best_le.trans (Nat.le_succ i), h.best_clear, fun k hk hclear => ?_, ?_⟩
    · show (if r.run = 0 then i else r.start) = i + 1 - (r.run + 1)
      split
      next hzero => omega
      next hne => rw [h.start_eq hne, Nat.add_sub_add_right]
    · have hp1' : i + 1 - (r.run + 1) ≤ p := hp1
      exact hlast p (by omega) hp2
    · show i + 1 - (r.run + 1) ≤ k
      rcases Nat.lt_succ_iff_lt_or_eq.mp (Nat.lt_succ_of_le hk) with hlt | rfl
      · have hk' := h.suffix k (by omega) fun p hp1 hp2 => hclear p hp1 (by omega)
        omega
      · omega
    · intro k n hn hclear
      show n ≤ max r.bestLen (r.run + 1)
      rcases Nat.lt_succ_iff_lt_or_eq.mp (Nat.lt_succ_of_le hn) with hlt | heq
      · have hold := h.longest k n (by omega) hclear
        omega
      · -- a run that ends with page `i`
        rcases Nat.eq_zero_or_pos n with rfl | hpos
        · exact Nat.zero_le _
        · have hk := h.suffix k (by omega) fun p hp1 hp2 => hclear p hp1 (by omega)
          omega

theorem RunScan.Inv.scan (bitmap : ℕ → Bool) (n : ℕ) :
    ((List.range n).foldl (Pmm.scanPage bitmap) ⟨0, 0, 0, 0⟩).Inv bitmap n := by
  induction n with
  | zero =>
    refine ⟨le_rfl, fun h => absurd rfl h, fun p _ hp => ?_, le_rfl, fun p _ hp => ?_, ?_, ?_⟩
    · exact absurd hp (Nat.not_lt_zero p)
    · exact absurd hp (Nat.not_lt_zero p)
    · exact fun k _ _ => Nat.zero_le k
    · exact fun k n hn _ => by omega
  | succ n ih =>
    rw [List.range_succ, List.foldl_append]
    exact ih.scanPage

/-- The run that is found is free, and no free run is longer. -/
theorem pmmFindContiguous_longest {s : Pmm} {minSize addr size : ℕ}
    (h : s.pmmFindContiguous minSize = (addr, some size)) :
    s.FreeRun (addr / 4096) (size / 4096) ∧ ∀ start count, s.FreeRun start count →
      count * 4096 ≤ size := by
  have hscan := RunScan.Inv.scan s.bitmap s.totalPages
  obtain ⟨hinv, hrun, hbest⟩ := hscan.close
  simp only [pmmFindContiguous] at h
  split at h
  · exact absurd (Prod.mk.inj h).2 (by simp)
  · obtain ⟨rfl, hsize⟩ := Prod.mk.inj h
    obtain rfl := Option.some.inj hsize
    rw [Nat.mul_div_cancel _ (by norm_num), Nat.mul_div_cancel _ (by norm_num)]
    refine ⟨⟨hinv.best_le, hinv.best_clear⟩, fun start count hfree => ?_⟩
    have hle := hinv.longest start count hfree.1 hfree.2
    rw [hrun] at hle
    exact Nat.mul_le_mul_right _ (by omega)

/-! ## Bounds -/

theorem inBitmap_page {p : ℕ} (hp : p < maxPages) : p / 64 < maxPages / 64 := by
  simp only [maxPages] at hp ⊢
  omega

section Bounds
variable {s : Pmm} (hs : s.totalPages ≤ maxPages)
include hs

theorem inBitmap_initPage (page : ℕ) : InBitmap (s.initPageWords page) := by
  unfold initPageWords
  split
  next hlt => exact List.forall_mem_singleton.mpr (inBitmap_page (by omega))
  next => exact List.forall_mem_nil _

theorem inBitmap_initEntry (e : MemmapEntry) : InBitmap (s.initEntryWords e) := by
  unfold initEntryWords
  split
  next =>
    refine inBitmap_loop (I := fun s : Pmm => s.totalPages ≤ maxPages) ?_ ?_ hs
    · intro s x hs
      rwa [initPage_totalPages]
    · exact fun s hs x _ => inBitmap_initPage hs x
  next => exact List.forall_mem_nil _

theorem inBitmap_search (bitmap : ℕ → Bool) (count : ℕ) {n i : ℕ} (run : ℕ)
    (hn : i + n = s.totalPages) : InBitmap (searchWords bitmap count n i run) := by
  induction n generalizing i run with
  | zero => exact List.forall_mem_nil _
  | succ n ih =>
    refine List.forall_mem_cons.mpr ⟨inBitmap_page (by omega), ?_⟩
    split
    · exact ih 0 (by omega)
    · split
      · exact List.forall_mem_nil _
      · exact ih _ (by omega)

theorem inBitmap_alloc (count : ℕ) : InBitmap (s.pmmAllocWords count) := by
  unfold pmmAllocWords
  split
  next => exact List.forall_mem_nil _
  next =>
    refine (inBitmap_search hs _ _ _ (Nat.zero_add _)).append ?_
    split
    next start hsearch =>
      obtain ⟨hle, -⟩ := search_spec le_rfl (by omega) (by omega) hsearch
      refine List.forall_mem_map.mpr fun p hp => inBitmap_page ?_
      have hmem := List.mem_range'_1.mp hp
      omega
    next => exact List.forall_mem_nil _

theorem inBitmap_free (addr count : ℕ) : InBitmap (s.pmmFreeWords addr count) := by
  refine inBitmap_loop (I := fun t : Pmm => True) (fun _ _ _ => trivial) ?_ trivial
  intro t _ p hp
  have hmem := List.mem_range'_1.mp hp
  have hword : p / 64 < maxPages / 64 := inBitmap_page (by omega)
  unfold freePageWords
  split
  · exact List.forall_mem_cons.mpr ⟨hword, List.forall_mem_singleton.mpr hword⟩
  · exact List.forall_mem_singleton.mpr hword

theorem inBitmap_findContiguous : InBitmap s.pmmFindContiguousWords := by
  refine inBitmap_loop (I := fun _ => True) (fun _ _ _ => trivial) ?_ trivial
  intro r _ p hp
  rw [List.mem_range] at hp
  exact List.forall_mem_singleton.mpr (inBitmap_page (by omega))

end Bounds

theorem foldl_max_lt_iff {α : Type*} (f : α → ℕ) (l : List α) (a n : ℕ) :
    l.foldl (fun m x => max m (f x)) a < n ↔ a < n ∧ ∀ x ∈ l, f x < n := by
  induction l generalizing a with
  | nil => simp
  | cons x l ih => rw [List.foldl_cons, ih, max_lt_iff, List.forall_mem_cons, and_assoc]

theorem highestAddr_lt_iff {entries : List MemmapEntry}
    (hfit : ∀ e ∈ entries, e.base + e.length < 2 ^ 64) :
    highestAddr entries < 2 ^ 32 ↔ ∀ e ∈ entries, e.base + e.length < 2 ^ 32 := by
  rw [highestAddr, foldl_max_lt_iff]
  refine (and_iff_right (by norm_num)).trans (forall₂_congr fun e he => ?_)
  rw [uint64_of_lt (hfit e he)]

/-- The first loop of `pmm_init` rounds the number of words up even when it need not. -/
theorem inBitmap_init_iff {entries : List MemmapEntry} :
    InBitmap (pmmInitWords entries) ↔ highestAddr entries < 2 ^ 32 := by
  have hloop : InBitmap (List.range (min (highestAddr entries / 4096) maxPages / 64 + 1)) ↔
      highestAddr entries < 2 ^ 32 := by
    simp only [InBitmap, List.mem_range, maxPages]
    constructor
    · intro h
      have hlast := h (min (highestAddr entries / 4096) (1024 * 1024) / 64) (Nat.lt_succ_self _)
      omega
    · intro h i hi
      omega
  rw [← hloop, pmmInitWords]
  refine ⟨fun h => (List.forall_mem_append.mp h).1, fun h => h.append ?_⟩
  refine inBitmap_loop (I := fun s : Pmm => s.totalPages ≤ maxPages) ?_ ?_ (min_le_right _ _)
  · intro s e hs
    rwa [initEntry_totalPages]
  · exact fun s hs e _ => inBitmap_initEntry hs e

end Pmm

namespace PmmRun

theorem step_totalPages (s : PmmRun) (op : PmmOp) :
    (s.step op).pmm.totalPages = s.pmm.totalPages := by
  cases op with
  | alloc count =>
    rcases s.pmm.pmmAllocPages_cases count with hfail | ⟨page, -, -, -, -, hok⟩
    · rw [step, hfail]
    · rw [step, hok]
      rfl
  | free addr count => exact Pmm.foldl_totalPages Pmm.freePage_totalPages _ s.pmm

theorem run_totalPages_le {entries : List MemmapEntry} {guard : PmmRun → PmmOp → Prop}
    {s : PmmRun} (hrun : Run entries guard s) : s.pmm.totalPages ≤ maxPages := by
  refine hrun.inv (I := fun s : PmmRun => s.pmm.totalPages ≤ maxPages) ?_ ?_
  · exact (Pmm.pmmInit_totalPages entries).trans_le (min_le_right _ _)
  · rintro s op _ hs - rfl
    rwa [step_totalPages]

/-- Every access of the initialisation and of any later operation is inside the bitmap. -/
structure StaysInBitmap (entries : List MemmapEntry) : Prop where
  init : InBitmap (Pmm.pmmInitWords entries)
  alloc : ∀ s, Run entries (fun _ _ => True) s → ∀ count, InBitmap (s.pmm.pmmAllocWords count)
  free : ∀ s, Run entries (fun _ _ => True) s → ∀ addr count,
    InBitmap (s.pmm.pmmFreeWords addr count)
  findContiguous : ∀ s, Run entries (fun _ _ => True) s → InBitmap s.pmm.pmmFindContiguousWords

/-- The bitmap is overrun exactly when the memory map reaches 4 GiB. -/
theorem staysInBitmap_iff {entries : List MemmapEntry}
    (hfit : ∀ e ∈ entries, e.base + e.length < 2 ^ 64) :
    StaysInBitmap entries ↔ ∀ e ∈ entries, e.base + e.length < 2 ^ 32 := by
  rw [← Pmm.highestAddr_lt_iff hfit, ← Pmm.inBitmap_init_iff]
  refine ⟨StaysInBitmap.init, fun hinit => ⟨hinit, ?_, ?_, ?_⟩⟩
  · exact fun s hrun count => Pmm.inBitmap_alloc (run_totalPages_le hrun) count
  · exact fun s hrun addr count => Pmm.inBitmap_free (run_totalPages_le hrun) addr count
  · exact fun s hrun => Pmm.inBitmap_findContiguous (run_totalPages_le hrun)

theorem staysInBitmap_small : StaysInBitmap VmRun.smallMemmap :=
  (staysInBitmap_iff (by decide)).mpr (by decide)

/-- A memory map that ends at 4 GiB: the word behind the bitmap is written. -/
theorem bitmap_overrun : ¬ ∀ entries : List MemmapEntry,
    (∀ e ∈ entries, e.base + e.length < 2 ^ 64) → StaysInBitmap entries := by
  intro h
  have hinit := (h [⟨0, 2 ^ 32, .usable⟩] (by simp)).init
  have hword : 16384 ∈ Pmm.pmmInitWords [⟨0, 2 ^ 32, .usable⟩] :=
    List.mem_append_left _ (List.mem_range.mpr (by decide))
  exact absurd (hinit 16384 hword) (by decide)

end PmmRun
end Ggmk

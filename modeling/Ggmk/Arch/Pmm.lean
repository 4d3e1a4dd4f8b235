import Ggmk.Lib.Word

/-! The allocator of physical pages of `pmm.c`: one bit for each page of the address space,
set while the page is allocated or is not memory at all. -/
namespace Ggmk
open Word

/-- The types of an entry of the memory map that Limine hands over. -/
inductive MemmapType where
  | usable
  | reserved
  | acpiReclaimable
  | acpiNvs
  | badMemory
  | bootloaderReclaimable
  | kernelAndModules
  | framebuffer
  deriving DecidableEq

structure MemmapEntry where
  base : ℕ
  length : ℕ
  type : MemmapType

/-- Page `p` lies inside a usable entry. -/
def InUsable (entries : List MemmapEntry) (p : ℕ) : Prop :=
  ∃ e ∈ entries, e.type = .usable ∧ e.base ≤ p * 4096 ∧ (p + 1) * 4096 ≤ e.base + e.length

instance (entries : List MemmapEntry) : DecidablePred (InUsable entries) :=
  fun _ => inferInstanceAs (Decidable (∃ e ∈ entries, _))

/-- A set bit is a page that is not free. `handed` is the history of the pages that
`pmm_alloc_pages` has returned. -/
structure Pmm where
  bitmap : ℕ → Bool
  totalPages : ℕ
  usablePages : ℕ
  freePages : ℕ
  handed : List ℕ

/-- Up to 4 GiB. -/
def maxPages : ℕ := 1024 * 1024

namespace Pmm

def highestAddr (entries : List MemmapEntry) : ℕ :=
  entries.foldl (fun highest e => max highest (uint64 (e.base + e.length))) 0

/-- The second pass of `pmm_init` at one page. -/
def initPage (s : Pmm) (page : ℕ) : Pmm :=
  if page < s.totalPages then
    { s with bitmap := Function.update s.bitmap page false, freePages := s.freePages + 1 }
  else s

/-- The second pass at one entry, whose bounds are rounded to whole pages. -/
def initEntry (s : Pmm) (e : MemmapEntry) : Pmm :=
  if e.type = .usable then
    let base := uint64 (e.base + 4095) / 4096
    let top := uint64 (e.base + e.length) / 4096
    (List.range' base (top - base)).foldl initPage s
  else s

def pmmInit (entries : List MemmapEntry) : Pmm :=
  let total := min (highestAddr entries / 4096) maxPages
  let s := entries.foldl initEntry
    ⟨fun page => decide (page < (total / 64 + 1) * 64), total, 0, 0, []⟩
  { s with usablePages := s.freePages }

/-- The first-fit search over the `n` pages from `i` on, after `run` free pages from `start`. -/
def search (bitmap : ℕ → Bool) (count : ℕ) : (n i run start : ℕ) → Option ℕ
  | 0, _, _, _ => none
  | n + 1, i, run, start =>
      if bitmap i then search bitmap count n (i + 1) 0 start
      else
        let start := if run = 0 then i else start
        if run + 1 = count then some start
        else search bitmap count n (i + 1) (run + 1) start

/-- The pages from `start` on are handed out. -/
def take (s : Pmm) (start count : ℕ) : Pmm :=
  { s with
    bitmap := fun page => if start ≤ page ∧ page < start + count then true else s.bitmap page
    freePages := s.freePages - count
    handed := s.handed ++ List.range' start count }

/-- Returns the physical address, or 0. -/
def pmmAllocPages (s : Pmm) (count : ℕ) : ℕ × Pmm :=
  if count = 0 ∨ s.freePages < count then (0, s)
  else match search s.bitmap count s.totalPages 0 0 0 with
    | some start => (start * 4096, s.take start count)
    | none => (0, s)

def freePage (s : Pmm) (page : ℕ) : Pmm :=
  if s.bitmap page then
    { s with bitmap := Function.update s.bitmap page false, freePages := s.freePages + 1 }
  else s

def pmmFreePages (s : Pmm) (addr count : ℕ) : Pmm :=
  let start := addr / 4096
  (List.range' start (min (uint64 (start + count)) s.totalPages - start)).foldl freePage s

/-! ## What an allocation and a free do -/

/-- The search finds a run of free pages below its end. -/
theorem search_spec {bitmap : ℕ → Bool} {count n i run start j : ℕ} (hrun : run ≤ i)
    (hclear : ∀ p, i - run ≤ p → p < i → bitmap p = false) (hstart : run ≠ 0 → start = i - run)
    (h : search bitmap count n i run start = some j) :
    j + count ≤ i + n ∧ ∀ p, j ≤ p → p < j + count → bitmap p = false := by
  induction n generalizing i run start with
  | zero => exact absurd h (by simp [search])
  | succ n ih =>
    simp only [search] at h
    by_cases hbit : bitmap i = true
    · rw [if_pos hbit] at h
      obtain ⟨hle, hfree⟩ := ih (by omega) (by omega) (by omega) h
      exact ⟨by omega, hfree⟩
    · rw [if_neg hbit] at h
      have hst : (if run = 0 then i else start) = i - run := by
        split
        · omega
        · exact hstart (by assumption)
      have hnext : ∀ p, i - run ≤ p → p < i + 1 → bitmap p = false := by
        intro p hp1 hp2
        by_cases hpi : p = i
        · rw [hpi]
          exact Bool.eq_false_iff.mpr hbit
        · exact hclear p hp1 (by omega)
      rw [hst] at h
      split at h
      · rename_i hcount
        obtain rfl := Option.some.inj h
        refine ⟨by omega, ?_⟩
        intro p hp1 hp2
        exact hnext p hp1 (by omega)
      · obtain ⟨hle, hfree⟩ := ih (by omega)
          (fun p hp1 hp2 => hnext p (by omega) hp2) (by omega) h
        exact ⟨by omega, hfree⟩

/-- An allocation fails and changes nothing, or takes a run of free pages. -/
theorem pmmAllocPages_cases (s : Pmm) (count : ℕ) :
    s.pmmAllocPages count = (0, s) ∨ ∃ start, 0 < count ∧ count ≤ s.freePages ∧
      start + count ≤ s.totalPages ∧ (∀ p, start ≤ p → p < start + count → s.bitmap p = false) ∧
      s.pmmAllocPages count = (start * 4096, s.take start count) := by
  unfold pmmAllocPages
  split
  · exact .inl rfl
  · rename_i hcount
    cases hs : search s.bitmap count s.totalPages 0 0 0 with
    | none => exact .inl rfl
    | some start =>
      obtain ⟨hle, hfree⟩ := search_spec le_rfl (by omega) (by omega) hs
      exact .inr ⟨start, by omega, by omega, by omega, hfree, rfl⟩

/-- One page that is not page zero was free and is in use. -/
theorem alloc_one {s s' : Pmm} {phys : ℕ} (h : s.pmmAllocPages 1 = (phys, s')) (hphys : phys ≠ 0) :
    ∃ page, phys = page * 4096 ∧ page < s.totalPages ∧ s.bitmap page = false ∧
      s' = s.take page 1 := by
  rcases s.pmmAllocPages_cases 1 with hfail | ⟨start, -, -, hle, hfree, hok⟩
  · rw [hfail] at h
    exact absurd (Prod.mk.inj h).1.symm hphys
  · rw [hok] at h
    obtain ⟨rfl, rfl⟩ := Prod.mk.inj h
    exact ⟨start, rfl, by omega, hfree start le_rfl (by omega), rfl⟩

@[simp] theorem freePage_totalPages (s : Pmm) (page : ℕ) :
    (s.freePage page).totalPages = s.totalPages := by
  unfold freePage
  split <;> rfl

theorem freePage_bitmap (s : Pmm) (page p : ℕ) :
    (s.freePage page).bitmap p = if p = page then false else s.bitmap p := by
  unfold freePage
  split
  · simp [Function.update_apply]
  · rename_i hbit
    by_cases hp : p = page
    · simp [hp, hbit]
    · simp [hp]

/-- Freeing one page. -/
theorem pmmFreePages_one (s : Pmm) {page : ℕ} (hpage : page + 1 < 2 ^ 64) :
    s.pmmFreePages (page * 4096) 1 = if page < s.totalPages then s.freePage page else s := by
  simp only [pmmFreePages, Nat.mul_div_cancel _ (show 0 < 4096 by norm_num), uint64_of_lt hpage]
  split
  · rename_i hlt
    rw [Nat.min_eq_left (by omega), Nat.add_sub_cancel_left]
    rfl
  · rename_i hge
    rw [Nat.min_eq_right (by omega), Nat.sub_eq_zero_of_le (by omega)]
    rfl

end Pmm
end Ggmk

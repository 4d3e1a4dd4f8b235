import Ggmk.Alloc.Unified
import Ggmk.Lib.Reach

/-! The bump allocator of `alloc_bump.c`: one caller at a time, and any number of callers whose
`fetch_add` and roll-back interleave. -/
namespace Ggmk
open Word Guarded

/-- The offset is moved first and moved back if the block would not fit. -/
def gmkBumpAlloc (b : Bump) (size : ℕ) : Option ℕ × Bump :=
  if size = 0 then (none, b)
  else
    let size := alignUp8 size
    let off := b.offset
    let newOff := u32 (off + size)
    if u32 b.size < newOff then (none, { b with offset := sub32 newOff size })
    else (some (b.base + off), { b with offset := newOff, highWater := max b.highWater newOff })

def gmkBumpReset (b : Bump) : Bump := { b with offset := 0 }

def gmkBump (a : Alloc) (size : ℕ) : Option ℕ × Alloc :=
  ((gmkBumpAlloc a.bump size).1, { a with bump := (gmkBumpAlloc a.bump size).2 })

def gmkBumpResetAll (a : Alloc) : Alloc := { a with bump := gmkBumpReset a.bump }

/-- The allocator, the sizes of the calls that have failed and not moved the offset back yet,
and the blocks of the calls that have succeeded. -/
structure BumpThreads where
  bump : Bump
  pending : Multiset ℕ
  blocks : List (ℕ × ℕ)

inductive BumpAct where
  -- the `fetch_add` of a call and its bounds check
  | reserve (size : ℕ)
  -- the `fetch_sub` of a call that has failed
  | rollBack (size : ℕ)

namespace BumpThreads

def reserve (s : BumpThreads) (size : ℕ) : BumpThreads :=
  let off := s.bump.offset
  let newOff := u32 (off + size)
  if u32 s.bump.size < newOff then
    { s with
      bump := { s.bump with offset := newOff }
      pending := size ::ₘ s.pending }
  else
    { s with
      bump := { s.bump with offset := newOff, highWater := max s.bump.highWater newOff }
      blocks := (s.bump.base + off, size) :: s.blocks }

def rollBack (s : BumpThreads) (size : ℕ) : BumpThreads :=
  { s with
    bump := { s.bump with offset := sub32 s.bump.offset size }
    pending := s.pending.erase size }

/-- The steps of calls in which no 32-bit sum wraps. -/
inductive Step : BumpThreads → BumpAct → BumpThreads → Prop
  | reserve {s : BumpThreads} {size : ℕ} (hpos : size ≠ 0) (hround : size + 7 < 2 ^ 32)
      (hsum : s.bump.offset + alignUp8 size < 2 ^ 32) :
      Step s (.reserve size) (s.reserve (alignUp8 size))
  | rollBack {s : BumpThreads} {size : ℕ} (hmem : size ∈ s.pending) :
      Step s (.rollBack size) (s.rollBack size)

def start (b : Bump) : BumpThreads := ⟨b, 0, []⟩

/-- The blocks are inside the region and no two of them share a byte. -/
structure Separated (s : BumpThreads) : Prop where
  inside : ∀ b ∈ s.blocks, bytes b.1 b.2 ⊆ bytes s.bump.base s.bump.size
  apart : s.blocks.Pairwise fun b c => Disjoint (bytes b.1 b.2) (bytes c.1 c.2)

/-- The two steps of a call that no other call interrupts are `gmk_bump_alloc` as a whole. -/
theorem gmkBumpAlloc_eq (b : Bump) {size : ℕ} (hpos : size ≠ 0) : gmkBumpAlloc b size =
    if ((start b).reserve (alignUp8 size)).pending = 0 then
      (((start b).reserve (alignUp8 size)).blocks.head?.map Prod.fst,
        ((start b).reserve (alignUp8 size)).bump)
    else (none, (((start b).reserve (alignUp8 size)).rollBack (alignUp8 size)).bump) := by
  by_cases hfull : u32 b.size < u32 (b.offset + alignUp8 size)
  · simp [gmkBumpAlloc, hpos, reserve, start, hfull, rollBack]
  · simp [gmkBumpAlloc, hpos, reserve, start, hfull]

/-- A reservation that fits is made only while no failed one waits for its roll-back. -/
def Settled (s : BumpThreads) : BumpAct → Prop
  | .reserve size => s.pending ≠ 0 → u32 s.bump.size < s.bump.offset + alignUp8 size
  | .rollBack _ => True

instance (s : BumpThreads) : (act : BumpAct) → Decidable (Settled s act)
  | .reserve size => inferInstanceAs
      (Decidable (s.pending ≠ 0 → u32 s.bump.size < s.bump.offset + alignUp8 size))
  | .rollBack _ => .isTrue trivial

/-- The blocks end at `top`, and the offset is ahead of it by what the failed calls have
reserved. -/
structure Inv (s : BumpThreads) (top : ℕ) : Prop where
  offset : s.bump.offset = top + s.pending.sum
  top_le : top ≤ u32 s.bump.size
  below : ∀ b ∈ s.blocks, s.bump.base ≤ b.1 ∧ b.1 + b.2 ≤ s.bump.base + top
  apart : s.blocks.Pairwise fun b c => Disjoint (bytes b.1 b.2) (bytes c.1 c.2)
  offset_lt : s.bump.offset < 2 ^ 32

section Stacked
variable {base top size n : ℕ} {blocks : List (ℕ × ℕ)}

/-- A block laid behind the others is below the new top. -/
theorem below_cons (hbelow : ∀ b ∈ blocks, base ≤ b.1 ∧ b.1 + b.2 ≤ base + top) (hn : size ≤ n) :
    ∀ b ∈ (base + top, size) :: blocks, base ≤ b.1 ∧ b.1 + b.2 ≤ base + (top + n) := by
  intro b hb
  rcases List.mem_cons.mp hb with rfl | hb
  · simp only
    omega
  · obtain ⟨hlo, hhi⟩ := hbelow b hb
    omega

theorem apart_cons (hbelow : ∀ b ∈ blocks, base ≤ b.1 ∧ b.1 + b.2 ≤ base + top)
    (hapart : blocks.Pairwise fun b c => Disjoint (bytes b.1 b.2) (bytes c.1 c.2)) :
    ((base + top, size) :: blocks).Pairwise fun b c =>
      Disjoint (bytes b.1 b.2) (bytes c.1 c.2) := by
  apply List.pairwise_cons.mpr
  refine ⟨?_, hapart⟩
  intro b hb
  exact (bytes_disjoint (hbelow b hb).2).symm

end Stacked

section Steps
variable {s : BumpThreads} {top : ℕ}

theorem Inv.separated (h : Inv s top) : s.Separated := by
  refine ⟨?_, h.apart⟩
  intro b hb
  obtain ⟨hlo, hhi⟩ := h.below b hb
  have htop := h.top_le
  have hle : u32 s.bump.size ≤ s.bump.size := Nat.mod_le _ _
  exact bytes_subset hlo (by omega)

/-- A reservation that does not fit waits for its roll-back. -/
theorem Inv.reserve_full (h : Inv s top) {n : ℕ} (hsum : s.bump.offset + n < 2 ^ 32)
    (hfull : u32 s.bump.size < s.bump.offset + n) : Inv (s.reserve n) top := by
  have hoff := h.offset
  rw [reserve]
  simp only [u32_of_lt hsum, if_pos hfull]
  refine ⟨?_, h.top_le, h.below, h.apart, hsum⟩
  simp only [Multiset.sum_cons]
  omega

/-- A reservation that fits, while none waits, takes the bytes behind the last block. -/
theorem Inv.reserve_fits (h : Inv s top) {n : ℕ} (hsum : s.bump.offset + n < 2 ^ 32)
    (hfit : s.bump.offset + n ≤ u32 s.bump.size) (hnone : s.pending = 0) :
    Inv (s.reserve n) (top + n) := by
  have hoff := h.offset
  rw [hnone, Multiset.sum_zero, Nat.add_zero] at hoff
  rw [reserve]
  simp only [u32_of_lt hsum, if_neg (not_lt.mpr hfit)]
  rw [hoff] at hfit hsum ⊢
  exact ⟨by simp [hnone], hfit, below_cons h.below le_rfl, apart_cons h.below h.apart, hsum⟩

theorem Inv.rollBack (h : Inv s top) {n : ℕ} (hmem : n ∈ s.pending) : Inv (s.rollBack n) top := by
  have hoff := h.offset
  have hlt := h.offset_lt
  have hsum : n + (s.pending.erase n).sum = s.pending.sum := by
    rw [← Multiset.sum_cons, Multiset.cons_erase hmem]
  have hback : sub32 s.bump.offset n = top + (s.pending.erase n).sum := by
    unfold sub32 u32
    omega
  refine ⟨hback, h.top_le, h.below, h.apart, ?_⟩
  simp only [BumpThreads.rollBack, hback]
  omega

theorem Inv.step (h : Inv s top) {act : BumpAct} {s' : BumpThreads} (hg : Settled s act)
    (hstep : Step s act s') : ∃ top', Inv s' top' := by
  cases hstep with
  | @reserve size hpos hround hsum =>
    by_cases hfull : u32 s.bump.size < s.bump.offset + alignUp8 size
    · exact ⟨top, h.reserve_full hsum hfull⟩
    · refine ⟨top + alignUp8 size, h.reserve_fits hsum (not_lt.mp hfull) ?_⟩
      by_contra hne
      exact hfull (hg hne)
  | rollBack hmem => exact ⟨top, h.rollBack hmem⟩

end Steps

theorem start_inv {mem memSize : ℕ} {b : Bump} (h : gmkBumpInit mem memSize = some b) :
    Inv (start b) 0 := by
  unfold gmkBumpInit at h
  split at h
  next => simp at h
  next =>
    obtain rfl := Option.some.inj h
    exact ⟨rfl, Nat.zero_le _, by simp [start], by simp [start], by simp [start]⟩

/-- In every interleaving in which a reservation that fits is made only while no failed one
waits for its roll-back, the blocks are disjoint and inside the region. -/
theorem blocks_separated {mem memSize : ℕ} {b : Bump} (hb : gmkBumpInit mem memSize = some b)
    {s : BumpThreads} (hrun : Reach Step Settled (start b) s) : s.Separated := by
  have hinv : ∃ top, Inv s top := by
    apply hrun.inv ⟨0, start_inv hb⟩
    rintro s act s' ⟨top, h⟩ hg hs
    exact h.step hg hs
  obtain ⟨top, h⟩ := hinv
  exact h.separated

/-- A region of 24 bytes. -/
def smallBump : Bump := ⟨64, 24, 0, 0⟩

theorem smallBump_init : gmkBumpInit 64 24 = some smallBump := rfl

/-- A call that fails between two that succeed. -/
theorem blocks_separated_small : ∃ s, Reach Step Settled (start smallBump) s ∧
    s.blocks = [(72, 16), (64, 8)] ∧ s.Separated := by
  have h1 : Reach Step Settled (start smallBump) _ :=
    .next (.reserve 8) .start (by decide) (.reserve (by decide) (by decide) (by decide))
  have h2 := h1.next (BumpAct.reserve 32) (by decide) (.reserve (by decide) (by decide) (by decide))
  have h3 := h2.next (BumpAct.rollBack 32) trivial (.rollBack (by decide))
  have h4 := h3.next (BumpAct.reserve 16) (by decide) (.reserve (by decide) (by decide) (by decide))
  exact ⟨_, h4, by decide, blocks_separated smallBump_init h4⟩

/-- Two calls have failed, one of them has rolled back and left a gap below the offset: a third
call succeeds beyond the gap, and its block is handed out again once the gap is closed. -/
theorem blocks_overlap : ∃ s, Reach Step (fun _ _ => True) (start smallBump) s ∧
    ¬ s.Separated := by
  have h1 : Reach Step (fun _ _ => True) (start smallBump) _ :=
    .next (.reserve 8) .start trivial (.reserve (by decide) (by decide) (by decide))
  have h2 := h1.next (BumpAct.reserve 32) trivial (.reserve (by decide) (by decide) (by decide))
  have h3 := h2.next (BumpAct.reserve 8) trivial (.reserve (by decide) (by decide) (by decide))
  have h4 := h3.next (BumpAct.rollBack 32) trivial (.rollBack (by decide))
  have h5 := h4.next (BumpAct.reserve 8) trivial (.reserve (by decide) (by decide) (by decide))
  have h6 := h5.next (BumpAct.rollBack 8) trivial (.rollBack (by decide))
  have h7 := h6.next (BumpAct.reserve 8) trivial (.reserve (by decide) (by decide) (by decide))
  refine ⟨_, h7, ?_⟩
  intro hsep
  have hapart := (List.pairwise_cons.mp hsep.apart).1 (80, 8) (by decide)
  exact Set.disjoint_left.mp hapart (show 80 ∈ bytes 80 8 from ⟨le_rfl, by decide⟩)
    ⟨le_rfl, by decide⟩

end BumpThreads
end Ggmk

import Ggmk.Alloc.Bump

/-! The bump allocator called by one thread with sizes of the full 32 bits, and reset in between.
The size is rounded up, added to the offset and compared with the limit on 32 bits. -/
namespace Ggmk
open Word Guarded

/-- The allocator with the blocks handed out since the last reset, each with the number of bytes
that was asked for. -/
structure BumpRun where
  bump : Bump
  blocks : List (ℕ × ℕ)

inductive BumpOp where
  | alloc (size : UInt32)
  | reset

namespace BumpRun

def step (s : BumpRun) : BumpOp → BumpRun
  | .alloc size =>
      match gmkBumpAlloc s.bump size.toNat with
      | (some p, b) => ⟨b, (p, size.toNat) :: s.blocks⟩
      | (none, b) => { s with bump := b }
  | .reset => ⟨gmkBumpReset s.bump, []⟩

def start (b : Bump) : BumpRun := ⟨b, []⟩

/-- The blocks have the bytes that were asked for, inside the region and apart from each other, and
a call that fails leaves the offset where it was. -/
structure Sound (s : BumpRun) : Prop where
  inside : ∀ b ∈ s.blocks, bytes b.1 b.2 ⊆ bytes s.bump.base s.bump.size
  apart : s.blocks.Pairwise fun b c => Disjoint (bytes b.1 b.2) (bytes c.1 c.2)
  failing : ∀ size : UInt32, (gmkBumpAlloc s.bump size.toNat).1 = none →
    (gmkBumpAlloc s.bump size.toNat).2.offset = s.bump.offset

/-- Neither the rounding of the size nor the sum with the offset wraps. -/
def NoWrap (s : BumpRun) : BumpOp → Prop
  | .alloc size => size.toNat + 7 < 2 ^ 32 ∧ s.bump.offset + alignUp8 size.toNat < 2 ^ 32
  | .reset => True

/-- The blocks are below the offset, and each multiple of eight below it is a byte of a block. -/
structure Inv (s : BumpRun) : Prop where
  offset_le : s.bump.offset ≤ u32 s.bump.size
  aligned : s.bump.offset % 8 = 0
  below : ∀ b ∈ s.blocks, s.bump.base ≤ b.1 ∧ b.1 + b.2 ≤ s.bump.base + s.bump.offset
  apart : s.blocks.Pairwise fun b c => Disjoint (bytes b.1 b.2) (bytes c.1 c.2)
  covered : ∀ x < s.bump.offset, x % 8 = 0 → ∃ b ∈ s.blocks, s.bump.base + x ∈ bytes b.1 b.2

section Steps
variable {s : BumpRun}

theorem Inv.offset_lt (h : s.Inv) : s.bump.offset < 2 ^ 32 := h.offset_le.trans_lt (u32_lt _)

/-- What a call on 32 bits does: nothing, or a block at the offset. -/
theorem gmkBumpAlloc_cases (b : Bump) (size : ℕ) (hoff : b.offset < 2 ^ 32) :
    (gmkBumpAlloc b size = (none, b) ∧
      (size = 0 ∨ u32 b.size < u32 (b.offset + alignUp8 size))) ∨
    (size ≠ 0 ∧ u32 (b.offset + alignUp8 size) ≤ u32 b.size ∧
      gmkBumpAlloc b size = (some (b.base + b.offset), { b with
        offset := u32 (b.offset + alignUp8 size)
        highWater := max b.highWater (u32 (b.offset + alignUp8 size)) })) := by
  unfold gmkBumpAlloc
  by_cases hzero : size = 0
  · left
    rw [if_pos hzero]
    exact ⟨rfl, .inl hzero⟩
  rw [if_neg hzero]
  by_cases hfull : u32 b.size < u32 (b.offset + alignUp8 size)
  · left
    have hback : sub32 (u32 (b.offset + alignUp8 size)) (alignUp8 size) = b.offset := by
      unfold sub32 u32
      omega
    refine ⟨?_, .inr hfull⟩
    simp only [if_pos hfull, hback]
  · right
    refine ⟨hzero, not_lt.mp hfull, ?_⟩
    simp only [if_neg hfull]

theorem gmkBumpAlloc_fits (b : Bump) {size : ℕ} (hoff : b.offset < 2 ^ 32) (hsize : size ≠ 0)
    (hfit : u32 (b.offset + alignUp8 size) ≤ u32 b.size) :
    ∃ water, gmkBumpAlloc b size = (some (b.base + b.offset),
      { b with offset := u32 (b.offset + alignUp8 size), highWater := water }) := by
  rcases gmkBumpAlloc_cases b size hoff with ⟨-, hzero | hfull⟩ | ⟨-, -, heq⟩
  · exact absurd hzero hsize
  · omega
  · exact ⟨_, heq⟩

/-- A failing call leaves the whole allocator as it was. -/
theorem gmkBumpAlloc_none {b : Bump} {size : ℕ} (hoff : b.offset < 2 ^ 32)
    (h : (gmkBumpAlloc b size).1 = none) : (gmkBumpAlloc b size).2 = b := by
  rcases gmkBumpAlloc_cases b size hoff with ⟨heq, -⟩ | ⟨-, -, heq⟩
  · rw [heq]
  · rw [heq] at h
    cases h

theorem Inv.sound (h : s.Inv) : s.Sound where
  inside := by
    intro b hb
    obtain ⟨hlo, hhi⟩ := h.below b hb
    have hoff := h.offset_le
    have hle : u32 s.bump.size ≤ s.bump.size := Nat.mod_le _ _
    exact bytes_subset hlo (by omega)
  apart := h.apart
  failing := fun size hnone => by rw [gmkBumpAlloc_none h.offset_lt hnone]

/-- A size that is rounded without a wrap grows by less than eight. -/
theorem alignUp8_bounds {n : ℕ} (h : n + 7 < 2 ^ 32) : n ≤ alignUp8 n ∧ alignUp8 n < n + 8 := by
  rw [alignUp8_eq, u32_of_lt h]
  omega

theorem Inv.alloc (h : s.Inv) {size : UInt32} (hg : s.NoWrap (.alloc size)) :
    (s.step (.alloc size)).Inv := by
  obtain ⟨hround, hsum⟩ := hg
  obtain ⟨hge, hlt⟩ := alignUp8_bounds hround
  have hmod := alignUp8_mod size.toNat
  have haligned := h.aligned
  simp only [BumpRun.step]
  rcases gmkBumpAlloc_cases s.bump size.toNat h.offset_lt with ⟨heq, -⟩ | ⟨hpos, hfit, heq⟩
  · rw [heq]
    exact h
  rw [u32_of_lt hsum] at heq hfit
  rw [heq]
  refine ⟨hfit, by simp only; omega, BumpThreads.below_cons h.below hge,
    BumpThreads.apart_cons h.below h.apart, ?_⟩
  intro x hx hx8
  by_cases hold : x < s.bump.offset
  · obtain ⟨b, hb, hmem⟩ := h.covered x hold hx8
    exact ⟨b, List.mem_cons_of_mem _ hb, hmem⟩
  · -- the last multiple of eight of the new block is below its size
    simp only at hx
    exact ⟨_, List.mem_cons_self, by simp only; omega, by simp only; omega⟩

theorem reset_inv (s : BumpRun) : (s.step .reset).Inv :=
  ⟨Nat.zero_le _, rfl, by simp [BumpRun.step], by simp [BumpRun.step],
    fun x hx => absurd hx (Nat.not_lt_zero x)⟩

theorem Inv.step (h : s.Inv) {op : BumpOp} (hg : s.NoWrap op) : (s.step op).Inv := by
  cases op with
  | alloc size => exact h.alloc hg
  | reset => exact reset_inv s

/-- A call whose rounded size wraps to zero gives the same block again. -/
theorem Inv.twice (h : s.Inv) {size : UInt32} (hwrap : 2 ^ 32 ≤ size.toNat + 7) :
    ¬ ((s.step (.alloc size)).step (.alloc size)).Sound := by
  have hsize := size.toNat_lt
  have hround : alignUp8 size.toNat = 0 := by
    rw [alignUp8_eq]
    unfold u32
    omega
  have hcall (b : Bump) (hoff : b.offset ≤ u32 b.size) : ∃ water,
      gmkBumpAlloc b size.toNat = (some (b.base + b.offset), { b with highWater := water }) := by
    have hlt := hoff.trans_lt (u32_lt _)
    have hsum : u32 (b.offset + alignUp8 size.toNat) = b.offset := by
      rw [hround, Nat.add_zero, u32_of_lt hlt]
    obtain ⟨water, hcall⟩ := gmkBumpAlloc_fits b hlt (show size.toNat ≠ 0 by omega) (by omega)
    rw [hsum] at hcall
    exact ⟨water, hcall⟩
  obtain ⟨water, hfirst⟩ := hcall s.bump h.offset_le
  obtain ⟨water', hsecond⟩ := hcall { s.bump with highWater := water } h.offset_le
  intro hsound
  have hapart := hsound.apart
  simp only [BumpRun.step, hfirst, hsecond, List.pairwise_cons] at hapart
  have hself := hapart.1 _ List.mem_cons_self
  have hbyte : s.bump.base + s.bump.offset ∈ bytes (s.bump.base + s.bump.offset) size.toNat :=
    ⟨le_rfl, by omega⟩
  exact Set.disjoint_left.mp hself hbyte hbyte

/-- A call whose new offset wraps puts the offset back among the blocks. -/
theorem Inv.reused (h : s.Inv) {size : UInt32} (hround : size.toNat + 7 < 2 ^ 32)
    (hwrap : 2 ^ 32 ≤ s.bump.offset + alignUp8 size.toNat) :
    ¬ ((s.step (.alloc size)).step (.alloc 1)).Sound := by
  have hoff := h.offset_lt
  have hle := h.offset_le
  have haligned := h.aligned
  have hmod := alignUp8_mod size.toNat
  obtain ⟨-, hlt⟩ := alignUp8_bounds hround
  have hnew : u32 (s.bump.offset + alignUp8 size.toNat) + 8 ≤ s.bump.offset := by
    unfold u32
    omega
  have hnew8 : u32 (s.bump.offset + alignUp8 size.toNat) % 8 = 0 := by
    unfold u32
    omega
  set off := u32 (s.bump.offset + alignUp8 size.toNat) with hnext
  obtain ⟨water, hfirst⟩ := gmkBumpAlloc_fits s.bump hoff (show size.toNat ≠ 0 by omega)
    (show off ≤ u32 s.bump.size by omega)
  rw [← hnext] at hfirst
  have hfit : u32 (off + alignUp8 (1 : UInt32).toNat) ≤ u32 s.bump.size := by
    rw [show alignUp8 (1 : UInt32).toNat = 8 from rfl, u32_of_lt (by omega)]
    omega
  have hsecond : ∃ b, gmkBumpAlloc { s.bump with offset := off, highWater := water }
      (1 : UInt32).toNat = (some (s.bump.base + off), b) := by
    obtain ⟨_, heq⟩ := gmkBumpAlloc_fits { s.bump with offset := off, highWater := water }
      (show off < 2 ^ 32 by omega) (show (1 : UInt32).toNat ≠ 0 by decide) hfit
    exact ⟨_, heq⟩
  obtain ⟨b, hsecond⟩ := hsecond
  obtain ⟨c, hc, hbyte⟩ := h.covered off (by omega) hnew8
  intro hsound
  have hapart := hsound.apart
  simp only [BumpRun.step, hfirst, hsecond, List.pairwise_cons] at hapart
  have hblock := hapart.1 c (List.mem_cons_of_mem _ hc)
  exact Set.disjoint_left.mp hblock ⟨le_rfl, Nat.lt_succ_self _⟩ hbyte

end Steps

theorem start_inv {mem memSize : ℕ} {b : Bump} (h : gmkBumpInit mem memSize = some b) :
    (start b).Inv := by
  unfold gmkBumpInit at h
  split at h
  next => simp at h
  next =>
    obtain rfl := Option.some.inj h
    exact ⟨Nat.zero_le _, rfl, by simp [start], by simp [start],
      fun x hx => absurd hx (Nat.not_lt_zero x)⟩

/-- In every run in which no size and no offset wraps, the blocks are as large as asked for, inside
the region and disjoint. The first call that wraps ends that: it or the next call hands out bytes
that are taken. -/
theorem bump_sound {mem memSize : ℕ} {b : Bump} (hb : gmkBumpInit mem memSize = some b)
    {s : BumpRun} (hrun : Reach (fun s op s' => s' = s.step op) NoWrap (start b) s) :
    s.Sound ∧ ∀ size : UInt32, ¬ s.NoWrap (.alloc size) →
      ∃ next : UInt32, ¬ ((s.step (.alloc size)).step (.alloc next)).Sound := by
  have hinv : s.Inv := by
    refine hrun.inv (start_inv hb) ?_
    rintro s op _ h hg rfl
    exact h.step hg
  refine ⟨hinv.sound, ?_⟩
  intro size hwrap
  by_cases hround : size.toNat + 7 < 2 ^ 32
  · refine ⟨1, hinv.reused hround ?_⟩
    by_contra hlt
    exact hwrap ⟨hround, not_le.mp hlt⟩
  · exact ⟨size, hinv.twice (not_lt.mp hround)⟩

/-- A region of 24 bytes with three calls, one of which fails. -/
theorem bump_sound_small :
    (List.foldl step (start BumpThreads.smallBump)
      [.alloc 5, .alloc 32, .alloc 16]).blocks = [(72, 16), (64, 5)] ∧
    (List.foldl step (start BumpThreads.smallBump) [.alloc 5, .alloc 32, .alloc 16]).Sound := by
  have hobeys : Obeys step NoWrap (start BumpThreads.smallBump)
      [.alloc 5, .alloc 32, .alloc 16] := by
    simp only [Obeys, NoWrap]
    decide +kernel
  exact ⟨by decide +kernel, (bump_sound BumpThreads.smallBump_init (Reach.foldl hobeys .start)).1⟩

/-- A request for `2 ^ 32 - 1` bytes is rounded to none and served from 24 bytes. -/
theorem bump_unsound : ∃ s : BumpRun, Reach (fun s op s' => s' = s.step op) (fun _ _ => True)
    (start BumpThreads.smallBump) s ∧ s.blocks = [(64, 2 ^ 32 - 1)] ∧ ¬ s.Sound := by
  refine ⟨_, .next (.alloc (2 ^ 32 - 1)) .start trivial rfl, by decide +kernel, ?_⟩
  intro hsound
  have hin := hsound.inside (64, 2 ^ 32 - 1) (by decide +kernel)
  have hbyte : 100 ∈ bytes 64 (2 ^ 32 - 1) := ⟨by norm_num, by norm_num⟩
  have hlast : 100 < 64 + 24 := (hin hbyte).2
  omega

end BumpRun
end Ggmk

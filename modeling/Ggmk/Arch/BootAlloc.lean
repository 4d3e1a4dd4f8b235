import Ggmk.Alloc.Slab
import Ggmk.Lib.ByteMem
import Ggmk.Lib.Reach

/-! The boot-time bump allocator (`src/arch/x86_64/boot_alloc.c`), called with sizes and counts of
the full 64 bits. -/
namespace Ggmk
open Word ByteMem Guarded

structure BootAlloc where
  base : ℕ
  size : ℕ
  offset : ℕ
  mem : Mem

/-- `(ba_offset + alignment - 1) & ~(alignment - 1)` -/
def BootAlloc.aligned (s : BootAlloc) (alignment : ℕ) : ℕ :=
  uint64 (s.offset + alignment + (2 ^ 64 - 1)) &&&
    (2 ^ 64 - 1 - uint64 (alignment + (2 ^ 64 - 1)))

def bootAllocInit (base size : ℕ) (mem : Mem) : BootAlloc := ⟨base, size, 0, mem⟩

def bootAlignedAlloc (s : BootAlloc) (alignment size : ℕ) : Option (ℕ × BootAlloc) :=
  if s.base = 0 ∨ size = 0 then none
  else
    let aligned := s.aligned alignment
    if s.size < uint64 (aligned + size) then none
    else
      let ptr := uint64 (s.base + aligned)
      some (ptr, { s with offset := uint64 (aligned + size), mem := clear s.mem ptr size })

def bootCalloc (s : BootAlloc) (count size : ℕ) : Option (ℕ × BootAlloc) :=
  bootAlignedAlloc s 8 (uint64 (count * size))

/-- `gmk_hal_calloc`. -/
def gmkHalCalloc (s : BootAlloc) (n size : ℕ) : Option (ℕ × BootAlloc) := bootCalloc s n size

/-- Calls with any arguments, the alignment being `2 ^ log` and at most a page. -/
inductive BootCall
  | alignedAlloc (log : Fin 13) (size : UInt64)
  | calloc (count size : UInt64)

namespace BootCall

/-- The exponent of the alignment. -/
def log : BootCall → ℕ
  | .alignedAlloc log _ => log
  | .calloc _ _ => 3

/-- The bytes asked for, without a bound. -/
def bytes : BootCall → ℕ
  | .alignedAlloc _ size => size.toNat
  | .calloc count size => count.toNat * size.toNat

def run (s : BootAlloc) : BootCall → Option (ℕ × BootAlloc)
  | .alignedAlloc log size => bootAlignedAlloc s (2 ^ (log : ℕ)) size.toNat
  | .calloc count size => bootCalloc s count.toNat size.toNat

theorem run_eq (s : BootAlloc) (c : BootCall) :
    c.run s = bootAlignedAlloc s (2 ^ c.log) (uint64 c.bytes) := by
  cases c with
  | alignedAlloc log size =>
    rw [run, bytes, uint64_of_lt size.toNat_lt]
    rfl
  | calloc count size => rfl

theorem log_le (c : BootCall) : c.log ≤ 12 := by
  cases c with
  | alignedAlloc log size => exact Nat.lt_succ_iff.mp log.isLt
  | calloc count size => exact (by norm_num : 3 ≤ 12)

end BootCall

/-- A result with the alignment and the number of bytes that were asked for. -/
structure BootBlock where
  ptr : ℕ
  alignment : ℕ
  bytes : ℕ

def BootBlock.area (b : BootBlock) : Set ℕ := Ggmk.bytes b.ptr b.bytes

structure BootRun where
  alloc : BootAlloc
  blocks : List BootBlock

namespace BootRun

def start (base size : ℕ) (mem : Mem) : BootRun := ⟨bootAllocInit base size mem, []⟩

def step (s : BootRun) (c : BootCall) : BootRun :=
  match c.run s.alloc with
  | some (ptr, alloc) => ⟨alloc, ⟨ptr, 2 ^ c.log, c.bytes⟩ :: s.blocks⟩
  | none => s

/-- Every result is aligned, lies with its bytes inside the region, and apart from the others. -/
structure Sound (s : BootRun) : Prop where
  aligned : ∀ b ∈ s.blocks, b.ptr % b.alignment = 0
  inside : ∀ b ∈ s.blocks, b.area ⊆ bytes s.alloc.base s.alloc.size
  apart : s.blocks.Pairwise fun b c => Disjoint b.area c.area

/-- `boot_aligned_alloc` returns null. -/
def Refused (s : BootRun) (c : BootCall) : Prop :=
  s.alloc.base = 0 ∨ uint64 c.bytes = 0 ∨
    s.alloc.size < uint64 (s.alloc.aligned (2 ^ c.log) + uint64 c.bytes)

/-- The sum of the rounded offset and the bytes asked for does not wrap, or the call is refused in
spite of a wrap. -/
def Fits (s : BootRun) (c : BootCall) : Prop :=
  s.alloc.aligned (2 ^ c.log) + c.bytes < 2 ^ 64 ∨ s.Refused c

end BootRun

/-- The mask of a power of two clears the bits below it. -/
theorem and_not_mask {x k : ℕ} (hx : x < 2 ^ 64) (hk : k ≤ 64) :
    x &&& (2 ^ 64 - 2 ^ k) = x / 2 ^ k * 2 ^ k := by
  have hsplit : 2 ^ 64 - 2 ^ k = (2 ^ (64 - k) - 1) * 2 ^ k := by
    rw [Nat.sub_mul, ← pow_add, Nat.sub_add_cancel hk, Nat.one_mul]
  have hlow := Nat.and_mod_two_pow (a := x) (b := 2 ^ 64 - 2 ^ k) (n := k)
  have hhigh := Nat.and_div_two_pow (a := x) (b := 2 ^ 64 - 2 ^ k) (n := k)
  have hdiv : x / 2 ^ k < 2 ^ (64 - k) := by
    rw [Nat.div_lt_iff_lt_mul (by positivity), ← pow_add, Nat.sub_add_cancel hk]
    exact hx
  rw [hsplit, Nat.mul_mod_left, Nat.and_zero] at hlow
  rw [hsplit, Nat.mul_div_cancel _ (by positivity), Nat.and_two_pow_sub_one_eq_mod,
    Nat.mod_eq_of_lt hdiv] at hhigh
  rw [hsplit, ← hhigh, Nat.div_mul_cancel (Nat.dvd_of_mod_eq_zero hlow)]

/-- The rounded offset is the next multiple, where the rounding does not wrap. -/
theorem BootAlloc.aligned_eq {s : BootAlloc} {k : ℕ} (hk : k ≤ 12)
    (h : s.offset + 4095 < 2 ^ 64) :
    s.aligned (2 ^ k) = (s.offset + 2 ^ k - 1) / 2 ^ k * 2 ^ k := by
  have hpos : 0 < 2 ^ k := by positivity
  have hle : 2 ^ k ≤ 4096 := Nat.pow_le_pow_right (by norm_num) hk
  have hsum : uint64 (s.offset + 2 ^ k + (2 ^ 64 - 1)) = s.offset + 2 ^ k - 1 := by
    unfold uint64
    omega
  have hmask : 2 ^ 64 - 1 - uint64 (2 ^ k + (2 ^ 64 - 1)) = 2 ^ 64 - 2 ^ k := by
    unfold uint64
    omega
  rw [BootAlloc.aligned, hsum, hmask, and_not_mask (by omega) (by omega)]

namespace BootRun
variable {s : BootRun} {c : BootCall}

theorem step_refused (h : s.Refused c) : c.run s.alloc = none ∧ s.step c = s := by
  have hrun : c.run s.alloc = none := by
    rw [BootCall.run_eq, bootAlignedAlloc]
    by_cases hnull : s.alloc.base = 0 ∨ uint64 c.bytes = 0
    · rw [if_pos hnull]
    · rw [if_neg hnull]
      exact if_pos (h.resolve_left (fun hb => hnull (.inl hb)) |>.resolve_left
        fun hz => hnull (.inr hz))
  exact ⟨hrun, by rw [step, hrun]⟩

theorem step_taken (h : ¬ s.Refused c) :
    c.run s.alloc = some (uint64 (s.alloc.base + s.alloc.aligned (2 ^ c.log)),
      { s.alloc with
        offset := uint64 (s.alloc.aligned (2 ^ c.log) + uint64 c.bytes)
        mem := clear s.alloc.mem (uint64 (s.alloc.base + s.alloc.aligned (2 ^ c.log)))
          (uint64 c.bytes) }) := by
  unfold Refused at h
  rw [not_or, not_or] at h
  rw [BootCall.run_eq, bootAlignedAlloc, if_neg (not_or.mpr ⟨h.1, h.2.1⟩)]
  exact if_neg h.2.2

/-- The blocks are below the offset. -/
structure Inv (s : BootRun) : Prop where
  base_mod : s.alloc.base % 4096 = 0
  room : s.alloc.base + s.alloc.size ≤ 2 ^ 64
  offset_le : s.alloc.offset ≤ s.alloc.size
  aligned : ∀ b ∈ s.blocks, b.ptr % b.alignment = 0
  below : ∀ b ∈ s.blocks, s.alloc.base ≤ b.ptr ∧ b.ptr + b.bytes ≤ s.alloc.base + s.alloc.offset
  apart : s.blocks.Pairwise fun b c => Disjoint b.area c.area

theorem Inv.sound (h : s.Inv) : s.Sound := by
  refine ⟨h.aligned, fun b hb => ?_, h.apart⟩
  obtain ⟨hlo, hhi⟩ := h.below b hb
  have hoff := h.offset_le
  exact bytes_subset hlo (by omega)

/-- The rounded offset lies behind the offset, less than a page of it, and is a multiple of the
alignment as is the base. -/
theorem Inv.aligned_spec (h : s.Inv) (hbase : s.alloc.base ≠ 0) (c : BootCall) :
    s.alloc.offset ≤ s.alloc.aligned (2 ^ c.log) ∧
      s.alloc.aligned (2 ^ c.log) < s.alloc.offset + 4096 ∧
      (s.alloc.base + s.alloc.aligned (2 ^ c.log)) % 2 ^ c.log = 0 := by
  have hmod := h.base_mod
  have hroom := h.room
  have hoff := h.offset_le
  have hpos : 0 < 2 ^ c.log := by positivity
  have hle : 2 ^ c.log ≤ 4096 := Nat.pow_le_pow_right (by norm_num) c.log_le
  rw [BootAlloc.aligned_eq c.log_le (by omega)]
  have hdiv := Nat.div_add_mod' (s.alloc.offset + 2 ^ c.log - 1) (2 ^ c.log)
  have hlt := Nat.mod_lt (s.alloc.offset + 2 ^ c.log - 1) hpos
  refine ⟨by omega, by omega, ?_⟩
  have hdvd : 2 ^ c.log ∣ s.alloc.base :=
    (Nat.pow_dvd_pow 2 c.log_le).trans (Nat.dvd_of_mod_eq_zero hmod)
  exact Nat.mod_eq_zero_of_dvd (hdvd.add (Nat.dvd_mul_left _ _))

/-- A call that is taken without a wrap puts a block behind all others. -/
theorem Inv.taken (h : s.Inv) (hno : s.alloc.aligned (2 ^ c.log) + c.bytes < 2 ^ 64)
    (ht : ¬ s.Refused c) :
    ∃ ptr mem, s.step c = ⟨{ s.alloc with offset := ptr - s.alloc.base + c.bytes, mem := mem },
        ⟨ptr, 2 ^ c.log, c.bytes⟩ :: s.blocks⟩ ∧
      s.alloc.base + s.alloc.offset ≤ ptr ∧ ptr - s.alloc.base + c.bytes ≤ s.alloc.size ∧
      ptr % 2 ^ c.log = 0 ∧ mem = clear s.alloc.mem ptr c.bytes := by
  have hrun := step_taken ht
  unfold Refused at ht
  rw [not_or, not_or, not_lt] at ht
  obtain ⟨hbase, hpos, hfit⟩ := ht
  obtain ⟨hge, hlt, halign⟩ := h.aligned_spec hbase c
  have hroom := h.room
  generalize s.alloc.aligned (2 ^ c.log) = a at *
  rw [uint64_of_lt (by omega : c.bytes < 2 ^ 64)] at hpos hfit hrun
  rw [uint64_of_lt hno] at hfit hrun
  rw [uint64_of_lt (by omega)] at hrun
  refine ⟨s.alloc.base + a, _, ?_, by omega, by omega, halign, rfl⟩
  rw [step, hrun, Nat.add_sub_cancel_left]

theorem Inv.step (h : s.Inv) (hg : s.Fits c) : (s.step c).Inv := by
  by_cases href : s.Refused c
  · rw [(step_refused href).2]
    exact h
  obtain ⟨ptr, mem, heq, hlo, hhi, halign, -⟩ := h.taken (hg.resolve_right href) href
  rw [heq]
  refine ⟨h.base_mod, h.room, hhi, ?_, ?_, ?_⟩
  · intro b hb
    rcases List.mem_cons.mp hb with rfl | hb
    · exact halign
    · exact h.aligned b hb
  · intro b hb
    rcases List.mem_cons.mp hb with rfl | hb
    · dsimp only
      omega
    · have hold := h.below b hb
      dsimp only
      omega
  · refine List.pairwise_cons.mpr ⟨fun b hb => ?_, h.apart⟩
    have hold := h.below b hb
    exact (bytes_disjoint (by dsimp only; omega)).symm

/-- What fitting calls reach. -/
theorem Inv.foldl {calls : List BootCall} (h : s.Inv) (ho : Obeys BootRun.step Fits s calls) :
    (calls.foldl BootRun.step s).Inv := by
  induction calls generalizing s with
  | nil => exact h
  | cons c calls ih => exact ih (h.step ho.1) ho.2

/-- A call that fits clears its own block and nothing of the earlier ones. -/
theorem Inv.clears (h : s.Inv) (hg : s.Fits c) (ht : ¬ s.Refused c) :
    ∃ b, (s.step c).blocks = b :: s.blocks ∧ b.bytes = c.bytes ∧
      (∀ x ∈ b.area, (s.step c).alloc.mem x = 0) ∧
      ∀ d ∈ s.blocks, ∀ x ∈ d.area, (s.step c).alloc.mem x = s.alloc.mem x := by
  obtain ⟨ptr, mem, heq, hlo, -, -, rfl⟩ := h.taken (hg.resolve_right ht) ht
  rw [heq]
  refine ⟨_, rfl, rfl, fun x hx => if_pos hx, fun d hd x hx => if_neg ?_⟩
  have hold := h.below d hd
  have hx' : x < d.ptr + d.bytes := hx.2
  rintro ⟨hge, -⟩
  omega

/-- A call that wraps and is not refused returns a block that reaches out of the region. -/
theorem Inv.misfit (h : s.Inv) (hg : ¬ s.Fits c) :
    ∃ b ∈ (s.step c).blocks, ¬ b.area ⊆ bytes s.alloc.base s.alloc.size := by
  unfold Fits at hg
  rw [not_or, not_lt] at hg
  obtain ⟨hwrap, ht⟩ := hg
  have hrun := step_taken ht
  unfold Refused at ht
  rw [not_or, not_or] at ht
  obtain ⟨hbase, hpos, -⟩ := ht
  obtain ⟨hge, hlt, -⟩ := h.aligned_spec hbase c
  have hmod := h.base_mod
  have hroom := h.room
  have hoff := h.offset_le
  have hbytes : 0 < c.bytes := by
    rcases Nat.eq_zero_or_pos c.bytes with h0 | h0
    · exact absurd (by rw [h0]; rfl) hpos
    · exact h0
  generalize s.alloc.aligned (2 ^ c.log) = a at *
  refine ⟨⟨uint64 (s.alloc.base + a), 2 ^ c.log, c.bytes⟩, ?_, fun hsub => ?_⟩
  · rw [BootRun.step, hrun]
    exact List.mem_cons_self
  · rcases lt_or_ge (s.alloc.base + a) (2 ^ 64) with hin | hout
    · -- the last byte of the block is behind the region
      have hlast : uint64 (s.alloc.base + a) + c.bytes - 1 ∈
          bytes (uint64 (s.alloc.base + a)) c.bytes := ⟨by omega, by omega⟩
      have hend := (hsub hlast).2
      rw [uint64_of_lt hin] at hend
      omega
    · -- the address itself wraps to below the region
      have hfirst : uint64 (s.alloc.base + a) ∈ bytes (uint64 (s.alloc.base + a)) c.bytes :=
        ⟨le_rfl, by omega⟩
      have hstart : s.alloc.base ≤ uint64 (s.alloc.base + a) := (hsub hfirst).1
      unfold uint64 at hstart
      omega

/-- Blocks are never taken back and the region stays. -/
theorem step_keeps (s : BootRun) (c : BootCall) :
    s.blocks ⊆ (s.step c).blocks ∧ (s.step c).alloc.base = s.alloc.base ∧
      (s.step c).alloc.size = s.alloc.size := by
  by_cases href : s.Refused c
  · rw [(step_refused href).2]
    exact ⟨fun _ hb => hb, rfl, rfl⟩
  · obtain ⟨ptr, offset, mem, heq⟩ : ∃ ptr offset mem, s.step c =
        ⟨{ s.alloc with offset := offset, mem := mem }, ⟨ptr, 2 ^ c.log, c.bytes⟩ :: s.blocks⟩ :=
      ⟨_, _, _, by rw [BootRun.step, step_taken href]⟩
    rw [heq]
    exact ⟨List.subset_cons_self .., rfl, rfl⟩

theorem foldl_keeps (s : BootRun) (calls : List BootCall) :
    s.blocks ⊆ (calls.foldl BootRun.step s).blocks ∧
      (calls.foldl BootRun.step s).alloc.base = s.alloc.base ∧
      (calls.foldl BootRun.step s).alloc.size = s.alloc.size := by
  induction calls generalizing s with
  | nil => exact ⟨fun _ hb => hb, rfl, rfl⟩
  | cons c calls ih =>
    obtain ⟨hsub, hbase, hsize⟩ := step_keeps s c
    obtain ⟨hsub', hbase', hsize'⟩ := ih (s.step c)
    exact ⟨fun _ hb => hsub' (hsub hb), hbase'.trans hbase, hsize'.trans hsize⟩

theorem Inv.sound_iff (h : s.Inv) (calls : List BootCall) :
    (calls.foldl BootRun.step s).Sound ↔ Obeys BootRun.step Fits s calls := by
  induction calls generalizing s with
  | nil => exact iff_of_true h.sound trivial
  | cons c calls ih =>
    by_cases hg : s.Fits c
    · rw [List.foldl_cons, ih (h.step hg), Obeys, and_iff_right hg]
    · refine iff_of_false (fun hs => ?_) fun ho => hg ho.1
      obtain ⟨b, hb, hout⟩ := h.misfit hg
      obtain ⟨hsub, -⟩ := foldl_keeps (s.step c) calls
      obtain ⟨-, hbase, hsize⟩ := foldl_keeps s (c :: calls)
      have hin := hs.inside b (hsub hb)
      rw [hbase, hsize] at hin
      exact hout hin

theorem start_inv {base size : ℕ} (hbase : base % 4096 = 0) (hroom : base + size ≤ 2 ^ 64)
    (mem : Mem) : (start base size mem).Inv :=
  ⟨hbase, hroom, Nat.zero_le _, by simp [start], by simp [start], .nil⟩

/-- The results of a run are aligned, have the bytes that were asked for and lie apart from each
other in the region exactly if no call is taken whose sum, or whose product, wraps. -/
theorem boot_sound_iff {base size : ℕ} (hbase : base % 4096 = 0) (hroom : base + size ≤ 2 ^ 64)
    (mem : Mem) (calls : List BootCall) :
    (calls.foldl BootRun.step (start base size mem)).Sound ↔
      Obeys BootRun.step Fits (start base size mem) calls :=
  (start_inv hbase hroom mem).sound_iff calls

theorem boot_sound_page : ([BootCall.alignedAlloc 12 100].foldl BootRun.step
    (start 4096 (2 ^ 20) fun _ => 0)).Sound := by
  refine (boot_sound_iff (by decide) (by norm_num) (fun _ => 0)
    [BootCall.alignedAlloc 12 100]).mpr ⟨.inl ?_, trivial⟩
  rw [BootAlloc.aligned_eq (BootCall.log_le _) (by norm_num [start, bootAllocInit])]
  norm_num [BootCall.log, BootCall.bytes, start, bootAllocInit]
  exact UInt64.toNat_lt 100

/-- A product just above `2 ^ 64` is taken for the eight bytes that are left of it. -/
theorem boot_not_sound : ¬ ([BootCall.calloc 0x2000000000000001 8].foldl BootRun.step
    (start 4096 (2 ^ 20) fun _ => 0)).Sound := by
  have hbytes : (BootCall.calloc 0x2000000000000001 8).bytes = 2 ^ 64 + 8 := by
    decide
  have hlog : 2 ^ (BootCall.calloc 0x2000000000000001 8).log = 8 := rfl
  have haligned : (start 4096 (2 ^ 20) fun _ => 0).alloc.aligned 8 = 0 := by
    have hk := @BootAlloc.aligned_eq (start 4096 (2 ^ 20) fun _ => 0).alloc 3 (by norm_num)
      (by norm_num [start, bootAllocInit])
    norm_num [start, bootAllocInit] at hk
    exact hk
  have hmisfit : ¬ Fits (start 4096 (2 ^ 20) fun _ => 0) (.calloc 0x2000000000000001 8) := by
    unfold Fits Refused
    rw [hbytes, hlog, haligned]
    norm_num [start, bootAllocInit, uint64]
  intro h
  obtain ⟨b, hb, hout⟩ := (start_inv (by decide) (by norm_num) fun _ => 0).misfit hmisfit
  exact hout (h.inside b hb)

/-- As long as all calls fit, each block is zero when it is returned and no earlier one is
written. -/
theorem boot_zeroed {base size : ℕ} (hbase : base % 4096 = 0) (hroom : base + size ≤ 2 ^ 64)
    (mem : Mem) {calls : List BootCall} (ho : Obeys BootRun.step Fits (start base size mem) calls)
    {s : BootRun} (hs : s = calls.foldl BootRun.step (start base size mem)) (hg : s.Fits c)
    (ht : ¬ s.Refused c) :
    ∃ b, (s.step c).blocks = b :: s.blocks ∧ b.bytes = c.bytes ∧
      (∀ x ∈ b.area, (s.step c).alloc.mem x = 0) ∧
      ∀ d ∈ s.blocks, ∀ x ∈ d.area, (s.step c).alloc.mem x = s.alloc.mem x := by
  subst hs
  exact ((start_inv hbase hroom mem).foldl ho).clears hg ht

end BootRun
end Ggmk

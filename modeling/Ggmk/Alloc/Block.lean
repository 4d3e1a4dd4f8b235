import Ggmk.Alloc.Slab
import Ggmk.Lib.BitSmear

/-! The block allocator of `alloc_block.c`: twelve slabs for the sizes 32 to 65536. -/
namespace Ggmk
open Word FreeList BitSmear Slab

def gmkBlockBins : ℕ := 12
def gmkBlockMinSize : ℕ := 32
def gmkBlockMaxSize : ℕ := 65536

/-- Truncation to a 64-bit `size_t`. -/
def u64 (n : ℕ) : ℕ := n % 2 ^ 64

theorem u64_le (n : ℕ) : u64 n ≤ n := Nat.mod_le _ _

def gmkNextPow2 (x : ℕ) : ℕ := if x ≤ 1 then 1 else u32 (smear32 (x - 1) + 1)

/-- The bin of a size, or `-1`. -/
def binIndex (size : ℕ) : ℤ :=
  if size ≤ gmkBlockMinSize then 0
  else if gmkBlockMaxSize < size then -1
  else
    let rounded := gmkNextPow2 size
    let idx : ℤ := (ctz 32 rounded : ℤ) - 5
    let idx := if idx < 0 then 0 else idx
    if (gmkBlockBins : ℤ) ≤ idx then -1 else idx

structure Block where
  bins : ℕ → Slab
  base : ℕ
  totalSize : ℕ

def binWeights : List ℕ := [16, 12, 8, 6, 4, 2, 2, 2, 2, 2, 2, 2]

/-- The zeroed slab of a bin that got too little memory. -/
def emptyBin : Slab where
  base := 0
  totalSize := 0
  objSize := 0
  capacity := 0
  allocCount := 0
  highWater := 0
  freeList := 0
  links _ := 0
  freeHead := -1

def initBin (ptr binMem i : ℕ) : Slab :=
  let objSize := gmkBlockMinSize <<< i
  let alignedObj := alignUp8 objSize
  if binMem < alignedObj + 4 then emptyBin
  else (gmkSlabInit ptr binMem objSize).getD emptyBin

/-- Locals of the loop of `gmk_block_init`. -/
structure BinLoop where
  ptr : ℕ
  remaining : ℕ
  bins : ℕ → Slab

def binMem (memSize remaining i : ℕ) : ℕ :=
  let share := u64 (memSize * binWeights.getD i 0) / binWeights.sum
  let share := if i = gmkBlockBins - 1 then remaining else share
  if remaining < share then remaining else share

/-- The loop after its first `i` rounds. -/
def initBins (mem memSize : ℕ) : ℕ → BinLoop
  | 0 => ⟨mem, memSize, fun _ => emptyBin⟩
  | i + 1 =>
      let l := initBins mem memSize i
      let share := binMem memSize l.remaining i
      ⟨l.ptr + share, l.remaining - share, Function.update l.bins i (initBin l.ptr share i)⟩

def gmkBlockInit (mem memSize : ℕ) : Option Block :=
  if mem = 0 ∨ memSize = 0 then none
  else some ⟨(initBins mem memSize gmkBlockBins).bins, mem, memSize⟩

def gmkBlockAlloc (b : Block) (size : ℕ) : Option (ℕ × Block) :=
  if size = 0 then none
  else
    let idx := binIndex size
    if idx < 0 then none
    else if (b.bins idx.toNat).capacity = 0 then none
    else (gmkSlabAlloc (b.bins idx.toNat)).map fun r =>
      (r.1, { b with bins := Function.update b.bins idx.toNat r.2 })

def gmkBlockFree (b : Block) (ptr size : ℕ) : Block :=
  if ptr = 0 ∨ size = 0 then b
  else
    let idx := binIndex size
    if idx < 0 then b
    else if (b.bins idx.toNat).capacity = 0 then b
    else { b with bins := Function.update b.bins idx.toNat (gmkSlabFree (b.bins idx.toNat) ptr) }

/-! ## Bins -/

/-- `gmk_next_pow2` is the least power of two that is not smaller. -/
theorem gmkNextPow2_eq {x : ℕ} (h1 : 1 < x) (hx : x ≤ 2 ^ 31) :
    gmkNextPow2 x = 2 ^ ((x - 1).log2 + 1) := by
  have h0 : x - 1 ≠ 0 := by omega
  have hlog : (x - 1).log2 < 31 := (Nat.log2_lt h0).mpr (by omega)
  have hpow : 2 ^ ((x - 1).log2 + 1) ≤ 2 ^ 31 := Nat.pow_le_pow_right (by norm_num) hlog
  have hpos : 0 < 2 ^ ((x - 1).log2 + 1) := by positivity
  rw [gmkNextPow2, if_neg (by omega), smear32_eq h0 (by omega), Nat.sub_add_cancel hpos,
    u32_of_lt (by omega)]

/-- The bin of a size has large enough objects. -/
theorem le_of_binIndex {size i : ℕ} (h : binIndex size = i) : size ≤ gmkBlockMinSize <<< i := by
  unfold binIndex at h
  split at h
  next hs =>
    exact hs.trans (by rw [Nat.shiftLeft_eq]; exact Nat.le_mul_of_pos_right _ (by positivity))
  next hs =>
    split at h
    next => omega
    next hm =>
      simp only [gmkBlockMinSize, gmkBlockMaxSize] at hs hm
      have h0 : size - 1 ≠ 0 := by omega
      have hlog : (size - 1).log2 < 16 := (Nat.log2_lt h0).mpr (by omega)
      have hlog' : 5 ≤ (size - 1).log2 := (Nat.le_log2 h0).mpr (by omega)
      simp only [gmkNextPow2_eq (x := size) (by omega) (by omega),
        ctz_two_pow (show (size - 1).log2 + 1 < 32 by omega), gmkBlockBins] at h
      have hi : i = (size - 1).log2 + 1 - 5 := by
        split at h <;> split at h <;> omega
      have hlt : size - 1 < 2 ^ ((size - 1).log2 + 1) := Nat.lt_log2_self
      have hpow : gmkBlockMinSize <<< i = 2 ^ ((size - 1).log2 + 1) := by
        rw [Nat.shiftLeft_eq, gmkBlockMinSize, hi, show 32 = 2 ^ 5 by norm_num, ← pow_add]
        congr 1
        omega
      omega

theorem alignUp8_bin {i : ℕ} (hi : i < gmkBlockBins) :
    alignUp8 (gmkBlockMinSize <<< i) = gmkBlockMinSize <<< i := by
  unfold gmkBlockBins at hi
  interval_cases i <;> decide

/-- A bin within `bytes lo len` that is empty or has objects of `32 << i` bytes. -/
structure BinIn (s : Slab) (i lo len : ℕ) : Prop where
  laid : s.Laid
  free : ∃ free, s.Free free
  region_subset : s.region ⊆ bytes lo len
  obj_eq : 0 < s.capacity → s.objSize = gmkBlockMinSize <<< i
  base_pos : 0 < s.capacity → 0 < s.base

theorem emptyBin_in (i lo len : ℕ) : BinIn emptyBin i lo len where
  laid := ⟨rfl, le_rfl, by decide, fun h => absurd h (lt_irrefl 0)⟩
  free := ⟨[], ⟨show (-1 : ℤ) < 0 by decide, List.nodup_nil⟩, by simp⟩
  region_subset := by simp [region, bytes, emptyBin]
  obj_eq := fun h => absurd h (lt_irrefl 0)
  base_pos := fun h => absurd h (lt_irrefl 0)

theorem initBin_in {ptr share i : ℕ} (hp : 0 < ptr) (hi : i < gmkBlockBins) :
    BinIn (initBin ptr share i) i ptr share := by
  unfold initBin
  simp only
  split
  next => exact emptyBin_in i ptr share
  next =>
    cases hs : gmkSlabInit ptr share (gmkBlockMinSize <<< i) with
    | none => exact emptyBin_in i ptr share
    | some s =>
      have hobj : 0 < alignUp8 (gmkBlockMinSize <<< i) := by
        rw [alignUp8_bin hi, Nat.shiftLeft_eq]
        exact Nat.mul_pos (by decide) (by positivity)
      obtain ⟨hb, ht, ho, hl, -, hf⟩ := gmkSlabInit_some hs hobj
      refine ⟨hl, hf, ?_, fun _ => ho.trans (alignUp8_bin hi), fun _ => hb.symm ▸ hp⟩
      show s.region ⊆ bytes ptr share
      rw [region, hb, ht]

theorem BinIn.mono {s : Slab} {i lo len lo' len' : ℕ} (h : BinIn s i lo len)
    (hsub : bytes lo len ⊆ bytes lo' len') : BinIn s i lo' len' :=
  { h with region_subset := h.region_subset.trans hsub }

theorem binMem_le (memSize remaining i : ℕ) : binMem memSize remaining i ≤ remaining := by
  unfold binMem
  simp only
  generalize (if i = gmkBlockBins - 1 then remaining else _) = share
  split
  next => exact le_rfl
  next h => exact not_lt.mp h

/-- After `n` rounds the bins share out the memory below the pointer. -/
structure BinLoop.Inv (l : BinLoop) (mem memSize n : ℕ) : Prop where
  le_ptr : mem ≤ l.ptr
  ptr_add : l.ptr + l.remaining = mem + memSize
  bin_in : ∀ i, BinIn (l.bins i) i mem (l.ptr - mem)
  untouched : ∀ i, n ≤ i → l.bins i = emptyBin
  apart : ∀ i j, i ≠ j → Disjoint (l.bins i).region (l.bins j).region

theorem region_emptyBin : emptyBin.region = ∅ := by simp [region, bytes, emptyBin]

theorem initBins_inv {mem : ℕ} (memSize : ℕ) (hmem : 0 < mem) {n : ℕ} (hn : n ≤ gmkBlockBins) :
    (initBins mem memSize n).Inv mem memSize n := by
  induction n with
  | zero =>
    refine ⟨le_rfl, rfl, fun i => emptyBin_in i _ _, fun _ _ => rfl, ?_⟩
    intro i j _
    simp [initBins, region_emptyBin]
  | succ n ih =>
    have h := ih (by omega)
    simp only [initBins]
    set l := initBins mem memSize n
    set share := binMem memSize l.remaining n
    have hshare : share ≤ l.remaining := binMem_le _ _ _
    have hptr := h.ptr_add
    have hle := h.le_ptr
    have hnew : BinIn (initBin l.ptr share n) n l.ptr share := initBin_in (by omega) (by omega)
    have hold (i : ℕ) : Disjoint (l.bins i).region (initBin l.ptr share n).region := by
      apply Disjoint.mono (h.bin_in i).region_subset hnew.region_subset
      apply bytes_disjoint
      omega
    refine ⟨by simp only; omega, by simp only; omega, ?_, ?_, ?_⟩
    · intro i
      by_cases hi : i = n
      · subst hi
        simp only [Function.update_self]
        exact hnew.mono (bytes_subset hle (by omega))
      · simp only [Function.update_of_ne hi]
        exact (h.bin_in i).mono (bytes_subset le_rfl (by omega))
    · intro i hi
      simp only
      rw [Function.update_of_ne (by omega)]
      exact h.untouched i (by omega)
    · intro i j hij
      by_cases hi : i = n
      · subst hi
        simp only [Function.update_self, Function.update_of_ne (Ne.symm hij)]
        exact (hold j).symm
      · by_cases hj : j = n
        · subst hj
          simp only [Function.update_self, Function.update_of_ne hi]
          exact hold i
        · simp only [Function.update_of_ne hi, Function.update_of_ne hj]
          exact h.apart i j hij

/-! ## Specifications -/

theorem gmkBlockInit_some {mem memSize : ℕ} {b : Block} (h : gmkBlockInit mem memSize = some b) :
    b.base = mem ∧ b.totalSize = memSize ∧ (∀ i, BinIn (b.bins i) i mem memSize) ∧
      ∀ i j, i ≠ j → Disjoint (b.bins i).region (b.bins j).region := by
  unfold gmkBlockInit at h
  split at h
  next => simp at h
  next hz =>
    obtain rfl := Option.some.inj h
    have hinv := initBins_inv memSize (Nat.pos_of_ne_zero (not_or.mp hz).1) le_rfl
    have hptr := hinv.ptr_add
    have hle := hinv.le_ptr
    refine ⟨rfl, rfl, fun i => ?_, hinv.apart⟩
    exact (hinv.bin_in i).mono (bytes_subset le_rfl (by omega))

theorem gmkBlockAlloc_some {b b' : Block} {size p : ℕ} (h : gmkBlockAlloc b size = some (p, b')) :
    ∃ i s', binIndex size = (i : ℕ) ∧ 0 < (b.bins i).capacity ∧
      gmkSlabAlloc (b.bins i) = some (p, s') ∧
      b' = { b with bins := Function.update b.bins i s' } := by
  unfold gmkBlockAlloc at h
  split at h
  next => simp at h
  next =>
    simp only at h
    split at h
    next => simp at h
    next hneg =>
      split at h
      next => simp at h
      next hcap =>
        obtain ⟨⟨q, s'⟩, hs, he⟩ := Option.map_eq_some_iff.mp h
        obtain ⟨rfl, rfl⟩ := Prod.mk.inj he
        exact ⟨(binIndex size).toNat, s', by omega, Nat.pos_of_ne_zero hcap, hs, rfl⟩

theorem gmkBlockFree_bin {b : Block} {ptr size i : ℕ} (hp : ptr ≠ 0) (hs : size ≠ 0)
    (hi : binIndex size = i) (hc : 0 < (b.bins i).capacity) : gmkBlockFree b ptr size =
      { b with bins := Function.update b.bins i (gmkSlabFree (b.bins i) ptr) } := by
  have hneg : ¬ ((i : ℤ) < 0) := by omega
  simp only [gmkBlockFree, hp, hs, or_self, if_false, hi, hneg, Int.toNat_natCast,
    Nat.ne_of_gt hc]

end Ggmk

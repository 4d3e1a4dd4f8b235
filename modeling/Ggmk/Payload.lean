import Ggmk.Alloc.Separation

/-! Reference-counted payloads of `alloc.c`: a header with count and size in front of the
payload, inside one block of the unified allocator. -/
namespace Ggmk
open Word

structure PayloadHdr where
  refcount : UInt32
  size : UInt32
  deriving DecidableEq, Inhabited

def sizeofPayloadHdr : ℕ := 8

/-- The allocator with the header found at each block address. No function reads `live`: it
is the history of the payloads that have been handed out and not been freed. -/
structure Heap where
  alloc : Alloc
  headers : ℕ → PayloadHdr
  live : Finset ℕ

/-- The atomic store of a count. -/
def Heap.setRefcount (h : Heap) (hdr : ℕ) (c : UInt32) : Heap :=
  { h with headers := Function.update h.headers hdr ⟨c, (h.headers hdr).size⟩ }

/-- The total is computed on 32 bits. -/
def gmkPayloadAlloc (h : Heap) (size : UInt32) : Option ℕ × Heap :=
  if size = 0 then (none, h)
  else
    let total := u32 (sizeofPayloadHdr + size.toNat)
    match gmkAlloc h.alloc total with
    | (some mem, a) => (some (mem + sizeofPayloadHdr),
        { alloc := a
          headers := Function.update h.headers mem ⟨1, size⟩
          live := insert (mem + sizeofPayloadHdr) h.live })
    | (none, a) => (none, { h with alloc := a })

def gmkPayloadRetain (h : Heap) (payload : ℕ) : Heap :=
  if payload = 0 then h
  else
    let hdr := payload - sizeofPayloadHdr
    h.setRefcount hdr ((h.headers hdr).refcount + 1)

/-- The last reference frees the backing block. -/
def gmkPayloadRelease (h : Heap) (payload : ℕ) : Bool × Heap :=
  if payload = 0 then (false, h)
  else
    let hdr := payload - sizeofPayloadHdr
    let old := (h.headers hdr).refcount
    let h := h.setRefcount hdr (old - 1)
    if old = 1 then
      (true, { h with
        alloc := gmkFree h.alloc hdr (u32 (sizeofPayloadHdr + (h.headers hdr).size.toNat))
        live := h.live.erase payload })
    else (false, h)

namespace Heap

def refcount (h : Heap) (p : ℕ) : ℕ := (h.headers (p - sizeofPayloadHdr)).refcount.toNat

@[simp] theorem setRefcount_alloc (h : Heap) (a : ℕ) (c : UInt32) :
    (h.setRefcount a c).alloc = h.alloc := rfl

@[simp] theorem setRefcount_live (h : Heap) (a : ℕ) (c : UInt32) :
    (h.setRefcount a c).live = h.live := rfl

@[simp] theorem setRefcount_size (h : Heap) (a b : ℕ) (c : UInt32) :
    ((h.setRefcount a c).headers b).size = (h.headers b).size := by
  by_cases hb : b = a
  · simp [setRefcount, hb]
  · simp [setRefcount, Function.update_of_ne hb]

theorem refcount_setRefcount_self (h : Heap) (p : ℕ) (c : UInt32) :
    (h.setRefcount (p - sizeofPayloadHdr) c).refcount p = c.toNat := by
  simp [refcount, setRefcount]

theorem refcount_setRefcount_of_ne (h : Heap) {a q : ℕ} (hne : q - sizeofPayloadHdr ≠ a)
    (c : UInt32) : (h.setRefcount a c).refcount q = h.refcount q := by
  simp [refcount, setRefcount, Function.update_of_ne hne]

/-- Each live payload has its own block, whose size its header remembers, and the arena ends
below `2 ^ 64`. -/
structure Keeps (h : Heap) : Prop where
  blocks : ∃ blocks, (AllocRun.mk h.alloc blocks).Inv ∧
    (∀ p, p ∈ h.live ↔ ∃ b ∈ blocks, p = b.ptr + sizeofPayloadHdr) ∧
    ∀ b ∈ blocks, b.size = u32 (sizeofPayloadHdr + (h.headers b.ptr).size.toNat)
  fits : h.alloc.arenaBase + h.alloc.arenaSize ≤ 2 ^ 64

namespace Keeps
variable {h : Heap} (hk : h.Keeps) {p q : ℕ}
include hk

theorem hdr_le (hp : p ∈ h.live) : sizeofPayloadHdr ≤ p := by
  obtain ⟨blocks, -, hlive, -⟩ := hk.blocks
  obtain ⟨b, -, rfl⟩ := (hlive p).mp hp
  exact Nat.le_add_left _ _

theorem ne_zero (hp : p ∈ h.live) : p ≠ 0 := by
  have := hk.hdr_le hp
  unfold sizeofPayloadHdr at this
  omega

/-- Payload addresses survive the round trip through a task's 64-bit field. -/
theorem lt_word (hp : p ∈ h.live) : p < 2 ^ 64 := by
  obtain ⟨blocks, hinv, hlive, -⟩ := hk.blocks
  obtain ⟨b, hb, rfl⟩ := (hlive p).mp hp
  have hmin : gmkBlockMinSize ≤ (h.alloc.slab b.owner).objSize := hinv.min_le_obj hb
  have hin : b.ptr + sizeofPayloadHdr ∈ (AllocRun.mk h.alloc blocks).extent b := by
    refine ⟨Nat.le_add_right _ _, ?_⟩
    simp only [sizeofPayloadHdr]
    unfold gmkBlockMinSize at hmin
    omega
  exact (hinv.separated.in_arena b hb hin).2.trans_le hk.fits

/-- Distinct payloads have distinct headers. -/
theorem hdr_ne (hp : p ∈ h.live) (hq : q ∈ h.live) (hne : q ≠ p) :
    q - sizeofPayloadHdr ≠ p - sizeofPayloadHdr := by
  have h1 := hk.hdr_le hp
  have h2 := hk.hdr_le hq
  omega

/-- Rewriting a count keeps the blocks. -/
theorem setRefcount (a : ℕ) (c : UInt32) : (h.setRefcount a c).Keeps := by
  obtain ⟨blocks, hinv, hlive, hsize⟩ := hk.blocks
  refine ⟨⟨blocks, hinv, hlive, ?_⟩, hk.fits⟩
  intro b hb
  rw [setRefcount_size]
  exact hsize b hb

end Keeps
end Heap

open Heap

/-! ## Specifications -/

section Specs
variable {h : Heap} (hk : h.Keeps) {p : ℕ} (hp : p ∈ h.live)
include hk hp

/-- A retain counts one more reference and touches no other payload. -/
theorem gmkPayloadRetain_spec (hlt : h.refcount p + 1 < 2 ^ 32) :
    (gmkPayloadRetain h p).Keeps ∧ (gmkPayloadRetain h p).live = h.live ∧
      (gmkPayloadRetain h p).refcount p = h.refcount p + 1 ∧
      ∀ q ∈ h.live, q ≠ p → (gmkPayloadRetain h p).refcount q = h.refcount q := by
  rw [gmkPayloadRetain, if_neg (hk.ne_zero hp)]
  refine ⟨hk.setRefcount _ _, rfl, ?_, ?_⟩
  · rw [refcount_setRefcount_self, UInt32.toNat_add, UInt32.toNat_one]
    exact Nat.mod_eq_of_lt hlt
  · intro q hq hne
    exact refcount_setRefcount_of_ne h (hk.hdr_ne hp hq hne) _

/-- A release of one of several references. -/
theorem gmkPayloadRelease_keep (hgt : 1 < h.refcount p) :
    (gmkPayloadRelease h p).2.Keeps ∧ (gmkPayloadRelease h p).2.live = h.live ∧
      (gmkPayloadRelease h p).2.refcount p + 1 = h.refcount p ∧
      ∀ q ∈ h.live, q ≠ p → (gmkPayloadRelease h p).2.refcount q = h.refcount q := by
  have hold : (h.headers (p - sizeofPayloadHdr)).refcount ≠ 1 := by
    intro he
    rw [refcount, he] at hgt
    exact absurd hgt (by decide)
  rw [gmkPayloadRelease, if_neg (hk.ne_zero hp)]
  simp only [if_neg hold]
  refine ⟨hk.setRefcount _ _, rfl, ?_, ?_⟩
  · have hle : (1 : UInt32) ≤ (h.headers (p - sizeofPayloadHdr)).refcount := by
      rw [UInt32.le_iff_toNat_le]
      exact hgt.le
    rw [refcount_setRefcount_self, UInt32.toNat_sub_of_le _ _ hle]
    exact Nat.sub_add_cancel hgt.le
  · intro q hq hne
    exact refcount_setRefcount_of_ne h (hk.hdr_ne hp hq hne) _

/-- The release of the last reference frees the payload. -/
theorem gmkPayloadRelease_last (hone : h.refcount p = 1) :
    (gmkPayloadRelease h p).2.Keeps ∧ (gmkPayloadRelease h p).2.live = h.live.erase p ∧
      ∀ q ∈ h.live, q ≠ p → (gmkPayloadRelease h p).2.refcount q = h.refcount q := by
  have hold : (h.headers (p - sizeofPayloadHdr)).refcount = 1 := UInt32.toNat.inj hone
  have hother : ∀ q ∈ h.live, q ≠ p →
      (h.setRefcount (p - sizeofPayloadHdr) (1 - 1)).refcount q = h.refcount q :=
    fun q hq hne => refcount_setRefcount_of_ne h (hk.hdr_ne hp hq hne) _
  obtain ⟨blocks, hinv, hlive, hsize⟩ := (hk.setRefcount (p - sizeofPayloadHdr) (1 - 1)).blocks
  rw [setRefcount_live] at hlive
  obtain ⟨b, hb, hpb⟩ := (hlive p).mp hp
  have hhdr : p - sizeofPayloadHdr = b.ptr := by omega
  rw [gmkPayloadRelease, if_neg (hk.ne_zero hp)]
  simp only [hold, if_true]
  rw [hhdr] at hinv hsize hother ⊢
  rw [← hsize b hb]
  have hfree := AllocRun.inv_free hinv hb
  have harena := AllocRun.free_arena hinv hb
  refine ⟨⟨⟨blocks.erase b, hfree, ?_, ?_⟩, ?_⟩, rfl, hother⟩
  · intro q
    simp only [setRefcount_live, Finset.mem_erase, hlive q]
    exact AllocRun.mem_erase_ptr hinv hb hpb q
  · intro c hc
    exact hsize c (List.mem_of_mem_erase hc)
  · exact harena ▸ hk.fits

end Specs

/-- The header of a new payload stands at the start of a block of the arena. -/
theorem gmkPayloadAlloc_served {h h' : Heap} {size : UInt32} {p : ℕ}
    (ha : gmkPayloadAlloc h size = (some p, h')) : ∃ mem a,
      gmkAlloc h.alloc (u32 (sizeofPayloadHdr + size.toNat)) = (some mem, a) ∧
        p = mem + sizeofPayloadHdr ∧ h' =
          { alloc := a
            headers := Function.update h.headers mem ⟨1, size⟩
            live := insert (mem + sizeofPayloadHdr) h.live } := by
  unfold gmkPayloadAlloc at ha
  split at ha
  next => simp at ha
  next =>
    simp only at ha
    split at ha
    next mem a hmem =>
      obtain ⟨hp, rfl⟩ := Prod.mk.inj ha
      exact ⟨mem, a, hmem, (Option.some.inj hp).symm, rfl⟩
    next => simp at ha

/-- A new payload is none of the live ones and starts with one reference. -/
theorem gmkPayloadAlloc_some {h h' : Heap} (hk : h.Keeps) {size : UInt32} {p : ℕ}
    (ha : gmkPayloadAlloc h size = (some p, h')) :
    p ∉ h.live ∧ h'.Keeps ∧ h'.live = insert p h.live ∧ h'.refcount p = 1 ∧
      ∀ q ∈ h.live, h'.refcount q = h.refcount q := by
  obtain ⟨mem, a, hmem, rfl, rfl⟩ := gmkPayloadAlloc_served ha
  obtain ⟨blocks, hinv, hlive, hsize⟩ := hk.blocks
  obtain ⟨o, hinv', harena⟩ := AllocRun.inv_served hinv hmem
  have hne := (List.pairwise_cons.mp hinv'.ptr_pairwise).1
  have hfresh : ∀ q ∈ h.live, q - sizeofPayloadHdr ≠ mem := by
    intro q hq
    obtain ⟨b, hb, rfl⟩ := (hlive q).mp hq
    rw [Nat.add_sub_cancel]
    exact (hne b hb).symm
  refine ⟨?_, ⟨⟨_, hinv', ?_, ?_⟩, harena ▸ hk.fits⟩, rfl, ?_, ?_⟩
  · intro hp
    exact hfresh _ hp (Nat.add_sub_cancel _ _)
  · intro q
    simp [hlive q]
  · intro b hb
    rcases List.mem_cons.mp hb with rfl | hb
    · simp
    · simp [Function.update_of_ne (hne b hb).symm, hsize b hb]
  · simp [refcount]
  · intro q hq
    simp [refcount, Function.update_of_ne (hfresh q hq)]

theorem gmkPayloadAlloc_none {h h' : Heap} (hk : h.Keeps) {size : UInt32}
    (ha : gmkPayloadAlloc h size = (none, h')) :
    h'.Keeps ∧ h'.live = h.live ∧ ∀ q, h'.refcount q = h.refcount q := by
  unfold gmkPayloadAlloc at ha
  split at ha
  next =>
    obtain rfl := (Prod.mk.inj ha).2
    exact ⟨hk, rfl, fun _ => rfl⟩
  next =>
    simp only at ha
    split at ha
    next => simp at ha
    next a hmem =>
      obtain rfl := (Prod.mk.inj ha).2
      obtain ⟨blocks, hinv, hlive, hsize⟩ := hk.blocks
      refine ⟨⟨⟨blocks, AllocRun.inv_refuse hinv hmem, hlive, hsize⟩, ?_⟩, rfl, fun _ => rfl⟩
      rw [gmkAlloc_none hmem]
      exact hk.fits

/-- A new arena has no payload. -/
theorem gmkAllocInit_keeps {mem arenaSize : ℕ} {a : Alloc} (h : gmkAllocInit mem arenaSize = some a)
    (hfits : mem + arenaSize ≤ 2 ^ 64) (hdrs : ℕ → PayloadHdr) : Heap.Keeps ⟨a, hdrs, ∅⟩ := by
  obtain ⟨hsize, _, _, _, _, hcut⟩ := gmkAllocInit_cut h
  refine ⟨⟨[], gmkAllocInit_inv h, ?_, ?_⟩, ?_⟩
  · intro p
    simp
  · intro b hb
    simp at hb
  · simp only [hcut.base, hsize]
    exact hfits

end Ggmk

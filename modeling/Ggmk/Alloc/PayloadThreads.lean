import Ggmk.Lib.Reach
import Ggmk.Payload

/-! Any number of threads share payloads. The header of a payload is only touched by single atomic
accesses, and the call of `gmk_free` follows the last decrement later; whoever drops the last
reference is then the only one left that knows the block. -/
namespace Ggmk
open Guarded Word AllocRun

/-- Where a thread is in a call of `alloc.c`: `gmk_payload_alloc` after `gmk_alloc` has returned, or
`gmk_payload_release` after the decrement of the last reference. -/
inductive PayloadPc
  | idle
  | storeCount (hdr : ℕ) (size : UInt32)
  | storeSize (hdr : ℕ) (size : UInt32)
  | loadSize (hdr : ℕ)
  | free (hdr total : ℕ)

/-- The header that the thread has to itself. -/
def PayloadPc.hdr : PayloadPc → Option ℕ
  | .idle => none
  | .storeCount hdr _ => some hdr
  | .storeSize hdr _ => some hdr
  | .loadSize hdr => some hdr
  | .free hdr _ => some hdr

/-- The next access of a thread; `o` is the slab that serves a request. -/
inductive PayloadAct
  | alloc (t : ℕ) (size : UInt32) (o : SlabId)
  | store (t : ℕ)
  | retain (t p : ℕ)
  | release (t p : ℕ)
  | free (t : ℕ)
  | allocPlain (size : ℕ) (o : SlabId)
  | freePlain (b : LiveBlock)
  | write (a : ℕ) (w : PayloadHdr)

/-- The allocator with its headers and threads. `refs` are the references that exist, in threads and
in tasks; `blocks` are the blocks of payloads, and `plain` those that others have from `gmk_alloc`. -/
structure PayloadThreads where
  alloc : Alloc
  headers : ℕ → PayloadHdr
  pc : ℕ → PayloadPc
  refs : Multiset ℕ
  blocks : List LiveBlock
  plain : List LiveBlock

namespace PayloadThreads

def start (a : Alloc) (headers : ℕ → PayloadHdr) : PayloadThreads :=
  ⟨a, headers, fun _ => .idle, 0, [], []⟩

def goto (s : PayloadThreads) (t : ℕ) (pc : PayloadPc) : PayloadThreads :=
  { s with pc := Function.update s.pc t pc }

def setHeader (s : PayloadThreads) (hdr : ℕ) (w : PayloadHdr) : PayloadThreads :=
  { s with headers := Function.update s.headers hdr w }

/-- The atomic steps. A request or a free of the allocator is one of them, since each runs under the
lock of its slab. Threads retain and release payloads that somebody has a reference to, and others
write only outside of the headers of payloads. -/
inductive Step (s : PayloadThreads) : PayloadAct → PayloadThreads → Prop
  | alloc {t : ℕ} {size : UInt32} {hdr : ℕ} {a : Alloc} {o : SlabId} (hpc : s.pc t = .idle)
      (hsize : size ≠ 0)
      (h : gmkAlloc s.alloc (u32 (sizeofPayloadHdr + size.toNat)) = (some hdr, a))
      (ho : HandedOut s.alloc a o hdr) :
      Step s (.alloc t size o) { s.goto t (.storeCount hdr size) with
        alloc := a
        blocks := ⟨hdr, u32 (sizeofPayloadHdr + size.toNat), o⟩ :: s.blocks }
  | refuse {t : ℕ} {size : UInt32} {a : Alloc} {o : SlabId} (hpc : s.pc t = .idle)
      (hsize : size ≠ 0)
      (h : gmkAlloc s.alloc (u32 (sizeofPayloadHdr + size.toNat)) = (none, a)) :
      Step s (.alloc t size o) { s with alloc := a }
  | storeCount {t hdr : ℕ} {size : UInt32} (hpc : s.pc t = .storeCount hdr size) :
      Step s (.store t) ((s.setHeader hdr ⟨1, (s.headers hdr).size⟩).goto t (.storeSize hdr size))
  | storeSize {t hdr : ℕ} {size : UInt32} (hpc : s.pc t = .storeSize hdr size) :
      Step s (.store t) { (s.setHeader hdr ⟨(s.headers hdr).refcount, size⟩).goto t .idle with
        refs := (hdr + sizeofPayloadHdr) ::ₘ s.refs }
  | retain {t p : ℕ} (hpc : s.pc t = .idle) (hp : p ∈ s.refs) :
      Step s (.retain t p) { s.setHeader (p - sizeofPayloadHdr)
          ⟨(s.headers (p - sizeofPayloadHdr)).refcount + 1,
            (s.headers (p - sizeofPayloadHdr)).size⟩ with
        refs := p ::ₘ s.refs }
  | release {t p : ℕ} (hpc : s.pc t = .idle) (hp : p ∈ s.refs) :
      Step s (.release t p) { (s.setHeader (p - sizeofPayloadHdr)
          ⟨(s.headers (p - sizeofPayloadHdr)).refcount - 1,
            (s.headers (p - sizeofPayloadHdr)).size⟩).goto t
          (if (s.headers (p - sizeofPayloadHdr)).refcount = 1 then .loadSize (p - sizeofPayloadHdr)
            else .idle) with
        refs := s.refs.erase p }
  | loadSize {t hdr : ℕ} (hpc : s.pc t = .loadSize hdr) :
      Step s (.free t)
        (s.goto t (.free hdr (u32 (sizeofPayloadHdr + (s.headers hdr).size.toNat))))
  | free {t hdr total : ℕ} (hpc : s.pc t = .free hdr total) :
      Step s (.free t) { s.goto t .idle with
        alloc := gmkFree s.alloc hdr total
        blocks := s.blocks.filter fun b => b.ptr ≠ hdr }
  | allocPlain {size p : ℕ} {a : Alloc} {o : SlabId} (h : gmkAlloc s.alloc size = (some p, a))
      (ho : HandedOut s.alloc a o p) :
      Step s (.allocPlain size o) { s with alloc := a, plain := ⟨p, size, o⟩ :: s.plain }
  | refusePlain {size : ℕ} {a : Alloc} {o : SlabId} (h : gmkAlloc s.alloc size = (none, a)) :
      Step s (.allocPlain size o) { s with alloc := a }
  | freePlain {b : LiveBlock} (hb : b ∈ s.plain) :
      Step s (.freePlain b)
        { s with alloc := gmkFree s.alloc b.ptr b.size, plain := s.plain.erase b }
  | write {a : ℕ} {w : PayloadHdr} (ha : ∀ b ∈ s.blocks, a ≠ b.ptr) :
      Step s (.write a w) (s.setHeader a w)

/-- No payload ever has `2 ^ 32` references. -/
def Few (s : PayloadThreads) : PayloadAct → Prop
  | .retain _ p => s.refs.count p + 1 < 2 ^ 32
  | _ => True

/-- The header and the block agree for a thread that is there. -/
def Knows (s : PayloadThreads) (b : LiveBlock) : PayloadPc → Prop
  | .idle => True
  | .storeCount _ size => b.size = u32 (sizeofPayloadHdr + size.toNat)
  | .storeSize _ size =>
      b.size = u32 (sizeofPayloadHdr + size.toNat) ∧ (s.headers b.ptr).refcount = 1
  | .loadSize _ => b.size = u32 (sizeofPayloadHdr + (s.headers b.ptr).size.toNat)
  | .free _ total => b.size = total

/-- A payload that is referenced counts its references. -/
structure Counted (s : PayloadThreads) (b : LiveBlock) : Prop where
  count : (s.headers b.ptr).refcount.toNat = s.refs.count (b.ptr + sizeofPayloadHdr)
  size : b.size = u32 (sizeofPayloadHdr + (s.headers b.ptr).size.toNat)

/-- Each block is either counted or with the one thread that makes or frees it. -/
structure Inv (s : PayloadThreads) : Prop where
  run : (AllocRun.mk s.alloc (s.blocks ++ s.plain)).Inv
  referenced : ∀ p ∈ s.refs, ∃ b ∈ s.blocks, p = b.ptr + sizeofPayloadHdr ∧ s.Counted b
  working : ∀ t hdr, (s.pc t).hdr = some hdr → hdr + sizeofPayloadHdr ∉ s.refs ∧
    ∃ b ∈ s.blocks, b.ptr = hdr ∧ s.Knows b (s.pc t)
  alone : ∀ t u hdr, (s.pc t).hdr = some hdr → (s.pc u).hdr = some hdr → t = u
  held : ∀ b ∈ s.blocks, b.ptr + sizeofPayloadHdr ∈ s.refs ∨ ∃ t, (s.pc t).hdr = some b.ptr

variable {s s' : PayloadThreads} {t : ℕ} {b c : LiveBlock} {act : PayloadAct}

theorem Inv.ptr_inj (h : s.Inv) (hb : b ∈ s.blocks ++ s.plain) (hc : c ∈ s.blocks ++ s.plain)
    (hptr : b.ptr = c.ptr) : b = c := by
  by_contra hne
  have hsymm : Std.Symm fun b c : LiveBlock => b.ptr ≠ c.ptr := ⟨fun _ _ hne => Ne.symm hne⟩
  exact h.run.ptr_pairwise.forall hb hc hne hptr

theorem Inv.block_inj (h : s.Inv) (hb : b ∈ s.blocks) (hc : c ∈ s.blocks)
    (hptr : b.ptr = c.ptr) : b = c :=
  h.ptr_inj (List.mem_append_left _ hb) (List.mem_append_left _ hc) hptr

theorem Inv.counted (h : s.Inv) (hb : b ∈ s.blocks) (hp : b.ptr + sizeofPayloadHdr ∈ s.refs) :
    s.Counted b := by
  obtain ⟨c, hc, hptr, hcount⟩ := h.referenced _ hp
  rwa [h.block_inj hb hc (Nat.add_right_cancel hptr)]

/-- A step of thread `t` that only concerns block `b`: afterwards the block is counted, or `t` has
it to itself. -/
theorem Inv.at_block (h : s.Inv) (hb : b ∈ s.blocks)
    (hsame : s'.alloc = s.alloc ∧ s'.blocks = s.blocks ∧ s'.plain = s.plain)
    (hheaders : ∀ a, a ≠ b.ptr → s'.headers a = s.headers a)
    (hrefs : ∀ q, q ≠ b.ptr + sizeofPayloadHdr → s'.refs.count q = s.refs.count q)
    {l : PayloadPc} (hmoved : s'.pc = Function.update s.pc t l)
    (hothers : ∀ u, u ≠ t → (s.pc u).hdr ≠ some b.ptr)
    (hold : ∀ hdr, (s.pc t).hdr = some hdr → hdr = b.ptr)
    (hnew : l.hdr = none ∧ b.ptr + sizeofPayloadHdr ∈ s'.refs ∧ s'.Counted b ∨
      l.hdr = some b.ptr ∧ b.ptr + sizeofPayloadHdr ∉ s'.refs ∧ s'.Knows b l) :
    s'.Inv := by
  obtain ⟨halloc, hblocks, hplain⟩ := hsame
  have hpc (u : ℕ) (hu : u ≠ t) : s'.pc u = s.pc u := by rw [hmoved, Function.update_of_ne hu]
  have hpct : s'.pc t = l := by rw [hmoved, Function.update_self]
  rw [← hpct] at hnew
  have hmem (q : ℕ) (hq : q ≠ b.ptr + sizeofPayloadHdr) : q ∈ s'.refs ↔ q ∈ s.refs := by
    rw [← Multiset.count_pos, hrefs q hq, Multiset.count_pos]
  have hself {hdr : ℕ} (ht : (s'.pc t).hdr = some hdr) : hdr = b.ptr := by
    rcases hnew with ⟨hnone, -⟩ | ⟨hsome, -⟩
    · rw [hnone] at ht
      cases ht
    · exact Option.some.inj (ht.symm.trans hsome)
  refine ⟨by rw [halloc, hblocks, hplain]; exact h.run, fun p hp => ?_, fun u hdr hu => ?_,
    fun u v hdr hu hv => ?_, fun c hc => ?_⟩
  · rw [hblocks]
    by_cases hpb : p = b.ptr + sizeofPayloadHdr
    · subst hpb
      rcases hnew with ⟨-, -, hcount⟩ | ⟨-, hnot, -⟩
      · exact ⟨b, hb, rfl, hcount⟩
      · exact absurd hp hnot
    · obtain ⟨c, hc, rfl, hcount⟩ := h.referenced p ((hmem p hpb).mp hp)
      have hne : c.ptr ≠ b.ptr := fun heq => hpb (by rw [heq])
      refine ⟨c, hc, rfl, ?_, ?_⟩
      · rw [hheaders _ hne, hrefs _ hpb]
        exact hcount.count
      · rw [hheaders _ hne]
        exact hcount.size
  · rw [hblocks]
    by_cases hut : u = t
    · subst hut
      obtain rfl := hself hu
      rcases hnew with ⟨hnone, -⟩ | ⟨-, hnot, hknow⟩
      · rw [hnone] at hu
        cases hu
      · exact ⟨hnot, b, hb, rfl, hknow⟩
    · rw [hpc u hut] at hu ⊢
      have hne : hdr ≠ b.ptr := fun heq => hothers u hut (heq ▸ hu)
      obtain ⟨hnot, c, hc, rfl, hknow⟩ := h.working u hdr hu
      refine ⟨fun hp => hnot ((hmem _ fun heq => hne (Nat.add_right_cancel heq)).mp hp), c, hc, rfl,
        ?_⟩
      cases hcall : s.pc u <;> rw [hcall] at hknow <;>
        simp only [Knows, hheaders _ hne] at hknow ⊢ <;> exact hknow
  · by_cases hut : u = t
    · by_cases hvt : v = t
      · rw [hut, hvt]
      · subst hut
        rw [hpc v hvt] at hv
        exact absurd (hself hu ▸ hv) (hothers v hvt)
    · rw [hpc u hut] at hu
      by_cases hvt : v = t
      · subst hvt
        exact absurd (hself hv ▸ hu) (hothers u hut)
      · rw [hpc v hvt] at hv
        exact h.alone u v hdr hu hv
  · rw [hblocks] at hc
    by_cases hcb : c = b
    · subst hcb
      rcases hnew with ⟨-, hp, -⟩ | ⟨ht, -⟩
      · exact .inl hp
      · exact .inr ⟨t, ht⟩
    · have hne : c.ptr ≠ b.ptr := fun heq => hcb (h.block_inj hc hb heq)
      refine (h.held c hc).imp (fun hp => ?_) fun ⟨u, hu⟩ => ⟨u, ?_⟩
      · exact (hmem _ fun heq => hne (Nat.add_right_cancel heq)).mpr hp
      · have hut : u ≠ t := fun heq => hne (hold _ (heq ▸ hu))
        rwa [hpc u hut]

/-- Nobody works at a header whose payload is referenced. -/
theorem Inv.nobody (h : s.Inv) {hdr : ℕ} (hp : hdr + sizeofPayloadHdr ∈ s.refs) (u : ℕ) :
    (s.pc u).hdr ≠ some hdr := fun hu => (h.working u hdr hu).1 hp

/-- The thread at a header finds its block. -/
theorem Inv.here (h : s.Inv) {hdr : ℕ} (ht : (s.pc t).hdr = some hdr) :
    ∃ b ∈ s.blocks, b.ptr = hdr ∧ b.ptr + sizeofPayloadHdr ∉ s.refs ∧ s.Knows b (s.pc t) ∧
      (∀ u, u ≠ t → (s.pc u).hdr ≠ some b.ptr) ∧ ∀ hdr', (s.pc t).hdr = some hdr' → hdr' = b.ptr := by
  obtain ⟨hnot, b, hb, rfl, hknow⟩ := h.working t hdr ht
  refine ⟨b, hb, rfl, hnot, hknow, fun u hut hu => hut (h.alone u t _ hu ht), fun hdr' ht' => ?_⟩
  exact Option.some.inj (ht'.symm.trans ht)

theorem Inv.storeCount (h : s.Inv) {hdr : ℕ} {size : UInt32}
    (hpc : s.pc t = .storeCount hdr size) :
    ((s.setHeader hdr ⟨1, (s.headers hdr).size⟩).goto t (.storeSize hdr size)).Inv := by
  have hhere : (s.pc t).hdr = some hdr := by
    rw [hpc]
    rfl
  obtain ⟨b, hb, rfl, hnot, hknow, hothers, hold⟩ := h.here hhere
  refine h.at_block hb ⟨rfl, rfl, rfl⟩ (fun a ha => Function.update_of_ne ha ..) (fun _ _ => rfl)
    rfl hothers hold (.inr ?_)
  rw [hpc] at hknow
  refine ⟨rfl, hnot, hknow, ?_⟩
  show (Function.update s.headers b.ptr _ b.ptr).refcount = 1
  rw [Function.update_self]

/-- The new payload is handed out with one reference. -/
theorem Inv.storeSize (h : s.Inv) {hdr : ℕ} {size : UInt32}
    (hpc : s.pc t = .storeSize hdr size) :
    Inv { (s.setHeader hdr ⟨(s.headers hdr).refcount, size⟩).goto t .idle with
      refs := (hdr + sizeofPayloadHdr) ::ₘ s.refs } := by
  have hhere : (s.pc t).hdr = some hdr := by
    rw [hpc]
    rfl
  obtain ⟨b, hb, rfl, hnot, hknow, hothers, hold⟩ := h.here hhere
  rw [hpc] at hknow
  obtain ⟨hsize, hone⟩ := hknow
  refine h.at_block hb ⟨rfl, rfl, rfl⟩ (fun a ha => Function.update_of_ne ha ..)
    (fun q hq => Multiset.count_cons_of_ne hq _) rfl hothers hold
    (.inl ⟨rfl, Multiset.mem_cons_self _ _, ?_, ?_⟩)
  · show (Function.update s.headers b.ptr _ b.ptr).refcount.toNat = _
    rw [Function.update_self, hone, Multiset.count_cons_self, Multiset.count_eq_zero_of_notMem hnot]
    rfl
  · show b.size = u32 (sizeofPayloadHdr + (Function.update s.headers b.ptr _ b.ptr).size.toNat)
    rw [Function.update_self, hsize]

theorem Inv.retain (h : s.Inv) {p : ℕ} (hpc : s.pc t = .idle) (hp : p ∈ s.refs)
    (hfew : s.refs.count p + 1 < 2 ^ 32) :
    Inv { s.setHeader (p - sizeofPayloadHdr)
        ⟨(s.headers (p - sizeofPayloadHdr)).refcount + 1,
          (s.headers (p - sizeofPayloadHdr)).size⟩ with refs := p ::ₘ s.refs } := by
  obtain ⟨b, hb, rfl, hcount, hsize⟩ := h.referenced p hp
  rw [Nat.add_sub_cancel]
  refine h.at_block (t := t) hb ⟨rfl, rfl, rfl⟩ (fun a ha => Function.update_of_ne ha ..)
    (fun q hq => Multiset.count_cons_of_ne hq _) (l := .idle) ?_ (fun u _ => h.nobody hp u)
    (fun hdr ht => ?_) (.inl ⟨rfl, Multiset.mem_cons_self _ _, ?_, ?_⟩)
  · exact (hpc ▸ Function.update_eq_self t s.pc).symm
  · rw [hpc] at ht
    cases ht
  · show (Function.update s.headers b.ptr _ b.ptr).refcount.toNat = _
    rw [Function.update_self, Multiset.count_cons_self]
    simp only [UInt32.toNat_add, UInt32.toNat_one]
    rw [hcount, Nat.mod_eq_of_lt hfew]
  · show b.size = u32 (sizeofPayloadHdr + (Function.update s.headers b.ptr _ b.ptr).size.toNat)
    rw [Function.update_self]
    exact hsize

/-- Dropping the last reference leaves the block to the thread that did. -/
theorem Inv.release (h : s.Inv) {p : ℕ} (hpc : s.pc t = .idle) (hp : p ∈ s.refs) :
    Inv { (s.setHeader (p - sizeofPayloadHdr)
        ⟨(s.headers (p - sizeofPayloadHdr)).refcount - 1,
          (s.headers (p - sizeofPayloadHdr)).size⟩).goto t
        (if (s.headers (p - sizeofPayloadHdr)).refcount = 1 then .loadSize (p - sizeofPayloadHdr)
          else .idle) with refs := s.refs.erase p } := by
  obtain ⟨b, hb, rfl, hcount, hsize⟩ := h.referenced p hp
  rw [Nat.add_sub_cancel]
  have hpos := Multiset.count_pos.mpr hp
  refine h.at_block (t := t) hb ⟨rfl, rfl, rfl⟩ (fun a ha => Function.update_of_ne ha ..)
    (fun q hq => Multiset.count_erase_of_ne hq _) rfl (fun u _ => h.nobody hp u)
    (fun hdr ht => ?_) ?_
  · rw [hpc] at ht
    cases ht
  by_cases hlast : (s.headers b.ptr).refcount = 1
  · refine .inr ⟨?_, ?_, ?_⟩
    · rw [if_pos hlast]
      rfl
    · show _ ∉ s.refs.erase _
      rw [hlast] at hcount
      rw [← Multiset.count_eq_zero, Multiset.count_erase_self, ← hcount]
      rfl
    · rw [if_pos hlast]
      show b.size = u32 (sizeofPayloadHdr + (Function.update s.headers b.ptr _ b.ptr).size.toNat)
      rw [Function.update_self]
      exact hsize
  · have hmore : 1 < (s.headers b.ptr).refcount.toNat := by
      have hne : (s.headers b.ptr).refcount.toNat ≠ 1 := fun heq =>
        hlast (UInt32.toNat_inj.mp heq)
      omega
    have hle : (1 : UInt32) ≤ (s.headers b.ptr).refcount := by
      rw [UInt32.le_iff_toNat_le, UInt32.toNat_one]
      omega
    refine .inl ⟨?_, ?_, ?_, ?_⟩
    · rw [if_neg hlast]
      rfl
    · show _ ∈ s.refs.erase _
      rw [← Multiset.count_pos, Multiset.count_erase_self]
      omega
    · show (Function.update s.headers b.ptr _ b.ptr).refcount.toNat = _
      rw [Function.update_self, Multiset.count_erase_self, ← hcount]
      exact UInt32.toNat_sub_of_le _ _ hle
    · show b.size = u32 (sizeofPayloadHdr + (Function.update s.headers b.ptr _ b.ptr).size.toNat)
      rw [Function.update_self]
      exact hsize

theorem Inv.loadSize (h : s.Inv) {hdr : ℕ} (hpc : s.pc t = .loadSize hdr) :
    (s.goto t (.free hdr (u32 (sizeofPayloadHdr + (s.headers hdr).size.toNat)))).Inv := by
  have hhere : (s.pc t).hdr = some hdr := by
    rw [hpc]
    rfl
  obtain ⟨b, hb, rfl, hnot, hknow, hothers, hold⟩ := h.here hhere
  refine h.at_block hb ⟨rfl, rfl, rfl⟩ (fun _ _ => rfl) (fun _ _ => rfl) rfl hothers hold (.inr ?_)
  rw [hpc] at hknow
  exact ⟨rfl, hnot, hknow⟩

/-- The block that `gmk_alloc` hands out is new. -/
theorem Inv.alloc (h : s.Inv) {size : UInt32} {hdr : ℕ} {a : Alloc} {o : SlabId}
    (hpc : s.pc t = .idle)
    (ha : gmkAlloc s.alloc (u32 (sizeofPayloadHdr + size.toNat)) = (some hdr, a))
    (ho : HandedOut s.alloc a o hdr) :
    Inv { s.goto t (.storeCount hdr size) with
      alloc := a
      blocks := ⟨hdr, u32 (sizeofPayloadHdr + size.toNat), o⟩ :: s.blocks } := by
  have hrun := inv_alloc h.run ha ho
  have hfresh : ∀ b ∈ s.blocks, b.ptr ≠ hdr := fun b hb =>
    ((List.pairwise_cons.mp hrun.ptr_pairwise).1 b (List.mem_append_left _ hb)).symm
  have hother (u : ℕ) (hu : u ≠ t) :
      Function.update s.pc t (.storeCount hdr size) u = s.pc u := Function.update_of_ne hu ..
  have hnot {u : ℕ} (hu : (s.pc u).hdr = some hdr) : False := by
    obtain ⟨-, b, hb, hptr, -⟩ := h.working u hdr hu
    exact hfresh b hb hptr
  refine ⟨hrun, fun p hp => ?_, fun u hdr' hu => ?_, fun u v hdr' hu hv => ?_, fun b hb => ?_⟩
  · obtain ⟨b, hb, hptr, hcount⟩ := h.referenced p hp
    exact ⟨b, List.mem_cons_of_mem _ hb, hptr, hcount.count, hcount.size⟩
  · by_cases hut : u = t
    · subst hut
      simp only [goto, Function.update_self] at hu ⊢
      obtain rfl : hdr = hdr' := Option.some.inj hu
      refine ⟨fun hp => ?_, _, List.mem_cons_self, rfl, rfl⟩
      obtain ⟨b, hb, hptr, -⟩ := h.referenced _ hp
      exact hfresh b hb (Nat.add_right_cancel hptr).symm
    · simp only [goto, hother u hut] at hu ⊢
      obtain ⟨hp, b, hb, hptr, hknow⟩ := h.working u hdr' hu
      refine ⟨hp, b, List.mem_cons_of_mem _ hb, hptr, ?_⟩
      cases hcall : s.pc u <;> rw [hcall] at hknow <;> exact hknow
  · by_cases hut : u = t
    · by_cases hvt : v = t
      · rw [hut, hvt]
      · subst hut
        simp only [goto, Function.update_self, hother v hvt] at hu hv
        obtain rfl : hdr = hdr' := Option.some.inj hu
        exact (hnot hv).elim
    · simp only [goto, hother u hut] at hu
      by_cases hvt : v = t
      · subst hvt
        simp only [goto, Function.update_self] at hv
        obtain rfl : hdr = hdr' := Option.some.inj hv
        exact (hnot hu).elim
      · simp only [goto, hother v hvt] at hv
        exact h.alone u v hdr' hu hv
  · rcases List.mem_cons.mp hb with rfl | hb
    · refine .inr ⟨t, ?_⟩
      simp only [goto, Function.update_self]
      rfl
    · refine (h.held b hb).imp_right fun ⟨u, hu⟩ => ⟨u, ?_⟩
      have hut : u ≠ t := by
        rintro rfl
        rw [hpc] at hu
        cases hu
      simpa only [goto, hother u hut] using hu

/-- Filtering a block out by its address drops that block. -/
theorem Inv.filter_eq (h : s.Inv) (hb : b ∈ s.blocks) :
    s.blocks.filter (fun c => c.ptr ≠ b.ptr) = s.blocks.erase b := by
  have hsub : s.blocks.Pairwise fun b c => b.ptr ≠ c.ptr :=
    h.run.ptr_pairwise.sublist (List.sublist_append_left _ _)
  have hnodup : s.blocks.Nodup := hsub.imp fun hne heq => hne (congrArg LiveBlock.ptr heq)
  rw [hnodup.erase_eq_filter]
  refine List.filter_congr fun c hc => ?_
  by_cases hcb : c = b
  · simp [hcb]
  · have hne : c.ptr ≠ b.ptr := fun heq => hcb (h.block_inj hc hb heq)
    simp [hcb, hne]

/-- The block goes back with the size that it was asked for. -/
theorem Inv.free (h : s.Inv) {hdr total : ℕ} (hpc : s.pc t = .free hdr total) :
    Inv { s.goto t .idle with
      alloc := gmkFree s.alloc hdr total
      blocks := s.blocks.filter fun b => b.ptr ≠ hdr } := by
  have hhere : (s.pc t).hdr = some hdr := by
    rw [hpc]
    rfl
  obtain ⟨b, hb, rfl, hnot, hknow, hothers, hold⟩ := h.here hhere
  rw [hpc] at hknow
  obtain rfl : b.size = total := hknow
  have hother (u : ℕ) (hu : u ≠ t) : Function.update s.pc t .idle u = s.pc u :=
    Function.update_of_ne hu ..
  have hmem {c : LiveBlock} (hc : c ∈ s.blocks) (hne : c.ptr ≠ b.ptr) :
      c ∈ s.blocks.filter fun c => c.ptr ≠ b.ptr := List.mem_filter.mpr ⟨hc, by simpa using hne⟩
  have hidle {u hdr' : ℕ} (hu : (Function.update s.pc t .idle u).hdr = some hdr') :
      u ≠ t ∧ (s.pc u).hdr = some hdr' := by
    by_cases hut : u = t
    · rw [hut, Function.update_self] at hu
      cases hu
    · rw [hother u hut] at hu
      exact ⟨hut, hu⟩
  refine ⟨?_, fun p hp => ?_, fun u hdr' hu => ?_, fun u v hdr' hu hv => ?_, fun c hc => ?_⟩
  · have hrun := inv_free h.run (List.mem_append_left _ hb)
    rw [List.erase_append_left _ hb, ← h.filter_eq hb] at hrun
    exact hrun
  · obtain ⟨c, hc, rfl, hcount⟩ := h.referenced p hp
    have hne : c.ptr ≠ b.ptr := fun heq => hnot (heq ▸ hp)
    exact ⟨c, hmem hc hne, rfl, hcount.count, hcount.size⟩
  · obtain ⟨hut, hu⟩ := hidle hu
    obtain ⟨hp, c, hc, rfl, hknow⟩ := h.working u hdr' hu
    have hne : c.ptr ≠ b.ptr := fun heq => hothers u hut (heq ▸ hu)
    refine ⟨hp, c, hmem hc hne, rfl, ?_⟩
    simp only [goto, hother u hut]
    cases hcall : s.pc u <;> rw [hcall] at hknow <;> exact hknow
  · exact h.alone u v hdr' (hidle hu).2 (hidle hv).2
  · obtain ⟨hc, hne⟩ := List.mem_filter.mp hc
    refine (h.held c hc).imp_right fun ⟨u, hu⟩ => ⟨u, ?_⟩
    have hut : u ≠ t := by
      rintro rfl
      simp [hold _ hu] at hne
    simpa only [goto, hother u hut] using hu

/-- Others come and go in the allocator. -/
theorem Inv.other (h : s.Inv) {a : Alloc} {plain : List LiveBlock}
    (hrun : (AllocRun.mk a (s.blocks ++ plain)).Inv) : Inv { s with alloc := a, plain := plain } := by
  refine ⟨hrun, fun p hp => ?_, fun u hdr hu => ?_, h.alone, h.held⟩
  · obtain ⟨b, hb, hptr, hcount⟩ := h.referenced p hp
    exact ⟨b, hb, hptr, hcount.count, hcount.size⟩
  · obtain ⟨hp, b, hb, hptr, hknow⟩ := h.working u hdr hu
    refine ⟨hp, b, hb, hptr, ?_⟩
    show Knows _ b (s.pc u)
    cases hcall : s.pc u <;> rw [hcall] at hknow <;> exact hknow

theorem Inv.write (h : s.Inv) {a : ℕ} (w : PayloadHdr) (ha : ∀ b ∈ s.blocks, a ≠ b.ptr) :
    (s.setHeader a w).Inv := by
  have hsame (b : LiveBlock) (hb : b ∈ s.blocks) :
      (s.setHeader a w).headers b.ptr = s.headers b.ptr := Function.update_of_ne (ha b hb).symm ..
  refine ⟨h.run, fun p hp => ?_, fun u hdr hu => ?_, h.alone, h.held⟩
  · obtain ⟨b, hb, hptr, hcount⟩ := h.referenced p hp
    refine ⟨b, hb, hptr, ?_, ?_⟩
    · rw [hsame b hb]
      exact hcount.count
    · rw [hsame b hb]
      exact hcount.size
  · obtain ⟨hp, b, hb, hptr, hknow⟩ := h.working u hdr hu
    refine ⟨hp, b, hb, hptr, ?_⟩
    show (s.setHeader a w).Knows b (s.pc u)
    cases hcall : s.pc u <;> rw [hcall] at hknow <;> simp only [Knows, hsame b hb] at hknow ⊢ <;>
      exact hknow

/-- A list of live blocks may be taken in any order. -/
theorem inv_perm {a : Alloc} {l l' : List LiveBlock} (h : (AllocRun.mk a l).Inv) (hp : l.Perm l') :
    (AllocRun.mk a l').Inv := by
  obtain ⟨free, hfree, hlive⟩ := h.owned
  refine ⟨h.layout, ⟨free, hfree, fun b hb => hlive b (hp.mem_iff.mpr hb)⟩, ?_⟩
  exact (hp.pairwise_iff fun hne heq hptr => hne heq.symm hptr.symm).mp h.distinct

theorem Inv.step (h : s.Inv) (hfew : s.Few act) (hs : s.Step act s') : s'.Inv := by
  cases hs with
  | alloc hpc hsize ha ho => exact h.alloc hpc ha ho
  | refuse hpc hsize ha => exact h.other (inv_refuse h.run ha)
  | storeCount hpc => exact h.storeCount hpc
  | storeSize hpc => exact h.storeSize hpc
  | retain hpc hp => exact h.retain hpc hp hfew
  | release hpc hp => exact h.release hpc hp
  | loadSize hpc => exact h.loadSize hpc
  | free hpc => exact h.free hpc
  | allocPlain ha ho =>
    exact h.other (inv_perm (inv_alloc h.run ha ho) List.perm_middle.symm)
  | refusePlain ha => exact h.other (inv_refuse h.run ha)
  | @freePlain b hb =>
    have hmem : b ∈ s.blocks ++ s.plain := List.mem_append_right _ hb
    have hnot : b ∉ s.blocks := fun hb' => by
      have hdis := List.pairwise_append.mp h.run.ptr_pairwise
      exact hdis.2.2 b hb' b hb rfl
    have hrun := inv_free h.run hmem
    rw [List.erase_append_right _ hnot] at hrun
    exact h.other hrun
  | write ha => exact h.write _ ha

theorem start_inv {mem arenaSize : ℕ} {a : Alloc} (h : gmkAllocInit mem arenaSize = some a)
    (headers : ℕ → PayloadHdr) : (start a headers).Inv where
  run := gmkAllocInit_inv h
  referenced p hp := absurd hp (Multiset.notMem_zero p)
  working t hdr ht := by cases ht
  alone t u hdr ht := by cases ht
  held b hb := absurd hb List.not_mem_nil

/-- In every interleaving of threads that share payloads, with others that use the same allocator
and write anywhere but in the headers of payloads, as long as no payload has `2 ^ 32` references: a
referenced payload is a live block that counts its references; whoever makes or frees a block has it
alone and frees it with its own size; no block is forgotten; and no two live blocks overlap. -/
theorem refcounts_exact {mem arenaSize : ℕ} {a : Alloc} (ha : gmkAllocInit mem arenaSize = some a)
    (headers : ℕ → PayloadHdr) (h : Reach Step Few (start a headers) s) :
    (∀ p ∈ s.refs, ∃ b ∈ s.blocks, p = b.ptr + sizeofPayloadHdr ∧
      (s.headers b.ptr).refcount.toNat = s.refs.count p ∧
      b.size = u32 (sizeofPayloadHdr + (s.headers b.ptr).size.toNat)) ∧
    (∀ t hdr, (s.pc t).hdr = some hdr → hdr + sizeofPayloadHdr ∉ s.refs ∧
      (∀ u, u ≠ t → (s.pc u).hdr ≠ some hdr) ∧
      ∃ b ∈ s.blocks, b.ptr = hdr ∧ ∀ total, s.pc t = .free hdr total → total = b.size) ∧
    (∀ b ∈ s.blocks, b.ptr + sizeofPayloadHdr ∈ s.refs ∨ ∃ t, (s.pc t).hdr = some b.ptr) ∧
    (AllocRun.mk s.alloc (s.blocks ++ s.plain)).Separated := by
  have hinv : s.Inv := h.inv (start_inv ha headers) fun _ _ _ hs hg hstep => hs.step hg hstep
  refine ⟨fun p hp => ?_, fun t hdr ht => ?_, hinv.held, hinv.run.separated⟩
  · obtain ⟨b, hb, rfl, hcount⟩ := hinv.referenced p hp
    exact ⟨b, hb, rfl, hcount.count, hcount.size⟩
  · obtain ⟨hnot, b, hb, hptr, hknow⟩ := hinv.working t hdr ht
    refine ⟨hnot, fun u hut hu => hut (hinv.alone u t hdr hu ht), b, hb, hptr, fun total hfree => ?_⟩
    rw [hfree] at hknow
    exact hknow.symm

/-- In a page-sized arena thread 0 makes a payload of 40 bytes, and thread 1 retains it. -/
theorem refcounts_exact_page : ∃ s : PayloadThreads, s.refs = {72, 72} ∧
    ∀ p ∈ s.refs, ∃ b ∈ s.blocks, p = b.ptr + sizeofPayloadHdr ∧
      (s.headers b.ptr).refcount.toNat = s.refs.count p ∧
      b.size = u32 (sizeofPayloadHdr + (s.headers b.ptr).size.toNat) := by
  have heval : (gmkAllocInit 64 4096).map (fun a => (gmkAlloc a 48).1) = some (some 64) := by rfl
  obtain ⟨a, ha, hp⟩ := Option.map_eq_some_iff.mp heval
  have hserved : gmkAlloc a 48 = (some 64, (gmkAlloc a 48).2) := Prod.ext hp rfl
  obtain ⟨o, ho, -⟩ := inv_handedOut (gmkAllocInit_inv ha) hserved
  have hfew : Multiset.count 72 ({72} : Multiset ℕ) + 1 < 2 ^ 32 := by decide
  have h₁ : Reach Step Few (start a fun _ => default) _ :=
    .next (PayloadAct.alloc 0 40 o) .start trivial (.alloc rfl (by decide) hserved ho)
  have h₂ : Reach Step Few (start a fun _ => default) _ :=
    .next (PayloadAct.store 0) h₁ trivial (.storeCount rfl)
  have h₃ : Reach Step Few (start a fun _ => default) _ :=
    .next (PayloadAct.store 0) h₂ trivial (.storeSize rfl)
  have h₄ : Reach Step Few (start a fun _ => default) _ :=
    .next (PayloadAct.retain 1 72) h₃ hfew (.retain rfl (Multiset.mem_singleton_self 72))
  exact ⟨_, rfl, (refcounts_exact ha (fun _ => default) h₄).1⟩

end PayloadThreads
end Ggmk

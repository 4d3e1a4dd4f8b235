import Ggmk.Payload

/-! How large the block of a payload is, and which release gives it back. Both the total of a
request and the reference count are 32-bit words. -/
namespace Ggmk
open Word AllocRun

/-! ## Room for the payload -/

/-- A payload that is handed out has its bytes inside the object that the allocator took from one
of its slabs. -/
def HasRoom (h : Heap) (size : UInt32) : Prop :=
  ∀ p h', gmkPayloadAlloc h size = (some p, h') → ∃ o,
    HandedOut h.alloc h'.alloc o (p - sizeofPayloadHdr) ∧
      bytes p size.toNat ⊆ bytes (p - sizeofPayloadHdr) (h'.alloc.slab o).objSize

section Room
variable {h h' : Heap} {size : UInt32} {p : ℕ}

/-- The header precedes the payload in a block of the wrapped total. -/
theorem gmkPayloadAlloc_block (ha : gmkPayloadAlloc h size = (some p, h')) :
    ∃ mem, p = mem + sizeofPayloadHdr ∧
      gmkAlloc h.alloc (u32 (sizeofPayloadHdr + size.toNat)) = (some mem, h'.alloc) ∧
      h'.headers mem = ⟨1, size⟩ := by
  obtain ⟨mem, a, hmem, rfl, rfl⟩ := gmkPayloadAlloc_served ha
  exact ⟨mem, rfl, hmem, Function.update_self _ _ _⟩

theorem gmkPayloadAlloc_of_alloc {mem : ℕ} {a : Alloc} (hsize : size ≠ 0)
    (ha : gmkAlloc h.alloc (u32 (sizeofPayloadHdr + size.toNat)) = (some mem, a)) :
    ∃ h', gmkPayloadAlloc h size = (some (mem + sizeofPayloadHdr), h') := by
  unfold gmkPayloadAlloc
  rw [if_neg hsize]
  simp only [ha]
  exact ⟨_, rfl⟩

/-- A total that does not wrap is at most the size of the object, and one that wraps to zero is
refused. -/
theorem hasRoom_of_le {live : List LiveBlock} (hinv : (AllocRun.mk h.alloc live).Inv)
    (hsize : size.toNat ≤ 2 ^ 32 - 8) : HasRoom h size := by
  intro p h' ha
  obtain ⟨mem, rfl, hmem, -⟩ := gmkPayloadAlloc_block ha
  rcases hsize.lt_or_eq with hlt | heq
  · obtain ⟨o, ho, -⟩ := inv_handedOut hinv hmem
    have henough := (inv_alloc hinv hmem ho).enough List.mem_cons_self
    simp only [u32_of_lt (show sizeofPayloadHdr + size.toNat < 2 ^ 32 by
      unfold sizeofPayloadHdr; omega)] at henough
    rw [Nat.add_sub_cancel]
    refine ⟨o, ho, bytes_subset (Nat.le_add_right _ _) ?_⟩
    omega
  · rw [heq, show u32 (sizeofPayloadHdr + (2 ^ 32 - 8)) = 0 by decide] at hmem
    simp [gmkAlloc] at hmem

/-- A request of one to seven bytes is one for the smallest bin. -/
theorem gmkAlloc_tiny (a : Alloc) {total : ℕ} (hpos : 0 < total) (hlt : total < 8) :
    gmkAlloc a total = match allocFromBlock a total with
      | some (q, a') => (some q, { a' with totalAllocBytes := u64 (a'.totalAllocBytes + total) })
      | none => (none, { a with totalAllocFails := u64 (a.totalAllocFails + 1) }) := by
  have htask : total ≤ sizeofTask ∧ total ≠ sizeofTask := by
    unfold sizeofTask
    omega
  have hroute : routeAlloc a total = allocFromBlock a total := by
    rw [routeAlloc, if_pos htask.1, if_neg htask.2]
  rw [← hroute]
  exact if_neg hpos.ne'

theorem allocFromBlock_tiny (a : Alloc) {total : ℕ} (hpos : 0 < total) (hlt : total < 8) :
    allocFromBlock a total = none ↔
      (a.slab (.bin 0)).capacity = 0 ∨ (a.slab (.bin 0)).freeHead < 0 := by
  have hbin : binIndex total = 0 := if_pos (show total ≤ gmkBlockMinSize by
    unfold gmkBlockMinSize
    omega)
  simp only [allocFromBlock, gmkBlockAlloc, if_neg hpos.ne', hbin, lt_irrefl, if_false,
    Int.toNat_zero, Alloc.slab, Option.map_eq_none_iff]
  by_cases hcap : (a.block.bins 0).capacity = 0
  · rw [if_pos hcap]
    exact iff_of_true rfl (.inl hcap)
  · rw [if_neg hcap, Option.map_eq_none_iff, gmkSlabAlloc]
    by_cases hhead : (a.block.bins 0).freeHead < 0
    · rw [if_pos hhead]
      exact iff_of_true rfl (.inr hhead)
    · rw [if_neg hhead]
      simp [hcap, hhead]

/-- An empty bin has no free slot. -/
theorem freeHead_of_capacity {live : List LiveBlock} {a : Alloc} (hinv : (AllocRun.mk a live).Inv)
    {o : SlabId} (hcap : (a.slab o).capacity = 0) : (a.slab o).freeHead < 0 := by
  obtain ⟨free, hfree, -⟩ := hinv.owned
  by_contra hpos
  obtain ⟨rest, hcons, -⟩ := (hfree o).lists.pop (not_lt.mp hpos)
  have hbound : _ < (a.slab o).capacity := ((hfree o).bound _ (hcons ▸ List.mem_cons_self)).1
  omega

/-- The total of a size within eight of `2 ^ 32` wraps. -/
theorem wrapped_total (hsize : 2 ^ 32 - 8 < size.toNat) :
    0 < u32 (sizeofPayloadHdr + size.toNat) ∧ u32 (sizeofPayloadHdr + size.toNat) < 8 := by
  have hlt := size.toNat_lt
  unfold u32 sizeofPayloadHdr
  omega

/-- The object behind a tiny total has 32 bytes. -/
theorem tiny_obj {live : List LiveBlock} (hinv : (AllocRun.mk h.alloc live).Inv) {mem : ℕ}
    (ha : gmkPayloadAlloc h size = (some (mem + sizeofPayloadHdr), h'))
    (hlt : u32 (sizeofPayloadHdr + size.toNat) < 8) {o : SlabId}
    (ho : HandedOut h.alloc h'.alloc o mem) : (h'.alloc.slab o).objSize = gmkBlockMinSize := by
  obtain ⟨mem', heq, hmem, -⟩ := gmkPayloadAlloc_block ha
  obtain rfl : mem = mem' := Nat.add_right_cancel heq
  have hinv' := inv_alloc hinv hmem ho
  obtain ⟨i, hi, -⟩ := hinv'.slot List.mem_cons_self
  rcases hinv'.serves List.mem_cons_self with ⟨-, hsize⟩ | ⟨j, hj, hbin⟩
  · simp only [sizeofTask] at hsize
    omega
  · simp only at hj hbin hi
    obtain rfl : j = 0 := by
      have hzero : binIndex (u32 (sizeofPayloadHdr + size.toNat)) = 0 :=
        if_pos (show _ ≤ gmkBlockMinSize by unfold gmkBlockMinSize; omega)
      omega
    rw [hj] at hi ⊢
    exact hinv'.layout.bin_obj 0 (Nat.zero_lt_of_lt hi)

/-- While the smallest bin has a free object it serves a tiny total. -/
theorem tiny_served {live : List LiveBlock} (hinv : (AllocRun.mk h.alloc live).Inv) {total : ℕ}
    (hpos : 0 < total) (hlt : total < 8) (hhead : ¬ (h.alloc.slab (.bin 0)).freeHead < 0) :
    ∃ mem a, gmkAlloc h.alloc total = (some mem, a) := by
  have hsome : allocFromBlock h.alloc total ≠ none := by
    rw [Ne, allocFromBlock_tiny h.alloc hpos hlt]
    rintro (hcap | hneg)
    · exact hhead (freeHead_of_capacity hinv hcap)
    · exact hhead hneg
  obtain ⟨⟨q, a⟩, hq⟩ := Option.ne_none_iff_exists'.mp hsome
  rw [gmkAlloc_tiny h.alloc hpos hlt, hq]
  exact ⟨_, _, rfl⟩

/-- The payload has its room unless its total wraps and the smallest bin serves it. -/
theorem hasRoom_iff {live : List LiveBlock} (hinv : (AllocRun.mk h.alloc live).Inv) :
    HasRoom h size ↔ size.toNat ≤ 2 ^ 32 - 8 ∨ (h.alloc.slab (.bin 0)).freeHead < 0 := by
  constructor
  · intro hroom
    by_contra hnot
    obtain ⟨hsize, hhead⟩ := not_or.mp hnot
    obtain ⟨hpos, hlt⟩ := wrapped_total (not_le.mp hsize)
    obtain ⟨mem, a, hmem⟩ := tiny_served hinv hpos hlt hhead
    have hzero : size ≠ 0 := by
      rintro rfl
      exact hsize (by decide)
    obtain ⟨h', hp⟩ := gmkPayloadAlloc_of_alloc hzero hmem
    obtain ⟨o, ho, hsub⟩ := hroom _ _ hp
    rw [Nat.add_sub_cancel] at ho hsub
    have hobj := tiny_obj hinv hp hlt ho
    have hbyte : mem + sizeofPayloadHdr + 24 ∈ bytes (mem + sizeofPayloadHdr) size.toNat :=
      ⟨Nat.le_add_right _ _, by omega⟩
    have hlast := (hsub hbyte).2
    rw [hobj] at hlast
    unfold sizeofPayloadHdr gmkBlockMinSize at hlast
    omega
  · intro hcond
    by_cases hsize : size.toNat ≤ 2 ^ 32 - 8
    · exact hasRoom_of_le hinv hsize
    · have hhead := hcond.resolve_left hsize
      obtain ⟨hpos, hlt⟩ := wrapped_total (not_le.mp hsize)
      intro p h' ha
      obtain ⟨mem, -, hmem, -⟩ := gmkPayloadAlloc_block ha
      rw [gmkAlloc_tiny h.alloc hpos hlt, (allocFromBlock_tiny h.alloc hpos hlt).mpr (.inr hhead)]
        at hmem
      simp at hmem

end Room
/-! ## Retains and releases -/

inductive RefOp where
  | retain
  | release
  deriving DecidableEq

/-- The answers of the releases, and the heap after all operations. -/
def runRefs (p : ℕ) : Heap → List RefOp → List Bool × Heap
  | h, [] => ([], h)
  | h, .retain :: l => runRefs p (gmkPayloadRetain h p) l
  | h, .release :: l =>
      let (freed, h) := gmkPayloadRelease h p
      let (answers, h) := runRefs p h l
      (freed :: answers, h)

/-- From `n` references on, the operations give up the last one at their end and not before. -/
def Spends : ℕ → List RefOp → Prop
  | n, [] => n = 0
  | n, .retain :: l => 0 < n ∧ Spends (n + 1) l
  | n, .release :: l => 0 < n ∧ Spends (n - 1) l

/-- There are never more than `bound` references. -/
def AtMost (bound : ℕ) : ℕ → List RefOp → Prop
  | n, [] => n ≤ bound
  | n, .retain :: l => n ≤ bound ∧ AtMost bound (n + 1) l
  | n, .release :: l => n ≤ bound ∧ AtMost bound (n - 1) l

/-- Only the last release frees, and it puts the block back into slab `o`. -/
structure FreedOnce (h : Heap) (p : ℕ) (o : SlabId) (ops : List RefOp) : Prop where
  answers : (runRefs p h ops).1 = List.replicate (ops.count .retain) false ++ [true]
  back : PutBack (runRefs p h ops.dropLast).2.alloc (runRefs p h ops).2.alloc o
    (p - sizeofPayloadHdr)

/-- The allocator is `a`, and the header at `hdr` counts `n` references on 32 bits. -/
structure Counts (a : Alloc) (hdr : ℕ) (size : UInt32) (n : ℕ) (h : Heap) : Prop where
  alloc : h.alloc = a
  header : h.headers hdr = ⟨UInt32.ofNat n, size⟩

section Refs
variable {a : Alloc} {hdr n : ℕ} {size : UInt32} {h : Heap}

theorem Counts.retain (hc : Counts a hdr size n h) :
    Counts a hdr size (n + 1) (gmkPayloadRetain h (hdr + sizeofPayloadHdr)) := by
  have hne : hdr + sizeofPayloadHdr ≠ 0 := by unfold sizeofPayloadHdr; omega
  rw [gmkPayloadRetain, if_neg hne]
  refine ⟨hc.alloc, ?_⟩
  simp [Heap.setRefcount, hc.header, UInt32.ofNat_add]

/-- The 32-bit count is one exactly when `n` is one modulo `2 ^ 32`. -/
theorem ofNat_eq_one_iff (n : ℕ) : UInt32.ofNat n = 1 ↔ n % 2 ^ 32 = 1 := by
  rw [← UInt32.toNat_inj, UInt32.toNat_ofNat']
  rfl

theorem Counts.release (hc : Counts a hdr size n h) (hn : 0 < n) :
    ((gmkPayloadRelease h (hdr + sizeofPayloadHdr)).1 = true ↔ n % 2 ^ 32 = 1) ∧
      (n % 2 ^ 32 = 1 → (gmkPayloadRelease h (hdr + sizeofPayloadHdr)).2.alloc =
        gmkFree a hdr (u32 (sizeofPayloadHdr + size.toNat))) ∧
      (n % 2 ^ 32 ≠ 1 →
        Counts a hdr size (n - 1) (gmkPayloadRelease h (hdr + sizeofPayloadHdr)).2) := by
  have hne : hdr + sizeofPayloadHdr ≠ 0 := by unfold sizeofPayloadHdr; omega
  rw [gmkPayloadRelease, if_neg hne]
  simp only [Nat.add_sub_cancel, hc.header]
  by_cases hone : n % 2 ^ 32 = 1
  · rw [if_pos ((ofNat_eq_one_iff n).mpr hone)]
    refine ⟨iff_of_true rfl hone, fun _ => ?_, fun hne => absurd hone hne⟩
    simp [Heap.setRefcount, hc.header, hc.alloc]
  · rw [if_neg (mt (ofNat_eq_one_iff n).mp hone)]
    refine ⟨iff_of_false (by simp) hone, fun h => absurd h hone, fun _ => ⟨hc.alloc, ?_⟩⟩
    obtain ⟨m, rfl⟩ : ∃ m, n = m + 1 := ⟨n - 1, by omega⟩
    simp [Heap.setRefcount, hc.header, UInt32.ofNat_add]

theorem Spends.nil_of_zero {l : List RefOp} (hs : Spends 0 l) : l = [] := by
  cases l with
  | nil => rfl
  | cons op l => cases op <;> exact absurd hs.1 (lt_irrefl 0)

theorem Spends.ne_nil {l : List RefOp} (hs : Spends n l) (hn : 0 < n) : l ≠ [] := by
  rintro rfl
  exact hn.ne' hs

/-- There are `n` more releases than retains. -/
theorem Spends.count_release {ops : List RefOp} (hs : Spends n ops) :
    ops.count .release = ops.count .retain + n := by
  induction ops generalizing n with
  | nil =>
    rw [List.count_nil, List.count_nil, Nat.zero_add]
    exact hs.symm
  | cons op l ih =>
    cases op with
    | retain =>
      have hcount := ih hs.2
      simp only [List.count_cons_self, List.count_cons_of_ne (show RefOp.retain ≠ .release by decide)]
      omega
    | release =>
      have hcount := ih hs.2
      have hpos := hs.1
      simp only [List.count_cons_self, List.count_cons_of_ne (show RefOp.release ≠ .retain by decide)]
      omega

theorem length_runRefs (p : ℕ) (h : Heap) (ops : List RefOp) :
    (runRefs p h ops).1.length = ops.count .release := by
  induction ops generalizing h with
  | nil => rfl
  | cons op l ih =>
    cases op with
    | retain => rw [runRefs, ih, List.count_cons_of_ne (by decide)]
    | release => simp only [runRefs, List.length_cons, ih, List.count_cons_self]

/-- While the count fits, only the release of the last reference frees. -/
theorem Counts.run_of_atMost {ops : List RefOp} (hc : Counts a hdr size n h) (hn : 0 < n)
    (hs : Spends n ops) (hmax : AtMost (2 ^ 32) n ops) :
    (runRefs (hdr + sizeofPayloadHdr) h ops).1 =
        List.replicate (ops.count .release - 1) false ++ [true] ∧
      (runRefs (hdr + sizeofPayloadHdr) h ops.dropLast).2.alloc = a ∧
      (runRefs (hdr + sizeofPayloadHdr) h ops).2.alloc =
        gmkFree a hdr (u32 (sizeofPayloadHdr + size.toNat)) := by
  induction ops generalizing n h with
  | nil => exact absurd hs hn.ne'
  | cons op l ih =>
    cases op with
    | retain =>
      have hne := hs.2.ne_nil (Nat.succ_pos n)
      have hrest := ih hc.retain (Nat.succ_pos n) hs.2 hmax.2
      rw [List.dropLast_cons_of_ne_nil hne, List.count_cons_of_ne (by decide)]
      exact hrest
    | release =>
      obtain ⟨hans, hlast, hmore⟩ := hc.release hn
      by_cases hone : n = 1
      · subst hone
        obtain rfl := hs.2.nil_of_zero
        simp only [runRefs, List.dropLast_singleton, List.count_cons_self, List.count_nil]
        exact ⟨by rw [hans.mpr rfl]; rfl, hc.alloc, hlast rfl⟩
      · have hmod : n % 2 ^ 32 ≠ 1 := by
          have hle := hmax.1
          omega
        have hpos : 0 < n - 1 := by omega
        have hne := hs.2.ne_nil hpos
        obtain ⟨h1, h2, h3⟩ := ih (hmore hmod) hpos hs.2 hmax.2
        have hcount := hs.2.count_release
        rw [List.dropLast_cons_of_ne_nil hne, List.count_cons_self]
        simp only [runRefs]
        refine ⟨?_, h2, h3⟩
        rw [h1, Bool.eq_false_iff.mpr (mt hans.mp hmod), ← List.cons_append,
          ← List.replicate_succ]
        congr 2
        omega

/-- Above `2 ^ 32` references the count comes to one again on the way down. -/
theorem Counts.early_of_gt {ops : List RefOp} (hc : Counts a hdr size n h) (hn : 2 ^ 32 < n)
    (hs : Spends n ops) : true ∈ (runRefs (hdr + sizeofPayloadHdr) h ops).1.dropLast := by
  induction ops generalizing n h with
  | nil =>
    have hzero : n = 0 := hs
    omega
  | cons op l ih =>
    cases op with
    | retain => exact ih hc.retain (by omega) hs.2
    | release =>
      obtain ⟨hans, -, hmore⟩ := hc.release (by omega)
      have hne : (runRefs (hdr + sizeofPayloadHdr)
          (gmkPayloadRelease h (hdr + sizeofPayloadHdr)).2 l).1 ≠ [] := by
        rw [← List.length_pos_iff, length_runRefs, hs.2.count_release]
        omega
      simp only [runRefs]
      rw [List.dropLast_cons_of_ne_nil hne]
      by_cases hone : n % 2 ^ 32 = 1
      · rw [hans.mpr hone]
        exact List.mem_cons_self
      · exact List.mem_cons_of_mem _ (ih (hmore hone) (by omega) hs.2)

theorem Counts.early_of_not_atMost {ops : List RefOp} (hc : Counts a hdr size n h) (hn : 0 < n)
    (hs : Spends n ops) (hmax : ¬ AtMost (2 ^ 32) n ops) :
    true ∈ (runRefs (hdr + sizeofPayloadHdr) h ops).1.dropLast := by
  induction ops generalizing n h with
  | nil => exact absurd hs hn.ne'
  | cons op l ih =>
    by_cases hgt : 2 ^ 32 < n
    · exact hc.early_of_gt hgt hs
    cases op with
    | retain => exact ih hc.retain (Nat.succ_pos n) hs.2 fun h => hmax ⟨not_lt.mp hgt, h⟩
    | release =>
      obtain ⟨-, -, hmore⟩ := hc.release hn
      have hrest : ¬ AtMost (2 ^ 32) (n - 1) l := fun h => hmax ⟨not_lt.mp hgt, h⟩
      have hpos : 0 < n - 1 := by
        by_contra hzero
        obtain rfl : n = 1 := by omega
        rw [hs.2.nil_of_zero] at hrest
        exact hrest (Nat.zero_le _)
      have hlate := ih (hmore (by omega)) hpos hs.2 hrest
      have hne : (runRefs (hdr + sizeofPayloadHdr)
          (gmkPayloadRelease h (hdr + sizeofPayloadHdr)).2 l).1 ≠ [] := by
        intro hnil
        rw [hnil] at hlate
        cases hlate
      simp only [runRefs]
      rw [List.dropLast_cons_of_ne_nil hne]
      exact List.mem_cons_of_mem _ hlate

end Refs

/-- In every state of the allocator: a payload has its bytes in its block unless the total wraps to
a tiny one that the smallest bin serves, and of a complete sequence of retains and releases the last
release alone frees, into the slab of the block, unless more than `2 ^ 32` references are out. -/
theorem payload_blocks_iff {mem arenaSize : ℕ} {a : Alloc}
    (hinit : gmkAllocInit mem arenaSize = some a) {s : AllocRun}
    (hrun : Relation.ReflTransGen AllocStep ⟨a, []⟩ s) {h : Heap} (hh : h.alloc = s.alloc)
    (size : UInt32) :
    (HasRoom h size ↔ size.toNat ≤ 2 ^ 32 - 8 ∨ (h.alloc.slab (.bin 0)).freeHead < 0) ∧
    ∀ p h' o, gmkPayloadAlloc h size = (some p, h') →
      HandedOut h.alloc h'.alloc o (p - sizeofPayloadHdr) → ∀ ops, Spends 1 ops →
        (FreedOnce h' p o ops ↔ AtMost (2 ^ 32) 1 ops) := by
  have hinv : (AllocRun.mk h.alloc s.live).Inv := by
    rw [hh]
    exact run_inv hinit hrun
  refine ⟨hasRoom_iff hinv, ?_⟩
  intro p h' o ha ho ops hs
  obtain ⟨hdr, rfl, hmem, hhdr⟩ := gmkPayloadAlloc_block ha
  rw [Nat.add_sub_cancel] at ho
  have hc : Counts h'.alloc hdr size 1 h' := ⟨rfl, hhdr⟩
  constructor
  · intro hfreed
    by_contra hmax
    have hearly := hc.early_of_not_atMost one_pos hs hmax
    rw [hfreed.answers, List.dropLast_concat] at hearly
    exact absurd (List.eq_of_mem_replicate hearly) (by decide)
  · intro hmax
    obtain ⟨hans, hbefore, hafter⟩ := hc.run_of_atMost one_pos hs hmax
    refine ⟨?_, ?_⟩
    · rw [hans, hs.count_release, Nat.add_sub_cancel]
    · rw [hbefore, hafter, Nat.add_sub_cancel]
      exact inv_putBack (inv_alloc hinv hmem ho) List.mem_cons_self

/-- The heap of a new arena. -/
def newHeap (a : Alloc) : Heap := ⟨a, fun _ => default, ∅⟩

/-- A payload of 16 bytes in a page-sized arena, retained once and released twice. -/
theorem payload_blocks_iff_page : ∃ a p h' o, gmkAllocInit 64 4096 = some a ∧
    HasRoom (newHeap a) 16 ∧ gmkPayloadAlloc (newHeap a) 16 = (some p, h') ∧
    FreedOnce h' p o [.retain, .release, .release] := by
  have heval : (gmkAllocInit 64 4096).map (fun a => (gmkPayloadAlloc (newHeap a) 16).1.isSome) =
      some true := by rfl
  obtain ⟨a, ha, hsome⟩ := Option.map_eq_some_iff.mp heval
  obtain ⟨p, hp⟩ := Option.isSome_iff_exists.mp hsome
  have hpay : gmkPayloadAlloc (newHeap a) 16 = (some p, (gmkPayloadAlloc (newHeap a) 16).2) :=
    Prod.ext hp rfl
  have hiff := payload_blocks_iff ha .refl (h := newHeap a) rfl 16
  have hroom : HasRoom (newHeap a) 16 := hiff.1.mpr (.inl (by decide))
  obtain ⟨o, ho, -⟩ := hroom p _ hpay
  have hfreed := (hiff.2 p _ o hpay ho [.retain, .release, .release]
    ⟨one_pos, two_pos, one_pos, rfl⟩).mpr ⟨by decide, by decide, by decide, Nat.zero_le _⟩
  exact ⟨a, p, _, o, ha, hroom, hpay, hfreed⟩

/-- A payload of `2 ^ 32 - 1` bytes is served with an object of 32 bytes. -/
theorem payload_without_room : ∃ a, gmkAllocInit 64 4096 = some a ∧
    ¬ HasRoom (newHeap a) (2 ^ 32 - 1) := by
  have heval : (gmkAllocInit 64 4096).map (fun a => (a.slab (.bin 0)).freeHead) = some 0 := by rfl
  obtain ⟨a, ha, hhead⟩ := Option.map_eq_some_iff.mp heval
  refine ⟨a, ha, ?_⟩
  rw [hasRoom_iff (gmkAllocInit_inv ha)]
  rintro (hsize | hneg)
  · exact absurd hsize (by decide)
  · have hneg' : (a.slab (.bin 0)).freeHead < 0 := hneg
    omega

end Ggmk

import Ggmk.Alloc.Slab

/-! Runs of a slab: the free list has exactly the objects that are not live (`alloc_slab.c`). -/
namespace Ggmk
open Word FreeList Slab

inductive SlabOp
  | alloc
  | free (ptr : ℕ)

/-- A slab in use. `live` are the objects that have been allocated and not freed, and `counts` is
`alloc_count` in every state so far. -/
structure SlabRun where
  slab : Slab
  live : List ℕ
  counts : List ℕ

theorem sub32_one {n : ℕ} (h0 : 0 < n) (hn : n < 2 ^ 32) : sub32 n 1 = n - 1 := by
  unfold sub32 u32
  omega

/-- The greatest of the values so far, and of one more. -/
theorem isGreatest_snoc {l : List ℕ} {m : ℕ} (h : IsGreatest {c | c ∈ l} m) (n : ℕ) :
    IsGreatest {c | c ∈ l ++ [n]} (max m n) := by
  refine ⟨?_, fun c hc => ?_⟩
  · rcases max_choice m n with hmax | hmax
    · rw [hmax]
      exact List.mem_append_left _ h.1
    · rw [hmax]
      exact List.mem_append_right _ List.mem_cons_self
  · rcases List.mem_append.mp hc with hc | hc
    · exact (h.2 hc).trans (le_max_left m n)
    · exact (List.mem_singleton.mp hc).trans_le (le_max_right m n)

theorem isGreatest_snoc_of_le {l : List ℕ} {m n : ℕ} (h : IsGreatest {c | c ∈ l} m)
    (hn : n ≤ m) : IsGreatest {c | c ∈ l ++ [n]} m := by
  have hmax := isGreatest_snoc h n
  rwa [max_eq_left hn] at hmax

namespace SlabRun
variable {s : Slab} {r : SlabRun} {spare used : List ℕ}

def start (s : Slab) : SlabRun := ⟨s, [], [s.allocCount]⟩

/-- An allocation, or the release of a live object. -/
def step (r : SlabRun) : SlabOp → SlabRun
  | .alloc =>
      match gmkSlabAlloc r.slab with
      | some (ptr, s) => ⟨s, ptr :: r.live, r.counts ++ [s.allocCount]⟩
      | none => { r with counts := r.counts ++ [r.slab.allocCount] }
  | .free ptr =>
      if ptr ∈ r.live then
        let s := gmkSlabFree r.slab ptr
        ⟨s, r.live.erase ptr, r.counts ++ [s.allocCount]⟩
      else { r with counts := r.counts ++ [r.slab.allocCount] }

/-- The free list visits the slots of `spare` and ends with `-1`, the live objects are the slots of
`used`, and each slot is in one of them once. -/
structure Split (r : SlabRun) (spare used : List ℕ) : Prop where
  laid : r.slab.Laid
  cap_lt : r.slab.capacity < 2 ^ 31
  obj_pos : 0 < r.slab.objSize
  base_ne : r.slab.base ≠ 0
  list : r.slab.Free spare
  ends : endMark r.slab.links r.slab.freeHead spare = -1
  live_eq : r.live = used.map r.slab.slot
  perm : (spare ++ used).Perm (List.range r.slab.capacity)
  count_eq : r.slab.allocCount = used.length
  high : IsGreatest {c | c ∈ r.counts} r.slab.highWater
  current : r.slab.allocCount ∈ r.counts

namespace Split

theorem length_add (h : Split r spare used) : spare.length + used.length = r.slab.capacity := by
  rw [← List.length_append, h.perm.length_eq, List.length_range]

theorem nodup (h : Split r spare used) : (spare ++ used).Nodup :=
  h.perm.nodup_iff.mpr List.nodup_range

theorem lt_of_mem (h : Split r spare used) {i : ℕ} (hi : i ∈ spare ++ used) :
    i < r.slab.capacity := List.mem_range.mp (h.perm.mem_iff.mp hi)

theorem slot_injective (h : Split r spare used) : Function.Injective r.slab.slot := by
  intro i j hij
  unfold slot at hij
  exact Nat.eq_of_mul_eq_mul_right h.obj_pos (Nat.add_left_cancel hij)

/-- The list is empty exactly if every object is live. -/
theorem alloc_eq_none_iff (h : Split r spare used) :
    gmkSlabAlloc r.slab = none ↔ r.live.length = r.slab.capacity := by
  have hlen := h.length_add
  rw [h.live_eq, List.length_map, gmkSlabAlloc]
  have hhead := h.list.lists.1
  cases spare with
  | nil =>
    have hneg : r.slab.freeHead < 0 := hhead
    rw [if_pos hneg]
    simpa using hlen
  | cons i rest =>
    have hpos : ¬ r.slab.freeHead < 0 := by
      rw [hhead.1]
      omega
    rw [List.length_cons] at hlen
    rw [if_neg hpos]
    simp only [reduceCtorEq, false_iff]
    omega

/-- A step that leaves the slab alone. -/
theorem same (h : Split r spare used) :
    Split { r with counts := r.counts ++ [r.slab.allocCount] } spare used := by
  exact ⟨h.laid, h.cap_lt, h.obj_pos, h.base_ne, h.list, h.ends, h.live_eq, h.perm, h.count_eq,
    isGreatest_snoc_of_le h.high (h.high.2 h.current), List.mem_append_left _ h.current⟩

theorem alloc {s : Slab} {ptr : ℕ} (h : Split r spare used)
    (ha : gmkSlabAlloc r.slab = some (ptr, s)) :
    ∃ i rest, spare = i :: rest ∧
      Split ⟨s, ptr :: r.live, r.counts ++ [s.allocCount]⟩ rest (i :: used) := by
  obtain ⟨i, rest, rfl, hptr, hhead, hnext, hfree, hshape⟩ := gmkSlabAlloc_some ha h.list
  refine ⟨i, rest, rfl, ?_⟩
  have hlen := h.length_add
  have hcap := h.cap_lt
  rw [List.length_cons] at hlen
  unfold gmkSlabAlloc at ha
  split_ifs at ha with hneg
  obtain ⟨-, rfl⟩ := Prod.mk.inj (Option.some.inj ha)
  have hcount : u32 (r.slab.allocCount + 1) = used.length + 1 := by
    rw [h.count_eq, u32_of_lt (by omega)]
  have hends := h.ends
  rw [endMark_cons] at hends
  refine ⟨hshape.laid h.laid, hcap, h.obj_pos, h.base_ne, hfree, ?_, ?_, ?_, hcount, ?_, by simp⟩
  · rw [hnext]
    exact hends
  · rw [hptr, h.live_eq]
    rfl
  · exact (List.perm_middle).trans h.perm
  · simp only [hcount, ← max_def_lt]
    exact isGreatest_snoc h.high _

theorem giveBack {i : ℕ} (h : Split r spare used) (hi : i ∈ used) :
    Split ⟨gmkSlabFree r.slab (r.slab.slot i), r.live.erase (r.slab.slot i),
      r.counts ++ [(gmkSlabFree r.slab (r.slab.slot i)).allocCount]⟩ (i :: spare)
      (used.erase i) := by
  have hcap := h.cap_lt
  have hlt := h.lt_of_mem (List.mem_append_right spare hi)
  have hfresh : i ∉ spare := fun hmem => List.disjoint_of_nodup_append h.nodup hmem hi
  have hne : r.slab.slot i ≠ 0 := by
    have hbase := h.base_ne
    unfold slot
    omega
  have hlen := h.length_add
  have hpos : 0 < used.length := List.length_pos_of_mem hi
  have hcount : sub32 r.slab.allocCount 1 = used.length - 1 := by
    rw [h.count_eq]
    exact sub32_one hpos (by omega)
  obtain ⟨hlist, hshape, -⟩ := gmkSlabFree_slot h.laid h.list hlt (by omega) hfresh hne
  have heq := gmkSlabFree_slot_eq h.laid hlt (by omega) hne
  have hnew : (gmkSlabFree r.slab (r.slab.slot i)).allocCount = used.length - 1 := by
    rw [heq]
    exact hcount
  have hsame : (gmkSlabFree r.slab (r.slab.slot i)).highWater = r.slab.highWater := by rw [heq]
  have hends : endMark (gmkSlabFree r.slab (r.slab.slot i)).links
      (gmkSlabFree r.slab (r.slab.slot i)).freeHead (i :: spare) = -1 := by
    rw [heq, ← h.ends]
    exact endMark_push hfresh
  generalize gmkSlabFree r.slab (r.slab.slot i) = s' at *
  have hmax : r.slab.allocCount ≤ r.slab.highWater := h.high.2 h.current
  rw [h.count_eq] at hmax
  have hcap' : s'.capacity = r.slab.capacity := hshape.2.2.2.1
  refine ⟨hshape.laid h.laid, hcap'.trans_lt hcap, h.obj_pos.trans_eq hshape.2.2.1.symm,
    hshape.1.trans_ne h.base_ne, hlist, hends, ?_, ?_, ?_, ?_,
    List.mem_append_right _ List.mem_cons_self⟩
  · rw [funext hshape.slot_eq, List.map_erase h.slot_injective, ← h.live_eq]
  · have hswap : ((i :: spare) ++ used.erase i).Perm (spare ++ i :: used.erase i) :=
      List.perm_middle.symm
    rw [hcap']
    exact (hswap.trans ((List.perm_cons_erase hi).symm.append_left spare)).trans h.perm
  · rw [hnew, List.length_erase_of_mem hi]
  · rw [hsame, hnew]
    exact isGreatest_snoc_of_le h.high (by omega)

end Split

/-- The list that `gmk_slab_init` leaves has every object. -/
theorem gmkSlabInit_split {mem memSize objSize : ℕ} (h : gmkSlabInit mem memSize objSize = some s)
    (hobj : 0 < alignUp8 objSize) (hcap : s.capacity < 2 ^ 31) :
    Split (start s) (List.range s.capacity) [] := by
  obtain ⟨hbase, -, hsize, hlaid, hpos, -⟩ := gmkSlabInit_some h hobj
  unfold gmkSlabInit at h
  split_ifs at h with hzero
  dsimp only at h
  split_ifs at h with hnone
  generalize u32 (memSize / (alignUp8 objSize + 4)) = n at *
  obtain rfl := Option.some.inj h
  simp only at hcap hpos hlaid
  obtain ⟨k, rfl⟩ : ∃ k, n = k + 1 := ⟨n - 1, by omega⟩
  have hlast : (if k < k + 1 - 1 then int32 (k + 1) else -1) = -1 := if_neg (by omega)
  refine ⟨hlaid, hcap, hobj, fun hm => hzero (.inl hm), ⟨?_, ?_⟩, ?_, rfl, ?_, rfl, ?_, ?_⟩
  · rw [List.range_eq_range']
    refine lists_range' (n := k) ?_ (Nat.zero_add k) ?_
    · simp only [start, hlast]
      decide
    · intro j _ hj
      simp only [start]
      rw [if_pos (by omega), int32_eq_self_iff.mpr (by omega)]
      norm_cast
  · intro i hi
    have hlt : i < k + 1 := List.mem_range.mp hi
    exact ⟨hlt, by omega⟩
  · simp only [start, List.range_succ, endMark_concat, hlast]
  · rw [List.append_nil]
    rfl
  · exact ⟨List.mem_singleton_self 0, fun c hc => (List.mem_singleton.mp hc).le⟩
  · exact List.mem_singleton_self 0

/-- Every step keeps the split. -/
theorem step_split (h : Split r spare used) (op : SlabOp) :
    ∃ spare' used', Split (r.step op) spare' used' := by
  cases op with
  | alloc =>
    rw [step]
    cases ha : gmkSlabAlloc r.slab with
    | none => exact ⟨_, _, h.same⟩
    | some res =>
      obtain ⟨i, rest, -, hs⟩ := h.alloc ha
      exact ⟨_, _, hs⟩
  | free ptr =>
    rw [step]
    split_ifs with hlive
    · rw [h.live_eq] at hlive
      obtain ⟨i, hi, rfl⟩ := List.mem_map.mp hlive
      exact ⟨_, _, h.giveBack hi⟩
    · exact ⟨_, _, h.same⟩

theorem run_split (h : Split r spare used) (ops : List SlabOp) :
    ∃ spare' used', Split (ops.foldl step r) spare' used' := by
  induction ops generalizing r spare used with
  | nil => exact ⟨_, _, h⟩
  | cons op ops ih =>
    obtain ⟨spare', used', h'⟩ := step_split h op
    exact ih h'

/-- After any allocations and releases of live objects the free list visits exactly the slots that
are not live, each once, and ends with `-1`; an allocation fails exactly if every object is live;
and the counters are the number of live objects and the largest that it has been. -/
theorem free_list_exact {mem memSize objSize : ℕ} {s : Slab}
    (hinit : gmkSlabInit mem memSize objSize = some s) (hobj : 8 ≤ alignUp8 objSize)
    (hcap : s.capacity < 2 ^ 31) (ops : List SlabOp) {r : SlabRun}
    (hr : r = ops.foldl step (start s)) :
    (∃ spare, Lists r.slab.links r.slab.freeHead spare ∧
      endMark r.slab.links r.slab.freeHead spare = -1 ∧
      spare.length = r.slab.capacity - r.slab.allocCount ∧
      ∀ i, i ∈ spare ↔ i < r.slab.capacity ∧ r.slab.slot i ∉ r.live) ∧
      (gmkSlabAlloc r.slab = none ↔ r.live.length = r.slab.capacity) ∧
      (r.live.Nodup ∧ r.slab.allocCount = r.live.length) ∧
      IsGreatest {c | c ∈ r.counts} r.slab.highWater := by
  subst hr
  obtain ⟨spare, used, h⟩ := run_split (gmkSlabInit_split hinit (by omega) hcap) ops
  generalize ops.foldl step (start s) = r at *
  have hlen := h.length_add
  refine ⟨⟨spare, h.list.lists, h.ends, ?_, fun i => ?_⟩, h.alloc_eq_none_iff, ⟨?_, ?_⟩, h.high⟩
  · rw [h.count_eq]
    omega
  · rw [h.live_eq, List.mem_map_of_injective h.slot_injective]
    constructor
    · intro hi
      exact ⟨h.lt_of_mem (List.mem_append_left used hi), List.disjoint_of_nodup_append h.nodup hi⟩
    · rintro ⟨hlt, hnot⟩
      have hmem := h.perm.mem_iff.mpr (List.mem_range.mpr hlt)
      exact (List.mem_append.mp hmem).resolve_right hnot
  · rw [h.live_eq, List.nodup_map_iff h.slot_injective]
    exact h.nodup.of_append_right
  · rw [h.live_eq, List.length_map, h.count_eq]

theorem free_list_exact_eight : ∃ s, gmkSlabInit 4096 100 8 = some s ∧
    IsGreatest {c | c ∈ ([SlabOp.alloc, .alloc, .free 4096].foldl step (start s)).counts}
      ([SlabOp.alloc, .alloc, .free 4096].foldl step (start s)).slab.highWater := by
  have hinit : gmkSlabInit 4096 100 8 = some _ := rfl
  exact ⟨_, hinit, (free_list_exact hinit (by decide) (by decide)
    [SlabOp.alloc, .alloc, .free 4096] rfl).2.2.2⟩

end SlabRun
end Ggmk

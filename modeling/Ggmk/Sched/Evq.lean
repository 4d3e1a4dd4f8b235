import Ggmk.Lib.BinaryHeap
import Ggmk.Lib.Word
import Ggmk.Types

/-! The event queue of `sched_evq.c`: a bounded binary min-heap whose 64-bit key packs
the tick, the priority and the insertion sequence number. -/
namespace Ggmk
open Word BinaryHeap

structure EvqEntry where
  key : ℕ
  task : Task
  deriving DecidableEq, Inhabited

structure Evq where
  heap : ℕ → EvqEntry
  count : ℕ
  cap : ℕ
  nextSeq : ℕ

/-- The three fields are or-ed together; `seq` keeps all of its 32 bits. -/
def evqKey (t : Task) (seq : ℕ) : ℕ :=
  (u32 t.meta0.toNat <<< 32) ||| (t.prio <<< 16) ||| seq

def heapSiftUp (heap : ℕ → EvqEntry) (idx : ℕ) : ℕ → EvqEntry := siftUp EvqEntry.key heap idx

def heapSiftDown (heap : ℕ → EvqEntry) (count idx : ℕ) : ℕ → EvqEntry :=
  siftDown EvqEntry.key heap count idx

def gmkEvqInit (cap : ℕ) : Evq where
  heap _ := default
  count := 0
  cap := cap
  nextSeq := 0

/-- The entry that a push with sequence number `seq` stores. -/
def evqEntry (t : Task) (seq : ℕ) : EvqEntry :=
  ⟨evqKey t seq, { t with seq := UInt32.ofNat seq }⟩

def gmkEvqPush (e : Evq) (t : Task) : Option Evq :=
  if e.cap ≤ e.count then none
  else
    some { e with
      nextSeq := u32 (e.nextSeq + 1)
      count := e.count + 1
      heap := heapSiftUp (Function.update e.heap e.count (evqEntry t e.nextSeq)) e.count }

/-- The root leaves if its tick is due; the last entry takes its place and sinks. -/
def gmkEvqPopDue (e : Evq) (currentTick : UInt32) : Option (Task × Evq) :=
  if e.count = 0 then none
  else if currentTick.toNat < u32 ((e.heap 0).key >>> 32) then none
  else
    let count := e.count - 1
    let heap := if 0 < count then
        heapSiftDown (Function.update e.heap 0 (e.heap count)) count 0
      else e.heap
    some ((e.heap 0).task, { e with count := count, heap := heap })

/-! ## The packed key -/

theorem low_lt (t : Task) {seq : ℕ} (hs : seq < 2 ^ 32) : (t.prio <<< 16) ||| seq < 2 ^ 32 := by
  have hp := t.prio_lt
  refine Nat.or_lt_two_pow ?_ hs
  rw [Nat.shiftLeft_eq]
  unfold gmkPriorityCount at hp
  omega

/-- A 32-bit sequence number never reaches the tick bits. -/
theorem evqKey_eq (t : Task) {seq : ℕ} (hs : seq < 2 ^ 32) :
    evqKey t seq = u32 t.meta0.toNat * 2 ^ 32 + ((t.prio <<< 16) ||| seq) := by
  rw [evqKey, Nat.lor_assoc, ← Nat.shiftLeft_add_eq_or_of_lt (low_lt t hs), Nat.shiftLeft_eq]

theorem evqKey_tick (t : Task) {seq : ℕ} (hs : seq < 2 ^ 32) :
    u32 (evqKey t seq >>> 32) = u32 t.meta0.toNat := by
  have hl := low_lt t hs
  have ht := u32_lt t.meta0.toNat
  rw [evqKey_eq t hs, Nat.shiftRight_eq_div_pow, Nat.mul_comm, Nat.mul_add_div (by norm_num),
    Nat.div_eq_of_lt hl, Nat.add_zero, u32_of_lt ht]

/-- Below `2 ^ 16` the sequence number stays clear of the priority bits too. -/
theorem evqKey_of_lt (t : Task) {seq : ℕ} (hs : seq < 2 ^ 16) :
    evqKey t seq = u32 t.meta0.toNat * 2 ^ 32 + t.prio * 2 ^ 16 + seq := by
  rw [evqKey_eq t (by omega), ← Nat.shiftLeft_add_eq_or_of_lt hs, Nat.shiftLeft_eq, Nat.add_assoc]

/-! ## The heap -/
namespace Evq

def entries (e : Evq) : Multiset EvqEntry := contents e.heap e.count

/-- Every key is the packed key of its task, and the keys are in heap order. -/
structure WF (e : Evq) : Prop where
  ordered : Ordered EvqEntry.key e.heap e.count
  keyed : ∀ x ∈ e.entries, ∃ t, ∃ seq < 2 ^ 32, x = evqEntry t seq
  seq_lt : e.nextSeq < 2 ^ 32

theorem init_wf (cap : ℕ) : (gmkEvqInit cap).WF where
  ordered := fun i _ hn => by simp [gmkEvqInit] at hn
  keyed := by simp [entries, gmkEvqInit, contents]
  seq_lt := by norm_num [gmkEvqInit]

theorem push_some {e e' : Evq} {t : Task} (h : gmkEvqPush e t = some e') :
    e'.entries = evqEntry t e.nextSeq ::ₘ e.entries ∧ e'.nextSeq = u32 (e.nextSeq + 1) ∧
      e'.count = e.count + 1 ∧ e'.cap = e.cap := by
  unfold gmkEvqPush at h
  split at h
  next => simp at h
  next =>
    obtain rfl := Option.some.inj h
    refine ⟨?_, rfl, rfl, rfl⟩
    simp only [entries, heapSiftUp]
    rw [contents_siftUp _ _ (Nat.lt_succ_self _), contents_succ, Function.update_self,
      contents_update_ge _ le_rfl]

theorem push_none_iff (e : Evq) (t : Task) : gmkEvqPush e t = none ↔ e.cap ≤ e.count := by
  unfold gmkEvqPush
  split <;> simp_all

theorem push_wf {e e' : Evq} {t : Task} (hw : e.WF) (h : gmkEvqPush e t = some e') : e'.WF := by
  obtain ⟨hent, hseq, -, -⟩ := push_some h
  refine ⟨?_, ?_, hseq ▸ u32_lt _⟩
  · unfold gmkEvqPush at h
    split at h
    next => simp at h
    next =>
      obtain rfl := Option.some.inj h
      change Ordered EvqEntry.key (heapSiftUp _ _) (e.count + 1)
      refine siftUp_ordered (Nat.lt_succ_self _) ⟨?_, ?_⟩
      · intro i hi hn hne
        have hp := parent_lt hi
        rw [Function.update_of_ne (by omega), Function.update_of_ne hne]
        exact hw.ordered i hi (by omega)
      · intro _ c hc hn hp
        have := parent_lt hc
        omega
  · intro x hx
    rw [hent, Multiset.mem_cons] at hx
    rcases hx with rfl | hx
    · exact ⟨t, e.nextSeq, hw.seq_lt, rfl⟩
    · exact hw.keyed x hx

/-- A successful pop removes the root and nothing else. -/
theorem popDue_some {e e' : Evq} {tick : UInt32} {t : Task}
    (h : gmkEvqPopDue e tick = some (t, e')) :
    0 < e.count ∧ t = (e.heap 0).task ∧ u32 ((e.heap 0).key >>> 32) ≤ tick.toNat ∧
      e.entries = e.heap 0 ::ₘ e'.entries ∧ e'.nextSeq = e.nextSeq ∧
      e'.count + 1 = e.count ∧ e'.cap = e.cap := by
  unfold gmkEvqPopDue at h
  split at h
  next => simp at h
  next hc =>
    split at h
    next => simp at h
    next htick =>
      obtain ⟨rfl, rfl⟩ := Prod.mk.inj (Option.some.inj h)
      refine ⟨by omega, rfl, not_lt.mp htick, ?_, rfl, by simp only; omega, rfl⟩
      obtain ⟨n, hn⟩ : ∃ n, e.count = n + 1 := ⟨e.count - 1, by omega⟩
      simp only [entries, hn, Nat.add_sub_cancel]
      split
      next hpos =>
        -- the last entry moved to the root stands for the one that left
        rw [heapSiftDown, contents_siftDown _ _ hpos, contents_succ]
        obtain ⟨m, rfl⟩ : ∃ m, n = m + 1 := ⟨n - 1, by omega⟩
        rw [contents_eq_cons e.heap, contents_eq_cons (Function.update _ _ _),
          Function.update_self, Multiset.cons_swap]
        congr 2
      next hpos =>
        obtain rfl : n = 0 := by omega
        simp [contents]

theorem popDue_wf {e e' : Evq} {tick : UInt32} {t : Task} (hw : e.WF)
    (h : gmkEvqPopDue e tick = some (t, e')) : e'.WF := by
  obtain ⟨hpos, -, -, hent, hseq, hcount, -⟩ := popDue_some h
  refine ⟨?_, fun x hx => hw.keyed x (hent ▸ Multiset.mem_cons_of_mem hx), hseq ▸ hw.seq_lt⟩
  unfold gmkEvqPopDue at h
  rw [if_neg (by omega)] at h
  split at h
  next => simp at h
  next =>
    obtain ⟨-, rfl⟩ := Prod.mk.inj (Option.some.inj h)
    simp only at hcount ⊢
    split
    next =>
      refine siftDown_ordered ⟨?_, fun h0 => absurd h0 (lt_irrefl 0)⟩
      intro i hi hn hp
      rw [Function.update_of_ne hp, Function.update_of_ne (by omega)]
      exact hw.ordered i hi (by omega)
    next => intro i hi hn; omega

/-- The root of a well-formed queue has a least key. -/
theorem root_le {e : Evq} (hw : e.WF) {x : EvqEntry} (hx : x ∈ e.entries) :
    (e.heap 0).key ≤ x.key := by
  obtain ⟨i, hi, rfl⟩ := mem_contents.mp hx
  exact hw.ordered.root_le hi

theorem root_mem {e : Evq} (hpos : 0 < e.count) : e.heap 0 ∈ e.entries :=
  mem_contents.mpr ⟨0, hpos, rfl⟩

theorem count_pos {e : Evq} {x : EvqEntry} (hx : x ∈ e.entries) : 0 < e.count := by
  obtain ⟨i, hi, -⟩ := mem_contents.mp hx
  omega

/-- The upper half of a key is the tick of its task modulo `2 ^ 32`. -/
theorem WF.key_tick {e : Evq} (hw : e.WF) {x : EvqEntry} (hx : x ∈ e.entries) :
    u32 (x.key >>> 32) = u32 x.task.meta0.toNat := by
  obtain ⟨t, seq, hseq, rfl⟩ := hw.keyed x hx
  exact evqKey_tick t hseq

/-- The root has the least tick. -/
theorem WF.root_tick_le {e : Evq} (hw : e.WF) {x : EvqEntry} (hx : x ∈ e.entries) :
    u32 ((e.heap 0).key >>> 32) ≤ u32 (x.key >>> 32) := by
  have hle := root_le hw hx
  obtain ⟨t, i, hi, ht⟩ := hw.keyed _ (root_mem (count_pos hx))
  obtain ⟨u, j, hj, rfl⟩ := hw.keyed x hx
  rw [ht] at hle ⊢
  simp only [evqEntry, evqKey_tick _ hi, evqKey_tick _ hj]
  simp only [evqEntry, evqKey_eq _ hi, evqKey_eq _ hj] at hle
  have := low_lt u hj
  omega

/-- A queue refuses to deliver only when it is empty or its root is not due. -/
theorem popDue_none_iff (e : Evq) (tick : UInt32) : gmkEvqPopDue e tick = none ↔
    e.count = 0 ∨ tick.toNat < u32 ((e.heap 0).key >>> 32) := by
  unfold gmkEvqPopDue
  split
  next h => simp [h]
  next h => split <;> simp_all

end Evq
end Ggmk

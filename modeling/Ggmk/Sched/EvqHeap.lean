import Ggmk.Sched.EvqOrder

/-! The event queue with the loops of `sched_evq.c` as they run: on 32-bit indices, round after
round, with the return codes. Below `2 ^ 31` entries no index wraps, so the loops end and every
sequence of pushes and pops keeps a heap of the tasks pushed and not yet popped. -/
namespace Ggmk
open Word BinaryHeap

/-- At most `n` rounds of the loop of `heap_sift_up`; `none` has not come to its end. -/
def heapSiftUpRounds : ℕ → (ℕ → EvqEntry) → ℕ → Option (ℕ → EvqEntry)
  | 0, _, _ => none
  | n + 1, heap, idx =>
      if 0 < idx then
        let parent := sub32 idx 1 / 2
        if (heap idx).key < (heap parent).key then
          heapSiftUpRounds n (swap heap idx parent) parent
        else some heap
      else some heap

/-- At most `n` rounds of the loop of `heap_sift_down`. -/
def heapSiftDownRounds : ℕ → (ℕ → EvqEntry) → ℕ → ℕ → Option (ℕ → EvqEntry)
  | 0, _, _, _ => none
  | n + 1, heap, count, idx =>
      let left := u32 (2 * idx + 1)
      let right := u32 (2 * idx + 2)
      let smallest := if left < count ∧ (heap left).key < (heap idx).key then left else idx
      let smallest :=
        if right < count ∧ (heap right).key < (heap smallest).key then right else smallest
      if smallest ≠ idx then heapSiftDownRounds n (swap heap idx smallest) count smallest
      else some heap

/-- `gmk_evq_push`: the return code and the queue after the call. -/
def evqPushRc (rounds : ℕ) (e : Evq) (t : Task) : Option (ℤ × Evq) :=
  if e.cap ≤ e.count then some (-1, e)
  else
    (heapSiftUpRounds rounds (Function.update e.heap e.count (evqEntry t e.nextSeq)) e.count).map
      fun heap => (0, { e with
        nextSeq := u32 (e.nextSeq + 1)
        count := u32 (e.count + 1)
        heap := heap })

/-- `gmk_evq_pop_due`: the return code, the task if one was written, and the queue after. -/
def evqPopDueRc (rounds : ℕ) (e : Evq) (currentTick : UInt32) : Option (ℤ × Option Task × Evq) :=
  if e.count = 0 then some (-1, none, e)
  else if currentTick.toNat < u32 ((e.heap 0).key >>> 32) then some (-1, none, e)
  else
    let task := (e.heap 0).task
    let e := { e with count := sub32 e.count 1 }
    if 0 < e.count then
      (heapSiftDownRounds rounds (Function.update e.heap 0 (e.heap e.count)) e.count 0).map
        fun heap => (0, some task, { e with heap := heap })
    else some (0, some task, e)

/-! ## The loops end -/

/-- An index above zero has a parent that no wrap disturbs. -/
theorem heapSiftUpRounds_eq {n idx : ℕ} (hidx : idx < 2 ^ 32) (hn : idx < n) (heap : ℕ → EvqEntry) :
    heapSiftUpRounds n heap idx = some (heapSiftUp heap idx) := by
  induction n generalizing heap idx with
  | zero => omega
  | succ n ih =>
    unfold heapSiftUp at ih ⊢
    rw [heapSiftUpRounds, siftUp]
    by_cases hpos : 0 < idx
    · have hparent : sub32 idx 1 / 2 = parent idx := by
        unfold sub32 u32 parent
        omega
      have hlt := parent_lt hpos
      simp only [if_pos hpos, hparent]
      by_cases hkey : (heap idx).key < (heap (parent idx)).key
      · rw [if_pos hkey, if_pos hkey]
        exact ih (by omega) (by omega) _
      · rw [if_neg hkey, if_neg hkey]
    · rw [if_neg hpos, if_neg hpos]

/-- One round, when the children are computed without a wrap. -/
theorem heapSiftDownRounds_succ {n count idx : ℕ} (hidx : 2 * idx + 2 < 2 ^ 32)
    (heap : ℕ → EvqEntry) : heapSiftDownRounds (n + 1) heap count idx =
      if smallest EvqEntry.key heap count idx ≠ idx then
        heapSiftDownRounds n (swap heap idx (smallest EvqEntry.key heap count idx)) count
          (smallest EvqEntry.key heap count idx)
      else some heap := by
  rw [heapSiftDownRounds, u32_of_lt hidx, u32_of_lt (show 2 * idx + 1 < 2 ^ 32 by omega)]
  rfl

/-- Below `2 ^ 31` entries every round does, and the index grows. -/
theorem heapSiftDownRounds_eq {n count idx : ℕ} (hcount : count < 2 ^ 31) (hidx : idx < count)
    (hn : count - idx < n) (heap : ℕ → EvqEntry) :
    heapSiftDownRounds n heap count idx = some (heapSiftDown heap count idx) := by
  induction n generalizing heap idx with
  | zero => omega
  | succ n ih =>
    unfold heapSiftDown at ih ⊢
    rw [heapSiftDownRounds_succ (by omega), siftDown]
    by_cases hne : smallest EvqEntry.key heap count idx ≠ idx
    · obtain ⟨hlt, hchild⟩ := (smallest_cases EvqEntry.key heap count idx).resolve_left hne
      rw [if_pos hne, if_pos hne]
      exact ih hlt (by omega) _
    · rw [if_neg hne, if_neg hne]

/-- The call of `gmk_evq_push` returns what the model of it says. -/
theorem evqPushRc_eq {rounds : ℕ} {e : Evq} (hcap : e.cap < 2 ^ 31) (hrounds : e.cap ≤ rounds)
    (t : Task) :
    evqPushRc rounds e t = some (match gmkEvqPush e t with
      | some e' => (0, e')
      | none => (-1, e)) := by
  unfold evqPushRc gmkEvqPush
  by_cases hfull : e.cap ≤ e.count
  · rw [if_pos hfull, if_pos hfull]
  · rw [if_neg hfull, if_neg hfull, heapSiftUpRounds_eq (by omega) (by omega),
      u32_of_lt (show e.count + 1 < 2 ^ 32 by omega)]
    rfl

theorem evqPopDueRc_eq {rounds : ℕ} {e : Evq} (hcount : e.count ≤ e.cap) (hcap : e.cap < 2 ^ 31)
    (hrounds : e.cap ≤ rounds) (tick : UInt32) :
    evqPopDueRc rounds e tick = some (match gmkEvqPopDue e tick with
      | some (t, e') => (0, some t, e')
      | none => (-1, none, e)) := by
  unfold evqPopDueRc gmkEvqPopDue
  by_cases hempty : e.count = 0
  · rw [if_pos hempty, if_pos hempty]
  by_cases hlate : tick.toNat < u32 ((e.heap 0).key >>> 32)
  · rw [if_neg hempty, if_neg hempty, if_pos hlate, if_pos hlate]
  have hless : sub32 e.count 1 = e.count - 1 := by
    unfold sub32 u32
    omega
  simp only [if_neg hempty, if_neg hlate, hless]
  by_cases hpos : 0 < e.count - 1
  · rw [if_pos hpos, if_pos hpos, heapSiftDownRounds_eq (by omega) hpos (by omega)]
    rfl
  · rw [if_neg hpos, if_neg hpos]

/-! ## Runs -/

/-- The queue with the tasks that pushes have accepted and pops have returned, up to the sequence
number that a push overwrites. -/
structure EvqHeapRun where
  evq : Evq
  pushed : Multiset Task
  popped : Multiset Task

namespace EvqHeapRun

def start (cap : ℕ) : EvqHeapRun := ⟨gmkEvqInit cap, 0, 0⟩

/-- The tasks that the heap stores. -/
def stored (s : EvqHeapRun) : Multiset Task := s.evq.entries.map EvqEntry.task

/-- One call; `none` is a call whose loop has not ended within the rounds. -/
def step (rounds : ℕ) (s : EvqHeapRun) : EvqOp → Option EvqHeapRun
  | .push t => (evqPushRc rounds s.evq t).map fun (rc, e) =>
      { s with evq := e, pushed := if rc = 0 then t.content ::ₘ s.pushed else s.pushed }
  | .popDue tick => (evqPopDueRc rounds s.evq tick).map fun (_, out, e) =>
      { s with
        evq := e
        popped := match out with
          | some t => t.content ::ₘ s.popped
          | none => s.popped }

/-- A heap of the tasks pushed and not popped, with what the next call does. -/
structure Correct (cap rounds : ℕ) (s : EvqHeapRun) : Prop where
  ordered : Ordered EvqEntry.key s.evq.heap s.evq.count
  balance : s.pushed = s.popped + s.stored.map Task.content
  push : ∀ t, ∃ rc e, evqPushRc rounds s.evq t = some (rc, e) ∧
    (rc ≠ 0 ↔ s.stored.card = cap) ∧ (rc ≠ 0 → e = s.evq)
  pop : ∀ tick, ∃ rc out e, evqPopDueRc rounds s.evq tick = some (rc, out, e) ∧
    (rc ≠ 0 ↔ ∀ t ∈ s.stored, tick.toNat < u32 t.meta0.toNat) ∧ (rc ≠ 0 → e = s.evq) ∧
    (rc = 0 → ∃ t ∈ s.stored, out = some t ∧
      ∀ u ∈ s.stored, u32 t.meta0.toNat ≤ u32 u.meta0.toNat)

structure Inv (cap : ℕ) (s : EvqHeapRun) : Prop where
  wf : s.evq.WF
  cap_eq : s.evq.cap = cap
  count_le : s.evq.count ≤ cap
  balance : s.pushed = s.popped + s.stored.map Task.content

variable {cap rounds : ℕ} {s : EvqHeapRun}

theorem start_inv (cap : ℕ) : Inv cap (start cap) :=
  ⟨Evq.init_wf cap, rfl, Nat.zero_le _, by simp [start, stored, Evq.entries, gmkEvqInit, contents]⟩

theorem Inv.card_stored (s : EvqHeapRun) : s.stored.card = s.evq.count := by
  simp [stored, Evq.entries, contents]

theorem Inv.push (h : Inv cap s) {t : Task} {e : Evq} (hpush : gmkEvqPush s.evq t = some e) :
    Inv cap { s with evq := e, pushed := t.content ::ₘ s.pushed } := by
  have hroom : ¬ s.evq.cap ≤ s.evq.count := by
    rw [← Evq.push_none_iff s.evq t, hpush]
    simp
  obtain ⟨hentries, -, hcount, hcap⟩ := Evq.push_some hpush
  have hle := h.cap_eq
  refine ⟨Evq.push_wf h.wf hpush, hcap.trans h.cap_eq, by simp only; omega, ?_⟩
  have hbalance := h.balance
  simp only [stored] at hbalance ⊢
  rw [hentries, hbalance, Multiset.map_cons, Multiset.map_cons, Multiset.add_cons]
  simp [evqEntry]

theorem Inv.pop (h : Inv cap s) {tick : UInt32} {t : Task} {e : Evq}
    (hpop : gmkEvqPopDue s.evq tick = some (t, e)) :
    Inv cap { s with evq := e, popped := t.content ::ₘ s.popped } := by
  obtain ⟨-, rfl, -, hentries, -, hcount, hcap⟩ := Evq.popDue_some hpop
  have hle := h.count_le
  refine ⟨Evq.popDue_wf h.wf hpop, hcap.trans h.cap_eq, by simp only; omega, ?_⟩
  have hbalance := h.balance
  simp only [stored] at hbalance ⊢
  rw [hbalance, hentries, Multiset.map_cons, Multiset.map_cons, Multiset.add_cons,
    Multiset.cons_add]

section Bounded
variable (h : Inv cap s) (hcap : cap < 2 ^ 31) (hrounds : cap ≤ rounds)
include h hcap hrounds

/-- Every call returns, and keeps the heap. -/
theorem Inv.step (op : EvqOp) : ∃ s', s.step rounds op = some s' ∧ Inv cap s' := by
  have hcap' := h.cap_eq ▸ hcap
  have hrounds' := h.cap_eq ▸ hrounds
  cases op with
  | push t =>
    rw [EvqHeapRun.step, evqPushRc_eq hcap' hrounds']
    cases hpush : gmkEvqPush s.evq t with
    | none => exact ⟨_, rfl, ⟨h.wf, h.cap_eq, h.count_le, h.balance⟩⟩
    | some e => exact ⟨_, rfl, h.push hpush⟩
  | popDue tick =>
    rw [EvqHeapRun.step, evqPopDueRc_eq (h.cap_eq ▸ h.count_le) hcap' hrounds']
    cases hpop : gmkEvqPopDue s.evq tick with
    | none => exact ⟨_, rfl, ⟨h.wf, h.cap_eq, h.count_le, h.balance⟩⟩
    | some p => exact ⟨_, rfl, h.pop hpop⟩

theorem Inv.run (ops : List EvqOp) :
    ∃ s', ops.foldlM (EvqHeapRun.step rounds) s = some s' ∧ Inv cap s' := by
  induction ops generalizing s with
  | nil => exact ⟨s, rfl, h⟩
  | cons op ops ih =>
    obtain ⟨s', hs', hinv⟩ := h.step hcap hrounds op
    obtain ⟨s'', hs'', hinv'⟩ := ih hinv
    exact ⟨s'', by rw [List.foldlM_cons, hs']; exact hs'', hinv'⟩

omit hcap hrounds in
/-- A pop fails exactly when no stored task is due. -/
theorem Inv.popDue_none_iff (tick : UInt32) : gmkEvqPopDue s.evq tick = none ↔
    ∀ t ∈ s.stored, tick.toNat < u32 t.meta0.toNat := by
  rw [Evq.popDue_none_iff]
  constructor
  · rintro hnone t ht
    obtain ⟨x, hx, rfl⟩ := Multiset.mem_map.mp ht
    have hpos := Evq.count_pos hx
    have hle := h.wf.root_tick_le hx
    rw [← h.wf.key_tick hx]
    omega
  · intro hlate
    by_cases hempty : s.evq.count = 0
    · exact .inl hempty
    · right
      have hroot := Evq.root_mem (Nat.pos_of_ne_zero hempty)
      rw [h.wf.key_tick hroot]
      exact hlate _ (Multiset.mem_map_of_mem _ hroot)

theorem Inv.correct : s.Correct cap rounds where
  ordered := h.wf.ordered
  balance := h.balance
  push := by
    intro t
    have hnone := Evq.push_none_iff s.evq t
    have hle := h.count_le
    rw [evqPushRc_eq (h.cap_eq ▸ hcap) (h.cap_eq ▸ hrounds), Inv.card_stored]
    rw [h.cap_eq] at hnone
    cases hpush : gmkEvqPush s.evq t with
    | none =>
      have hfull := hnone.mp hpush
      exact ⟨-1, s.evq, rfl, iff_of_true (by norm_num) (by omega), fun _ => rfl⟩
    | some e =>
      have hroom : ¬ cap ≤ s.evq.count := by
        rw [← hnone, hpush]
        simp
      exact ⟨0, e, rfl, iff_of_false (by norm_num) (by omega), fun hne => absurd rfl hne⟩
  pop := by
    intro tick
    have hnone := h.popDue_none_iff tick
    rw [evqPopDueRc_eq (h.cap_eq ▸ h.count_le) (h.cap_eq ▸ hcap) (h.cap_eq ▸ hrounds)]
    cases hpop : gmkEvqPopDue s.evq tick with
    | none =>
      exact ⟨-1, none, s.evq, rfl, iff_of_true (by norm_num) (hnone.mp hpop), fun _ => rfl,
        fun hzero => absurd hzero (by norm_num)⟩
    | some p =>
      obtain ⟨t, e⟩ := p
      obtain ⟨hpos, rfl, -⟩ := Evq.popDue_some hpop
      have hroot := Evq.root_mem hpos
      have hdue : ¬ ∀ t ∈ s.stored, tick.toNat < u32 t.meta0.toNat := by
        rw [← hnone, hpop]
        simp
      refine ⟨0, _, e, rfl, iff_of_false (by norm_num) hdue, fun hne => absurd rfl hne, fun _ =>
        ⟨(s.evq.heap 0).task, Multiset.mem_map_of_mem _ hroot, rfl, ?_⟩⟩
      intro u hu
      obtain ⟨x, hx, rfl⟩ := Multiset.mem_map.mp hu
      rw [← h.wf.key_tick hroot, ← h.wf.key_tick hx]
      exact h.wf.root_tick_le hx

end Bounded

/-- From every capacity below `2 ^ 31`, every sequence of pushes and pops returns from each of its
loops within `cap` rounds and leaves a heap of the tasks pushed and not popped. -/
theorem evq_correct (hcap : 1 ≤ cap ∧ cap < 2 ^ 31) (hrounds : cap ≤ rounds) (ops : List EvqOp) :
    ∃ s, ops.foldlM (step rounds) (start cap) = some s ∧ s.Correct cap rounds := by
  obtain ⟨s, hs, hinv⟩ := (start_inv cap).run hcap.2 hrounds ops
  exact ⟨s, hs, hinv.correct hcap.2 hrounds⟩

/-- Two of three tasks stored, the earlier one popped. -/
theorem evq_correct_two : ∃ s, List.foldlM (step 2) (start 2)
    [.push { meta0 := 9 }, .push { meta0 := 5 }, .push { meta0 := 7 }, .popDue 6] = some s ∧
    s.Correct 2 2 :=
  evq_correct (by norm_num) le_rfl _

end EvqHeapRun
end Ggmk

import Ggmk.Arch.LockOwners
import Ggmk.Sched.EvqHeap

/-! The event queue of `sched_evq.c` under its lock, one statement at a time: threads that push and
pop at once use it as one heap. -/
namespace Ggmk
open Word BinaryHeap CriticalSection

/-- The next statement of `gmk_evq_push` or `gmk_evq_pop_due` between acquire and release, with
the locals that it and the later ones need. -/
inductive EvqPc
  | pushCheck (t : Task)
  | pushSeq (t : Task)
  | pushSeqNext (t : Task) (seq : ℕ)
  | pushIdx (t : Task) (seq : ℕ)
  | pushIdxNext (t : Task) (seq idx : ℕ)
  | pushKey (t : Task) (seq idx : ℕ)
  | pushTask (t : Task) (seq idx : ℕ)
  | pushTaskSeq (seq idx : ℕ)
  | up (idx : ℕ)
  | upTmp (idx parent : ℕ)
  | upChild (idx parent : ℕ) (tmp : EvqEntry)
  | upParent (parent : ℕ) (tmp : EvqEntry)
  | popCheck (tick : UInt32)
  | popDue (tick : UInt32)
  | popTask
  | popCount (task : Task)
  | popRoot (task : Task)
  | down (task : Task) (count idx : ℕ)
  | downTmp (task : Task) (count idx smallest : ℕ)
  | downRoot (task : Task) (count idx smallest : ℕ) (tmp : EvqEntry)
  | downChild (task : Task) (count smallest : ℕ) (tmp : EvqEntry)

/-- An answer is the return code and the task that a pop has written. -/
def evqProgram : Program Evq EvqOp EvqPc (ℤ × Option Task) where
  enter
    | .push t => .pushCheck t
    | .popDue tick => .popCheck tick
  step
    | .pushCheck t, e => if e.cap ≤ e.count then (.inr (-1, none), e) else (.inl (.pushSeq t), e)
    | .pushSeq t, e => (.inl (.pushSeqNext t e.nextSeq), e)
    | .pushSeqNext t seq, e => (.inl (.pushIdx t seq), { e with nextSeq := u32 (seq + 1) })
    | .pushIdx t seq, e => (.inl (.pushIdxNext t seq e.count), e)
    | .pushIdxNext t seq idx, e => (.inl (.pushKey t seq idx), { e with count := u32 (idx + 1) })
    | .pushKey t seq idx, e => (.inl (.pushTask t seq idx),
        { e with heap := Function.update e.heap idx { e.heap idx with key := evqKey t seq } })
    | .pushTask t seq idx, e => (.inl (.pushTaskSeq seq idx),
        { e with heap := Function.update e.heap idx { e.heap idx with task := t } })
    | .pushTaskSeq seq idx, e => (.inl (.up idx),
        { e with heap := Function.update e.heap idx { e.heap idx with
          task := { (e.heap idx).task with seq := UInt32.ofNat seq } } })
    | .up idx, e =>
        if 0 < idx then
          let parent := sub32 idx 1 / 2
          if (e.heap idx).key < (e.heap parent).key then (.inl (.upTmp idx parent), e)
          else (.inr (0, none), e)
        else (.inr (0, none), e)
    | .upTmp idx parent, e => (.inl (.upChild idx parent (e.heap idx)), e)
    | .upChild idx parent tmp, e => (.inl (.upParent parent tmp),
        { e with heap := Function.update e.heap idx (e.heap parent) })
    | .upParent parent tmp, e => (.inl (.up parent),
        { e with heap := Function.update e.heap parent tmp })
    | .popCheck tick, e =>
        if e.count = 0 then (.inr (-1, none), e) else (.inl (.popDue tick), e)
    | .popDue tick, e =>
        if tick.toNat < u32 ((e.heap 0).key >>> 32) then (.inr (-1, none), e)
        else (.inl .popTask, e)
    | .popTask, e => (.inl (.popCount (e.heap 0).task), e)
    | .popCount task, e => (.inl (.popRoot task), { e with count := sub32 e.count 1 })
    | .popRoot task, e =>
        if 0 < e.count then (.inl (.down task e.count 0),
          { e with heap := Function.update e.heap 0 (e.heap e.count) })
        else (.inr (0, some task), e)
    | .down task count idx, e =>
        let left := u32 (2 * idx + 1)
        let right := u32 (2 * idx + 2)
        let smallest := if left < count ∧ (e.heap left).key < (e.heap idx).key then left else idx
        let smallest :=
          if right < count ∧ (e.heap right).key < (e.heap smallest).key then right else smallest
        if smallest ≠ idx then (.inl (.downTmp task count idx smallest), e)
        else (.inr (0, some task), e)
    | .downTmp task count idx smallest, e =>
        (.inl (.downRoot task count idx smallest (e.heap idx)), e)
    | .downRoot task count idx smallest tmp, e => (.inl (.downChild task count smallest tmp),
        { e with heap := Function.update e.heap idx (e.heap smallest) })
    | .downChild task count smallest tmp, e => (.inl (.down task count smallest),
        { e with heap := Function.update e.heap smallest tmp })

/-! ## The statements add up to the operations -/

/-- The answer of an operation on the queue and the queue it leaves. -/
def evqAnswer (e : Evq) : EvqOp → (ℤ × Option Task) × Evq
  | .push t =>
      match gmkEvqPush e t with
      | some e' => ((0, none), e')
      | none => ((-1, none), e)
  | .popDue tick =>
      match gmkEvqPopDue e tick with
      | some (t, e') => ((0, some t), e')
      | none => ((-1, none), e)

/-- The loop of `heap_sift_up` ends. -/
theorem exec_up {idx : ℕ} (hidx : idx < 2 ^ 32) (e : Evq) :
    ∃ n, evqProgram.exec n (.up idx) e =
      (.inr (0, none), { e with heap := heapSiftUp e.heap idx }) := by
  induction idx using Nat.strong_induction_on generalizing e with
  | _ idx ih =>
    unfold heapSiftUp at ih ⊢
    by_cases hpos : 0 < idx
    · have hparent : sub32 idx 1 / 2 = parent idx := by
        unfold sub32 u32 parent
        omega
      have hlt := parent_lt hpos
      by_cases hkey : (e.heap idx).key < (e.heap (parent idx)).key
      · obtain ⟨n, hn⟩ := ih _ hlt (by omega)
          { e with heap := swap e.heap idx (parent idx) }
        refine ⟨4 + n, ?_⟩
        have hround : evqProgram.exec 4 (.up idx) e =
            (.inl (.up (parent idx)), { e with heap := swap e.heap idx (parent idx) }) := by
          simp [evqProgram, Program.exec, hpos, hparent, hkey, swap]
        rw [Program.exec_add hround, hn]
        conv_rhs => rw [siftUp, if_pos hpos, if_pos hkey]
      · refine ⟨1, ?_⟩
        rw [siftUp, if_pos hpos, if_neg hkey]
        simp [evqProgram, Program.exec, hpos, hparent, hkey]
    · refine ⟨1, ?_⟩
      rw [siftUp, if_neg hpos]
      simp [evqProgram, Program.exec, hpos]

/-- The loop of `heap_sift_down` ends, while no index of a child wraps. -/
theorem exec_down {idx : ℕ} (task : Task) {e : Evq} (hcount : e.count < 2 ^ 31)
    (hidx : idx < e.count) : ∃ n, evqProgram.exec n (.down task e.count idx) e =
      (.inr (0, some task), { e with heap := heapSiftDown e.heap e.count idx }) := by
  induction hn : e.count - idx using Nat.strong_induction_on generalizing e idx with
  | _ k ih =>
    unfold heapSiftDown at ih ⊢
    have hright : u32 (2 * idx + 2) = 2 * idx + 2 := u32_of_lt (by omega)
    have hleft : u32 (2 * idx + 1) = 2 * idx + 1 := u32_of_lt (by omega)
    have hcases := smallest_cases EvqEntry.key e.heap e.count idx
    have hfirst : evqProgram.step (.down task e.count idx) e =
        if smallest EvqEntry.key e.heap e.count idx ≠ idx then
          (.inl (.downTmp task e.count idx (smallest EvqEntry.key e.heap e.count idx)), e)
        else (.inr (0, some task), e) := by
      simp only [evqProgram, hright, hleft]
      rfl
    rw [siftDown]
    generalize smallest EvqEntry.key e.heap e.count idx = small at hcases hfirst ⊢
    by_cases hne : small ≠ idx
    · obtain ⟨hlt, hchild⟩ := hcases.resolve_left hne
      rw [if_pos hne] at hfirst ⊢
      obtain ⟨n, hn'⟩ := ih (e.count - small) (by omega)
        (e := { e with heap := swap e.heap idx small }) hcount hlt rfl
      refine ⟨(3 + n) + 1, ?_⟩
      rw [Program.exec_succ_inl hfirst]
      have hround : evqProgram.exec 3 (.downTmp task e.count idx small) e =
          (.inl (.down task e.count small), { e with heap := swap e.heap idx small }) := by
        simp [evqProgram, Program.exec, swap]
      rw [Program.exec_add hround]
      exact hn'
    · rw [if_neg hne] at hfirst ⊢
      exact ⟨1, Program.exec_succ_inr hfirst 0⟩

/-- Below `2 ^ 31` entries a push answers as the model of it says. -/
theorem evqProgram_push {e : Evq} (hcap : e.cap < 2 ^ 31) (t : Task) :
    evqProgram.Answers (.push t) e (evqAnswer e (.push t)).1 (evqAnswer e (.push t)).2 := by
  by_cases hfull : e.cap ≤ e.count
  · refine ⟨1, ?_⟩
    simp [evqProgram, Program.exec, evqAnswer, gmkEvqPush, hfull]
  · have hcount : u32 (e.count + 1) = e.count + 1 := u32_of_lt (by omega)
    have hstore : evqProgram.exec 8 (evqProgram.enter (.push t)) e = (.inl (.up e.count),
        { e with
          nextSeq := u32 (e.nextSeq + 1)
          count := e.count + 1
          heap := Function.update e.heap e.count (evqEntry t e.nextSeq) }) := by
      simp [evqProgram, Program.exec, hfull, hcount, evqEntry]
    obtain ⟨n, hn⟩ := exec_up (show e.count < 2 ^ 32 by omega)
      { e with
        nextSeq := u32 (e.nextSeq + 1)
        count := e.count + 1
        heap := Function.update e.heap e.count (evqEntry t e.nextSeq) }
    refine ⟨8 + n, ?_⟩
    rw [Program.exec_add hstore, hn]
    simp [evqAnswer, gmkEvqPush, hfull]

section Pop
variable {e : Evq} {tick : UInt32} {task : Task}

theorem step_popCheck (h : e.count ≠ 0) :
    evqProgram.step (.popCheck tick) e = (.inl (.popDue tick), e) := if_neg h

theorem step_popDue (h : ¬ tick.toNat < u32 ((e.heap 0).key >>> 32)) :
    evqProgram.step (.popDue tick) e = (.inl .popTask, e) := if_neg h

theorem step_popRoot (h : 0 < e.count) : evqProgram.step (.popRoot task) e =
    (.inl (.down task e.count 0),
      { e with heap := Function.update e.heap 0 (e.heap e.count) }) := if_pos h

/-- The root of a queue that is due is taken before the loop starts. -/
theorem exec_popDue (hempty : e.count ≠ 0) (hlate : ¬ tick.toNat < u32 ((e.heap 0).key >>> 32)) :
    evqProgram.exec 4 (.popCheck tick) e =
      (.inl (.popRoot (e.heap 0).task), { e with count := sub32 e.count 1 }) := by
  rw [Program.exec_succ_inl (step_popCheck hempty), Program.exec_succ_inl (step_popDue hlate)]
  rfl

theorem evqProgram_popDue (hcount : e.count < 2 ^ 31) (tick : UInt32) :
    evqProgram.Answers (.popDue tick) e (evqAnswer e (.popDue tick)).1
      (evqAnswer e (.popDue tick)).2 := by
  by_cases hempty : e.count = 0
  · have hpop : gmkEvqPopDue e tick = none := if_pos hempty
    simp only [evqAnswer, hpop]
    exact ⟨1, Program.exec_succ_inr (if_pos hempty) 0⟩
  by_cases hlate : tick.toNat < u32 ((e.heap 0).key >>> 32)
  · have hpop : gmkEvqPopDue e tick = none := (if_neg hempty).trans (if_pos hlate)
    simp only [evqAnswer, hpop]
    exact ⟨2, (Program.exec_succ_inl (step_popCheck hempty) 1).trans
      (Program.exec_succ_inr (if_pos hlate) 0)⟩
  have hless : sub32 e.count 1 = e.count - 1 := by
    unfold sub32 u32
    omega
  have htake := exec_popDue hempty hlate
  rw [hless] at htake
  have hpop : gmkEvqPopDue e tick = some ((e.heap 0).task, { e with
      count := e.count - 1
      heap := if 0 < e.count - 1 then
          heapSiftDown (Function.update e.heap 0 (e.heap (e.count - 1))) (e.count - 1) 0
        else e.heap }) := (if_neg hempty).trans (if_neg hlate)
  simp only [evqAnswer, hpop]
  generalize (e.heap 0).task = task at htake ⊢
  by_cases hpos : 0 < e.count - 1
  · obtain ⟨n, hn⟩ := exec_down task
      (e := { e with
        count := e.count - 1
        heap := Function.update e.heap 0 (e.heap (e.count - 1)) })
      (lt_of_le_of_lt (Nat.sub_le _ _) hcount) hpos
    refine ⟨4 + (n + 1), ?_⟩
    rw [if_pos hpos]
    exact (Program.exec_add htake (n + 1)).trans
      ((Program.exec_succ_inl (step_popRoot hpos) n).trans hn)
  · rw [if_neg hpos]
    exact ⟨5, (Program.exec_add htake 1).trans (Program.exec_succ_inr (if_neg hpos) 0)⟩

end Pop

/-! ## The threads -/

/-- A stored task is the queue's until a pop answers with it. -/
def evqExchange : Exchange EvqOp (ℤ × Option Task) Task where
  takes
    | .push t => {t.content}
    | .popDue _ => 0
  gives
    | .push t, (rc, _) => if rc = 0 then 0 else {t.content}
    | .popDue _, (_, some t) => {t.content}
    | .popDue _, (_, none) => 0

/-- A heap within its capacity. -/
structure EvqBounded (cap : ℕ) (e : Evq) : Prop where
  wf : e.WF
  cap_eq : e.cap = cap
  count_le : e.count ≤ cap

/-- The tasks stored, apart from their sequence numbers. -/
def Evq.contents (e : Evq) : Multiset Task := e.entries.map fun x => x.task.content

/-- The tasks outside and inside of the queue are those of `total`. -/
def EvqGood (cap : ℕ) (total : Multiset Task) (e : Evq) (m : Multiset Task) : Prop :=
  EvqBounded cap e ∧ m + e.contents = total

section Answers
variable {cap : ℕ} {total m : Multiset Task} {e : Evq}

theorem evqBounded_init (cap : ℕ) : EvqBounded cap (gmkEvqInit cap) :=
  ⟨Evq.init_wf cap, rfl, Nat.zero_le _⟩

/-- A run that has stored the contents and popped nothing. -/
theorem EvqBounded.inv (h : EvqBounded cap e) : EvqHeapRun.Inv cap ⟨e, e.contents, 0⟩ :=
  ⟨h.wf, h.cap_eq, h.count_le, by simp [EvqHeapRun.stored, Evq.contents]⟩

theorem EvqBounded.push (h : EvqBounded cap e) {t : Task} {e' : Evq}
    (hp : gmkEvqPush e t = some e') :
    EvqBounded cap e' ∧ e'.contents = t.content ::ₘ e.contents := by
  have hinv := h.inv.push hp
  refine ⟨⟨hinv.wf, hinv.cap_eq, hinv.count_le⟩, ?_⟩
  simpa [EvqHeapRun.stored, Evq.contents] using hinv.balance.symm

theorem EvqBounded.pop (h : EvqBounded cap e) {tick : UInt32} {t : Task} {e' : Evq}
    (hp : gmkEvqPopDue e tick = some (t, e')) :
    EvqBounded cap e' ∧ e.contents = t.content ::ₘ e'.contents := by
  have hinv := h.inv.pop hp
  refine ⟨⟨hinv.wf, hinv.cap_eq, hinv.count_le⟩, ?_⟩
  simpa [EvqHeapRun.stored, Evq.contents] using hinv.balance

theorem evqProgram_computes (hcap : cap < 2 ^ 31) :
    evqProgram.Computes (EvqBounded cap) evqAnswer := by
  intro e i h
  have hcap' : e.cap < 2 ^ 31 := h.cap_eq ▸ hcap
  cases i with
  | push t =>
    refine ⟨evqProgram_push hcap' t, ?_⟩
    rw [evqAnswer]
    cases hp : gmkEvqPush e t with
    | none => exact h
    | some e' => exact (h.push hp).1
  | popDue tick =>
    refine ⟨evqProgram_popDue (h.count_le.trans_lt hcap) tick, ?_⟩
    rw [evqAnswer]
    rcases hp : gmkEvqPopDue e tick with _ | ⟨t, e'⟩
    · exact h
    · exact (h.pop hp).1

theorem evqExchange_keeps (hcap : cap < 2 ^ 31) (total : Multiset Task) :
    evqExchange.Keeps evqProgram (EvqGood cap total) := by
  intro e i m h
  obtain ⟨hb, htotal⟩ := h
  obtain ⟨hans, hkeep⟩ := evqProgram_computes hcap e i hb
  refine ⟨_, _, hans, hkeep, ?_⟩
  cases i with
  | push t =>
    rw [evqExchange, Multiset.singleton_add] at htotal
    simp only [evqAnswer]
    cases hp : gmkEvqPush e t with
    | none => simpa [evqExchange] using htotal
    | some e' =>
      rw [(hb.push hp).2, Multiset.add_cons, ← Multiset.cons_add]
      simpa [evqExchange] using htotal
  | popDue tick =>
    rw [evqExchange, zero_add] at htotal
    simp only [evqAnswer]
    rcases hp : gmkEvqPopDue e tick with _ | ⟨t, e'⟩
    · simpa [evqExchange] using htotal
    · rw [(hb.pop hp).2] at htotal
      simpa [evqExchange, Multiset.add_cons, Multiset.cons_add] using htotal

/-- A push fails on a full queue only, a pop only if no stored task is due, and a pop answers with
a task of least key. -/
def EvqFits (e : Evq) : EvqOp → ℤ × Option Task → Prop
  | .push _, (rc, _) => rc ≠ 0 ↔ e.count = e.cap
  | .popDue tick, (rc, out) =>
      (rc ≠ 0 ↔ ∀ x ∈ e.entries, tick.toNat < u32 x.task.meta0.toNat) ∧
        (rc = 0 → ∃ x ∈ e.entries, out = some x.task ∧ ∀ y ∈ e.entries, x.key ≤ y.key)

theorem EvqBounded.fits (h : EvqBounded cap e) (i : EvqOp) : EvqFits e i (evqAnswer e i).1 := by
  cases i with
  | push t =>
    have hnone := Evq.push_none_iff e t
    have hle := h.count_le
    have hcap := h.cap_eq
    simp only [evqAnswer]
    cases hp : gmkEvqPush e t with
    | none =>
      have hfull := hnone.mp hp
      exact iff_of_true (by norm_num) (by omega)
    | some e' =>
      have hroom : ¬ e.cap ≤ e.count := by
        rw [← hnone, hp]
        simp
      exact iff_of_false (by norm_num) (by omega)
  | popDue tick =>
    have hnone : gmkEvqPopDue e tick = none ↔
        ∀ x ∈ e.entries, tick.toNat < u32 x.task.meta0.toNat := by
      simpa [EvqHeapRun.stored] using h.inv.popDue_none_iff tick
    simp only [evqAnswer]
    rcases hp : gmkEvqPopDue e tick with _ | ⟨t, e'⟩
    · exact ⟨iff_of_true (by norm_num) (hnone.mp hp), fun hzero => absurd hzero (by norm_num)⟩
    · obtain ⟨hpos, rfl, -⟩ := Evq.popDue_some hp
      refine ⟨iff_of_false (by norm_num) ?_, fun _ => ?_⟩
      · rw [← hnone, hp]
        simp
      · exact ⟨_, Evq.root_mem hpos, rfl, fun y hy => Evq.root_le h.wf hy⟩

end Answers

namespace EvqThreads

abbrev State (n : ℕ) := LockOwners n Evq EvqOp EvqPc (ℤ × Option Task) Task

end EvqThreads
end Ggmk

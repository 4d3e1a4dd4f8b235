import Ggmk.Lib.Tally
import Ggmk.Ring.Mpmc
import Ggmk.Ring.Spsc

/-! The local queue of a worker (`sched_lq.c`) and the ready queue with its four
weighted priorities (`sched_rq.c`). -/
namespace Ggmk
open Word

structure Lq where
  ring : SpscQueue Task
  yieldWatermark : ℕ
  cap : ℕ

/-- Normal push: respect the yield watermark. -/
def gmkLqPush (lq : Lq) (t : Task) : Option Lq :=
  if lq.yieldWatermark ≤ lq.ring.count then none
  else (lq.ring.push t).map fun r => { lq with ring := r }

/-- Yield push: use the full capacity. -/
def gmkLqPushYield (lq : Lq) (t : Task) : Option Lq :=
  (lq.ring.push t).map fun r => { lq with ring := r }

def gmkLqPop (lq : Lq) : Option (Task × Lq) :=
  (lq.ring.pop).map fun p => (p.1, { lq with ring := p.2 })

def gmkLqCount (lq : Lq) : ℕ := lq.ring.count

namespace Lq

def items (lq : Lq) : List Task := lq.ring.items

/-- The fields that no operation changes. -/
def SameShape (a b : Lq) : Prop :=
  a.ring.cap = b.ring.cap ∧ a.yieldWatermark = b.yieldWatermark ∧ a.cap = b.cap

/-- `gmk_lq_push` has no room for another task. -/
def Refuses (lq : Lq) : Prop :=
  lq.yieldWatermark ≤ lq.items.length ∨ lq.items.length = lq.ring.cap

instance (lq : Lq) : Decidable lq.Refuses := by unfold Refuses; infer_instance

/-- A queue as `gmk_lq_init` sizes it, holding `l`. -/
def ofList (l : List Task) (hl : l.length ≤ 2 ^ 10) : Lq where
  ring := SpscQueue.ofList 10 (by norm_num) l hl
  yieldWatermark := gmkLqDefaultCap - gmkLqDefaultCap * gmkLqYieldReservePct / 100
  cap := gmkLqDefaultCap

end Lq

theorem gmkLqPushYield_some {lq lq' : Lq} {t : Task} (h : gmkLqPushYield lq t = some lq') :
    lq'.items = lq.items ++ [t] ∧ lq'.SameShape lq ∧ lq.items.length < lq.ring.cap := by
  obtain ⟨r, hr, rfl⟩ := Option.map_eq_some_iff.mp h
  obtain ⟨hi, hc, hl⟩ := SpscQueue.push_some hr
  exact ⟨hi, ⟨hc, rfl, rfl⟩, hl⟩

theorem gmkLqPushYield_eq_none_iff (lq : Lq) (t : Task) :
    gmkLqPushYield lq t = none ↔ lq.items.length = lq.ring.cap := by
  rw [gmkLqPushYield, Option.map_eq_none_iff]
  exact lq.ring.push_eq_none_iff t

theorem gmkLqPush_some {lq lq' : Lq} {t : Task} (h : gmkLqPush lq t = some lq') :
    lq'.items = lq.items ++ [t] ∧ lq'.SameShape lq ∧ ¬ lq.Refuses := by
  unfold gmkLqPush at h
  split at h
  next => simp at h
  next hw =>
    obtain ⟨hi, hs, hl⟩ := gmkLqPushYield_some h
    rw [lq.ring.count_eq] at hw
    refine ⟨hi, hs, ?_⟩
    rintro (hle | heq)
    · exact hw hle
    · omega

theorem gmkLqPush_eq_none_iff (lq : Lq) (t : Task) : gmkLqPush lq t = none ↔ lq.Refuses := by
  unfold gmkLqPush Lq.Refuses
  rw [lq.ring.count_eq]
  split
  next hw => exact ⟨fun _ => Or.inl hw, fun _ => rfl⟩
  next hw =>
    rw [← gmkLqPushYield, gmkLqPushYield_eq_none_iff]
    exact ⟨Or.inr, fun h => h.resolve_left hw⟩

theorem gmkLqPop_some {lq lq' : Lq} {t : Task} (h : gmkLqPop lq = some (t, lq')) :
    lq.items = t :: lq'.items ∧ lq'.SameShape lq := by
  obtain ⟨⟨x, r⟩, hr, he⟩ := Option.map_eq_some_iff.mp h
  obtain ⟨rfl, rfl⟩ := Prod.mk.inj he
  obtain ⟨hi, hc⟩ := SpscQueue.pop_some hr
  exact ⟨hi, hc, rfl, rfl⟩

theorem gmkLqPop_eq_none_iff (lq : Lq) : gmkLqPop lq = none ↔ lq.items = [] := by
  rw [gmkLqPop, Option.map_eq_none_iff]
  exact lq.ring.pop_eq_none_iff

/-- `GMK_WEIGHT_P0` to `GMK_WEIGHT_P3`. -/
def gmkWeight (prio : ℕ) : ℕ :=
  match prio with
  | 0 => 8
  | 1 => 4
  | 2 => 2
  | _ => 1

structure Rq where
  queues : ℕ → MpmcQueue Task
  popCounters : ℕ → ℕ

def gmkRqPush (rq : Rq) (t : Task) : Option Rq :=
  let prio := if gmkPriorityCount ≤ t.prio then gmkPrioLow else t.prio
  ((rq.queues prio).push t).map fun q =>
    { rq with queues := Function.update rq.queues prio q }

namespace Rq

/-- One attempt of the pop loops: take from queue `prio` and count it. -/
def tryPop (rq : Rq) (prio : ℕ) : Option (Task × Rq) :=
  ((rq.queues prio).pop).map fun p =>
    (p.1, { rq with
      queues := Function.update rq.queues prio p.2
      popCounters := Function.update rq.popCounters prio (u32 (rq.popCounters prio + 1)) })

/-- First pass: skip the priorities that have used up their weight. -/
def weightedPass (rq : Rq) : List ℕ → Option (Task × Rq)
  | [] => none
  | prio :: rest =>
      if rq.popCounters prio < gmkWeight prio then
        match rq.tryPop prio with
        | some p => some p
        | none => weightedPass rq rest
      else weightedPass rq rest

/-- Second pass: any non-empty queue. -/
def anyPass (rq : Rq) : List ℕ → Option (Task × Rq)
  | [] => none
  | prio :: rest =>
      match rq.tryPop prio with
      | some p => some p
      | none => anyPass rq rest

def priorities : List ℕ := [0, 1, 2, 3]

end Rq

/-- The counters are reset, and stay reset, when no queue delivers. -/
def gmkRqPop (rq : Rq) : Option Task × Rq :=
  match rq.weightedPass Rq.priorities with
  | some (t, rq') => (some t, rq')
  | none =>
      let reset := { rq with popCounters := fun _ => 0 }
      match reset.anyPass Rq.priorities with
      | some (t, rq') => (some t, rq')
      | none => (none, reset)

namespace Rq

/-- All tasks of the four queues. -/
def tasks (rq : Rq) : Multiset Task :=
  ∑ p ∈ Finset.range gmkPriorityCount, ((rq.queues p).items : Multiset Task)

/-- `gmk_rq_push` has no room for a task of priority `p`. -/
def Refuses (rq : Rq) (p : ℕ) : Prop := (rq.queues p).items.length = (rq.queues p).cap

instance (rq : Rq) (p : ℕ) : Decidable (rq.Refuses p) := by unfold Refuses; infer_instance

end Rq

/-- What a successful push does: one queue grows at its back. -/
theorem gmkRqPush_some {rq rq' : Rq} {t : Task} (h : gmkRqPush rq t = some rq') :
    ∃ q, (rq.queues t.prio).push t = some q ∧
      rq' = { rq with queues := Function.update rq.queues t.prio q } := by
  have hp : ¬ gmkPriorityCount ≤ t.prio := not_le.mpr t.prio_lt
  simp only [gmkRqPush, if_neg hp, Option.map_eq_some_iff] at h
  obtain ⟨q, hq, rfl⟩ := h
  exact ⟨q, hq, rfl⟩

theorem gmkRqPush_eq_none_iff (rq : Rq) (t : Task) :
    gmkRqPush rq t = none ↔ rq.Refuses t.prio := by
  have hp : ¬ gmkPriorityCount ≤ t.prio := not_le.mpr t.prio_lt
  simp only [gmkRqPush, if_neg hp, Option.map_eq_none_iff]
  exact MpmcQueue.push_eq_none_iff _ _

theorem gmkRqPush_tasks {rq rq' : Rq} {t : Task} (h : gmkRqPush rq t = some rq') :
    rq'.tasks = t ::ₘ rq.tasks := by
  obtain ⟨q, hq, rfl⟩ := gmkRqPush_some h
  have hs := Tally.sum_update_add (Finset.range gmkPriorityCount)
    (fun q : MpmcQueue Task => (q.items : Multiset Task)) rq.queues
    (Finset.mem_range.mpr t.prio_lt) q
  rw [(MpmcQueue.push_some hq).1, ← Multiset.coe_add, ← add_assoc, add_right_comm] at hs
  simpa only [Rq.tasks, add_comm, Multiset.coe_singleton, Multiset.singleton_add] using
    add_right_cancel hs

namespace Rq

theorem tryPop_some {rq rq' : Rq} {t : Task} {p : ℕ} (h : rq.tryPop p = some (t, rq')) :
    ∃ q, (rq.queues p).pop = some (t, q) ∧
      rq'.queues = Function.update rq.queues p q := by
  obtain ⟨⟨x, q⟩, hq, he⟩ := Option.map_eq_some_iff.mp h
  obtain ⟨rfl, rfl⟩ := Prod.mk.inj he
  exact ⟨q, hq, rfl⟩

theorem tryPop_eq_none_iff (rq : Rq) (p : ℕ) : rq.tryPop p = none ↔ (rq.queues p).items = [] := by
  rw [tryPop, Option.map_eq_none_iff]
  exact MpmcQueue.pop_eq_none_iff _

theorem weightedPass_some {rq rq' : Rq} {t : Task} {ps : List ℕ}
    (h : rq.weightedPass ps = some (t, rq')) : ∃ p ∈ ps, rq.tryPop p = some (t, rq') := by
  induction ps with
  | nil => simp [weightedPass] at h
  | cons p ps ih =>
    simp only [weightedPass] at h
    split at h
    · split at h
      next hp => exact ⟨p, by simp, hp.trans h⟩
      next => obtain ⟨p', hm, hp'⟩ := ih h; exact ⟨p', by simp [hm], hp'⟩
    · obtain ⟨p', hm, hp'⟩ := ih h; exact ⟨p', by simp [hm], hp'⟩

theorem anyPass_some {rq rq' : Rq} {t : Task} {ps : List ℕ}
    (h : rq.anyPass ps = some (t, rq')) : ∃ p ∈ ps, rq.tryPop p = some (t, rq') := by
  induction ps with
  | nil => simp [anyPass] at h
  | cons p ps ih =>
    simp only [anyPass] at h
    split at h
    next hp => exact ⟨p, by simp, hp.trans h⟩
    next => obtain ⟨p', hm, hp'⟩ := ih h; exact ⟨p', by simp [hm], hp'⟩

theorem anyPass_none {rq : Rq} {ps : List ℕ} (h : rq.anyPass ps = none) :
    ∀ p ∈ ps, (rq.queues p).items = [] := by
  induction ps with
  | nil => simp
  | cons p ps ih =>
    simp only [anyPass] at h
    split at h
    next => simp at h
    next hp =>
      intro p' hm
      rcases List.mem_cons.mp hm with rfl | hm
      · exact (rq.tryPop_eq_none_iff _).mp hp
      · exact ih h p' hm

theorem mem_priorities {p : ℕ} : p ∈ priorities ↔ p < gmkPriorityCount := by
  simp only [priorities, List.mem_cons, List.not_mem_nil, or_false, gmkPriorityCount]
  omega

end Rq

/-- What a successful pop does: one of the four queues loses its oldest task. -/
theorem gmkRqPop_some {rq rq' : Rq} {t : Task} (h : gmkRqPop rq = (some t, rq')) :
    ∃ p < gmkPriorityCount, ∃ q, (rq.queues p).pop = some (t, q) ∧
      rq'.queues = Function.update rq.queues p q := by
  have hfrom : ∃ p ∈ Rq.priorities, ∃ c,
      Rq.tryPop { rq with popCounters := c } p = some (t, rq') := by
    simp only [gmkRqPop] at h
    split at h
    next hw =>
      obtain ⟨rfl, rfl⟩ : _ ∧ _ := by simpa using h
      obtain ⟨p, hm, hp⟩ := Rq.weightedPass_some hw
      exact ⟨p, hm, rq.popCounters, hp⟩
    next =>
      split at h
      next ha =>
        obtain ⟨rfl, rfl⟩ : _ ∧ _ := by simpa using h
        obtain ⟨p, hm, hp⟩ := Rq.anyPass_some ha
        exact ⟨p, hm, _, hp⟩
      next => simp at h
  obtain ⟨p, hm, c, hp⟩ := hfrom
  obtain ⟨q, hq, hq'⟩ := Rq.tryPop_some hp
  exact ⟨p, Rq.mem_priorities.mp hm, q, hq, hq'⟩

theorem gmkRqPop_none {rq rq' : Rq} (h : gmkRqPop rq = (none, rq')) :
    rq'.queues = rq.queues ∧ ∀ p < gmkPriorityCount, (rq.queues p).items = [] := by
  simp only [gmkRqPop] at h
  split at h
  next => simp at h
  next =>
    split at h
    next => simp at h
    next ha =>
      obtain ⟨-, rfl⟩ := Prod.mk.inj h
      exact ⟨rfl, fun p hp => Rq.anyPass_none ha p (Rq.mem_priorities.mpr hp)⟩

theorem gmkRqPop_tasks {rq rq' : Rq} {t : Task} (h : gmkRqPop rq = (some t, rq')) :
    rq.tasks = t ::ₘ rq'.tasks := by
  obtain ⟨p, hp, q, hq, hq'⟩ := gmkRqPop_some h
  have hs := Tally.sum_update_add (Finset.range gmkPriorityCount)
    (fun q : MpmcQueue Task => (q.items : Multiset Task)) rq.queues (Finset.mem_range.mpr hp) q
  rw [(MpmcQueue.pop_some hq).1, ← hq'] at hs
  rw [← Multiset.cons_coe, Multiset.add_cons, ← Multiset.cons_add] at hs
  exact (add_right_cancel hs).symm

end Ggmk

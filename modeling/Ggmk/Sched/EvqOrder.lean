import Ggmk.Sched.Evq

/-! Delivery order of the event queue over whole runs. A run remembers the stored tasks
in insertion order; the packed key delivers them by tick, priority and age as long as
the sequence number fits the sixteen bits below the priority. -/
namespace Ggmk
open Word BinaryHeap

inductive EvqOp where
  | push (t : Task)
  | popDue (tick : UInt32)

/-- The scheduled tick of a pushed task is a 32-bit one. -/
def EvqOp.InRange : EvqOp → Prop
  | .push t => t.meta0.toNat < 2 ^ 32
  | .popDue _ => True

/-- A queue with the tasks it stores, oldest first, and the number of accepted pushes. -/
structure EvqRun where
  evq : Evq
  stored : List Task
  accepted : ℕ

namespace EvqRun

def start (cap : ℕ) : EvqRun := ⟨gmkEvqInit cap, [], 0⟩

def step (s : EvqRun) : EvqOp → EvqRun
  | .push t =>
      match gmkEvqPush s.evq t with
      | some e => ⟨e, s.stored ++ [t], s.accepted + 1⟩
      | none => s
  | .popDue tick =>
      match gmkEvqPopDue s.evq tick with
      | some (t, e) => ⟨e, s.stored.eraseP (fun u => u.content = t.content), s.accepted⟩
      | none => s

def exec (cap : ℕ) (ops : List EvqOp) : EvqRun := ops.foldl step (start cap)

end EvqRun

/-- Earlier tick first, then higher priority, which is the smaller number. -/
def Task.rank (t : Task) : ℕ ×ₗ ℕ := toLex (t.meta0.toNat, t.prio)

/-- `t` is the oldest of the least-ranked stored tasks. -/
def FirstLeast (stored : List Task) (t : Task) : Prop :=
  ∃ pre u post, stored = pre ++ u :: post ∧ u.content = t.content ∧
    (∀ v ∈ pre, u.rank < v.rank) ∧ ∀ v ∈ post, u.rank ≤ v.rank

/-- Whatever is delivered next is the right task. -/
def EvqRun.DeliversInOrder (s : EvqRun) : Prop :=
  ∀ tick t e, gmkEvqPopDue s.evq tick = some (t, e) → FirstLeast s.stored t

theorem Task.rank_lt_iff (t u : Task) : t.rank < u.rank ↔
    t.meta0.toNat < u.meta0.toNat ∨ t.meta0.toNat = u.meta0.toNat ∧ t.prio < u.prio := by
  simp [rank, Prod.Lex.toLex_lt_toLex]

theorem Task.rank_content (t : Task) : t.content.rank = t.rank := rfl

/-- Within sixteen bits of sequence number the key compares as rank, then age. -/
theorem evqKey_le_iff {t u : Task} {i j : ℕ} (ht : t.meta0.toNat < 2 ^ 32)
    (hu : u.meta0.toNat < 2 ^ 32) (hi : i < 2 ^ 16) (hj : j < 2 ^ 16) :
    evqKey t i ≤ evqKey u j ↔ t.rank < u.rank ∨ t.rank = u.rank ∧ i ≤ j := by
  have hpt := t.prio_lt
  have hpu := u.prio_lt
  have hr : t.rank = u.rank ↔ t.meta0.toNat = u.meta0.toNat ∧ t.prio = u.prio := by
    simp [Task.rank]
  unfold gmkPriorityCount at hpt hpu
  rw [evqKey_of_lt t hi, evqKey_of_lt u hj, u32_of_lt ht, u32_of_lt hu, Task.rank_lt_iff, hr]
  omega

namespace EvqRun

/-- The entry of a stored task with its insertion index. -/
def tagEntry (p : ℕ × Task) : EvqEntry := evqEntry p.2 (u32 p.1)

/-- The stored tasks carry increasing insertion indices that the heap entries were keyed with. -/
structure Tagged (s : EvqRun) (l : List (ℕ × Task)) : Prop where
  stored_eq : s.stored = l.map Prod.snd
  entries_eq : s.evq.entries = (l.map tagEntry : Multiset EvqEntry)
  sorted : l.Pairwise fun p q => p.1 < q.1
  below : ∀ p ∈ l, p.1 < s.accepted
  ticks : ∀ p ∈ l, p.2.meta0.toNat < 2 ^ 32

structure Inv (s : EvqRun) : Prop where
  wf : s.evq.WF
  seq_eq : s.evq.nextSeq = u32 s.accepted
  tagged : ∃ l, s.Tagged l

theorem start_inv (cap : ℕ) : (start cap).Inv where
  wf := Evq.init_wf cap
  seq_eq := rfl
  tagged := ⟨[], rfl, by simp [start, gmkEvqInit, Evq.entries, contents], by simp, by simp,
    by simp⟩

theorem push_inv {s : EvqRun} (hs : s.Inv) {t : Task} (ht : t.meta0.toNat < 2 ^ 32) {e : Evq}
    (h : gmkEvqPush s.evq t = some e) : Inv ⟨e, s.stored ++ [t], s.accepted + 1⟩ := by
  obtain ⟨hent, hseq, -, -⟩ := Evq.push_some h
  obtain ⟨l, hl⟩ := hs.tagged
  refine ⟨Evq.push_wf hs.wf h, by simp [hseq, hs.seq_eq], l ++ [(s.accepted, t)], ?_⟩
  refine ⟨by simp [hl.stored_eq], ?_, ?_, ?_, ?_⟩
  · rw [hent, hl.entries_eq, hs.seq_eq, Multiset.cons_coe, Multiset.coe_eq_coe, List.map_append]
    exact (List.perm_append_singleton _ _).symm
  · refine List.pairwise_append.mpr ⟨hl.sorted, by simp, fun p hp q hq => ?_⟩
    obtain rfl := List.mem_singleton.mp hq
    exact hl.below p hp
  · intro p hp
    rcases List.mem_append.mp hp with hp | hp
    · exact (hl.below p hp).trans (Nat.lt_succ_self _)
    · obtain rfl := List.mem_singleton.mp hp
      exact Nat.lt_succ_self _
  · intro p hp
    rcases List.mem_append.mp hp with hp | hp
    · exact hl.ticks p hp
    · obtain rfl := List.mem_singleton.mp hp
      exact ht

/-- The root of the heap is the entry of the stored task that has to be delivered. -/
theorem Tagged.root {s : EvqRun} {l : List (ℕ × Task)} (hl : s.Tagged l) (hw : s.evq.WF)
    (hpos : 0 < s.evq.count) (hacc : s.accepted ≤ 2 ^ 16) :
    ∃ pre i u post, l = pre ++ (i, u) :: post ∧ s.evq.heap 0 = tagEntry (i, u) ∧
      (∀ p ∈ pre, u.rank < p.2.rank) ∧ ∀ p ∈ post, u.rank ≤ p.2.rank := by
  have hm : s.evq.heap 0 ∈ s.evq.entries := Evq.root_mem hpos
  rw [hl.entries_eq, Multiset.mem_coe] at hm
  obtain ⟨⟨i, u⟩, hmem, hroot⟩ := List.mem_map.mp hm
  obtain ⟨pre, post, hsplit⟩ := List.append_of_mem hmem
  have hkey {p : ℕ × Task} (hp : p ∈ l) : u.rank < p.2.rank ∨ u.rank = p.2.rank ∧ i ≤ p.1 := by
    have hi := hl.below _ hmem
    have hj := hl.below _ hp
    have hle : (s.evq.heap 0).key ≤ (tagEntry p).key := by
      apply Evq.root_le hw
      rw [hl.entries_eq, Multiset.mem_coe]
      exact List.mem_map_of_mem hp
    rw [← hroot] at hle
    simp only [tagEntry, evqEntry] at hle hi
    rw [u32_of_lt (by omega), u32_of_lt (by omega)] at hle
    exact (evqKey_le_iff (hl.ticks _ hmem) (hl.ticks _ hp) (by omega) (by omega)).mp hle
  have hsort := hl.sorted
  rw [hsplit] at hsort
  refine ⟨pre, i, u, post, hsplit, hroot.symm, ?_, ?_⟩
  · intro p hp
    have hlt : p.1 < i := (List.pairwise_append.mp hsort).2.2 p hp (i, u) (by simp)
    rcases hkey (hsplit ▸ List.mem_append_left _ hp) with h | ⟨-, h⟩
    · exact h
    · omega
  · intro p hp
    rcases hkey (hsplit ▸ List.mem_append_right _ (List.mem_cons_of_mem _ hp)) with h | ⟨h, -⟩
    · exact h.le
    · exact h.le

theorem delivers_of_inv {s : EvqRun} (hs : s.Inv) (hacc : s.accepted ≤ 2 ^ 16) :
    s.DeliversInOrder := by
  intro tick t e h
  obtain ⟨hpos, rfl, -⟩ := Evq.popDue_some h
  obtain ⟨l, hl⟩ := hs.tagged
  obtain ⟨pre, i, u, post, hsplit, hroot, hpre, hpost⟩ := hl.root hs.wf hpos hacc
  refine ⟨pre.map Prod.snd, u, post.map Prod.snd, by simp [hl.stored_eq, hsplit], ?_, ?_, ?_⟩
  · simp [hroot, tagEntry, evqEntry]
  · intro v hv
    obtain ⟨p, hp, rfl⟩ := List.mem_map.mp hv
    exact hpre p hp
  · intro v hv
    obtain ⟨p, hp, rfl⟩ := List.mem_map.mp hv
    exact hpost p hp

theorem popDue_inv {s : EvqRun} (hs : s.Inv) (hacc : s.accepted ≤ 2 ^ 16) {tick : UInt32}
    {t : Task} {e : Evq} (h : gmkEvqPopDue s.evq tick = some (t, e)) :
    Inv ⟨e, s.stored.eraseP (fun u => u.content = t.content), s.accepted⟩ := by
  obtain ⟨hpos, rfl, -, hent, hseq, -⟩ := Evq.popDue_some h
  obtain ⟨l, hl⟩ := hs.tagged
  obtain ⟨pre, i, u, post, hsplit, hroot, hpre, -⟩ := hl.root hs.wf hpos hacc
  have hsub : (pre ++ post).Sublist l := by
    rw [hsplit]; exact (List.Sublist.refl pre).append (List.sublist_cons_self _ _)
  refine ⟨Evq.popDue_wf hs.wf h, hseq.trans hs.seq_eq, pre ++ post, ?_, ?_,
    hl.sorted.sublist hsub, fun p hp => hl.below p (hsub.subset hp),
    fun p hp => hl.ticks p (hsub.subset hp)⟩
  · have hskip : ∀ v ∈ pre.map Prod.snd, ¬ decide (v.content = (s.evq.heap 0).task.content) := by
      intro v hv
      obtain ⟨p, hp, rfl⟩ := List.mem_map.mp hv
      rw [decide_eq_true_eq, hroot]
      intro he
      have := congrArg Task.rank he
      simp only [Task.rank_content, tagEntry, evqEntry, Task.content_withSeq] at this
      exact absurd this (hpre p hp).ne'
    have hhit : decide (u.content = (s.evq.heap 0).task.content) = true := by
      simp [hroot, tagEntry, evqEntry]
    rw [hl.stored_eq, hsplit, List.map_append, List.map_cons, List.eraseP_append_right _ hskip]
    simp [hhit]
  · rw [hl.entries_eq, hsplit, hroot] at hent
    have hc : (((pre ++ (i, u) :: post).map tagEntry : List EvqEntry) : Multiset EvqEntry) =
        tagEntry (i, u) ::ₘ ((pre ++ post).map tagEntry : List EvqEntry) := by
      rw [Multiset.cons_coe, Multiset.coe_eq_coe]
      simp
    rw [hc] at hent
    exact ((Multiset.cons_inj_right _).mp hent).symm

theorem step_inv {s : EvqRun} {op : EvqOp} (hs : s.Inv) (hop : op.InRange)
    (hacc : s.accepted ≤ 2 ^ 16) : (s.step op).Inv := by
  cases op with
  | push t =>
    simp only [step]
    split
    next e h => exact push_inv hs hop h
    next => exact hs
  | popDue tick =>
    simp only [step]
    split
    next t e h => exact popDue_inv hs hacc h
    next => exact hs

theorem accepted_le_step (s : EvqRun) (op : EvqOp) : s.accepted ≤ (s.step op).accepted := by
  cases op <;> simp only [step] <;> split <;> simp

theorem exec_snoc (cap : ℕ) (ops : List EvqOp) (op : EvqOp) :
    exec cap (ops ++ [op]) = (exec cap ops).step op := by simp [exec]

/-- The invariant holds along every run that accepts at most `2 ^ 16` pushes. -/
theorem exec_inv (cap : ℕ) (ops : List EvqOp) (hops : ∀ op ∈ ops, op.InRange)
    (hacc : (exec cap ops).accepted ≤ 2 ^ 16) : (exec cap ops).Inv := by
  induction ops using List.reverseRecOn with
  | nil => exact start_inv cap
  | append_singleton ops op ih =>
    rw [exec_snoc] at hacc ⊢
    have hle := (accepted_le_step (exec cap ops) op).trans hacc
    exact step_inv (ih (fun o ho => hops o (by simp [ho])) hle) (hops op (by simp)) hle

/-! ## The sequence number in the priority bits -/

/-- An empty queue of two entries that has stored and delivered `n` tasks. -/
def Idle (s : EvqRun) (n : ℕ) : Prop :=
  s.evq.count = 0 ∧ s.evq.cap = 2 ∧ s.evq.nextSeq = u32 n ∧ s.stored = [] ∧ s.accepted = n

theorem siftUp_zero (h : ℕ → EvqEntry) : heapSiftUp h 0 = h := by
  rw [heapSiftUp, siftUp]; simp

/-- The queue after a push into an empty one. -/
theorem push_first {e : Evq} (hc : e.count = 0) (hcap : e.cap = 2) (t : Task) :
    gmkEvqPush e t = some { e with
      nextSeq := u32 (e.nextSeq + 1)
      count := 1
      heap := Function.update e.heap 0 (evqEntry t e.nextSeq) } := by
  simp [gmkEvqPush, hc, hcap, siftUp_zero]

theorem Idle.cycle {s : EvqRun} {n : ℕ} (h : s.Idle n) :
    ((s.step (.push default)).step (.popDue 0)).Idle (n + 1) := by
  obtain ⟨hc, hcap, hseq, hst, hacc⟩ := h
  have hlt : s.evq.nextSeq < 2 ^ 32 := hseq ▸ u32_lt _
  have ht : ¬ (0 : UInt32).toNat < u32 ((evqEntry default s.evq.nextSeq).key >>> 32) := by
    rw [evqEntry, evqKey_tick _ hlt]; decide
  have hpop (e : Evq) (h1 : e.count = 1) (h0 : e.heap 0 = evqEntry default s.evq.nextSeq) :
      gmkEvqPopDue e 0 = some ((e.heap 0).task, { e with count := 0 }) := by
    simp only [gmkEvqPopDue, h1, h0, if_neg ht]; simp
  simp only [step, push_first hc hcap, hst, hacc]
  rw [hpop _ rfl (by simp)]
  refine ⟨rfl, hcap, ?_, ?_, rfl⟩
  · simp [hseq]
  · simp [Function.update_self, evqEntry]

theorem exec_idle (n : ℕ) :
    (exec 2 (List.replicate n [EvqOp.push default, EvqOp.popDue 0]).flatten).Idle n := by
  induction n with
  | zero => exact ⟨rfl, rfl, rfl, rfl, rfl⟩
  | succ n ih =>
    have h := ih.cycle
    simpa [List.replicate_succ', exec] using h

/-- Two tasks of one tick and one priority that differ only in their type. -/
def lateFirst : Task := { type := 1, flags := 1 }
def lateSecond : Task := { type := 2, flags := 1 }

/-- Two tasks are stored and the younger one is the root. -/
def Inverted (s : EvqRun) : Prop :=
  s.stored = [lateFirst, lateSecond] ∧ s.accepted = 65537 ∧ s.evq.count = 2 ∧
    s.evq.heap 0 = evqEntry lateSecond 65536

/-- The key of the second task is the smaller one, so it rises to the root. -/
theorem Idle.inverted {s : EvqRun} (h : s.Idle 65535) :
    ((s.step (.push lateFirst)).step (.push lateSecond)).Inverted := by
  obtain ⟨hc, hcap, hseq, hst, hacc⟩ := h
  have hkey : evqKey lateSecond 65536 < evqKey lateFirst 65535 := by decide
  have hfirst : s.step (.push lateFirst) = ⟨{ s.evq with
      nextSeq := 65536
      count := 1
      heap := Function.update s.evq.heap 0 (evqEntry lateFirst 65535) },
      [lateFirst], 65536⟩ := by
    simp [step, push_first hc hcap, hst, hacc, hseq, u32]
  have hup (h : ℕ → EvqEntry) (hlt : (h 1).key < (h 0).key) : heapSiftUp h 1 = swap h 1 0 := by
    rw [heapSiftUp, siftUp, if_pos (by norm_num), if_pos (by simpa [parent] using hlt)]
    simp [parent, siftUp]
  rw [hfirst]
  simp only [step, gmkEvqPush, hcap, Nat.not_ofNat_le_one, ↓reduceIte]
  rw [hup _ (by simpa [evqEntry] using hkey)]
  simp [Inverted, swap]

theorem Inverted.not_in_order {s : EvqRun} (hs : s.Inverted) : ¬ s.DeliversInOrder := by
  intro h
  obtain ⟨hst, -, hcount, hroot⟩ := hs
  obtain ⟨t, e, hpop⟩ : ∃ t e, gmkEvqPopDue s.evq 0 = some (t, e) := by
    cases hp : gmkEvqPopDue s.evq 0 with
    | some p => exact ⟨p.1, p.2, rfl⟩
    | none =>
      rw [Evq.popDue_none_iff, hroot, evqEntry, evqKey_tick _ (by norm_num)] at hp
      rcases hp with hp | hp
      · omega
      · exact absurd hp (by decide)
  obtain ⟨-, rfl, -⟩ := Evq.popDue_some hpop
  obtain ⟨pre, u, post, hsplit, hu, hpre, -⟩ := h 0 _ e hpop
  rw [hst] at hsplit
  rw [hroot] at hu
  -- the delivered task is the second one, so the first stands before it
  cases pre with
  | nil =>
    obtain rfl : lateFirst = u := by simpa using (List.cons.inj hsplit).1
    exact absurd hu (by decide)
  | cons v pre =>
    obtain rfl : lateFirst = v := by simpa using (List.cons.inj hsplit).1
    have hlt := hpre lateFirst (by simp)
    have hr : u.rank = lateFirst.rank := by
      rw [← Task.rank_content, hu]
      decide
    exact absurd hr hlt.ne

/-- `n` tasks come and go, then two tasks of priority one arrive. -/
def lateOps (n : ℕ) : List EvqOp :=
  (List.replicate n [EvqOp.push default, EvqOp.popDue 0]).flatten ++
    [.push lateFirst, .push lateSecond]

theorem lateOps_inRange (n : ℕ) : ∀ op ∈ lateOps n, op.InRange := by
  intro op hop
  simp only [lateOps, List.mem_append, List.mem_flatten, List.mem_replicate, List.mem_cons,
    List.not_mem_nil, or_false] at hop
  rcases hop with ⟨l, ⟨-, rfl⟩, hl⟩ | rfl | rfl
  · rcases List.mem_cons.mp hl with rfl | hl
    · show (default : Task).meta0.toNat < 2 ^ 32
      decide
    · rw [List.mem_singleton.mp hl]
      trivial
  · show lateFirst.meta0.toNat < 2 ^ 32
    decide
  · show lateSecond.meta0.toNat < 2 ^ 32
    decide

theorem lateOps_inverted {n : ℕ} (hn : n = 65535) : (exec 2 (lateOps n)).Inverted := by
  have hrun : exec 2 (lateOps n) =
      ((exec 2 (List.replicate n [EvqOp.push default, EvqOp.popDue 0]).flatten).step
        (.push lateFirst)).step (.push lateSecond) := by
    simp only [lateOps, exec, List.foldl_append, List.foldl_cons, List.foldl_nil]
  have hidle := exec_idle n
  rw [hrun]
  apply Idle.inverted
  rwa [hn] at hidle ⊢

/-- Every run with at most `n` accepted pushes delivers in order of tick, priority and
age, exactly for the `n` that keep the sequence number below the priority bits. -/
theorem delivery_order_iff (n : ℕ) :
    (∀ cap ops, (∀ op ∈ ops, op.InRange) → (exec cap ops).accepted ≤ n →
      (exec cap ops).DeliversInOrder) ↔ n ≤ 2 ^ 16 := by
  constructor
  · intro h
    by_contra hn
    obtain ⟨m, hm⟩ : ∃ m, m = 65535 := ⟨_, rfl⟩
    have hinv := lateOps_inverted hm
    have hacc := hinv.2.1
    exact hinv.not_in_order (h 2 (lateOps m) (lateOps_inRange m) (by omega))
  · intro hn cap ops hops hacc
    exact delivers_of_inv (exec_inv cap ops hops (hacc.trans hn)) (hacc.trans hn)

/-- The `65537`th push breaks the order. -/
theorem delivery_order_fails :
    ¬ ∀ cap ops, (∀ op ∈ ops, op.InRange) → (exec cap ops).DeliversInOrder := by
  intro h
  obtain ⟨m, hm⟩ : ∃ m, m = 65535 := ⟨_, rfl⟩
  exact (lateOps_inverted hm).not_in_order (h 2 (lateOps m) (lateOps_inRange m))

end EvqRun
end Ggmk

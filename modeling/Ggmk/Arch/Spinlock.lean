import Ggmk.Lib.Word

/-! The ticket lock of the bare-metal kernel (`src/include/ggmk/arch/spinlock.h`), one memory step
at a time. -/
namespace Ggmk
open Word

/-- Where a thread is: outside, in the loop of `gmk_spinlock_acquire`, between its end and
`gmk_spinlock_release`, or between the load and the store of the release. -/
inductive LockPc
  | idle
  | spinning (ticket : ℕ)
  | holding
  | releasing (current : ℕ)
  deriving DecidableEq

/-- The lock and its `n` threads. As history, `taken` has the threads in the order of their
`fetch_add`s and `granted` in the order in which the lock was granted. -/
structure Spinlock (n : ℕ) where
  next : ℕ
  serving : ℕ
  pc : Fin n → LockPc
  taken : List (Fin n)
  granted : List (Fin n)

inductive LockAct (n : ℕ)
  | fetchAdd (t : Fin n)
  | loadServing (t : Fin n)
  | loadCurrent (t : Fin n)
  | storeServing (t : Fin n)

namespace Spinlock
variable {n : ℕ} {s : Spinlock n} {t u : Fin n} {finished waiting : List (Fin n)}

def gmkSpinlockInit (n : ℕ) : Spinlock n := ⟨0, 0, fun _ => .idle, [], []⟩

def setPc (s : Spinlock n) (t : Fin n) (pc : LockPc) : Spinlock n :=
  { s with pc := Function.update s.pc t pc }

theorem setPc_self (s : Spinlock n) (t : Fin n) (pc : LockPc) : (s.setPc t pc).pc t = pc :=
  Function.update_self ..

theorem setPc_of_ne (s : Spinlock n) (pc : LockPc) (h : u ≠ t) : (s.setPc t pc).pc u = s.pc u :=
  Function.update_of_ne h ..

/-- A thread that is not where the step starts does nothing; only a holder releases. -/
def step (s : Spinlock n) : LockAct n → Spinlock n
  | .fetchAdd t =>
      match s.pc t with
      | .idle => { s.setPc t (.spinning s.next) with
          next := u32 (s.next + 1), taken := s.taken ++ [t] }
      | _ => s
  | .loadServing t =>
      match s.pc t with
      | .spinning ticket =>
          if s.serving ≠ ticket then s
          else { s.setPc t .holding with granted := s.granted ++ [t] }
      | _ => s
  | .loadCurrent t =>
      match s.pc t with
      | .holding => s.setPc t (.releasing s.serving)
      | _ => s
  | .storeServing t =>
      match s.pc t with
      | .releasing current => { s.setPc t .idle with serving := u32 (current + 1) }
      | _ => s

/-- Between the end of acquire and the end of release. -/
def Inside (s : Spinlock n) (t : Fin n) : Prop :=
  s.pc t = .holding ∨ ∃ current, s.pc t = .releasing current

/-- The threads of `finished` have released, those of `waiting` hold a ticket each, and only the
first of them may have been granted the lock. -/
structure Queue (s : Spinlock n) (finished waiting : List (Fin n)) : Prop where
  taken_eq : s.taken = finished ++ waiting
  next_eq : s.next = u32 (finished.length + waiting.length)
  serving_eq : s.serving = u32 finished.length
  nodup : waiting.Nodup
  outside : ∀ t, t ∉ waiting → s.pc t = .idle
  behind : ∀ i (hi : i < waiting.length), 0 < i →
    s.pc waiting[i] = .spinning (u32 (finished.length + i))
  front : ∀ t, waiting.head? = some t →
    s.pc t = .spinning (u32 finished.length) ∧ s.granted = finished ∨
      (s.pc t = .holding ∨ s.pc t = .releasing (u32 finished.length)) ∧
        s.granted = finished ++ [t]
  free : waiting = [] → s.granted = finished

theorem queue_init (n : ℕ) : Queue (gmkSpinlockInit n) [] [] where
  taken_eq := rfl
  next_eq := rfl
  serving_eq := rfl
  nodup := List.nodup_nil
  outside := fun _ _ => rfl
  behind := by
    intro i hi
    cases hi
  front := by
    intro t ht
    cases ht
  free := fun _ => rfl

namespace Queue

/-- A thread with a ticket is in the queue, at the front or behind. -/
theorem cases_of_ne_idle (h : Queue s finished waiting) (ht : s.pc t ≠ .idle) :
    waiting.head? = some t ∨ ∃ i, ∃ hi : i < waiting.length, 0 < i ∧ waiting[i] = t := by
  have hmem : t ∈ waiting := by
    by_contra hnot
    exact ht (h.outside t hnot)
  obtain ⟨i, hi, rfl⟩ := List.getElem_of_mem hmem
  rcases Nat.eq_zero_or_pos i with rfl | hpos
  · exact .inl (List.head?_eq_getElem? ▸ List.getElem?_eq_getElem hi)
  · exact .inr ⟨i, hi, hpos, rfl⟩

/-- Only the front of the queue is inside. -/
theorem head_of_inside (h : Queue s finished waiting) (ht : s.Inside t) :
    waiting.head? = some t := by
  have hne : s.pc t ≠ .idle := by
    rintro hidle
    rcases ht with ht | ⟨current, ht⟩ <;> rw [hidle] at ht <;> cases ht
  rcases h.cases_of_ne_idle hne with hhead | ⟨i, hi, hpos, rfl⟩
  · exact hhead
  · have hspin := h.behind i hi hpos
    rcases ht with ht | ⟨current, ht⟩ <;> rw [hspin] at ht <;> cases ht

/-- The front of the queue has been granted the lock once it is inside. -/
theorem granted_of_inside (h : Queue s finished waiting) (ht : s.Inside t) :
    (s.pc t = .holding ∨ s.pc t = .releasing (u32 finished.length)) ∧
      s.granted = finished ++ [t] := by
  rcases h.front t (h.head_of_inside ht) with ⟨hpc, -⟩ | hin
  · rcases ht with ht | ⟨current, ht⟩ <;> rw [ht] at hpc <;> cases hpc
  · exact hin

theorem length_lt (h : Queue s finished waiting) (hn : n < 2 ^ 32) : waiting.length < 2 ^ 32 := by
  have hcard := h.nodup.length_le_card
  rw [Fintype.card_fin] at hcard
  omega

theorem ne_idle_of_mem (h : Queue s finished waiting) (ht : t ∈ waiting) : s.pc t ≠ .idle := by
  obtain ⟨i, hi, rfl⟩ := List.getElem_of_mem ht
  rcases Nat.eq_zero_or_pos i with rfl | hpos
  · have hhead : waiting.head? = some waiting[0] :=
      List.head?_eq_getElem? ▸ List.getElem?_eq_getElem hi
    rcases h.front _ hhead with ⟨hpc, -⟩ | ⟨hpc | hpc, -⟩ <;> rw [hpc] <;> exact LockPc.noConfusion
  · rw [h.behind i hi hpos]
    exact LockPc.noConfusion

/-- A thread that takes a ticket goes to the end of the queue. -/
theorem fetchAdd (h : Queue s finished waiting) (ht : s.pc t = .idle) :
    Queue { s.setPc t (.spinning s.next) with
      next := u32 (s.next + 1), taken := s.taken ++ [t] } finished (waiting ++ [t]) := by
  have hnew : t ∉ waiting := fun hmem => h.ne_idle_of_mem hmem ht
  have hold : ∀ u, u ∈ waiting → (s.setPc t (.spinning s.next)).pc u = s.pc u := by
    intro u hu
    exact setPc_of_ne _ _ (ne_of_mem_of_not_mem hu hnew)
  have hself := setPc_self s t (.spinning s.next)
  refine ⟨?_, ?_, h.serving_eq, ?_, ?_, ?_, ?_, ?_⟩
  · simp [h.taken_eq]
  · simp [h.next_eq, Nat.add_assoc]
  · exact h.nodup.append (List.nodup_singleton t) (List.disjoint_singleton.mpr hnew)
  · intro u hu
    rw [List.mem_append, List.mem_singleton, not_or] at hu
    exact (setPc_of_ne _ _ hu.2).trans (h.outside u hu.1)
  · intro i hi hpos
    rw [List.length_append, List.length_singleton] at hi
    rcases Nat.lt_succ_iff_lt_or_eq.mp hi with hlt | rfl
    · rw [List.getElem_append_left hlt]
      exact (hold _ (List.getElem_mem hlt)).trans (h.behind i hlt hpos)
    · rw [List.getElem_concat_length]
      · exact hself.trans (congrArg LockPc.spinning h.next_eq)
      · rfl
  · intro u hu
    cases hw : waiting with
    | nil =>
      rw [hw] at hu
      obtain rfl : t = u := Option.some.inj hu
      refine .inl ⟨?_, h.free hw⟩
      rw [hself, h.next_eq, hw]
      rfl
    | cons w ws =>
      have hhead : waiting.head? = some u := by rw [hw] at hu ⊢; exact hu
      have hu' := hold u (List.mem_of_head? hhead)
      have hfront := h.front u hhead
      rw [← hu'] at hfront
      exact hfront
  · intro hnil
    exact absurd hnil (List.append_ne_nil_of_right_ne_nil _ (List.cons_ne_nil t []))

/-- A step of the thread at the front that leaves it there. -/
theorem setFront {pc : LockPc} {granted : List (Fin n)} (h : Queue s finished waiting)
    (ht : waiting.head? = some t)
    (hpc : (pc = .holding ∨ pc = .releasing (u32 finished.length)) ∧ granted = finished ++ [t]) :
    Queue { s.setPc t pc with granted := granted } finished waiting := by
  have hmem : t ∈ waiting := List.mem_of_head? ht
  refine ⟨h.taken_eq, h.next_eq, h.serving_eq, h.nodup, ?_, ?_, ?_, ?_⟩
  · intro u hu
    exact (setPc_of_ne _ _ (ne_of_mem_of_not_mem hmem hu).symm).trans (h.outside u hu)
  · intro i hi hpos
    have hne : waiting[i] ≠ t := by
      rintro rfl
      rw [List.head?_eq_getElem?, List.getElem?_eq_getElem (by omega), Option.some_inj,
        h.nodup.getElem_inj_iff] at ht
      omega
    exact (setPc_of_ne _ _ hne).trans (h.behind i hi hpos)
  · intro u hu
    obtain rfl : t = u := Option.some.inj (ht.symm.trans hu)
    have hself := setPc_self s t pc
    exact .inr ⟨hpc.1.imp hself.trans hself.trans, hpc.2⟩
  · intro hnil
    rw [hnil] at hmem
    cases hmem

/-- The lock is granted to a thread whose ticket is served: with fewer than `2 ^ 32` threads that
is the front of the queue. -/
theorem head_of_served (h : Queue s finished waiting) (hn : n < 2 ^ 32)
    (ht : s.pc t = .spinning s.serving) : waiting.head? = some t ∧ s.granted = finished := by
  rcases h.cases_of_ne_idle (by rw [ht]; exact LockPc.noConfusion) with hhead | ⟨i, hi, hpos, rfl⟩
  · refine ⟨hhead, ?_⟩
    rcases h.front t hhead with ⟨-, hg⟩ | ⟨hpc | hpc, -⟩
    · exact hg
    · rw [ht] at hpc; cases hpc
    · rw [ht] at hpc; cases hpc
  · rw [h.behind i hi hpos, h.serving_eq, LockPc.spinning.injEq] at ht
    have hlt := h.length_lt hn
    unfold u32 at ht
    omega

/-- The end of the release serves the next thread of the queue. -/
theorem storeServing {ws : List (Fin n)} (h : Queue s finished (t :: ws))
    (ht : s.pc t = .releasing (u32 finished.length)) :
    Queue { s.setPc t .idle with serving := u32 (u32 finished.length + 1) } (finished ++ [t])
      ws := by
  have hnot : t ∉ ws := (List.nodup_cons.mp h.nodup).1
  have hold : ∀ u, u ∈ ws → (s.setPc t .idle).pc u = s.pc u := by
    intro u hu
    exact setPc_of_ne _ _ (ne_of_mem_of_not_mem hu hnot)
  have hlen : (finished ++ [t]).length = finished.length + 1 := List.length_append
  have hgranted := (h.granted_of_inside (.inr ⟨_, ht⟩)).2
  refine ⟨?_, ?_, ?_, (List.nodup_cons.mp h.nodup).2, ?_, ?_, ?_, fun _ => hgranted⟩
  · simp [h.taken_eq, setPc]
  · rw [hlen, Nat.add_assoc, Nat.add_comm 1]
    exact h.next_eq
  · rw [hlen, u32_u32_add]
  · intro u hu
    by_cases he : u = t
    · rw [he]
      exact setPc_self ..
    · exact (setPc_of_ne _ _ he).trans
        (h.outside u (List.not_mem_cons_of_ne_of_not_mem he hu))
  · intro i hi hpos
    rw [hlen, Nat.add_assoc, Nat.add_comm 1]
    exact (hold _ (List.getElem_mem hi)).trans
      (h.behind (i + 1) (Nat.succ_lt_succ hi) (Nat.succ_pos i))
  · intro u hu
    refine .inl ⟨?_, hgranted⟩
    have hmem := List.mem_of_head? hu
    rw [List.head?_eq_getElem?, List.getElem?_eq_some_iff] at hu
    obtain ⟨hi, rfl⟩ := hu
    rw [hlen]
    exact (hold _ hmem).trans (h.behind 1 (Nat.succ_lt_succ hi) Nat.one_pos)

end Queue

/-- Every step keeps the queue. -/
theorem step_queue (h : Queue s finished waiting) (hn : n < 2 ^ 32) (act : LockAct n) :
    ∃ finished' waiting', Queue (s.step act) finished' waiting' := by
  cases act with
  | fetchAdd t =>
    simp only [step]
    split
    next ht => exact ⟨_, _, h.fetchAdd ht⟩
    next => exact ⟨_, _, h⟩
  | loadServing t =>
    simp only [step]
    split
    next ticket ht =>
      split
      next => exact ⟨_, _, h⟩
      next heq =>
        rw [← not_not.mp heq] at ht
        obtain ⟨hhead, hg⟩ := h.head_of_served hn ht
        exact ⟨_, _, h.setFront hhead ⟨.inl rfl, by rw [hg]⟩⟩
    next => exact ⟨_, _, h⟩
  | loadCurrent t =>
    simp only [step]
    split
    next ht =>
      have hhead := h.head_of_inside (.inl ht)
      have hg := (h.granted_of_inside (.inl ht)).2
      exact ⟨_, _, h.setFront hhead ⟨.inr (by rw [h.serving_eq]), hg⟩⟩
    next => exact ⟨_, _, h⟩
  | storeServing t =>
    simp only [step]
    split
    next current ht =>
      have hhead := h.head_of_inside (.inr ⟨current, ht⟩)
      obtain ⟨ws, rfl⟩ := List.head?_eq_some_iff.mp hhead
      have hpc := (h.granted_of_inside (.inr ⟨current, ht⟩)).1
      obtain rfl : current = u32 finished.length := by simpa [ht] using hpc
      exact ⟨_, _, h.storeServing ht⟩
    next => exact ⟨_, _, h⟩

theorem run_queue (hn : n < 2 ^ 32) (acts : List (LockAct n)) :
    ∃ finished waiting, Queue (acts.foldl step (gmkSpinlockInit n)) finished waiting := by
  induction acts using List.reverseRecOn with
  | nil => exact ⟨[], [], queue_init n⟩
  | append_singleton acts act ih =>
    obtain ⟨finished, waiting, h⟩ := ih
    rw [List.foldl_append]
    exact step_queue h hn act

/-- In every interleaving of fewer than `2 ^ 32` threads at most one of them is inside, and the
lock is granted in the order of the `fetch_add`s. -/
theorem mutual_exclusion {n : ℕ} (hn : n < 2 ^ 32) (acts : List (LockAct n)) :
    (∀ t u, (acts.foldl step (gmkSpinlockInit n)).Inside t →
        (acts.foldl step (gmkSpinlockInit n)).Inside u → t = u) ∧
      (acts.foldl step (gmkSpinlockInit n)).granted <+:
        (acts.foldl step (gmkSpinlockInit n)).taken := by
  obtain ⟨finished, waiting, h⟩ := run_queue hn acts
  refine ⟨fun t u ht hu => ?_, ?_⟩
  · exact Option.some.inj ((h.head_of_inside ht).symm.trans (h.head_of_inside hu))
  · rw [h.taken_eq]
    cases waiting with
    | nil =>
      rw [h.free rfl]
      exact List.prefix_append ..
    | cons t ws =>
      rcases h.front t rfl with ⟨-, hg⟩ | ⟨-, hg⟩
      · rw [hg]
        exact List.prefix_append ..
      · rw [hg]
        exact ⟨ws, by simp⟩

theorem mutual_exclusion_two :
    ([LockAct.fetchAdd 1, .fetchAdd 0, .loadServing 0, .loadServing 1].foldl step
      (gmkSpinlockInit 2)).granted <+: [1, 0] :=
  (mutual_exclusion (by norm_num)
    [LockAct.fetchAdd 1, .fetchAdd 0, .loadServing 0, .loadServing 1]).2

end Spinlock
end Ggmk

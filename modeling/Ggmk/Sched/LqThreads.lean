import Ggmk.Lib.Reach
import Ggmk.Ring.Spsc

/-! One local queue under any number of threads that push and the worker that pops, in
steps of one load, slot copy or store each, in any order. -/
namespace Ggmk
open Word Guarded

/-- What a pushing thread does next. -/
inductive PushPc where
  | idle
  -- `_gmk_enqueue` takes a sequence number
  | stamp (t : Task)
  -- `gmk_lq_push` compares the count with the watermark
  | countTail (t : Task)
  | countHead (t : Task) (tail : ℕ)
  -- `gmk_ring_spsc_push`, where `gmk_lq_push_yield` starts
  | loadTail (t : Task)
  | loadHead (t : Task) (tail : ℕ)
  | copySlot (t : Task) (tail : ℕ)
  | storeTail (t : Task) (tail : ℕ)
  -- the local queue has refused and the call goes on with another queue
  | elsewhere (t : Task)

/-- What the worker does next in `gmk_lq_pop`. -/
inductive PopPc where
  | loadHead
  | loadTail (head : ℕ)
  | copySlot (head : ℕ)
  | storeHead (head : ℕ) (t : Task)

/-- The shared memory, the threads, the tasks of the pushes that have returned 0 and the tasks
of the pops that have returned 0. -/
structure LqThreads where
  ring : RingSpsc Task
  yieldWatermark : ℕ
  nextSeq : UInt32
  producers : ℕ → PushPc
  consumer : PopPc
  accepted : Multiset Task
  popped : Multiset Task

inductive LqAct where
  | enqueue (p : ℕ) (t : Task)
  | yield (p : ℕ) (t : Task)
  | push (p : ℕ)
  | pop

namespace LqThreads

def setPc (s : LqThreads) (p : ℕ) (pc : PushPc) : LqThreads :=
  { s with producers := Function.update s.producers p pc }

/-- The next step of thread `p`. -/
def pushStep (s : LqThreads) (p : ℕ) : LqThreads :=
  match s.producers p with
  | .idle => s
  | .stamp t =>
      { s with nextSeq := s.nextSeq + 1 }.setPc p (.countTail { t with seq := s.nextSeq })
  | .countTail t => s.setPc p (.countHead t s.ring.tail)
  | .countHead t tail =>
      if s.yieldWatermark ≤ sub32 tail s.ring.head then s.setPc p (.elsewhere t)
      else s.setPc p (.loadTail t)
  | .loadTail t => s.setPc p (.loadHead t s.ring.tail)
  | .loadHead t tail =>
      if s.ring.cap ≤ sub32 tail s.ring.head then s.setPc p (.elsewhere t)
      else s.setPc p (.copySlot t tail)
  | .copySlot t tail =>
      { s with ring := { s.ring with
          buf := Function.update s.ring.buf (tail &&& s.ring.mask) t } }.setPc p (.storeTail t tail)
  | .storeTail t tail =>
      { s with
        ring := { s.ring with tail := u32 (tail + 1) }
        accepted := t ::ₘ s.accepted }.setPc p .idle
  | .elsewhere _ => s.setPc p .idle

/-- The next step of the worker. -/
def popStep (s : LqThreads) : LqThreads :=
  match s.consumer with
  | .loadHead => { s with consumer := .loadTail s.ring.head }
  | .loadTail head =>
      if head = s.ring.tail then { s with consumer := .loadHead }
      else { s with consumer := .copySlot head }
  | .copySlot head => { s with consumer := .storeHead head (s.ring.buf (head &&& s.ring.mask)) }
  | .storeHead head t =>
      { s with
        ring := { s.ring with head := u32 (head + 1) }
        popped := t ::ₘ s.popped
        consumer := .loadHead }

/-- A thread that is not in a call may start one, or any thread takes its next step. -/
def step (s : LqThreads) : LqAct → LqThreads
  | .enqueue p t =>
      match s.producers p with
      | .idle => s.setPc p (.stamp t)
      | _ => s
  | .yield p t =>
      match s.producers p with
      | .idle => s.setPc p (.loadTail t)
      | _ => s
  | .push p => s.pushStep p
  | .pop => s.popStep

/-- After `gmk_lq_init` with `2 ^ k` slots, before any call. -/
def start (k yieldWatermark : ℕ) : LqThreads where
  ring := gmkRingSpscInit (2 ^ k)
  yieldWatermark := yieldWatermark
  nextSeq := 0
  producers _ := .idle
  consumer := .loadHead
  accepted := 0
  popped := 0

/-- Every accepted task has been popped once or is in the queue, and nothing else has. -/
def Accounted (s : LqThreads) : Prop := s.accepted = s.popped + (s.ring.items : Multiset Task)

/-- A thread copies into the slot at the tail: since its load no other thread has moved the
tail, there still is room, and none has copied and not yet stored. -/
def Exclusive (s : LqThreads) : LqAct → Prop
  | .push p => ∀ t tail, s.producers p = .copySlot t tail →
      tail = s.ring.tail ∧ gmkRingSpscCount s.ring < s.ring.cap ∧
      ∀ p' t' tail', s.producers p' ≠ .storeTail t' tail'
  | _ => True

/-- The worker's registers fit the queue `q`. -/
def Fits (q : List Task) (r : RingSpsc Task) : PopPc → Prop
  | .loadHead => True
  | .loadTail head => head = r.head
  | .copySlot head => head = r.head ∧ q ≠ []
  | .storeHead head t => head = r.head ∧ q.head? = some t

/-- The ring holds `q`, the accepted tasks that have not been popped; a thread that has copied
its task alone waits to store the tail. -/
structure Inv (s : LqThreads) (q : List Task) : Prop where
  ring : s.ring.Holds q
  counted : s.accepted = s.popped + (q : Multiset Task)
  alone : ∀ p p' t t' a a', s.producers p = .storeTail t a → s.producers p' = .storeTail t' a' →
    p = p'
  written : ∀ p t a, s.producers p = .storeTail t a →
    a = s.ring.tail ∧ q.length < s.ring.cap ∧ s.ring.buf (a &&& s.ring.mask) = t
  worker : Fits q s.ring s.consumer

section Steps
variable {s : LqThreads} {q : List Task} {p : ℕ}

theorem start_inv {k : ℕ} (hk : k ≤ 31) (m : ℕ) : Inv (start k m) [] :=
  ⟨RingSpsc.init_holds hk, rfl, by simp [start], by simp [start], trivial⟩

/-- A thread moves to a point where it has not copied. -/
theorem Inv.setPc (h : Inv s q) {pc : PushPc} (hpc : ∀ t a, pc ≠ .storeTail t a) :
    Inv (s.setPc p pc) q := by
  have hold {p' : ℕ} {t : Task} {a : ℕ}
      (hp : (s.setPc p pc).producers p' = .storeTail t a) : s.producers p' = .storeTail t a := by
    by_cases he : p' = p
    · subst he
      simp only [LqThreads.setPc, Function.update_self] at hp
      exact absurd hp (hpc t a)
    · simpa only [LqThreads.setPc, Function.update_of_ne he] using hp
  refine ⟨h.ring, h.counted, ?_, ?_, h.worker⟩
  · intro p₁ p₂ t t' a a' h₁ h₂
    exact h.alone p₁ p₂ t t' a a' (hold h₁) (hold h₂)
  · intro p₁ t a h₁
    exact h.written p₁ t a (hold h₁)

/-- The copy of thread `p` into the free slot at the tail. -/
theorem Inv.copy (h : Inv s q) {t : Task} (hroom : q.length < s.ring.cap)
    (halone : ∀ p' t' a, s.producers p' ≠ .storeTail t' a) :
    Inv ({ s with ring := { s.ring with
      buf := Function.update s.ring.buf (s.ring.tail &&& s.ring.mask) t } }.setPc p
        (.storeTail t s.ring.tail)) q := by
  have hself {p' : ℕ} {t' : Task} {a : ℕ}
      (hp : Function.update s.producers p (.storeTail t s.ring.tail) p' = .storeTail t' a) :
      p' = p ∧ t = t' ∧ s.ring.tail = a := by
    by_cases he : p' = p
    · subst he
      simpa using hp
    · rw [Function.update_of_ne he] at hp
      exact absurd hp (halone p' t' a)
  refine ⟨h.ring.write_tail t hroom, h.counted, ?_, ?_, ?_⟩
  · intro p₁ p₂ t₁ t₂ a₁ a₂ h₁ h₂
    rw [(hself h₁).1, (hself h₂).1]
  · intro p₁ t₁ a₁ h₁
    obtain ⟨-, rfl, rfl⟩ := hself h₁
    exact ⟨rfl, hroom, Function.update_self _ _ _⟩
  · have hw := h.worker
    simp only [LqThreads.setPc]
    cases hc : s.consumer <;> simp only [hc, Fits] at hw ⊢ <;> exact hw

/-- The store that publishes the copied task. -/
theorem Inv.store (h : Inv s q) {t : Task} {a : ℕ} (hp : s.producers p = .storeTail t a) :
    Inv ({ s with
      ring := { s.ring with tail := u32 (a + 1) }
      accepted := t ::ₘ s.accepted }.setPc p .idle) (q ++ [t]) := by
  obtain ⟨rfl, hroom, rfl⟩ := h.written p t a hp
  have hnone {p' : ℕ} {t' : Task} {a' : ℕ}
      (hp' : Function.update s.producers p .idle p' = .storeTail t' a') : False := by
    by_cases he : p' = p
    · subst he
      simp only [Function.update_self, reduceCtorEq] at hp'
    · rw [Function.update_of_ne he] at hp'
      exact he (h.alone _ _ _ _ _ _ hp' hp)
  refine ⟨h.ring.store_tail hroom, ?_, ?_, ?_, ?_⟩
  · simp only [LqThreads.setPc, h.counted, ← Multiset.add_cons, Multiset.cons_coe]
    congr 1
    exact Multiset.coe_eq_coe.mpr (List.perm_append_singleton _ _).symm
  · intro p₁ p₂ t₁ t₂ a₁ a₂ h₁
    exact (hnone h₁).elim
  · intro p₁ t₁ a₁ h₁
    exact (hnone h₁).elim
  · have hw := h.worker
    simp only [LqThreads.setPc]
    cases hc : s.consumer with
    | loadHead => trivial
    | loadTail head => simpa only [hc, Fits] using hw
    | copySlot head =>
      simp only [hc, Fits] at hw ⊢
      exact ⟨hw.1, by simp⟩
    | storeHead head x =>
      simp only [hc, Fits] at hw ⊢
      exact ⟨hw.1, by simp [hw.2]⟩

theorem Inv.pushStep (h : Inv s q) (hg : Exclusive s (.push p)) :
    ∃ q', Inv (s.pushStep p) q' := by
  unfold LqThreads.pushStep
  cases hp : s.producers p with
  | idle => exact ⟨q, h⟩
  | stamp t =>
    have h' : Inv { s with nextSeq := s.nextSeq + 1 } q :=
      ⟨h.ring, h.counted, h.alone, h.written, h.worker⟩
    exact ⟨q, h'.setPc (by simp)⟩
  | countTail t => exact ⟨q, h.setPc (by simp)⟩
  | countHead t tail =>
    simp only
    split
    · exact ⟨q, h.setPc (by simp)⟩
    · exact ⟨q, h.setPc (by simp)⟩
  | loadTail t => exact ⟨q, h.setPc (by simp)⟩
  | loadHead t tail =>
    simp only
    split
    · exact ⟨q, h.setPc (by simp)⟩
    · exact ⟨q, h.setPc (by simp)⟩
  | copySlot t tail =>
    obtain ⟨rfl, hroom, halone⟩ := hg t tail hp
    rw [h.ring.count_eq] at hroom
    exact ⟨q, h.copy hroom halone⟩
  | storeTail t tail => exact ⟨q ++ [t], h.store hp⟩
  | elsewhere t => exact ⟨q, h.setPc (by simp)⟩

theorem Inv.popStep (h : Inv s q) : ∃ q', Inv s.popStep q' := by
  have hw := h.worker
  unfold LqThreads.popStep
  cases hc : s.consumer with
  | loadHead => exact ⟨q, h.ring, h.counted, h.alone, h.written, rfl⟩
  | loadTail head =>
    simp only [hc, Fits] at hw
    subst hw
    simp only
    split
    next => exact ⟨q, h.ring, h.counted, h.alone, h.written, trivial⟩
    next hne =>
      refine ⟨q, h.ring, h.counted, h.alone, h.written, rfl, ?_⟩
      rintro rfl
      exact hne h.ring.eq_tail
  | copySlot head =>
    simp only [hc, Fits] at hw
    obtain ⟨rfl, hne⟩ := hw
    obtain ⟨x, l, rfl⟩ := List.exists_cons_of_ne_nil hne
    exact ⟨_, h.ring, h.counted, h.alone, h.written, rfl, by simp [h.ring.read_head]⟩
  | storeHead head t =>
    simp only [hc, Fits] at hw
    obtain ⟨rfl, hhead⟩ := hw
    obtain ⟨l, rfl⟩ := List.head?_eq_some_iff.mp hhead
    refine ⟨l, h.ring.store_head, ?_, h.alone, ?_, trivial⟩
    · rw [h.counted, ← Multiset.cons_coe, Multiset.add_cons, Multiset.cons_add]
    · intro p t' a hp
      obtain ⟨ha, hroom, hbuf⟩ := h.written p t' a hp
      exact ⟨ha, (Nat.lt_succ_self _).trans hroom, hbuf⟩

/-- One step of any thread keeps the account. -/
theorem Inv.step (h : Inv s q) {act : LqAct} (hg : Exclusive s act) : ∃ q', Inv (s.step act) q' := by
  cases act with
  | enqueue p t =>
    simp only [LqThreads.step]
    split
    · exact ⟨q, h.setPc (by simp)⟩
    · exact ⟨q, h⟩
  | yield p t =>
    simp only [LqThreads.step]
    split
    · exact ⟨q, h.setPc (by simp)⟩
    · exact ⟨q, h⟩
  | push p => exact h.pushStep hg
  | pop => exact h.popStep

end Steps

/-- In every interleaving in which each thread copies alone into the slot it found at the tail,
no task is lost, popped twice or made up. -/
theorem accounted {k m : ℕ} (hk : k ≤ 31) {s : LqThreads}
    (hrun : Reach (fun s act s' => s' = s.step act) Exclusive (start k m) s) : s.Accounted := by
  have hinv : ∃ q, Inv s q := by
    refine Reach.inv (I := fun s => ∃ q, Inv s q) ⟨[], start_inv hk m⟩ ?_ hrun
    rintro s act _ ⟨q, hq⟩ hg rfl
    exact hq.step hg
  obtain ⟨q, hq⟩ := hinv
  rw [Accounted, hq.ring.items_eq]
  exact hq.counted

/-- The calls and steps of thread `p` that push `t`. -/
def pushing (p : ℕ) (t : Task) : List LqAct := .enqueue p t :: List.replicate 7 (.push p)

/-- Steps that no other thread interrupts do what `gmk_lq_push` does as a whole. -/
theorem pushing_ring (s : LqThreads) (p : ℕ) (hp : s.producers p = .idle) (t : Task) :
    ((pushing p t).foldl step s).ring =
      if s.yieldWatermark ≤ gmkRingSpscCount s.ring then s.ring
      else (gmkRingSpscPush s.ring { t with seq := s.nextSeq }).getD s.ring := by
  simp only [pushing, List.replicate, List.foldl, step, hp, pushStep, setPc, Function.update_self]
  by_cases hw : s.yieldWatermark ≤ sub32 s.ring.tail s.ring.head
  · simp [hw, gmkRingSpscCount]
  · by_cases hc : s.ring.cap ≤ sub32 s.ring.tail s.ring.head
    · simp [hw, hc, gmkRingSpscCount, gmkRingSpscPush]
    · simp [hw, hc, gmkRingSpscCount, gmkRingSpscPush]

theorem accounted_solo : ∃ s, Reach (fun s act s' => s' = s.step act) Exclusive (start 1 2) s ∧
    Multiset.card s.accepted = 1 ∧ s.Accounted := by
  have hobeys : Obeys step Exclusive (start 1 2) (pushing 0 { type := 7 }) := by
    simp [Obeys, pushing, List.replicate, Exclusive, step, pushStep, start, setPc, gmkRingSpscInit,
      sub32, u32, gmkRingSpscCount, Function.update_apply]
    intro p'
    split <;> simp
  have hrun := Reach.foldl hobeys .start
  exact ⟨_, hrun, rfl, accounted (by norm_num) hrun⟩

/-- Thread 0 loads the tail and the head, then thread 1 makes its whole push, then thread 0
copies and stores. -/
def racing : List LqAct :=
  (pushing 0 { type := 1 }).take 6 ++ pushing 1 { type := 2 } ++ List.replicate 2 (.push 0)

/-- Two threads that have loaded the same tail: both calls return 0 and one task is left. -/
theorem push_lost : ∃ s, Reach (fun s act s' => s' = s.step act) (fun _ _ => True) (start 1 2) s ∧
    ¬ s.Accounted := by
  have hobeys : Obeys step (fun _ _ => True) (start 1 2) racing := by
    simp [Obeys, racing, pushing, List.replicate]
  refine ⟨_, Reach.foldl hobeys .start, ?_⟩
  intro h
  have hcard := congrArg Multiset.card h
  rw [Multiset.card_add, Multiset.coe_card] at hcard
  exact absurd hcard (by decide)

end LqThreads
end Ggmk

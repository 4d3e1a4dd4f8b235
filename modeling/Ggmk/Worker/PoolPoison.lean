import Ggmk.Lib.Reach
import Ggmk.Worker.PoolMetrics

/-! How far a failing handler gets in a pool of workers. Between the count of a failure and the flag
that poisons the type other workers may start its handler, so that the limit of sixteen failures is
only met up to the number of workers. -/
namespace Ggmk
open Guarded

namespace LoopPc
variable (T : ℕ)

/-- In a call of the handler of type `T`. -/
def calling : LoopPc → ℕ
  | .handler t => if t.type.toNat = T then 1 else 0
  | _ => 0

/-- About to count a failure of type `T`. -/
def recording : LoopPc → ℕ
  | .returned t rc => if (rc ≠ gmkOk ∧ rc ≠ gmkRetry) ∧ t.type.toNat = T then 1 else 0
  | .failAdd t => if t.type.toNat = T then 1 else 0
  | _ => 0

/-- About to poison type `T`. -/
def poisoning : LoopPc → ℕ
  | .failTest t count => if gmkPoisonThreshold ≤ count.toNat ∧ t.type.toNat = T then 1 else 0
  | _ => 0

theorem parts_le (c : LoopPc) : c.calling T + c.recording T + c.poisoning T ≤ 1 := by
  cases c with
  | handler t =>
    simp only [calling, recording, poisoning]
    split <;> omega
  | returned t rc =>
    simp only [calling, recording, poisoning]
    split <;> omega
  | failAdd t =>
    simp only [calling, recording, poisoning]
    split <;> omega
  | failTest t count =>
    simp only [calling, recording, poisoning]
    split <;> omega
  | _ => exact Nat.zero_le 1

end LoopPc

namespace Pool
variable {p q : Pool} {n w T : ℕ} {c : LoopPc} {t : Task}

/-- The handlers leave the types of their tasks alone. -/
def KeepsType (p : Pool) : PoolAct → Prop
  | .worker w (.ret _ t') => ∀ t, p.pc w = .handler t → t'.type = t.type
  | _ => True

/-- What a step that takes worker `w` to `c` does to the failures of type `T`. -/
structure Strikes (T : ℕ) (p : Pool) (w : ℕ) (c : LoopPc) (q : Pool) : Prop where
  sticky : q.kernel.modules.poisoned T = false → p.kernel.modules.poisoned T = false
  calls : q.kernel.modules.poisoned T = true →
    q.failedRuns T + c.calling T ≤ p.failedRuns T + (p.pc w).calling T
  fails : q.kernel.modules.poisoned T = false →
    q.failedRuns T + (p.pc w).recording T + (p.kernel.modules.failCounts T).toNat ≤
      p.failedRuns T + c.recording T + (q.kernel.modules.failCounts T).toNat
  count : q.kernel.modules.poisoned T = false →
    (q.kernel.modules.failCounts T).toNat < gmkPoisonThreshold ∨
      (q.kernel.modules.failCounts T).toNat + (p.pc w).poisoning T ≤
        (p.kernel.modules.failCounts T).toNat + c.poisoning T

/-- A step outside of the handlers and of the count of failures. -/
theorem strikes_other (hcall : c.calling T ≤ (p.pc w).calling T)
    (hrec : (p.pc w).recording T ≤ c.recording T) (hpois : (p.pc w).poisoning T = 0)
    (hm : q.kernel.modules = p.kernel.modules) (hf : q.failedRuns = p.failedRuns) :
    Strikes T p w c q := by
  constructor
  · rw [hm]
    exact id
  · intro _
    rw [hf]
    omega
  · intro _
    rw [hm, hf]
    omega
  · intro _
    rw [hm, hpois]
    omega

/-- A handler that fails is about to be recorded. -/
theorem ret_failedRuns (rc : ℤ) (t' : Task) : (p.handlerStep w t (.ret rc t')).failedRuns T =
    p.failedRuns T + (LoopPc.returned t rc).recording T := by
  show (if rc = gmkOk ∨ rc = gmkRetry then p.failedRuns
    else Function.update p.failedRuns t.type.toNat (p.failedRuns t.type.toNat + 1)) T =
    p.failedRuns T + if (rc ≠ gmkOk ∧ rc ≠ gmkRetry) ∧ t.type.toNat = T then 1 else 0
  by_cases hrc : rc = gmkOk ∨ rc = gmkRetry
  · rw [if_pos hrc, if_neg fun h => hrc.elim h.1.1 h.1.2, Nat.add_zero]
  · rw [if_neg hrc]
    by_cases hT : t.type.toNat = T
    · rw [if_pos ⟨not_or.mp hrc, hT⟩, ← hT, Function.update_self]
    · rw [if_neg fun h => hT h.2, Function.update_of_ne (Ne.symm hT), Nat.add_zero]

theorem handlerStep_strikes (hpc : p.pc w = .handler t) (hw : w < p.kernel.sched.nWorkers)
    {act : HandlerAct} (hkeeps : p.KeepsType (.worker w act)) :
    ∃ c, (p.handlerStep w t act).pc = Function.update p.pc w c ∧
      Strikes T p w c (p.handlerStep w t act) := by
  have hself : p.pc = Function.update p.pc w (.handler t) := by
    rw [← hpc, Function.update_eq_self]
  have hstay {q : Pool} {t' : Task} (ht : t'.type = t.type)
      (hm : q.kernel.modules = p.kernel.modules) (hf : q.failedRuns = p.failedRuns) :
      Strikes T p w (.handler t') q := by
    apply strikes_other _ _ _ hm hf
    · rw [hpc, LoopPc.calling, ht]
      exact le_rfl
    · rw [hpc]
      exact le_rfl
    · rw [hpc]
      rfl
  cases act with
  | enqueue t' workerId => exact ⟨.handler t, hself, hstay rfl rfl rfl⟩
  | yield call =>
    have hty : (gmkYield p.kernel.sched (call.prepare t) w gmkDefaultMaxYields).2.1.type =
        t.type := by
      rw [gmkYield_task p.kernel.sched (call.prepare t) hw]
      cases call <;> rfl
    exact ⟨.handler _, rfl, hstay hty rfl rfl⟩
  | schedule t' =>
    show ∃ c, (p.schedule t').pc = _ ∧ Strikes T p w c (p.schedule t')
    rw [Pool.schedule]
    split
    · exact ⟨.handler t, hself, hstay rfl rfl rfl⟩
    · exact ⟨.handler t, hself, hstay rfl rfl rfl⟩
  | other heap chan trace => exact ⟨.handler t, hself, hstay rfl rfl rfl⟩
  | ret rc t' =>
    have ht : t'.type = t.type := hkeeps t hpc
    have hfailed := ret_failedRuns (p := p) (w := w) (t := t) (T := T) rc t'
    have hrec : (LoopPc.returned t' rc).recording T = (LoopPc.returned t rc).recording T := by
      simp only [LoopPc.recording, ht]
    refine ⟨.returned t' rc, rfl, id, fun _ => ?_, fun _ => ?_, fun _ => ?_⟩
    · have hle : (LoopPc.returned t rc).recording T ≤ (LoopPc.handler t).calling T := by
        simp only [LoopPc.recording, LoopPc.calling]
        split <;> split <;> omega
      rw [hfailed, hpc]
      exact Nat.add_le_add_left hle _
    · rw [hfailed, hpc, hrec]
      exact le_rfl
    · rw [hpc]
      exact .inr le_rfl

/-- A call of the handler only starts when its type is not poisoned. -/
theorem lookupStep_strikes (hpc : p.pc w = .lookup t) :
    ∃ c, (p.lookupStep w t).pc = Function.update p.pc w c ∧
      Strikes T p w c (p.lookupStep w t) := by
  have hrefuse {rc : ℤ} {q : Pool} (hm : q.kernel.modules = p.kernel.modules)
      (hf : q.failedRuns = p.failedRuns) : Strikes T p w (.returned t rc) q := by
    apply strikes_other _ _ _ hm hf
    · exact Nat.zero_le _
    · rw [hpc]
      exact Nat.zero_le _
    · rw [hpc]
      rfl
  unfold Pool.lookupStep
  simp only
  split
  · exact ⟨_, rfl, hrefuse rfl rfl⟩
  · split
    · exact ⟨_, rfl, hrefuse rfl rfl⟩
    next hclean =>
      refine ⟨_, rfl, id, fun hpois => ?_, fun _ => ?_, fun _ => ?_⟩
      · rw [hpc]
        have hT : t.type.toNat ≠ T := by
          rintro rfl
          exact hclean hpois
        show p.failedRuns T + (if t.type.toNat = T then 1 else 0) ≤ p.failedRuns T + 0
        rw [if_neg hT]
      · rw [hpc]
        exact le_rfl
      · rw [hpc]
        exact .inr le_rfl

/-- The failure is counted, and the sixteenth leads on to the test that poisons. -/
theorem failAdd_strikes (hpc : p.pc w = .failAdd t) (hT : T < gmkMaxHandlers)
    (hfit : p.kernel.modules.poisoned T = false →
      (p.kernel.modules.failCounts T).toNat + 1 < 2 ^ 32) (act : HandlerAct) :
    ∃ c, (p.workerStep w act).pc = Function.update p.pc w c ∧
      Strikes T p w c (p.workerStep w act) := by
  unfold Pool.workerStep
  simp only [hpc]
  split
  next hlim =>
    have hne : t.type.toNat ≠ T := by omega
    refine ⟨_, rfl, strikes_other (Nat.zero_le _) ?_ ?_ rfl rfl⟩
    · rw [hpc]
      exact (if_neg hne).le
    · rw [hpc]
      rfl
  next =>
    refine ⟨_, rfl, id, fun _ => ?_, fun hclean => ?_, fun hclean => ?_⟩
    · rw [hpc]
      exact le_rfl
    · rw [hpc]
      show p.failedRuns T + (if t.type.toNat = T then 1 else 0) + _ ≤
        p.failedRuns T + 0 + (Function.update p.kernel.modules.failCounts t.type.toNat
          (p.kernel.modules.failCounts t.type.toNat + 1) T).toNat
      by_cases hty : t.type.toNat = T
      · subst hty
        have hadd := UInt32.toNat_add (p.kernel.modules.failCounts t.type.toNat) 1
        have := hfit hclean
        rw [Function.update_self, if_pos rfl, hadd, UInt32.toNat_one, Nat.mod_eq_of_lt this]
        omega
      · rw [Function.update_of_ne (Ne.symm hty), if_neg hty]
    · rw [hpc]
      show (Function.update p.kernel.modules.failCounts t.type.toNat
          (p.kernel.modules.failCounts t.type.toNat + 1) T).toNat < gmkPoisonThreshold ∨
        (Function.update p.kernel.modules.failCounts t.type.toNat
          (p.kernel.modules.failCounts t.type.toNat + 1) T).toNat + 0 ≤ _ +
          if gmkPoisonThreshold ≤ (p.kernel.modules.failCounts t.type.toNat + 1).toNat ∧
            t.type.toNat = T then 1 else 0
      by_cases hty : t.type.toNat = T
      · subst hty
        have hadd := UInt32.toNat_add (p.kernel.modules.failCounts t.type.toNat) 1
        have := hfit hclean
        rw [UInt32.toNat_one, Nat.mod_eq_of_lt this] at hadd
        rw [Function.update_self, hadd]
        split <;> omega
      · rw [Function.update_of_ne (Ne.symm hty)]
        omega

/-- The test poisons the type, or leaves it as it is. -/
theorem failTest_strikes {count : UInt32} (hpc : p.pc w = .failTest t count) :
    ∃ c, (p.failTestStep w t count).pc = Function.update p.pc w c ∧
      Strikes T p w c (p.failTestStep w t count) := by
  unfold Pool.failTestStep
  split
  next hpois =>
    have hclear (hclean : Function.update p.kernel.modules.poisoned t.type.toNat true T = false) :
        t.type.toNat ≠ T ∧ p.kernel.modules.poisoned T = false := by
      by_cases hT : t.type.toNat = T
      · rw [hT, Function.update_self] at hclean
        cases hclean
      · rw [Function.update_of_ne (Ne.symm hT)] at hclean
        exact ⟨hT, hclean⟩
    refine ⟨_, rfl, fun hclean => (hclear hclean).2, fun _ => ?_, fun _ => ?_, fun hclean => ?_⟩
    · rw [hpc]
      exact le_rfl
    · rw [hpc]
      exact le_rfl
    · rw [hpc, LoopPc.poisoning, if_neg fun h => (hclear hclean).1 h.2]
      exact .inr le_rfl
  next hkeep =>
    refine ⟨_, rfl, id, fun _ => ?_, fun _ => ?_, fun hclean => ?_⟩
    · rw [hpc]
      exact le_rfl
    · rw [hpc]
      exact le_rfl
    · have hzero : (LoopPc.failTest t count).poisoning T = 0 := by
        refine if_neg fun h => hkeep ⟨h.1, ?_⟩
        rw [h.2]
        exact hclean
      rw [hpc, hzero]
      exact .inr le_rfl

theorem returnedStep_strikes {rc : ℤ} (hpc : p.pc w = .returned t rc) :
    ∃ c, (p.returnedStep w t rc).pc = Function.update p.pc w c ∧
      Strikes T p w c (p.returnedStep w t rc) := by
  have hend {c : LoopPc} {q : Pool} (hc : c.calling T = 0)
      (hrec : (LoopPc.returned t rc).recording T ≤ c.recording T)
      (hm : q.kernel.modules = p.kernel.modules) (hf : q.failedRuns = p.failedRuns) :
      Strikes T p w c q := by
    apply strikes_other _ _ _ hm hf
    · rw [hc]
      exact Nat.zero_le _
    · rw [hpc]
      exact hrec
    · rw [hpc]
      rfl
  unfold Pool.returnedStep
  split_ifs with hok hretry
  · have hnot : (LoopPc.returned t rc).recording T = 0 := if_neg fun h => h.1.1 hok
    rw [dispatchOutcome_ok]
    exact ⟨.top, rfl, hend rfl hnot.le rfl rfl⟩
  · have hnot : (LoopPc.returned t rc).recording T = 0 := if_neg fun h => h.1.2 hretry
    exact ⟨.retried t, rfl, hend rfl hnot.le rfl rfl⟩
  · refine ⟨.failAdd t, rfl, hend rfl ?_ rfl rfl⟩
    simp only [LoopPc.recording, and_iff_right (And.intro hok hretry)]
    exact le_rfl

theorem workerStep_strikes (habs : p.pc w ≠ .absent) (hexit : ¬ p.Gone w)
    (hw : w < p.kernel.sched.nWorkers) (hT : T < gmkMaxHandlers)
    (hfit : p.kernel.modules.poisoned T = false →
      (p.kernel.modules.failCounts T).toNat + 1 < 2 ^ 32)
    {act : HandlerAct} (hkeeps : p.KeepsType (.worker w act)) :
    ∃ c, (p.workerStep w act).pc = Function.update p.pc w c ∧
      Strikes T p w c (p.workerStep w act) := by
  have hother {c c' : LoopPc} {q : Pool} (hpc : p.pc w = c)
      (hzero : c.recording T = 0 ∧ c.poisoning T = 0 ∧ c'.calling T = 0)
      (hq : q.pc = Function.update p.pc w c') (hm : q.kernel.modules = p.kernel.modules)
      (hf : q.failedRuns = p.failedRuns) :
      ∃ c, q.pc = Function.update p.pc w c ∧ Strikes T p w c q := by
    refine ⟨c', hq, strikes_other ?_ ?_ ?_ hm hf⟩
    · rw [hzero.2.2]
      exact Nat.zero_le _
    · rw [hpc, hzero.1]
      exact Nat.zero_le _
    · rw [hpc, hzero.2.1]
  have hadd {t : Task} (hpc : p.pc w = .failAdd t) := failAdd_strikes hpc hT hfit act
  have hevq {drained : ℕ} {tick : UInt32} (hpc : p.pc w = .evqPop drained tick) :
      ∃ c, (p.evqEnd w drained).pc = Function.update p.pc w c ∧
        Strikes T p w c (p.evqEnd w drained) := by
    refine hother hpc ⟨rfl, rfl, ?_⟩ rfl rfl rfl
    split <;> rfl
  unfold Pool.workerStep at hadd ⊢
  cases hpc : p.pc w with
  | absent => exact absurd hpc habs
  | exited => exact absurd hpc hexit
  | top =>
    refine hother hpc ⟨rfl, rfl, ?_⟩ rfl rfl rfl
    split <;> rfl
  | popLq =>
    simp only
    split
    · exact hother hpc ⟨rfl, rfl, rfl⟩ rfl rfl rfl
    · exact hother hpc ⟨rfl, rfl, rfl⟩ rfl rfl rfl
  | popOverflow =>
    simp only
    split
    · exact hother hpc ⟨rfl, rfl, rfl⟩ rfl rfl rfl
    · exact hother hpc ⟨rfl, rfl, rfl⟩ rfl rfl rfl
  | popRq =>
    simp only
    split
    · exact hother hpc ⟨rfl, rfl, rfl⟩ rfl rfl rfl
    · exact hother hpc ⟨rfl, rfl, rfl⟩ rfl rfl rfl
  | dequeued t => exact hother hpc ⟨rfl, rfl, rfl⟩ rfl rfl rfl
  | dispatch t => exact hother hpc ⟨rfl, rfl, rfl⟩ rfl rfl rfl
  | lookup t => exact lookupStep_strikes hpc
  | handler t => exact handlerStep_strikes hpc hw hkeeps
  | returned t rc => exact returnedStep_strikes hpc
  | retried t => exact hother hpc ⟨rfl, rfl, rfl⟩ rfl rfl rfl
  | failAdd t =>
    have h := hadd hpc
    rw [hpc] at h
    exact h
  | failTest t count => exact failTest_strikes hpc
  | failRelease t =>
    refine hother hpc ⟨rfl, rfl, rfl⟩ rfl ?_ rfl
    simp only
    split <;> rfl
  | failed t => exact hother hpc ⟨rfl, rfl, rfl⟩ rfl rfl rfl
  | loadTick => exact hother hpc ⟨rfl, rfl, rfl⟩ rfl rfl rfl
  | evqPop drained tick =>
    simp only [Pool.evqPopStep]
    split
    · split
      · exact hother hpc ⟨rfl, rfl, rfl⟩ rfl rfl rfl
      · exact hevq hpc
    · exact hevq hpc
  | evqEnqueue drained tick t => exact hother hpc ⟨rfl, rfl, rfl⟩ rfl rfl rfl
  | park => exact hother hpc ⟨rfl, rfl, rfl⟩ rfl rfl rfl
  | parkCount => exact hother hpc ⟨rfl, rfl, rfl⟩ rfl rfl rfl
  | parkLoad =>
    refine hother hpc ⟨rfl, rfl, ?_⟩ rfl rfl rfl
    split <;> rfl
  | parkWait => exact hother hpc ⟨rfl, rfl, rfl⟩ rfl rfl rfl
  | unpark => exact hother hpc ⟨rfl, rfl, rfl⟩ rfl rfl rfl
  | wakeCount => exact hother hpc ⟨rfl, rfl, rfl⟩ rfl rfl rfl

/-! ## The failures of a run -/

theorem there_parts_le (T n : ℕ) (p : Pool) :
    p.there (LoopPc.calling T) n + p.there (LoopPc.recording T) n +
      p.there (LoopPc.poisoning T) n ≤ n := by
  unfold there
  rw [← Finset.sum_add_distrib, ← Finset.sum_add_distrib]
  calc ∑ w ∈ Finset.range n, ((p.pc w).calling T + (p.pc w).recording T + (p.pc w).poisoning T)
      ≤ (Finset.range n).card • 1 :=
        Finset.sum_le_card_nsmul _ _ _ fun w _ => (p.pc w).parts_le T
    _ = n := by rw [Finset.card_range, smul_eq_mul, mul_one]

/-- The failures of type `T` in a pool of `n` workers, after `c₀` that were counted before. -/
structure Contained (T c₀ n : ℕ) (p : Pool) : Prop where
  life : Lifecycle n p
  bound : p.failedRuns T + c₀ + p.there (LoopPc.calling T) n ≤ 15 + n
  fails : p.kernel.modules.poisoned T = false → p.failedRuns T + c₀ ≤
    (p.kernel.modules.failCounts T).toNat + p.there (LoopPc.recording T) n
  count : p.kernel.modules.poisoned T = false →
    (p.kernel.modules.failCounts T).toNat ≤ 15 + p.there (LoopPc.poisoning T) n

variable {c₀ : ℕ}

theorem Contained.strike (h : Contained T c₀ n p) (hlife : Lifecycle n q) (hw : w < n)
    (hpc : q.pc = Function.update p.pc w c) (hs : Strikes T p w c q) : Contained T c₀ n q := by
  have hcall := there_update (LoopPc.calling T) hw hpc
  have hrec := there_update (LoopPc.recording T) hw hpc
  have hpois := there_update (LoopPc.poisoning T) hw hpc
  have hfails (hclean : q.kernel.modules.poisoned T = false) : q.failedRuns T + c₀ ≤
      (q.kernel.modules.failCounts T).toNat + q.there (LoopPc.recording T) n := by
    have := h.fails (hs.sticky hclean)
    have := hs.fails hclean
    omega
  have hcount (hclean : q.kernel.modules.poisoned T = false) :
      (q.kernel.modules.failCounts T).toNat ≤ 15 + q.there (LoopPc.poisoning T) n := by
    have := h.count (hs.sticky hclean)
    rcases hs.count hclean with hlt | hle
    · rw [gmkPoisonThreshold] at hlt
      omega
    · omega
  refine ⟨hlife, ?_, hfails, hcount⟩
  cases hclean : q.kernel.modules.poisoned T with
  | true =>
    have := h.bound
    have := hs.calls hclean
    omega
  | false =>
    -- each worker is in a call, before the count or before the flag, in one of them at most
    have := hfails hclean
    have := hcount hclean
    have := there_parts_le T n q
    omega

theorem Contained.fit (h : Contained T c₀ n p) (hn : n + 17 ≤ 2 ^ 32)
    (hclean : p.kernel.modules.poisoned T = false) :
    (p.kernel.modules.failCounts T).toNat + 1 < 2 ^ 32 := by
  have := h.count hclean
  have := there_parts_le T n p
  omega

theorem Contained.aside (h : Contained T c₀ n p) (hlife : Lifecycle n q) (hq : Aside n p q) :
    Contained T c₀ n q := by
  refine ⟨hlife, ?_, ?_, ?_⟩
  · rw [hq.failedRuns, hq.there rfl rfl]
    exact h.bound
  · rw [hq.modules, hq.failedRuns, hq.there rfl rfl]
    exact h.fails
  · rw [hq.modules, hq.there rfl rfl]
    exact h.count

/-- Each step keeps the failures contained, and once the type is poisoned no call starts. -/
theorem Contained.step (h : Contained T c₀ n p) (hn : n + 17 ≤ 2 ^ 32) (hT : T < gmkMaxHandlers)
    {act : PoolAct} (hkeeps : p.KeepsType act) :
    Contained T c₀ n (p.step act) ∧
      (p.kernel.modules.poisoned T = true → (p.step act).kernel.modules.poisoned T = true ∧
        (p.step act).failedRuns T + (p.step act).there (LoopPc.calling T) n ≤
          p.failedRuns T + p.there (LoopPc.calling T) n) := by
  have hlife := h.life.step act
  by_cases hact : ∃ w a, act = .worker w a
  · obtain ⟨w, a, rfl⟩ := hact
    rw [Pool.step] at hlife ⊢
    by_cases hdead : p.pc w = .absent ∨ p.Gone w
    · rw [workerStep_of_dead hdead]
      exact ⟨h, fun hpois => ⟨hpois, le_rfl⟩⟩
    rw [not_or] at hdead
    have hw := h.life.tasks.lt hdead.1
    obtain ⟨c, hpc, hs⟩ := workerStep_strikes hdead.1 hdead.2 (h.life.tasks.workers ▸ hw) hT
      (h.fit hn) hkeeps
    refine ⟨h.strike hlife hw hpc hs, fun hpois => ?_⟩
    have hsticky : (p.workerStep w a).kernel.modules.poisoned T = true := by
      by_contra hclean
      rw [Bool.not_eq_true] at hclean
      rw [hs.sticky hclean] at hpois
      cases hpois
    refine ⟨hsticky, ?_⟩
    have := hs.calls hsticky
    have := there_update (LoopPc.calling T) hw hpc
    omega
  · have haside := step_aside h.life fun w a ha => hact ⟨w, a, ha⟩
    refine ⟨h.aside hlife haside, fun hpois => ⟨haside.modules ▸ hpois, ?_⟩⟩
    rw [haside.failedRuns, haside.there rfl rfl]

theorem init_contained {k : Kernel} (hc : (k.modules.failCounts T).toNat < gmkPoisonThreshold) :
    Contained T (k.modules.failCounts T).toNat k.sched.nWorkers (init k) := by
  have hthere (f : LoopPc → ℕ) (hf : f .absent = 0) : (init k).there f k.sched.nWorkers = 0 :=
    Finset.sum_eq_zero fun _ _ => hf
  have hle := Nat.le_of_lt_succ hc
  refine ⟨init_lifecycle k, ?_, fun _ => ?_, fun _ => ?_⟩
  · rw [hthere _ rfl]
    show 0 + (k.modules.failCounts T).toNat + 0 ≤ 15 + k.sched.nWorkers
    omega
  · show 0 + (k.modules.failCounts T).toNat ≤ (k.modules.failCounts T).toNat + _
    omega
  · show (k.modules.failCounts T).toNat ≤ 15 + _
    omega

/-- What the handlers of a run may do that leave the types of their tasks alone. -/
def Runs (p q : Pool) : Prop := Reach (fun p act q => q = p.step act) KeepsType p q

theorem Contained.runs (h : Contained T c₀ n p) (hn : n + 17 ≤ 2 ^ 32) (hT : T < gmkMaxHandlers)
    (hq : Runs p q) : Contained T c₀ n q := by
  refine hq.inv (I := Contained T c₀ n) h ?_
  rintro s act s' hs hg rfl
  exact (hs.step hn hT hg).1

/-- Calls that run when their type is poisoned may fail; no other call starts. -/
theorem Contained.runs_poisoned (h : Contained T c₀ n p) (hn : n + 17 ≤ 2 ^ 32)
    (hT : T < gmkMaxHandlers) (hpois : p.kernel.modules.poisoned T = true) (hq : Runs p q) :
    q.failedRuns T + q.there (LoopPc.calling T) n ≤
      p.failedRuns T + p.there (LoopPc.calling T) n := by
  have hinv : Contained T c₀ n q ∧ q.kernel.modules.poisoned T = true ∧
      q.failedRuns T + q.there (LoopPc.calling T) n ≤
        p.failedRuns T + p.there (LoopPc.calling T) n := by
    refine hq.inv (I := fun q => Contained T c₀ n q ∧ q.kernel.modules.poisoned T = true ∧
      q.failedRuns T + q.there (LoopPc.calling T) n ≤
        p.failedRuns T + p.there (LoopPc.calling T) n) ⟨h, hpois, le_rfl⟩ ?_
    rintro s act s' ⟨hs, hp, hle⟩ hg rfl
    obtain ⟨hs', hkeep⟩ := hs.step hn hT hg
    exact ⟨hs', (hkeep hp).1, (hkeep hp).2.trans hle⟩
  exact hinv.2.2

/-- In a pool of `n` workers whose handlers leave the types of their tasks alone, at most `15 + n`
failures of a type happen, those counted before the start included; from sixteen on the type is
poisoned or a worker is about to count a failure or to poison it; and once it is poisoned only the
calls that run already can fail. -/
theorem poison_contains {k : Kernel} (hn : k.sched.nWorkers + 17 ≤ 2 ^ 32) (hT : T < gmkMaxHandlers)
    (hc : (k.modules.failCounts T).toNat < gmkPoisonThreshold) (hp : Runs (init k) p) :
    p.failedRuns T + (k.modules.failCounts T).toNat ≤ 15 + k.sched.nWorkers ∧
    (gmkPoisonThreshold ≤ p.failedRuns T + (k.modules.failCounts T).toNat →
      p.kernel.modules.poisoned T = true ∨
        ∃ w < k.sched.nWorkers, (p.pc w).recording T = 1 ∨ (p.pc w).poisoning T = 1) ∧
    (p.kernel.modules.poisoned T = true → ∀ q, Runs p q →
      q.failedRuns T ≤ p.failedRuns T + p.there (LoopPc.calling T) k.sched.nWorkers) := by
  have h := (init_contained hc).runs hn hT hp
  refine ⟨?_, fun hmany => ?_, fun hpois q hq => ?_⟩
  · have := h.bound
    omega
  · by_contra hnone
    rw [not_or, Bool.not_eq_true] at hnone
    obtain ⟨hclean, hnone⟩ := hnone
    have hzero (f : LoopPc → ℕ) (hf : ∀ w < k.sched.nWorkers, f (p.pc w) = 0) :
        p.there f k.sched.nWorkers = 0 :=
      Finset.sum_eq_zero fun w hw => hf w (Finset.mem_range.mp hw)
    have hworker (w : ℕ) (hw : w < k.sched.nWorkers) :
        (p.pc w).recording T = 0 ∧ (p.pc w).poisoning T = 0 := by
      have hle := (p.pc w).parts_le T
      have hnot : ¬ ((p.pc w).recording T = 1 ∨ (p.pc w).poisoning T = 1) :=
        fun h => hnone ⟨w, hw, h⟩
      omega
    have hrec := hzero (LoopPc.recording T) fun w hw => (hworker w hw).1
    have hpois := hzero (LoopPc.poisoning T) fun w hw => (hworker w hw).2
    have hfails := h.fails hclean
    have hcount := h.count hclean
    rw [gmkPoisonThreshold] at hmany
    omega
  · have := h.runs_poisoned hn hT hpois hq
    omega

/-- One task of type 0 waits for the only worker. -/
def oneTask : Kernel :=
  { tinyKernel with
    sched := { gmkSchedInit 1 with lqs := fun _ => Lq.single default }
    modules := gmkModuleRegInit tinyCfg.dispatch }

/-- The worker is created, and six steps take it through the handler, which fails. -/
def oneFailure : List PoolAct :=
  .control true :: List.replicate 5 (.worker 0 (.schedule default)) ++
    [.worker 0 (.ret (-1) default)]

/-- After one failure of the only worker at most fifteen follow. -/
theorem poison_contains_one : ((init oneTask).run oneFailure).failedRuns 0 = 1 ∧
    ∀ q, Runs ((init oneTask).run oneFailure) q → q.failedRuns 0 + 0 ≤ 15 + 1 := by
  have hobeys : Obeys step KeepsType (init oneTask) oneFailure := by
    refine ⟨trivial, trivial, trivial, trivial, trivial, trivial, fun t ht => ?_, trivial⟩
    have hpc : LoopPc.handler default = .handler t := ht
    obtain rfl := LoopPc.handler.inj hpc
    rfl
  refine ⟨rfl, fun q hq => ?_⟩
  have hrun : Runs (init oneTask) q := (Reach.foldl hobeys .start).trans hq
  exact (poison_contains (k := oneTask) (T := 0) (by decide) (by decide) (by decide) hrun).1

end Pool
end Ggmk

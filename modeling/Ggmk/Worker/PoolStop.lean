import Ggmk.Worker.PoolMoves
import Ggmk.Worker.PoolTasks

/-! How the pool starts and stops: when `gmk_worker_pool_stop` returns, or `gmk_worker_pool_start`
has failed, no worker runs any more, and it takes each worker a bounded number of steps to get
there. -/
namespace Ggmk

/-- At most so many steps of its own take a worker that is told to stop out of its loop, the steps
inside of handlers not counted. -/
def LoopPc.left : LoopPc → ℕ
  | .absent | .exited => 0
  | .top => 1
  | .wakeCount | .retried _ | .failed _ => 2
  | .unpark | .failRelease _ => 3
  | .parkWait | .parkLoad | .failTest _ _ => 4
  | .parkCount | .failAdd _ => 5
  | .park | .returned _ _ => 6
  | .handler _ => 7
  | .lookup _ => 8
  | .dispatch _ => 9
  | .dequeued _ => 10
  | .evqPop d _ => 2 * (gmkEvqDrainLimit - d) + 7
  | .evqEnqueue d _ _ => 2 * (gmkEvqDrainLimit - d) + 8
  | .loadTick => 2 * gmkEvqDrainLimit + 8
  | .popRq => 2 * gmkEvqDrainLimit + 9
  | .popOverflow => 2 * gmkEvqDrainLimit + 10
  | .popLq => 2 * gmkEvqDrainLimit + 11

/-- The dispatches that a worker may still make in this round of its loop. -/
def LoopPc.ahead : LoopPc → ℕ
  | .popLq | .popOverflow | .popRq | .dequeued _ | .dispatch _ | .lookup _ => 1
  | _ => 0

namespace LoopPc
variable {c c' : LoopPc} {running : Bool}

theorem eq_of_left (h : c.left = 0) : c = .absent ∨ c = .exited := by
  cases c <;> simp [left] at h ⊢

theorem left_le (c : LoopPc) : c.left ≤ 523 := by
  cases c <;> simp only [left, gmkEvqDrainLimit] <;> omega

theorem Next.left_lt (h : Next false c c') : c'.left < c.left := by
  cases h <;> simp only [left, gmkEvqDrainLimit] at * <;> first | omega | contradiction

/-- A move into the pops is a start of the next round. -/
theorem Next.ahead_le (h : Next false c c') : c'.ahead + c.makes ≤ c.ahead := by
  cases h <;> simp [ahead, makes] at *

end LoopPc

namespace Pool
variable {p q : Pool} {n w v : ℕ} {c : LoopPc} {t : Task}

/-! ## The workers and the thread that controls them -/

/-- Worker `w` is told to stop. -/
def Told (p : Pool) (w : ℕ) : Prop := p.running w = false

/-- Worker `w` has left its loop. -/
def Gone (p : Pool) (w : ℕ) : Prop := p.pc w = .exited

/-- Where the controlling thread is tells which of the `n` workers exist, which are told to stop
and which are gone. -/
def Phase (n : ℕ) (p : Pool) : ControlPc → Prop
  | .create i => i ≤ n ∧ ∀ w, i ≤ w → p.pc w = .absent
  | .rollback i j => i ≤ n ∧ j ≤ i ∧ (∀ w, i ≤ w → p.pc w = .absent) ∧ ∀ w < j, p.Gone w
  | .rollbackWake i j => i ≤ n ∧ j < i ∧ (∀ w, i ≤ w → p.pc w = .absent) ∧ (∀ w < j, p.Gone w) ∧
      p.Told j
  | .rollbackJoin i j => i ≤ n ∧ j < i ∧ (∀ w, i ≤ w → p.pc w = .absent) ∧ (∀ w < j, p.Gone w) ∧
      p.Told j
  | .failed => ∀ w, p.pc w = .absent ∨ p.Gone w
  | .started => True
  | .clear i => ∀ w < i, p.Told w
  | .wake _ => ∀ w < n, p.Told w
  | .join i => (∀ w < n, p.Told w) ∧ ∀ w < i, p.Gone w
  | .stopped => ∀ w < n, p.Gone w

/-- No worker beyond `n` exists, and none leaves its loop before it is told to. -/
structure Lifecycle (n : ℕ) (p : Pool) : Prop where
  tasks : Balanced n p
  gone_told : ∀ w, p.Gone w → p.Told w
  phase : Phase n p p.control

/-- A worker in a phase can only go further. -/
theorem Phase.mono {phase : ControlPc} (h : Phase n p phase) (hrun : q.running = p.running)
    (habs : ∀ w, p.pc w = .absent → q.pc w = .absent) (hgone : ∀ w, p.Gone w → q.Gone w) :
    Phase n q phase := by
  have htold (w : ℕ) (hw : p.Told w) : q.Told w := (congrFun hrun w).trans hw
  cases phase with
  | create i => exact ⟨h.1, fun w hw => habs w (h.2 w hw)⟩
  | rollback i j =>
    exact ⟨h.1, h.2.1, fun w hw => habs w (h.2.2.1 w hw), fun w hw => hgone w (h.2.2.2 w hw)⟩
  | rollbackWake i j =>
    obtain ⟨hi, hj, ha, hg, ht⟩ := h
    exact ⟨hi, hj, fun w hw => habs w (ha w hw), fun w hw => hgone w (hg w hw), htold j ht⟩
  | rollbackJoin i j =>
    obtain ⟨hi, hj, ha, hg, ht⟩ := h
    exact ⟨hi, hj, fun w hw => habs w (ha w hw), fun w hw => hgone w (hg w hw), htold j ht⟩
  | failed => exact fun w => (h w).imp (habs w) (hgone w)
  | started => trivial
  | clear i => exact fun w hw => htold w (h w hw)
  | wake i => exact fun w hw => htold w (h w hw)
  | join i => exact ⟨fun w hw => htold w (h.1 w hw), fun w hw => hgone w (h.2 w hw)⟩
  | stopped => exact fun w hw => hgone w (h w hw)

/-- A worker that does not run stays as it is. -/
theorem workerStep_of_dead {act : HandlerAct} (h : p.pc w = .absent ∨ p.Gone w) :
    p.workerStep w act = p := by
  rcases h with h | h <;> rw [Pool.workerStep, h]

theorem Steps.gone_told {act : HandlerAct} (h : Steps p w act q) (hgone : ∀ v, p.Gone v → p.Told v) :
    (∀ v, q.Gone v → q.Told v) ∧ q.running = p.running ∧ q.control = p.control ∧
      ∀ v, v ≠ w → q.pc v = p.pc v ∧ q.dispatches v = p.dispatches v := by
  have hframe {c : LoopPc} (hm : Moves p w c q) : q.running = p.running ∧ q.control = p.control ∧
      ∀ v, v ≠ w → q.pc v = p.pc v ∧ q.dispatches v = p.dispatches v := by
    refine ⟨hm.running, hm.control, fun v hv => ⟨?_, ?_⟩⟩
    · rw [hm.pc, Function.update_of_ne hv]
    · rw [hm.dispatches, Function.update_of_ne hv]
  rcases h with ⟨c, hnext, hm⟩ | ⟨t, t', hpc, hm, -⟩
  · refine ⟨fun v hv => ?_, hframe hm⟩
    unfold Told
    rw [hm.running]
    by_cases hvw : v = w
    · subst hvw
      rw [Gone, hm.pc, Function.update_self] at hv
      exact (hv ▸ hnext).told
    · rw [Gone, ((hframe hm).2.2 v hvw).1] at hv
      exact hgone v hv
  · refine ⟨fun v hv => ?_, hframe hm⟩
    unfold Told
    rw [hm.running]
    by_cases hvw : v = w
    · subst hvw
      rw [Gone, hm.pc, Function.update_self] at hv
      cases hv
    · rw [Gone, ((hframe hm).2.2 v hvw).1] at hv
      exact hgone v hv

theorem Lifecycle.workerStep (h : Lifecycle n p) (w : ℕ) (act : HandlerAct) :
    Lifecycle n (p.workerStep w act) := by
  by_cases hdead : p.pc w = .absent ∨ p.Gone w
  · rwa [workerStep_of_dead hdead]
  rw [not_or] at hdead
  obtain ⟨htold, hrun, hcontrol, hother⟩ :=
    (workerStep_steps hdead.1 hdead.2 act).gone_told h.gone_told
  refine ⟨h.tasks.workerStep w act, htold, ?_⟩
  rw [hcontrol]
  refine h.phase.mono hrun (fun v hv => ?_) (fun v hv => ?_)
  · have hvw : v ≠ w := fun heq => hdead.1 (heq ▸ hv)
    rw [(hother v hvw).1, hv]
  · have hvw : v ≠ w := fun heq => hdead.2 (heq ▸ hv)
    rw [Gone, (hother v hvw).1]
    exact hv

/-- The flag of a worker that has not left its loop may be set to anything. -/
theorem gone_told_update (h : ∀ v, p.Gone v → p.Told v) {b : Bool} (hb : b = false ∨ ¬ p.Gone w) :
    ∀ v, p.Gone v → Function.update p.running w b v = false := by
  intro v hv
  by_cases hvw : v = w
  · subst hvw
    rw [Function.update_self]
    exact hb.resolve_right fun hg => hg hv
  · rw [Function.update_of_ne hvw]
    exact h v hv

theorem told_update (h : p.Told v) : Function.update p.running w false v = false := by
  by_cases hvw : v = w
  · rw [hvw, Function.update_self]
  · rw [Function.update_of_ne hvw]
    exact h

theorem Lifecycle.create (h : Lifecycle n p) {i : ℕ} (hi : i < n) (hpc : p.control = .create i)
    (created : Bool) : Lifecycle n (p.controlStep created) := by
  have hphase := h.phase
  rw [hpc] at hphase
  obtain ⟨hle, habs⟩ := hphase
  have hnot : ¬ p.Gone i := by
    rw [Gone, habs i le_rfl]
    nofun
  have htasks := h.tasks.controlStep (fun j hj => ?_) created
  swap
  · rw [hpc] at hj
    obtain rfl : i = j := by simpa using hj
    exact habs i le_rfl
  unfold Pool.controlStep at htasks ⊢
  simp only [hpc, h.tasks.workers, if_pos hi] at htasks ⊢
  cases created with
  | true =>
    simp only [if_true] at htasks ⊢
    refine ⟨htasks, fun v hv => ?_, hi, fun v hv => ?_⟩
    · have hv' : Function.update p.pc i .top v = .exited := hv
      have hvi : v ≠ i := by
        rintro rfl
        rw [Function.update_self] at hv'
        cases hv'
      show Function.update p.running i true v = false
      rw [Function.update_of_ne hvi] at hv' ⊢
      exact h.gone_told v hv'
    · show Function.update p.pc i .top v = .absent
      rw [Function.update_of_ne (by omega)]
      exact habs v (by omega)
  | false =>
    exact ⟨htasks, gone_told_update h.gone_told (.inr hnot), hle, Nat.zero_le _, habs, by simp⟩

theorem Lifecycle.controlStep (h : Lifecycle n p) (created : Bool) :
    Lifecycle n (p.controlStep created) := by
  have hphase := h.phase
  cases hpc : p.control with rw [hpc] at hphase
  | create i =>
    by_cases hi : i < n
    · exact h.create hi hpc created
    · have hstep : p.controlStep created = { p with control := .started } := by
        simp only [Pool.controlStep, hpc, h.tasks.workers, if_neg hi]
      rw [hstep]
      exact ⟨h.tasks.other rfl, h.gone_told, trivial⟩
  | rollback i j =>
    obtain ⟨hi, hj, habs, hgone⟩ := hphase
    by_cases hlt : j < i
    · have hstep : p.controlStep created = { p with
          running := Function.update p.running j false, control := .rollbackWake i j } := by
        simp only [Pool.controlStep, hpc, if_pos hlt]
      rw [hstep]
      exact ⟨h.tasks.other rfl, gone_told_update h.gone_told (.inl rfl), hi, hlt, habs, hgone,
        Function.update_self ..⟩
    · have hstep : p.controlStep created = { p with control := .failed } := by
        simp only [Pool.controlStep, hpc, if_neg hlt]
      rw [hstep]
      refine ⟨h.tasks.other rfl, h.gone_told, fun w => ?_⟩
      by_cases hw : w < j
      · exact .inr (hgone w hw)
      · exact .inl (habs w (by omega))
  | rollbackWake i j =>
    have hstep : p.controlStep created = { p with control := .rollbackJoin i j } := by
      simp only [Pool.controlStep, hpc]
    rw [hstep]
    exact ⟨h.tasks.other rfl, h.gone_told, hphase⟩
  | rollbackJoin i j =>
    obtain ⟨hi, hj, habs, hgone, -⟩ := hphase
    by_cases hjoin : p.Gone j
    · have hstep : p.controlStep created = { p with control := .rollback i (j + 1) } := by
        simp only [Pool.controlStep, hpc]
        rw [hjoin]
      rw [hstep]
      refine ⟨h.tasks.other rfl, h.gone_told, hi, hj, habs, fun w hw => ?_⟩
      rcases Nat.lt_succ_iff_lt_or_eq.mp hw with hlt | rfl
      · exact hgone w hlt
      · exact hjoin
    · have hstep : p.controlStep created = p := by
        simp only [Pool.controlStep, hpc]
        split
        next heq => exact absurd heq hjoin
        next => rfl
      rwa [hstep]
  | failed =>
    have hstep : p.controlStep created = p := by simp only [Pool.controlStep, hpc]
    rwa [hstep]
  | started =>
    have hstep : p.controlStep created = { p with control := .clear 0 } := by
      simp only [Pool.controlStep, hpc]
    rw [hstep]
    exact ⟨h.tasks.other rfl, h.gone_told, fun w hw => absurd hw (Nat.not_lt_zero w)⟩
  | clear i =>
    by_cases hi : i < n
    · have hstep : p.controlStep created = { p with
          running := Function.update p.running i false, control := .clear (i + 1) } := by
        simp only [Pool.controlStep, hpc, h.tasks.workers, if_pos hi]
      rw [hstep]
      refine ⟨h.tasks.other rfl, gone_told_update h.gone_told (.inl rfl), fun w hw => ?_⟩
      rcases Nat.lt_succ_iff_lt_or_eq.mp hw with hlt | rfl
      · exact told_update (hphase w hlt)
      · exact Function.update_self ..
    · have hstep : p.controlStep created = { p with control := .wake 0 } := by
        simp only [Pool.controlStep, hpc, h.tasks.workers, if_neg hi]
      rw [hstep]
      exact ⟨h.tasks.other rfl, h.gone_told, fun w hw => hphase w (by omega)⟩
  | wake i =>
    by_cases hi : i < n
    · have hstep : p.controlStep created = { p with control := .wake (i + 1) } := by
        simp only [Pool.controlStep, hpc, h.tasks.workers, if_pos hi]
      rw [hstep]
      exact ⟨h.tasks.other rfl, h.gone_told, hphase⟩
    · have hstep : p.controlStep created = { p with control := .join 0 } := by
        simp only [Pool.controlStep, hpc, h.tasks.workers, if_neg hi]
      rw [hstep]
      exact ⟨h.tasks.other rfl, h.gone_told, hphase, fun w hw => absurd hw (Nat.not_lt_zero w)⟩
  | join i =>
    by_cases hi : i < n
    · by_cases hjoin : p.Gone i
      · have hstep : p.controlStep created = { p with control := .join (i + 1) } := by
          simp only [Pool.controlStep, hpc, h.tasks.workers, if_pos hi]
          rw [hjoin]
        rw [hstep]
        refine ⟨h.tasks.other rfl, h.gone_told, hphase.1, fun w hw => ?_⟩
        rcases Nat.lt_succ_iff_lt_or_eq.mp hw with hlt | rfl
        · exact hphase.2 w hlt
        · exact hjoin
      · have hstep : p.controlStep created = p := by
          simp only [Pool.controlStep, hpc, h.tasks.workers, if_pos hi]
          split
          next heq => exact absurd heq hjoin
          next => rfl
        rwa [hstep]
    · have hstep : p.controlStep created = { p with control := .stopped } := by
        simp only [Pool.controlStep, hpc, h.tasks.workers, if_neg hi]
      rw [hstep]
      exact ⟨h.tasks.other rfl, h.gone_told, fun w hw => hphase.2 w (by omega)⟩
  | stopped =>
    have hstep : p.controlStep created = p := by simp only [Pool.controlStep, hpc]
    rwa [hstep]

theorem Lifecycle.step (h : Lifecycle n p) (act : PoolAct) : Lifecycle n (p.step act) := by
  have hother (q : Pool) (hq : Balanced n q) (hrun : q.running = p.running) (hpc : q.pc = p.pc)
      (hcontrol : q.control = p.control) : Lifecycle n q := by
    refine ⟨hq, fun v hv => ?_, ?_⟩
    · rw [Told, hrun]
      rw [Gone, hpc] at hv
      exact h.gone_told v hv
    · rw [hcontrol]
      exact h.phase.mono hrun (fun v hv => by rw [hpc, hv]) fun v hv => by rwa [Gone, hpc]
  cases act with
  | worker w act => exact h.workerStep w act
  | control created => exact h.controlStep created
  | submit t =>
    rw [Pool.step]
    exact hother _ (h.tasks.offer t (-1)) rfl rfl rfl
  | schedule t =>
    rw [Pool.step]
    have htasks := h.tasks.schedule t
    unfold Pool.schedule at htasks ⊢
    cases hpush : gmkEvqPush p.kernel.sched.evq t <;> rw [hpush] at htasks
    · exact h
    · exact hother _ htasks rfl rfl rfl
  | clock c => exact hother _ (h.tasks.other rfl) rfl rfl rfl

theorem init_lifecycle (k : Kernel) : Lifecycle k.sched.nWorkers (init k) :=
  ⟨init_balanced k, nofun, Nat.zero_le _, fun _ _ => rfl⟩

theorem Lifecycle.run (h : Lifecycle n p) (acts : List PoolAct) : Lifecycle n (p.run acts) := by
  unfold Pool.run
  induction acts generalizing p with
  | nil => exact h
  | cons act acts ih => exact ih (h.step act)

/-! ## The end of the pool -/

/-- A worker that exists and is told to stop. -/
structure Stopping (n w : ℕ) (p : Pool) : Prop where
  life : Lifecycle n p
  told : p.Told w
  created : p.pc w ≠ .absent

/-- Nobody else moves a worker that is told to stop. -/
theorem Stopping.frame (h : Stopping n w p) {act : PoolAct} (hact : ∀ a, act ≠ .worker w a) :
    Stopping n w (p.step act) ∧ (p.step act).pc w = p.pc w ∧
      (p.step act).dispatches w = p.dispatches w := by
  suffices hs : (p.step act).running w = false ∧ (p.step act).pc w = p.pc w ∧
      (p.step act).dispatches w = p.dispatches w from
    ⟨⟨h.life.step act, hs.1, hs.2.1 ▸ h.created⟩, hs.2⟩
  have htold : p.running w = false := h.told
  cases act with
  | worker v a =>
    have hwv : w ≠ v := fun heq => hact a (heq ▸ rfl)
    rw [Pool.step]
    by_cases hdead : p.pc v = .absent ∨ p.Gone v
    · rw [workerStep_of_dead hdead]
      exact ⟨htold, rfl, rfl⟩
    rw [not_or] at hdead
    obtain ⟨-, hrun, -, hother⟩ :=
      (workerStep_steps hdead.1 hdead.2 a).gone_told h.life.gone_told
    exact ⟨hrun ▸ htold, hother w hwv⟩
  | control created =>
    have hphase := h.life.phase
    rw [Pool.step]
    cases hpc : p.control with (rw [hpc] at hphase; simp only [Pool.controlStep, hpc])
    | create i =>
      -- the worker that is created does not exist yet
      have hwi : w ≠ i := fun heq => h.created (hphase.2 w heq.ge)
      split
      · split
        · exact ⟨(Function.update_of_ne hwi ..).trans htold, Function.update_of_ne hwi .., rfl⟩
        · exact ⟨(Function.update_of_ne hwi ..).trans htold, rfl, rfl⟩
      · exact ⟨htold, rfl, rfl⟩
    | rollback i j =>
      split
      · exact ⟨told_update h.told, rfl, rfl⟩
      · exact ⟨htold, rfl, rfl⟩
    | clear i =>
      split
      · exact ⟨told_update h.told, rfl, rfl⟩
      · exact ⟨htold, rfl, rfl⟩
    | rollbackJoin i j => split <;> exact ⟨htold, rfl, rfl⟩
    | wake i => split <;> exact ⟨htold, rfl, rfl⟩
    | join i =>
      split
      · split <;> exact ⟨htold, rfl, rfl⟩
      · exact ⟨htold, rfl, rfl⟩
    | rollbackWake i j => exact ⟨htold, trivial, trivial⟩
    | failed => exact ⟨htold, trivial, trivial⟩
    | started => exact ⟨htold, trivial, trivial⟩
    | stopped => exact ⟨htold, trivial, trivial⟩
  | submit t =>
    rw [Pool.step]
    exact ⟨htold, rfl, rfl⟩
  | schedule t =>
    rw [Pool.step, Pool.schedule]
    split <;> exact ⟨htold, rfl, rfl⟩
  | clock c => exact ⟨htold, rfl, rfl⟩

/-- Its own steps take it to the end of its loop, with at most one more dispatch. -/
theorem Stopping.own (h : Stopping n w p) (a : HandlerAct) :
    Stopping n w (p.workerStep w a) ∧
      (p.workerStep w a).dispatches w + ((p.workerStep w a).pc w).ahead ≤
        p.dispatches w + (p.pc w).ahead ∧
      ((p.workerStep w a).pc w).left ≤ (p.pc w).left ∧
      ((∃ rc t, a = .ret rc t) → ((p.workerStep w a).pc w).left ≤ (p.pc w).left - 1) := by
  by_cases hgone : p.Gone w
  · rw [workerStep_of_dead (.inr hgone)]
    refine ⟨h, le_rfl, le_rfl, fun _ => ?_⟩
    rw [hgone]
    exact Nat.zero_le _
  have hlife := h.life.workerStep w a
  have hsteps := workerStep_steps h.created hgone a
  have htold : p.running w = false := h.told
  generalize p.workerStep w a = q at *
  rcases hsteps with ⟨c, hnext, hm⟩ | ⟨t, t', hpc, hm, hret⟩
  · rw [htold] at hnext
    have hqc : q.pc w = c := by rw [hm.pc, Function.update_self]
    have hqd : q.dispatches w = p.dispatches w + (p.pc w).makes := by
      rw [hm.dispatches, Function.update_self]
    have hahead := hnext.ahead_le
    have hleft := hnext.left_lt
    rw [hqc, hqd]
    exact ⟨⟨hlife, (congrFun hm.running w).trans htold, hqc ▸ hnext.ne_absent⟩, by omega, by omega,
      fun _ => by omega⟩
  · have hqc : q.pc w = .handler t' := by rw [hm.pc, Function.update_self]
    have hqd : q.dispatches w = p.dispatches w := by
      rw [hm.dispatches, Function.update_self, hpc]
      rfl
    rw [hqc, hqd, hpc]
    refine ⟨⟨hlife, (congrFun hm.running w).trans htold, hqc ▸ nofun⟩, le_rfl, le_rfl, ?_⟩
    rintro ⟨rc, u, ha⟩
    exact absurd ha (hret rc u)

/-- The step of the list is one of worker `w`. -/
def ofWorker (w : ℕ) : PoolAct → Bool
  | .worker v _ => v = w
  | _ => false

theorem Stopping.run (h : Stopping n w p) (acts : List PoolAct) :
    (p.run acts).dispatches w + ((p.run acts).pc w).ahead ≤ p.dispatches w + (p.pc w).ahead ∧
      ((∀ a, .worker w a ∈ acts → ∃ rc t, a = .ret rc t) →
        ((p.run acts).pc w).left ≤ (p.pc w).left - acts.countP (ofWorker w)) ∧
      Stopping n w (p.run acts) := by
  unfold Pool.run
  induction acts generalizing p with
  | nil => exact ⟨le_rfl, fun _ => le_rfl, h⟩
  | cons act acts ih =>
    rw [List.foldl_cons]
    by_cases hact : ∃ a, act = .worker w a
    · obtain ⟨a, rfl⟩ := hact
      obtain ⟨hstop, hahead, -, hleft⟩ := h.own a
      obtain ⟨hd, hl, hend⟩ := ih (p := p.step (.worker w a)) hstop
      refine ⟨hd.trans hahead, fun hret => ?_, hend⟩
      have hone := hleft (hret a List.mem_cons_self)
      have hrest := hl fun b hb => hret b (List.mem_cons_of_mem _ hb)
      have hcount : (PoolAct.worker w a :: acts).countP (ofWorker w) =
          acts.countP (ofWorker w) + 1 := List.countP_cons_of_pos (by simp [ofWorker])
      rw [hcount]
      rw [Pool.step] at hrest
      rw [Pool.step]
      omega
    · have hother : ∀ a, act ≠ .worker w a := fun a ha => hact ⟨a, ha⟩
      obtain ⟨hstop, hpc, hdisp⟩ := h.frame hother
      obtain ⟨hd, hl, hend⟩ := ih hstop
      rw [hpc, hdisp] at hd
      rw [hpc] at hl
      refine ⟨hd, fun hret => ?_, hend⟩
      have hcount : (act :: acts).countP (ofWorker w) = acts.countP (ofWorker w) := by
        refine List.countP_cons_of_neg ?_
        cases act with
        | worker v a => simpa [ofWorker] using fun heq => hact ⟨a, by rw [heq]⟩
        | _ => simp [ofWorker]
      rw [hcount]
      exact hl fun b hb => hret b (List.mem_cons_of_mem _ hb)

/-- No worker runs, and none will. -/
structure Dead (p : Pool) : Prop where
  control : p.control = .failed ∨ p.control = .stopped
  workers : ∀ w, p.pc w = .absent ∨ p.Gone w

theorem Lifecycle.dead (h : Lifecycle n p) (hc : p.control = .failed ∨ p.control = .stopped) :
    Dead p := by
  refine ⟨hc, fun w => ?_⟩
  have hphase := h.phase
  rcases hc with hc | hc <;> rw [hc] at hphase
  · exact hphase w
  · by_cases hw : w < n
    · exact .inr (hphase w hw)
    · exact .inl (h.tasks.beyond w (not_lt.mp hw))

theorem Dead.step (h : Dead p) (act : PoolAct) :
    Dead (p.step act) ∧ (p.step act).dispatches = p.dispatches := by
  cases act with
  | worker w a =>
    rw [Pool.step, workerStep_of_dead (h.workers w)]
    exact ⟨h, rfl⟩
  | control created =>
    have hstep : p.controlStep created = p := by
      rcases h.control with hc | hc <;> simp only [Pool.controlStep, hc]
    rw [Pool.step, hstep]
    exact ⟨h, rfl⟩
  | submit t =>
    rw [Pool.step]
    exact ⟨⟨h.control, h.workers⟩, rfl⟩
  | schedule t =>
    rw [Pool.step, Pool.schedule]
    split
    · exact ⟨⟨h.control, h.workers⟩, rfl⟩
    · exact ⟨h, rfl⟩
  | clock c => exact ⟨⟨h.control, h.workers⟩, rfl⟩

theorem Dead.run (h : Dead p) (acts : List PoolAct) :
    Dead (p.run acts) ∧ (p.run acts).dispatches = p.dispatches := by
  unfold Pool.run
  induction acts generalizing p with
  | nil => exact ⟨h, rfl⟩
  | cons act acts ih =>
    obtain ⟨hdead, hdisp⟩ := h.step act
    obtain ⟨hend, hrest⟩ := ih hdead
    exact ⟨hend, hrest.trans hdisp⟩

theorem Dead.inTransit (h : Dead p) (n : ℕ) : p.inTransit n = 0 := by
  refine Finset.sum_eq_zero fun w _ => ?_
  rcases h.workers w with hw | hw <;> rw [hw] <;> rfl

end Pool
end Ggmk

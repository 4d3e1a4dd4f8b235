import Ggmk.Worker.Pool

/-! The control flow of the workers of the pool: every step of a worker is a move of its loop, or
it stays inside of a handler. -/
namespace Ggmk

/-- The moves of the loop of a worker whose `running` flag is `running`. -/
inductive LoopPc.Next (running : Bool) : LoopPc → LoopPc → Prop
  | again : running = true → Next running .top .popLq
  | leave : running = false → Next running .top .exited
  | lqEmpty : Next running .popLq .popOverflow
  | overflowEmpty : Next running .popOverflow .popRq
  | rqEmpty : Next running .popRq .loadTick
  | lqTask (t : Task) : Next running .popLq (.dequeued t)
  | overflowTask (t : Task) : Next running .popOverflow (.dequeued t)
  | rqTask (t : Task) : Next running .popRq (.dequeued t)
  | dequeued (t : Task) : Next running (.dequeued t) (.dispatch t)
  | dispatch (t : Task) : Next running (.dispatch t) (.lookup t)
  | call (t : Task) : Next running (.lookup t) (.handler t)
  | refuse (t : Task) (rc : ℤ) : Next running (.lookup t) (.returned t rc)
  | ret (t t' : Task) (rc : ℤ) : Next running (.handler t) (.returned t' rc)
  | ok (t : Task) : Next running (.returned t gmkOk) .top
  | retry (t : Task) : Next running (.returned t gmkRetry) (.retried t)
  | fail (t : Task) (rc : ℤ) : rc ≠ gmkOk → rc ≠ gmkRetry → Next running (.returned t rc) (.failAdd t)
  | retried (t : Task) : Next running (.retried t) .top
  | noCount (t : Task) : Next running (.failAdd t) (.failRelease t)
  | counted (t : Task) (count : UInt32) : Next running (.failAdd t) (.failTest t count)
  | tested (t : Task) (count : UInt32) : Next running (.failTest t count) (.failRelease t)
  | released (t : Task) : Next running (.failRelease t) (.failed t)
  | failed (t : Task) : Next running (.failed t) .top
  | events (tick : UInt32) : Next running .loadTick (.evqPop 0 tick)
  | event (d : ℕ) (tick : UInt32) (t : Task) : d < gmkEvqDrainLimit →
      Next running (.evqPop d tick) (.evqEnqueue (d + 1) tick t)
  | queued (d : ℕ) (tick : UInt32) (t : Task) : Next running (.evqEnqueue d tick t) (.evqPop d tick)
  | drained (d : ℕ) (tick : UInt32) : Next running (.evqPop d tick) .top
  | nothing (d : ℕ) (tick : UInt32) : Next running (.evqPop d tick) .park
  | park : Next running .park .parkCount
  | parkCount : Next running .parkCount .parkLoad
  | sleep : running = true → Next running .parkLoad .parkWait
  | stay : running = false → Next running .parkLoad .unpark
  | awake : Next running .parkWait .unpark
  | unpark : Next running .unpark .wakeCount
  | wakeCount : Next running .wakeCount .top

/-- The dispatches that a step from there makes. -/
def LoopPc.makes : LoopPc → ℕ
  | .lookup _ => 1
  | _ => 0

namespace LoopPc
variable {c c' : LoopPc} {running : Bool}

theorem Next.ne_absent (h : Next running c c') : c' ≠ .absent := by
  cases h <;> nofun

/-- Only a worker that is told to leaves its loop. -/
theorem Next.told (h : Next running c .exited) : running = false := by
  cases h
  assumption

end LoopPc

namespace Pool
variable {p q : Pool} {n w v : ℕ} {c : LoopPc} {t : Task}

/-- What a step of worker `w` that takes it to `c` leaves alone. -/
structure Moves (p : Pool) (w : ℕ) (c : LoopPc) (q : Pool) : Prop where
  pc : q.pc = Function.update p.pc w c
  running : q.running = p.running
  control : q.control = p.control
  dispatches : q.dispatches = Function.update p.dispatches w (p.dispatches w + (p.pc w).makes)

theorem moves_goto {kernel : Kernel} {parked : ℕ → Bool} {accepted dropped : Multiset Task}
    {failedRuns : ℕ → ℕ} (h : (p.pc w).makes = 0) :
    Moves p w c { p.goto w c with
      kernel := kernel, parked := parked, accepted := accepted, dropped := dropped,
      failedRuns := failedRuns } := by
  refine ⟨rfl, rfl, rfl, ?_⟩
  rw [h, Nat.add_zero, Function.update_eq_self]
  rfl

/-- A step that stays where it is. -/
theorem moves_stay {kernel : Kernel} {accepted : Multiset Task} (hpc : p.pc w = c)
    (h : c.makes = 0) : Moves p w c { p with kernel := kernel, accepted := accepted } := by
  refine ⟨?_, rfl, rfl, ?_⟩
  · rw [← hpc, Function.update_eq_self]
  · rw [hpc, h, Nat.add_zero, Function.update_eq_self]

/-- A worker makes one of the moves of its loop, or goes on in a handler. -/
def Steps (p : Pool) (w : ℕ) (act : HandlerAct) (q : Pool) : Prop :=
  (∃ c, (p.pc w).Next (p.running w) c ∧ Moves p w c q) ∨
    ∃ t t', p.pc w = .handler t ∧ Moves p w (.handler t') q ∧ ∀ rc u, act ≠ .ret rc u

theorem handlerStep_steps (hpc : p.pc w = .handler t) (act : HandlerAct) :
    Steps p w act (p.handlerStep w t act) := by
  have hmakes : (p.pc w).makes = 0 := by
    rw [hpc]
    rfl
  cases act with
  | enqueue t' workerId => exact .inr ⟨t, t, hpc, moves_stay hpc rfl, nofun⟩
  | yield call => exact .inr ⟨t, _, hpc, moves_goto hmakes, nofun⟩
  | schedule t' =>
    refine .inr ⟨t, t, hpc, ?_, nofun⟩
    show Moves p w (.handler t) (p.schedule t')
    rw [Pool.schedule]
    cases gmkEvqPush p.kernel.sched.evq t' with
    | some evq => exact moves_stay hpc rfl
    | none => exact moves_stay hpc rfl
  | other heap chan trace => exact .inr ⟨t, t, hpc, moves_stay hpc rfl, nofun⟩
  | ret rc t' => exact .inl ⟨_, hpc ▸ .ret t t' rc, moves_goto hmakes⟩

theorem lookupStep_moves (hpc : p.pc w = .lookup t) :
    ∃ c, (LoopPc.lookup t).Next (p.running w) c ∧ Moves p w c (p.lookupStep w t) := by
  have hmoves (c : LoopPc) (kernel : Kernel) (dispatched : Multiset Task) :
      Moves p w c { p.goto w c with
        kernel := kernel, dispatched := dispatched,
        dispatches := Function.update p.dispatches w (p.dispatches w + 1) } := by
    refine ⟨rfl, rfl, rfl, ?_⟩
    rw [hpc]
    rfl
  unfold Pool.lookupStep
  simp only
  split
  · exact ⟨_, .refuse t _, hmoves _ _ _⟩
  · split
    · exact ⟨_, .refuse t _, hmoves _ _ _⟩
    · exact ⟨_, .call t, hmoves _ _ _⟩

/-- Every step of a worker is one of those. -/
theorem workerStep_steps (habs : p.pc w ≠ .absent) (hexit : p.pc w ≠ .exited) (act : HandlerAct) :
    Steps p w act (p.workerStep w act) := by
  have hmove (c : LoopPc) (kernel : Kernel) (parked : ℕ → Bool) (accepted dropped : Multiset Task)
      (hnext : (p.pc w).Next (p.running w) c) (hmakes : (p.pc w).makes = 0) :
      Steps p w act { p.goto w c with
        kernel := kernel, parked := parked, accepted := accepted, dropped := dropped } :=
    .inl ⟨c, hnext, moves_goto hmakes⟩
  unfold Pool.workerStep
  cases hpc : p.pc w with rw [hpc] at hmove
  | absent => exact absurd hpc habs
  | exited => exact absurd hpc hexit
  | top =>
    refine hmove _ p.kernel p.parked p.accepted p.dropped ?_ rfl
    cases hrun : p.running w with
    | true => exact .again rfl
    | false => exact .leave rfl
  | popLq =>
    simp only
    split
    · exact hmove _ _ p.parked p.accepted p.dropped (.lqTask _) rfl
    · exact hmove _ p.kernel p.parked p.accepted p.dropped .lqEmpty rfl
  | popOverflow =>
    simp only
    split
    · exact hmove _ _ p.parked p.accepted p.dropped (.overflowTask _) rfl
    · exact hmove _ p.kernel p.parked p.accepted p.dropped .overflowEmpty rfl
  | popRq =>
    simp only
    split
    · exact hmove _ _ p.parked p.accepted p.dropped (.rqTask _) rfl
    · exact hmove _ _ p.parked p.accepted p.dropped .rqEmpty rfl
  | dequeued t => exact hmove _ _ p.parked p.accepted p.dropped (.dequeued t) rfl
  | dispatch t => exact hmove _ _ p.parked p.accepted p.dropped (.dispatch t) rfl
  | lookup t =>
    obtain ⟨c, hnext, hm⟩ := lookupStep_moves hpc
    exact .inl ⟨c, hpc ▸ hnext, hm⟩
  | handler t => exact handlerStep_steps hpc act
  | returned t rc =>
    simp only [Pool.returnedStep]
    split_ifs with hok hretry
    · subst hok
      exact hmove _ _ p.parked p.accepted p.dropped (.ok t) rfl
    · subst hretry
      exact hmove _ _ p.parked _ p.dropped (.retry t) rfl
    · exact hmove _ p.kernel p.parked p.accepted p.dropped (.fail t rc hok hretry) rfl
  | retried t => exact hmove _ _ p.parked p.accepted p.dropped (.retried t) rfl
  | failAdd t =>
    simp only
    split
    · exact hmove _ p.kernel p.parked p.accepted p.dropped (.noCount t) rfl
    · exact hmove _ _ p.parked p.accepted p.dropped (.counted t _) rfl
  | failTest t count =>
    simp only [Pool.failTestStep]
    split
    · exact hmove _ _ p.parked p.accepted p.dropped (.tested t count) rfl
    · exact hmove _ p.kernel p.parked p.accepted p.dropped (.tested t count) rfl
  | failRelease t => exact hmove _ _ p.parked p.accepted p.dropped (.released t) rfl
  | failed t => exact hmove _ _ p.parked p.accepted p.dropped (.failed t) rfl
  | loadTick => exact hmove _ p.kernel p.parked p.accepted p.dropped (.events _) rfl
  | evqPop drained tick =>
    have hend : Steps p w act (p.evqEnd w drained) := by
      refine .inl ⟨_, ?_, @moves_goto p w _ p.kernel _ _ _ _ (by rw [hpc]; rfl)⟩
      rw [hpc]
      split
      · exact .drained drained tick
      · exact .nothing drained tick
    simp only [Pool.evqPopStep]
    split
    next hlim =>
      split
      · exact hmove _ _ p.parked p.accepted p.dropped (.event drained tick _ hlim) rfl
      · exact hend
    next => exact hend
  | evqEnqueue drained tick t => exact hmove _ _ p.parked p.accepted _ (.queued drained tick t) rfl
  | park => exact hmove _ p.kernel _ p.accepted p.dropped .park rfl
  | parkCount => exact hmove _ _ p.parked p.accepted p.dropped .parkCount rfl
  | parkLoad =>
    refine hmove _ p.kernel p.parked p.accepted p.dropped ?_ rfl
    cases hrun : p.running w with
    | true => exact .sleep rfl
    | false => exact .stay rfl
  | parkWait => exact hmove _ p.kernel p.parked p.accepted p.dropped .awake rfl
  | unpark => exact hmove _ p.kernel _ p.accepted p.dropped .unpark rfl
  | wakeCount => exact hmove _ _ p.parked p.accepted p.dropped .wakeCount rfl

end Pool
end Ggmk

import Ggmk.Lifecycle.Host

/-! `gmk_boot` with its ladder of clean-ups and `gmk_halt`: which modules are finalised, and
what becomes of the memory that the host provided. -/
namespace Ggmk.Lifecycle
open Word Ledger

/-! ## Modules -/

/-- What the init function of a module does to the channels; each call goes on with the
result it got. -/
inductive InitCode where
  | ret (rc : ℤ)
  | openChan (name : List UInt8) (slots : ℕ) (next : ℤ → InitCode)
  | closeChan (chanId : ℕ) (next : ℤ → InitCode)

structure HandlerReg where
  type : ℕ
  fn : Option ℕ

structure Module where
  handlers : List HandlerReg
  init : Option InitCode
  fini : Bool

structure ModReg where
  modules : List Module
  dispatch : ℕ → Option ℕ

def gmkMaxModules : ℕ := 64

def gmkModuleRegInit : ModReg := ⟨[], fun _ => none⟩

/-- The loop over a module's handlers. -/
def registerHandlers (dispatch : ℕ → Option ℕ) : List HandlerReg → ℤ × (ℕ → Option ℕ)
  | [] => (0, dispatch)
  | h :: hs =>
      if gmkMaxHandlers ≤ h.type then (gmkFail gmkErrInvalid, dispatch)
      else if (dispatch h.type).isSome then (gmkFail gmkErrExists, dispatch)
      else registerHandlers (Function.update dispatch h.type h.fn) hs

def gmkModuleRegister (mr : ModReg) (mod : Module) : ℤ × ModReg :=
  if gmkMaxModules ≤ mr.modules.length then (gmkFail gmkErrFull, mr)
  else
    let r := registerHandlers mr.dispatch mod.handlers
    if r.1 = 0 then (0, ⟨mr.modules ++ [mod], r.2⟩) else (r.1, { mr with dispatch := r.2 })

/-- The loop of `gmk_boot` over the module array, whose null entries are skipped. -/
def registerAll (mr : ModReg) : List (Option Module) → Bool × ModReg
  | [] => (true, mr)
  | none :: mods => registerAll mr mods
  | some mod :: mods =>
      let r := gmkModuleRegister mr mod
      if r.1 = 0 then registerAll r.2 mods else (false, r.2)

def InitCode.run (w : World) (cr : ChanRegMem) : InitCode → ℤ × ChanRegMem × World
  | .ret rc => (rc, cr, w)
  | .openChan name slots next =>
      let r := gmkChanOpen w cr name slots
      (next r.1).run r.2.2 r.2.1
  | .closeChan chanId next =>
      let r := gmkChanClose cr chanId
      (next r.1).run w r.2

/-- A module without an init is passed over. -/
def Module.runInit (mod : Module) (w : World) (cr : ChanRegMem) : ℤ × ChanRegMem × World :=
  match mod.init with
  | some code => code.run w cr
  | none => (0, cr, w)

/-- `passed` are the positions of the modules that have been initialised. -/
structure InitRun where
  rc : ℤ
  passed : List ℕ
  chan : ChanRegMem
  world : World

/-- The loop of `gmk_module_init_all` from position `i` on. -/
def gmkModuleInitAll (w : World) (cr : ChanRegMem) (i : ℕ) : List Module → InitRun
  | [] => ⟨0, [], cr, w⟩
  | mod :: mods =>
      let r := mod.runInit w cr
      if r.1 ≠ 0 then ⟨r.1, [], r.2.1, r.2.2⟩
      else
        let rest := gmkModuleInitAll r.2.2 r.2.1 (i + 1) mods
        { rest with passed := i :: rest.passed }

def hasFini (mods : List Module) (i : ℕ) : Bool := (mods[i]?).any Module.fini

/-- The positions below `n` whose fini is called, from the last one down. -/
def finiBelow (mods : List Module) : ℕ → List ℕ
  | 0 => []
  | n + 1 => if hasFini mods n then n :: finiBelow mods n else finiBelow mods n

def gmkModuleFiniAll (mods : List Module) : List ℕ := finiBelow mods mods.length

/-! ## Boot -/

structure BootCfg where
  arenaSize : ℕ
  nWorkers : ℕ
  nTenants : ℕ

def gmkDefaultArenaSize : ℕ := 64 * 1024 * 1024
def gmkDefaultWorkers : ℕ := 4
def gmkDefaultTenants : ℕ := 1

def withDefaults (cfg : Option BootCfg) : BootCfg :=
  let cfg := cfg.getD ⟨gmkDefaultArenaSize, gmkDefaultWorkers, gmkDefaultTenants⟩
  { arenaSize := if cfg.arenaSize = 0 then gmkDefaultArenaSize else cfg.arenaSize
    nWorkers := if cfg.nWorkers = 0 then gmkDefaultWorkers else cfg.nWorkers
    nTenants := if cfg.nTenants = 0 then gmkDefaultTenants else cfg.nTenants }

/-- What the stages before the modules have set up. -/
structure Parts where
  arena : ArenaMem
  trace : List RingMem
  sched : SchedMem
  chan : ChanRegMem

/-- No memory, so nothing to destroy either. -/
def gmkMetricsInit (nTenants : ℕ) : Bool := !(nTenants == 0 || decide (gmkMaxTenants < nTenants))

/-! The labels of the ladder; each falls through to the one before it. -/

def failTrace (w : World) (arena : ArenaMem) : World := gmkAllocDestroy w arena

def failMetrics (w : World) (arena : ArenaMem) (trace : List RingMem) : World :=
  failTrace (gmkTraceDestroy w trace) arena

def failSched (w : World) (arena : ArenaMem) (trace : List RingMem) : World :=
  failMetrics w arena trace

def failChan (w : World) (arena : ArenaMem) (trace : List RingMem) (sched : SchedMem) : World :=
  failSched (gmkSchedDestroy w sched) arena trace

def failMod (w : World) (p : Parts) : World :=
  failChan (gmkChanRegDestroy w p.chan) p.arena p.trace p.sched

/-- Stages 1 to 6; the module registry is only zeroed. -/
def bootParts (w : World) (cfg : BootCfg) : Option Parts × World :=
  match gmkAllocInit w cfg.arenaSize with
  | (none, w) => (none, w)
  | (some arena, w) =>
      match gmkTraceInit w cfg.nTenants with
      | (none, w) => (none, failTrace w arena)
      | (some trace, w) =>
          if !gmkMetricsInit cfg.nTenants then (none, failMetrics w arena trace)
          else
            match gmkSchedInit w cfg.nWorkers with
            | (none, w) => (none, failSched w arena trace)
            | (some sched, w) =>
                match gmkChanRegInit w with
                | (none, w) => (none, failChan w arena trace sched)
                | (some chan, w) => (some ⟨arena, trace, sched, chan⟩, w)

structure KernelMem where
  parts : Parts
  modules : List Module
  workers : ℕ

/-- The outcome of `gmk_boot`: a kernel or a failure, what the host has seen, and the
positions of the modules that were initialised and of those finalised, in order. -/
structure BootRun where
  kernel : Option KernelMem
  world : World
  registered : List Module
  passed : List ℕ
  finis : List ℕ

/-- Stages 9 and 10, with the exits `fail_pool` and `fail_start`. -/
def bootWorkers (w : World) (nWorkers : ℕ) (p : Parts) (mods : List Module) (passed : List ℕ) :
    BootRun :=
  match gmkWorkerPoolInit w nWorkers with
  | (none, w) => ⟨none, failMod w p, mods, passed, gmkModuleFiniAll mods⟩
  | (some workers, w) =>
      match gmkWorkerPoolStart w nWorkers with
      | (false, w) => ⟨none, failMod (gmkWorkerPoolDestroy w workers) p, mods, passed,
          gmkModuleFiniAll mods⟩
      | (true, w) => ⟨some ⟨p, mods, workers⟩, w, mods, passed, []⟩

/-- Stages 8 to 10; `fail_init` stands below the call of `gmk_module_fini_all`. -/
def bootModules (w : World) (nWorkers : ℕ) (p : Parts) (mods : List Module) : BootRun :=
  let inits := gmkModuleInitAll w p.chan 0 mods
  let p := { p with chan := inits.chan }
  if inits.rc ≠ 0 then ⟨none, failMod inits.world p, mods, inits.passed, []⟩
  else bootWorkers inits.world nWorkers p mods inits.passed

def gmkBoot (w : World) (cfg : Option BootCfg) (mods : List (Option Module)) : BootRun :=
  let cfg := withDefaults cfg
  match bootParts w cfg with
  | (none, w) => ⟨none, w, [], [], []⟩
  | (some p, w) =>
      match registerAll gmkModuleRegInit mods with
      | (false, mr) => ⟨none, failMod w p, mr.modules, [], []⟩
      | (true, mr) => bootModules w cfg.nWorkers p mr.modules

/-- The positions of the modules that `gmk_halt` finalises, and the host after it. -/
def gmkHalt (w : World) (k : KernelMem) : List ℕ × World :=
  let w := gmkWorkerPoolDestroy w k.workers
  let finis := gmkModuleFiniAll k.modules
  let w := gmkChanRegDestroy w k.parts.chan
  let w := gmkSchedDestroy w k.parts.sched
  let w := gmkTraceDestroy w k.parts.trace
  (finis, gmkAllocDestroy w k.parts.arena)

/-! ## Memory -/

def Parts.held (p : Parts) : Multiset Buffer :=
  p.chan.held + (p.sched.held + (ringsHeld p.trace + p.arena.held))

section Specs
variable {w w' : World} {m : Multiset Buffer} {p : Parts}

theorem failMod_spec (hcr : p.chan.Wf) (h : w.Holds (p.held + m)) : (failMod w p).Holds m := by
  simp only [Parts.held, add_assoc] at h
  exact gmkAllocDestroy_spec (destroyRings_spec (gmkSchedDestroy_spec
    (gmkChanRegDestroy_spec hcr h)))

theorem bootParts_spec (h : w.Holds m) {cfg : BootCfg} {r : Option Parts}
    (he : bootParts w cfg = (r, w')) :
    w'.Holds (r.elim 0 Parts.held + m) ∧ ∀ p, r = some p → p.chan.Wf := by
  unfold bootParts at he
  split at he
  next w₁ harena =>
    have h₁ := gmkAllocInit_spec h harena
    obtain ⟨rfl, rfl⟩ := Prod.mk.inj he
    exact ⟨h₁, by simp⟩
  next arena w₁ harena =>
    have h₁ := gmkAllocInit_spec h harena
    split at he
    next w₂ htrace =>
      have h₂ := gmkTraceInit_spec h₁ htrace
      obtain ⟨rfl, rfl⟩ := Prod.mk.inj he
      simp only [Option.elim_none, Option.elim_some, zero_add] at h₂ ⊢
      exact ⟨gmkAllocDestroy_spec h₂, by simp⟩
    next trace w₂ htrace =>
      have h₂ := gmkTraceInit_spec h₁ htrace
      split at he
      next =>
        obtain ⟨rfl, rfl⟩ := Prod.mk.inj he
        simp only [Option.elim_none, Option.elim_some, zero_add] at h₂ ⊢
        exact ⟨gmkAllocDestroy_spec (destroyRings_spec h₂), by simp⟩
      next =>
        split at he
        next w₃ hsched =>
          have h₃ := gmkSchedInit_spec h₂ hsched
          obtain ⟨rfl, rfl⟩ := Prod.mk.inj he
          simp only [Option.elim_none, Option.elim_some, zero_add] at h₃ ⊢
          exact ⟨gmkAllocDestroy_spec (destroyRings_spec h₃), by simp⟩
        next sched w₃ hsched =>
          have h₃ := gmkSchedInit_spec h₂ hsched
          split at he
          next w₄ hchan =>
            obtain ⟨h₄, -⟩ := gmkChanRegInit_spec h₃ hchan
            obtain ⟨rfl, rfl⟩ := Prod.mk.inj he
            simp only [Option.elim_none, Option.elim_some, zero_add] at h₄ ⊢
            exact ⟨gmkAllocDestroy_spec (destroyRings_spec (gmkSchedDestroy_spec h₄)), by simp⟩
          next chan w₄ hchan =>
            obtain ⟨h₄, hwf⟩ := gmkChanRegInit_spec h₃ hchan
            obtain ⟨rfl, rfl⟩ := Prod.mk.inj he
            constructor
            · apply h₄.congr
              simp only [Parts.held, Option.elim_some, add_assoc]
            · intro p hp
              obtain rfl := Option.some.inj hp
              exact hwf chan rfl

/-- Whatever channels a module opens and closes, the registry holds their rings. -/
theorem InitCode.run_spec (code : InitCode) {cr : ChanRegMem} (hcr : cr.Wf)
    (h : w.Holds (cr.held + m)) :
    (code.run w cr).2.1.Wf ∧ (code.run w cr).2.2.Holds ((code.run w cr).2.1.held + m) := by
  induction code generalizing w cr with
  | ret rc => exact ⟨hcr, h⟩
  | openChan name slots next ih =>
    obtain ⟨hcr', h'⟩ :=
      gmkChanOpen_spec hcr h (Prod.eta (gmkChanOpen w cr name slots)).symm
    exact ih _ hcr' h'
  | closeChan chanId next ih =>
    obtain ⟨hcr', hheld⟩ := gmkChanClose_spec hcr chanId
    exact ih _ hcr' (h.congr (by rw [hheld]))

theorem Module.runInit_spec (mod : Module) {cr : ChanRegMem} (hcr : cr.Wf)
    (h : w.Holds (cr.held + m)) :
    (mod.runInit w cr).2.1.Wf ∧ (mod.runInit w cr).2.2.Holds ((mod.runInit w cr).2.1.held + m) := by
  unfold Module.runInit
  split
  next code _ => exact code.run_spec hcr h
  next => exact ⟨hcr, h⟩

theorem gmkModuleInitAll_spec (mods : List Module) (i : ℕ) {cr : ChanRegMem} (hcr : cr.Wf)
    (h : w.Holds (cr.held + m)) : (gmkModuleInitAll w cr i mods).chan.Wf ∧
      (gmkModuleInitAll w cr i mods).world.Holds ((gmkModuleInitAll w cr i mods).chan.held + m) := by
  induction mods generalizing w cr i with
  | nil => exact ⟨hcr, h⟩
  | cons mod mods ih =>
    obtain ⟨hcr', h'⟩ := mod.runInit_spec hcr h
    simp only [gmkModuleInitAll]
    split
    next => exact ⟨hcr', h'⟩
    next => exact ih (i + 1) hcr' h'

/-- What a run of `gmk_boot` or of its last stages holds at its end. -/
structure BootRun.Accounted (r : BootRun) : Prop where
  holds : r.world.Holds (r.kernel.elim 0 fun k => {⟨k.workers, .calloc⟩} + k.parts.held)
  wf : ∀ k, r.kernel = some k → k.parts.chan.Wf

/-- An exit through the ladder. -/
theorem accounted_failMod (hcr : p.chan.Wf) (h : w.Holds (p.held + 0)) (mods : List Module)
    (passed finis : List ℕ) : BootRun.Accounted ⟨none, failMod w p, mods, passed, finis⟩ :=
  ⟨failMod_spec hcr h, by simp⟩

theorem bootWorkers_spec (hcr : p.chan.Wf) (h : w.Holds (p.held + 0)) (n : ℕ) (mods : List Module)
    (passed : List ℕ) : (bootWorkers w n p mods passed).Accounted := by
  unfold bootWorkers
  split
  next w₁ hpool =>
    have h₁ := gmkWorkerPoolInit_spec h hpool
    simp only [heldBuf, Option.elim_none, zero_add] at h₁
    exact accounted_failMod hcr h₁ _ _ _
  next workers w₁ hpool =>
    have h₁ := gmkWorkerPoolInit_spec h hpool
    split
    next w₂ hstart =>
      have h₂ := gmkWorkerPoolStart_spec h₁ hstart
      exact accounted_failMod hcr h₂.release _ _ _
    next w₂ hstart =>
      have h₂ := gmkWorkerPoolStart_spec h₁ hstart
      constructor
      · apply h₂.congr
        rw [add_zero]
        rfl
      · intro k hk
        obtain rfl := Option.some.inj hk
        exact hcr

theorem bootModules_spec (hcr : p.chan.Wf) (h : w.Holds (p.held + 0)) (n : ℕ)
    (mods : List Module) : (bootModules w n p mods).Accounted := by
  have hinit : w.Holds (p.chan.held + (p.sched.held + (ringsHeld p.trace + p.arena.held))) :=
    h.congr (add_zero _)
  obtain ⟨hcr', h₁⟩ := gmkModuleInitAll_spec mods 0 hcr hinit
  unfold bootModules
  generalize gmkModuleInitAll w p.chan 0 mods = inits at hcr' h₁
  let p' : Parts := { p with chan := inits.chan }
  have h₁ : inits.world.Holds (p'.held + 0) := h₁.congr (add_zero _).symm
  have hcr' : p'.chan.Wf := hcr'
  simp only
  split
  next => exact accounted_failMod hcr' h₁ _ _ _
  next => exact bootWorkers_spec hcr' h₁ _ _ _

/-- A failed boot holds nothing; a booted kernel holds its parts and its workers. -/
theorem gmkBoot_spec (h : w.Holds 0) (cfg : Option BootCfg) (mods : List (Option Module)) :
    (gmkBoot w cfg mods).Accounted := by
  unfold gmkBoot
  simp only
  split
  next w₁ hparts =>
    obtain ⟨h₁, -⟩ := bootParts_spec h hparts
    exact ⟨h₁, by simp⟩
  next p w₁ hparts =>
    obtain ⟨h₁, hwf⟩ := bootParts_spec h hparts
    rw [Option.elim_some] at h₁
    split
    next => exact accounted_failMod (hwf p rfl) h₁ _ _ _
    next => exact bootModules_spec (hwf p rfl) h₁ _ _

theorem gmkHalt_spec {k : KernelMem} (hcr : k.parts.chan.Wf)
    (h : w.Holds ({⟨k.workers, .calloc⟩} + k.parts.held)) : (gmkHalt w k).2.Holds 0 := by
  have h₁ : (gmkWorkerPoolDestroy w k.workers).Holds (k.parts.held + 0) :=
    h.release.congr (add_zero _).symm
  exact failMod_spec hcr h₁

theorem World.Holds.settled (h : w.Holds 0) : Settled w.log := settled_of_run h.run_eq h.once

end Specs

/-- Before the first call to the host. -/
def World.start (answers : ℕ → Bool) : World := ⟨answers, 0, []⟩

theorem World.start_holds (answers : ℕ → Bool) : (World.start answers).Holds 0 :=
  ⟨rfl, by simp [World.start], by simp [World.start]⟩

/-- Whatever the host refuses and whatever channels the modules open, a boot that fails has
freed every buffer exactly once with its size, and so has a halt after one that succeeds. -/
theorem boot_frees_buffers (answers : ℕ → Bool) (cfg : Option BootCfg)
    (mods : List (Option Module)) :
    ((gmkBoot (.start answers) cfg mods).kernel = none →
      Settled (gmkBoot (.start answers) cfg mods).world.log) ∧
    ∀ k, (gmkBoot (.start answers) cfg mods).kernel = some k →
      Settled (gmkHalt (gmkBoot (.start answers) cfg mods).world k).2.log := by
  obtain ⟨h, hwf⟩ := gmkBoot_spec (World.start_holds answers) cfg mods
  constructor
  · intro hnone
    rw [hnone] at h
    exact h.settled
  · intro k hk
    rw [hk] at h
    exact (gmkHalt_spec (hwf k hk) h).settled

/-! ## Modules that are finalised -/

/-- The positions of the modules that have a fini. -/
def finiPositions (mods : List Module) (ps : List ℕ) : List ℕ := ps.filter (hasFini mods)

/-- A boot that fails finalises what it initialised, in reverse order; a halt after one that
succeeds finalises every module of the array. -/
structure Paired (mods : List (Option Module)) (r : BootRun) : Prop where
  failed : r.kernel = none → r.finis = (finiPositions r.registered r.passed).reverse
  halted : ∀ k, r.kernel = some k → r.finis = [] ∧ (gmkHalt r.world k).1 =
    (finiPositions mods.reduceOption (List.range mods.reduceOption.length)).reverse

/-- The init of a module fails after a module with a fini has been passed; `seen` tells
whether there was one before. -/
def FailsAfterFini (w : World) (cr : ChanRegMem) (seen : Bool) : List Module → Prop
  | [] => False
  | mod :: mods =>
      let r := mod.runInit w cr
      if r.1 ≠ 0 then seen = true else FailsAfterFini r.2.2 r.2.1 (seen || mod.fini) mods

theorem finiBelow_eq (mods : List Module) (n : ℕ) :
    finiBelow mods n = (finiPositions mods (List.range n)).reverse := by
  induction n with
  | zero => rfl
  | succ n ih =>
    rw [finiBelow, finiPositions, List.range_succ, List.filter_append, List.reverse_append, ih]
    by_cases hfini : hasFini mods n
    · simp [hfini, finiPositions]
    · simp [hfini, finiPositions]

theorem registerAll_modules {mr mr' : ModReg} {mods : List (Option Module)}
    (h : registerAll mr mods = (true, mr')) : mr'.modules = mr.modules ++ mods.reduceOption := by
  induction mods generalizing mr with
  | nil =>
    obtain ⟨-, rfl⟩ := Prod.mk.inj h
    simp
  | cons mod mods ih =>
    cases mod with
    | none => exact ih h
    | some mod =>
      simp only [registerAll] at h
      split at h
      next hrc =>
        rw [ih h]
        have hadd : (gmkModuleRegister mr mod).2.modules = mr.modules ++ [mod] := by
          unfold gmkModuleRegister at hrc ⊢
          split at hrc
          next => exact absurd hrc (show gmkFail gmkErrFull ≠ 0 by decide)
          next hroom =>
            simp only at hrc ⊢
            split at hrc
            next hok => simp only [if_neg hroom, if_pos hok]
            next hok => exact absurd hrc hok
        simp [hadd]
      next => simp at h

section Inits
variable {w : World} {cr : ChanRegMem} {i : ℕ} {mods : List Module}

/-- Every module is passed when no init fails. -/
theorem gmkModuleInitAll_passed (h : (gmkModuleInitAll w cr i mods).rc = 0) :
    (gmkModuleInitAll w cr i mods).passed = List.range' i mods.length := by
  induction mods generalizing w cr i with
  | nil => rfl
  | cons mod mods ih =>
    simp only [gmkModuleInitAll] at h ⊢
    split at h
    next hrc => exact absurd h hrc
    next hrc =>
      simp only [if_neg hrc, List.length_cons, List.range'_succ]
      exact congrArg _ (ih h)

/-- The init loop stops behind a module with a fini, where `pre` are the modules before it. -/
theorem failsAfterFini_iff {pre : List Module} (hpre : pre.length = i) (seen : Bool) :
    FailsAfterFini w cr seen mods ↔ (gmkModuleInitAll w cr i mods).rc ≠ 0 ∧
      (seen = true ∨ finiPositions (pre ++ mods) (gmkModuleInitAll w cr i mods).passed ≠ []) := by
  induction mods generalizing w cr i seen pre with
  | nil => simp [FailsAfterFini, gmkModuleInitAll]
  | cons mod mods ih =>
    simp only [FailsAfterFini, gmkModuleInitAll]
    by_cases hrc : (mod.runInit w cr).1 ≠ 0
    · simp [hrc, finiPositions]
    · have hsplit : pre ++ mod :: mods = (pre ++ [mod]) ++ mods := by simp
      have hhead : hasFini ((pre ++ [mod]) ++ mods) i = mod.fini := by
        simp [hasFini, ← hpre]
      simp only [if_neg hrc]
      rw [ih (show (pre ++ [mod]).length = i + 1 by simp [hpre]), hsplit]
      simp only [finiPositions, List.filter_cons, hhead]
      cases seen <;> cases mod.fini <;> simp

end Inits

/-- The boot took the exit that skips `gmk_module_fini_all` and left modules behind that have
a fini. -/
def LeavesModules (p : Parts) (w : World) (mods : List (Option Module)) : Prop :=
  (registerAll gmkModuleRegInit mods).1 = true ∧ FailsAfterFini w p.chan false mods.reduceOption

/-- The last stages finalise all modules or none. -/
theorem bootWorkers_paired {w : World} {n : ℕ} {p : Parts} {mods : List (Option Module)}
    {passed : List ℕ} (hpassed : passed = List.range mods.reduceOption.length) :
    Paired mods (bootWorkers w n p mods.reduceOption passed) := by
  subst hpassed
  have hall : gmkModuleFiniAll mods.reduceOption =
      (finiPositions mods.reduceOption (List.range mods.reduceOption.length)).reverse :=
    finiBelow_eq _ _
  unfold bootWorkers
  split
  next => exact ⟨fun _ => hall, by simp⟩
  next =>
    split
    next => exact ⟨fun _ => hall, by simp⟩
    next =>
      refine ⟨by simp, ?_⟩
      intro k hk
      obtain rfl := Option.some.inj hk
      exact ⟨rfl, hall⟩

/-- The init loop and the stages behind it. -/
theorem bootModules_paired_iff {w : World} {n : ℕ} {p : Parts} {mods : List (Option Module)} :
    Paired mods (bootModules w n p mods.reduceOption) ↔
      ¬ FailsAfterFini w p.chan false mods.reduceOption := by
  rw [failsAfterFini_iff (show ([] : List Module).length = 0 from rfl)]
  unfold bootModules
  have hpassed : (gmkModuleInitAll w p.chan 0 mods.reduceOption).rc = 0 →
      (gmkModuleInitAll w p.chan 0 mods.reduceOption).passed =
        List.range' 0 mods.reduceOption.length := gmkModuleInitAll_passed
  generalize gmkModuleInitAll w p.chan 0 mods.reduceOption = inits at hpassed ⊢
  simp only [Bool.false_eq_true, false_or, List.nil_append]
  by_cases hrc : inits.rc ≠ 0
  · rw [if_pos hrc]
    constructor
    · rintro hp ⟨-, hne⟩
      have hempty := hp.failed rfl
      exact hne (List.reverse_eq_nil_iff.mp hempty.symm)
    · intro hnot
      have hempty : finiPositions mods.reduceOption inits.passed = [] := by
        by_contra hne
        exact hnot ⟨hrc, hne⟩
      refine ⟨fun _ => ?_, by simp⟩
      simp only [hempty, List.reverse_nil]
  · rw [if_neg hrc]
    refine ⟨fun _ h => hrc h.1, fun _ => ?_⟩
    apply bootWorkers_paired
    rw [hpassed (not_not.mp hrc), List.range_eq_range']

/-- Once the parts before the modules are set up, init and fini are paired exactly unless the
init of a module fails behind a module with a fini. -/
theorem boot_paired_iff {w w' : World} {cfg : Option BootCfg} {mods : List (Option Module)}
    {p : Parts} (hparts : bootParts w (withDefaults cfg) = (some p, w')) :
    Paired mods (gmkBoot w cfg mods) ↔ ¬ LeavesModules p w' mods := by
  cases hreg : registerAll gmkModuleRegInit mods with
  | mk ok mr =>
    cases ok with
    | false =>
      simp only [gmkBoot, hparts, hreg, LeavesModules]
      constructor
      · rintro - ⟨hok, -⟩
        exact absurd hok (by simp)
      · intro _
        exact ⟨fun _ => rfl, by simp⟩
    | true =>
      have hmods : mr.modules = mods.reduceOption := registerAll_modules hreg
      simp only [gmkBoot, hparts, hreg, LeavesModules, hmods, true_and]
      exact bootModules_paired_iff

/-- A host that refuses nothing. -/
def generous : World := .start fun _ => true

def smallCfg : Option BootCfg := some ⟨4096, 1, 1⟩

/-- A module with init and fini whose init returns `rc`. -/
def plainModule (rc : ℤ) : Module := ⟨[], some (.ret rc), true⟩

theorem bootParts_small : (bootParts generous (withDefaults smallCfg)).1.isSome = true := by
  decide

/-- The second module has no fini of its own, the first one is finalised by the halt. -/
theorem boot_paired_small :
    Paired [some (plainModule 0), none, some ⟨[], none, false⟩]
      (gmkBoot generous smallCfg [some (plainModule 0), none, some ⟨[], none, false⟩]) := by
  obtain ⟨p, hp⟩ := Option.isSome_iff_exists.mp bootParts_small
  refine (boot_paired_iff (Prod.ext hp rfl)).mpr ?_
  rintro ⟨-, hfails⟩
  simp [FailsAfterFini, Module.runInit, plainModule, InitCode.run, List.reduceOption] at hfails

/-- The init of the second module fails, and the first module, which was initialised, is
not finalised. -/
theorem boot_unpaired : ¬ Paired [some (plainModule 0), some (plainModule (-1))]
    (gmkBoot generous smallCfg [some (plainModule 0), some (plainModule (-1))]) := by
  intro hp
  have hnone : (gmkBoot generous smallCfg
      [some (plainModule 0), some (plainModule (-1))]).kernel = none := by
    apply Option.isNone_iff_eq_none.mp
    decide
  have hfinis := hp.failed hnone
  exact absurd hfinis (by decide)

end Ggmk.Lifecycle

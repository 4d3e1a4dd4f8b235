import Ggmk.Lifecycle.Boot
import Ggmk.Boot
import Ggmk.Lib.Reach
import Ggmk.Lib.Tally

/-! The module registry of `module.c` with all its tables. `gmk_module_register` writes the
tables while it checks the handlers, and keeps what it wrote when a later handler is
refused. -/
namespace Ggmk.Registration
open Guarded

structure HandlerReg where
  type : UInt32
  fn : Option ℕ
  name : Option String
  maxYields : UInt32

structure Module where
  name : String
  handlers : List HandlerReg

/-- The part that dispatching reads is the kernel's. -/
structure Registry extends ModuleReg where
  handlerNames : ℕ → Option String
  maxYields : ℕ → UInt32
  modules : ℕ → Option Module
  nModules : ℕ
  nHandlers : UInt32

def gmkModuleRegInit : Registry where
  toModuleReg := Ggmk.gmkModuleRegInit fun _ => none
  handlerNames _ := none
  maxYields _ := 0
  modules _ := none
  nModules := 0
  nHandlers := 0

/-- Zero asks for the default. -/
def HandlerReg.limit (h : HandlerReg) : UInt32 :=
  if 0 < h.maxYields then h.maxYields else UInt32.ofNat gmkDefaultMaxYields

namespace Registry

/-- One round of the loop, for a handler that passed the checks. -/
def install (mr : Registry) (h : HandlerReg) : Registry :=
  { mr with
    dispatch := Function.update mr.dispatch h.type.toNat h.fn
    handlerNames := Function.update mr.handlerNames h.type.toNat h.name
    maxYields := Function.update mr.maxYields h.type.toNat h.limit
    nHandlers := mr.nHandlers + 1 }

def addModule (mr : Registry) (mod : Module) : Registry :=
  { mr with
    modules := Function.update mr.modules mr.nModules (some mod)
    nModules := mr.nModules + 1 }

end Registry

/-- The loop over a module's handlers. -/
def registerHandlers : Registry → List HandlerReg → ℤ × Registry
  | mr, [] => (0, mr)
  | mr, h :: hs =>
      if gmkMaxHandlers ≤ h.type.toNat then (gmkFail gmkErrInvalid, mr)
      else if (mr.dispatch h.type.toNat).isSome then (gmkFail gmkErrExists, mr)
      else registerHandlers (mr.install h) hs

def gmkModuleRegister (mr : Registry) (mod : Module) : ℤ × Registry :=
  if gmkMaxModules ≤ mr.nModules then (gmkFail gmkErrFull, mr)
  else
    let (rc, mr) := registerHandlers mr mod.handlers
    if rc = 0 then (0, mr.addModule mod) else (rc, mr)

/-- The handler record as booting knows it. -/
def HandlerReg.forBoot (h : HandlerReg) : Lifecycle.HandlerReg := ⟨h.type.toNat, h.fn⟩

/-- The loop of the boot model is this one, seen through the dispatch table. -/
theorem registerHandlers_forBoot (mr : Registry) (hs : List HandlerReg) :
    Lifecycle.registerHandlers mr.dispatch (hs.map HandlerReg.forBoot) =
      ((registerHandlers mr hs).1, (registerHandlers mr hs).2.dispatch) := by
  induction hs generalizing mr with
  | nil => rfl
  | cons h hs ih =>
    rw [List.map_cons, Lifecycle.registerHandlers, registerHandlers]
    by_cases hrange : gmkMaxHandlers ≤ h.forBoot.type
    · rw [if_pos hrange, if_pos (show gmkMaxHandlers ≤ h.type.toNat from hrange)]
    rw [if_neg hrange, if_neg (show ¬ gmkMaxHandlers ≤ h.type.toNat from hrange)]
    by_cases htaken : (mr.dispatch h.forBoot.type).isSome
    · rw [if_pos htaken, if_pos (show (mr.dispatch h.type.toNat).isSome from htaken)]
    rw [if_neg htaken, if_neg (show ¬ (mr.dispatch h.type.toNat).isSome from htaken)]
    exact ih (mr.install h)

/-! ## What the loop does -/

def HandlerReg.NonNull (h : HandlerReg) : Prop := h.fn.isSome

def Module.NonNull (mod : Module) : Prop := ∀ h ∈ mod.handlers, h.NonNull

namespace Registry
variable {mr : Registry} {h : HandlerReg} {hs : List HandlerReg}

/-- The handler passes both checks. -/
def Takes (mr : Registry) (h : HandlerReg) : Prop :=
  h.type.toNat < gmkMaxHandlers ∧ mr.dispatch h.type.toNat = none

/-- All types are in range, free and different. -/
def Fits (mr : Registry) (hs : List HandlerReg) : Prop :=
  (∀ h ∈ hs, mr.Takes h) ∧ (hs.map HandlerReg.type).Nodup

instance (mr : Registry) (h : HandlerReg) : Decidable (mr.Takes h) :=
  inferInstanceAs (Decidable (_ ∧ _))

instance (mr : Registry) (hs : List HandlerReg) : Decidable (mr.Fits hs) :=
  inferInstanceAs (Decidable (_ ∧ _))

def installAll (mr : Registry) (hs : List HandlerReg) : Registry := hs.foldl install mr

/-- What the three tables hold for a type. -/
def entry (mr : Registry) (type : ℕ) : Option ℕ × Option String × UInt32 :=
  (mr.dispatch type, mr.handlerNames type, mr.maxYields type)

theorem install_entry_self : (mr.install h).entry h.type.toNat = (h.fn, h.name, h.limit) := by
  simp only [install, entry, Function.update_self]

theorem install_entry_of_ne {type : ℕ} (hne : h.type.toNat ≠ type) :
    (mr.install h).entry type = mr.entry type := by
  simp only [install, entry, Function.update_of_ne hne.symm]

/-- An installed type is taken; the other types stay as they were. -/
theorem install_takes_iff (hfn : h.NonNull) (g : HandlerReg) :
    (mr.install h).Takes g ↔ mr.Takes g ∧ h.type ≠ g.type := by
  unfold Takes
  by_cases he : h.type = g.type
  · have hself : (mr.install h).dispatch g.type.toNat = h.fn := by
      rw [← he]
      exact congrArg Prod.fst install_entry_self
    have hne : h.fn ≠ none := Option.isSome_iff_ne_none.mp hfn
    simp [hself, hne, he]
  · have hne : h.type.toNat ≠ g.type.toNat := fun hn => he (UInt32.toNat.inj hn)
    have hsame : (mr.install h).dispatch g.type.toNat = mr.dispatch g.type.toNat :=
      congrArg Prod.fst (install_entry_of_ne hne)
    simp [hsame, he]

theorem fits_cons_iff (hfn : h.NonNull) :
    mr.Fits (h :: hs) ↔ mr.Takes h ∧ (mr.install h).Fits hs := by
  unfold Fits
  simp only [List.forall_mem_cons, List.map_cons, List.nodup_cons, install_takes_iff hfn,
    List.mem_map, not_exists, not_and]
  constructor
  · rintro ⟨⟨hh, hall⟩, hne, hnd⟩
    exact ⟨hh, fun g hg => ⟨hall g hg, fun he => hne g hg he.symm⟩, hnd⟩
  · rintro ⟨hh, hall, hnd⟩
    exact ⟨⟨hh, fun g hg => (hall g hg).1⟩, fun g hg he => (hall g hg).2 he.symm, hnd⟩

/-- Where the loop ends: behind the last handler, or at the first one that is refused. -/
inductive LoopCase (mr : Registry) (hs : List HandlerReg) : ℤ × Registry → Prop
  | all (hfits : mr.Fits hs) : LoopCase mr hs (0, mr.installAll hs)
  | stops (pre : List HandlerReg) (h : HandlerReg) (post : List HandlerReg) (rc : ℤ)
      (hsplit : hs = pre ++ h :: post) (hpre : mr.Fits pre)
      (hrefused : ¬ (mr.installAll pre).Takes h) (hrc : rc ≠ 0) :
      LoopCase mr hs (rc, mr.installAll pre)

theorem registerHandlers_cases (hfn : ∀ h ∈ hs, h.NonNull) :
    LoopCase mr hs (registerHandlers mr hs) := by
  induction hs generalizing mr with
  | nil => exact .all ⟨by simp, by simp⟩
  | cons h hs ih =>
    have hnil : mr.Fits [] := ⟨by simp, by simp⟩
    rw [List.forall_mem_cons] at hfn
    rw [registerHandlers]
    by_cases hrange : gmkMaxHandlers ≤ h.type.toNat
    · rw [if_pos hrange]
      exact .stops [] h hs _ rfl hnil (fun ht => absurd ht.1 (not_lt.mpr hrange)) (by decide)
    rw [if_neg hrange]
    by_cases htaken : (mr.dispatch h.type.toNat).isSome
    · rw [if_pos htaken]
      exact .stops [] h hs _ rfl hnil
        (fun ht => absurd ht.2 (Option.isSome_iff_ne_none.mp htaken)) (by decide)
    rw [if_neg htaken]
    have htakes : mr.Takes h := ⟨not_le.mp hrange, Option.not_isSome_iff_eq_none.mp htaken⟩
    have hc := @ih (mr.install h) hfn.2
    generalize registerHandlers (mr.install h) hs = r at hc ⊢
    cases hc with
    | all hfits => exact .all ((fits_cons_iff hfn.1).mpr ⟨htakes, hfits⟩)
    | stops pre g post rc hsplit hpre hrefused hrc =>
      exact .stops (h :: pre) g post rc (by rw [hsplit]; rfl)
        ((fits_cons_iff hfn.1).mpr ⟨htakes, hpre⟩) hrefused hrc

/-- What the loop leaves behind in the tables. -/
theorem installAll_entry (hfn : ∀ h ∈ hs, h.NonNull) (hfits : mr.Fits hs) :
    (∀ h ∈ hs, (mr.installAll hs).entry h.type.toNat = (h.fn, h.name, h.limit)) ∧
    ∀ type, (∀ h ∈ hs, h.type.toNat ≠ type) → (mr.installAll hs).entry type = mr.entry type := by
  induction hs generalizing mr with
  | nil => exact ⟨by simp, fun _ _ => rfl⟩
  | cons h hs ih =>
    rw [List.forall_mem_cons] at hfn
    obtain ⟨-, hrest⟩ := (fits_cons_iff hfn.1).mp hfits
    obtain ⟨hin, hout⟩ := @ih (mr.install h) hfn.2 hrest
    refine ⟨?_, fun type hne => ?_⟩
    · rw [List.forall_mem_cons]
      refine ⟨?_, hin⟩
      -- the later handlers are of other types
      have hother : ∀ g ∈ hs, g.type.toNat ≠ h.type.toNat := by
        intro g hg hn
        exact ((install_takes_iff hfn.1 g).mp (hrest.1 g hg)).2 (UInt32.toNat.inj hn.symm)
      exact (hout _ hother).trans install_entry_self
    · rw [List.forall_mem_cons] at hne
      exact (hout type hne.2).trans (install_entry_of_ne hne.1)

/-- The loop leaves the module list and the poison state alone. -/
theorem installAll_frame (mr : Registry) (hs : List HandlerReg) :
    (mr.installAll hs).modules = mr.modules ∧ (mr.installAll hs).nModules = mr.nModules ∧
    (mr.installAll hs).failCounts = mr.failCounts ∧ (mr.installAll hs).poisoned = mr.poisoned := by
  induction hs generalizing mr with
  | nil => exact ⟨rfl, rfl, rfl, rfl⟩
  | cons h hs ih => exact ih (mr.install h)

/-- A handler of a fitting list passes the checks when its turn comes. -/
theorem Fits.takes_middle {pre post : List HandlerReg} (hfn : ∀ g ∈ pre, g.NonNull)
    (hfits : mr.Fits (pre ++ h :: post)) : (mr.installAll pre).Takes h := by
  induction pre generalizing mr with
  | nil => exact hfits.1 h List.mem_cons_self
  | cons g pre ih =>
    rw [List.forall_mem_cons] at hfn
    exact @ih (mr.install g) hfn.2 ((fits_cons_iff hfn.1).mp hfits).2

/-! ## The handler count -/

/-- The dispatch entries that are not null. -/
def handlerCount (mr : Registry) : ℕ :=
  {type ∈ Finset.range gmkMaxHandlers | (mr.dispatch type).isSome}.card

def Counted (mr : Registry) : Prop := mr.nHandlers.toNat = mr.handlerCount

theorem handlerCount_le (mr : Registry) : mr.handlerCount ≤ gmkMaxHandlers :=
  (Finset.card_filter_le _ _).trans_eq (Finset.card_range _)

theorem install_handlerCount (hfn : h.NonNull) (ht : mr.Takes h) :
    (mr.install h).handlerCount = mr.handlerCount + 1 := by
  have hsome : h.fn.isSome = true := hfn
  have hs := Tally.sum_update_add (Finset.range gmkMaxHandlers)
    (fun fn : Option ℕ => if fn.isSome then 1 else 0) mr.dispatch (Finset.mem_range.mpr ht.1) h.fn
  rw [if_pos hsome, ht.2] at hs
  have hdispatch : (mr.install h).dispatch = Function.update mr.dispatch h.type.toNat h.fn := rfl
  rw [handlerCount, handlerCount, Finset.card_filter, Finset.card_filter, hdispatch]
  simpa using hs

/-- The counter cannot wrap: it counts entries of a table with 256 places. -/
theorem Counted.install (hc : mr.Counted) (hfn : h.NonNull) (ht : mr.Takes h) :
    (mr.install h).Counted ∧ (mr.install h).nHandlers.toNat = mr.nHandlers.toNat + 1 := by
  have hle := mr.handlerCount_le
  have hadd : (mr.nHandlers + 1).toNat = mr.nHandlers.toNat + 1 := by
    rw [UInt32.toNat_add, UInt32.toNat_one]
    unfold Counted gmkMaxHandlers at *
    omega
  refine ⟨?_, hadd⟩
  rw [Counted, install_handlerCount hfn ht, ← hc]
  exact hadd

theorem Counted.installAll (hc : mr.Counted) (hfn : ∀ h ∈ hs, h.NonNull) (hfits : mr.Fits hs) :
    (mr.installAll hs).Counted ∧
      (mr.installAll hs).nHandlers.toNat = mr.nHandlers.toNat + hs.length := by
  induction hs generalizing mr with
  | nil => exact ⟨hc, rfl⟩
  | cons h hs ih =>
    rw [List.forall_mem_cons] at hfn
    obtain ⟨htakes, hrest⟩ := (fits_cons_iff hfn.1).mp hfits
    obtain ⟨hcount, hn⟩ := hc.install hfn.1 htakes
    obtain ⟨hcount', hn'⟩ := ih hcount hfn.2 hrest
    refine ⟨hcount', ?_⟩
    calc ((mr.install h).installAll hs).nHandlers.toNat
        = (mr.install h).nHandlers.toNat + hs.length := hn'
      _ = mr.nHandlers.toNat + (h :: hs).length := by
        rw [hn, List.length_cons]
        omega

end Registry

/-! ## Registration -/

section Register
variable {mr : Registry} {mod : Module}

/-- `mr'` is `mr` with the handlers of `mod` and `mod` itself, and with nothing else. -/
structure Adds (mr : Registry) (mod : Module) (mr' : Registry) : Prop where
  free : ∀ h ∈ mod.handlers, mr.dispatch h.type.toNat = none
  added : ∀ h ∈ mod.handlers, mr'.entry h.type.toNat = (h.fn, h.name, h.limit)
  others : ∀ type, (∀ h ∈ mod.handlers, h.type.toNat ≠ type) → mr'.entry type = mr.entry type
  nHandlers : mr'.nHandlers.toNat = mr.nHandlers.toNat + mod.handlers.length
  modules : mr'.modules = Function.update mr.modules mr.nModules (some mod)
  nModules : mr'.nModules = mr.nModules + 1
  poison : mr'.failCounts = mr.failCounts ∧ mr'.poisoned = mr.poisoned

/-- An error leaves the registry as it was; a success adds the module and counts the
entries of the dispatch table. -/
def AllOrNothing (mr : Registry) (mod : Module) : Prop :=
  ((gmkModuleRegister mr mod).1 ≠ 0 → (gmkModuleRegister mr mod).2 = mr) ∧
  ((gmkModuleRegister mr mod).1 = 0 →
    Adds mr mod (gmkModuleRegister mr mod).2 ∧ (gmkModuleRegister mr mod).2.Counted)

/-- The registries that successful registrations reach. -/
def Registered : Registry → Prop :=
  Reach (fun mr mod mr' => mr' = (gmkModuleRegister mr mod).2)
    (fun mr mod => mod.NonNull ∧ (gmkModuleRegister mr mod).1 = 0) gmkModuleRegInit

/-- The three outcomes of a registration. -/
inductive RegisterCase (mr : Registry) (mod : Module) : ℤ × Registry → Prop
  | full (hfull : gmkMaxModules ≤ mr.nModules) : RegisterCase mr mod (gmkFail gmkErrFull, mr)
  | added (hroom : mr.nModules < gmkMaxModules) (hfits : mr.Fits mod.handlers) :
      RegisterCase mr mod (0, (mr.installAll mod.handlers).addModule mod)
  | stops (hroom : mr.nModules < gmkMaxModules) (pre : List HandlerReg) (h : HandlerReg)
      (post : List HandlerReg) (rc : ℤ) (hsplit : mod.handlers = pre ++ h :: post)
      (hpre : mr.Fits pre) (hrefused : ¬ (mr.installAll pre).Takes h) (hrc : rc ≠ 0) :
      RegisterCase mr mod (rc, mr.installAll pre)

theorem gmkErrFull_ne : gmkFail gmkErrFull ≠ 0 := by decide

theorem gmkModuleRegister_cases (hfn : mod.NonNull) :
    RegisterCase mr mod (gmkModuleRegister mr mod) := by
  unfold gmkModuleRegister
  by_cases hfull : gmkMaxModules ≤ mr.nModules
  · rw [if_pos hfull]
    exact .full hfull
  rw [if_neg hfull]
  have hc := @Registry.registerHandlers_cases mr mod.handlers hfn
  generalize registerHandlers mr mod.handlers = r at hc ⊢
  cases hc with
  | all hfits => exact .added (not_le.mp hfull) hfits
  | stops pre h post rc hsplit hpre hrefused hrc =>
    simp only [if_neg hrc]
    exact .stops (not_le.mp hfull) pre h post rc hsplit hpre hrefused hrc

theorem adds_installAll (hc : mr.Counted) (hfn : mod.NonNull) (hfits : mr.Fits mod.handlers) :
    Adds mr mod ((mr.installAll mod.handlers).addModule mod) := by
  obtain ⟨hin, hout⟩ := Registry.installAll_entry hfn hfits
  obtain ⟨hmodules, hn, hpoison⟩ := mr.installAll_frame mod.handlers
  exact {
    free := fun h hh => (hfits.1 h hh).2
    added := hin
    others := hout
    nHandlers := (hc.installAll hfn hfits).2
    modules := by rw [← hmodules, ← hn]; rfl
    nModules := congrArg (· + 1) hn
    poison := hpoison }

theorem Registered.counted (h : Registered mr) : mr.Counted := by
  refine h.inv ?_ ?_
  · rw [Registry.Counted, Registry.handlerCount]
    simp [gmkModuleRegInit, Ggmk.gmkModuleRegInit]
  · rintro mr mod - hc ⟨hfn, hok⟩ rfl
    have hcase := @gmkModuleRegister_cases mr mod hfn
    generalize gmkModuleRegister mr mod = r at hcase hok ⊢
    cases hcase with
    | full hfull => exact absurd hok gmkErrFull_ne
    | added hroom hfits => exact (hc.installAll hfn hfits).1
    | stops hroom pre h post rc hsplit hpre hrefused hrc => exact absurd hok hrc

/-- The first handler is out of range or of a taken type. -/
def FirstRefused (mr : Registry) (mod : Module) : Prop :=
  ∃ h rest, mod.handlers = h :: rest ∧ ¬ mr.Takes h

/-- A loop that stops behind its first handler has changed the dispatch table. -/
theorem installAll_ne {h : HandlerReg} {hs : List HandlerReg} (hfn : ∀ g ∈ h :: hs, g.NonNull)
    (hfits : mr.Fits (h :: hs)) : mr.installAll (h :: hs) ≠ mr := by
  intro he
  have hentry := (Registry.installAll_entry hfn hfits).1 h List.mem_cons_self
  rw [he] at hentry
  have hnull : h.fn = none :=
    (congrArg Prod.fst hentry).symm.trans (hfits.1 h List.mem_cons_self).2
  exact Option.isSome_iff_ne_none.mp (hfn h List.mem_cons_self) hnull

theorem cond_of_allOrNothing (hfn : mod.NonNull) (hall : AllOrNothing mr mod) :
    gmkMaxModules ≤ mr.nModules ∨ FirstRefused mr mod ∨ mr.Fits mod.handlers := by
  have hcase := @gmkModuleRegister_cases mr mod hfn
  unfold AllOrNothing at hall
  generalize gmkModuleRegister mr mod = r at hcase hall
  cases hcase with
  | full hfull => exact Or.inl hfull
  | added hroom hfits => exact Or.inr (Or.inr hfits)
  | stops hroom pre h post rc hsplit hpre hrefused hrc =>
    right; left
    cases pre with
    | nil => exact ⟨h, post, hsplit, hrefused⟩
    | cons g pre =>
      have hpre' : ∀ f ∈ g :: pre, f.NonNull := by
        intro f hf
        exact hfn f (by rw [hsplit]; exact List.mem_append_left _ hf)
      exact absurd (hall.1 hrc) (installAll_ne hpre' hpre)

theorem allOrNothing_of_cond (hc : mr.Counted) (hfn : mod.NonNull)
    (hcond : gmkMaxModules ≤ mr.nModules ∨ FirstRefused mr mod ∨ mr.Fits mod.handlers) :
    AllOrNothing mr mod := by
  have hcase := @gmkModuleRegister_cases mr mod hfn
  unfold AllOrNothing
  generalize gmkModuleRegister mr mod = r at hcase ⊢
  cases hcase with
  | full hfull => exact ⟨fun _ => rfl, fun h => absurd h gmkErrFull_ne⟩
  | added hroom hfits =>
    exact ⟨fun h => absurd rfl h, fun _ => ⟨adds_installAll hc hfn hfits,
      (hc.installAll hfn hfits).1⟩⟩
  | stops hroom pre h post rc hsplit hpre hrefused hrc =>
    refine ⟨fun _ => ?_, fun h0 => absurd h0 hrc⟩
    rcases hcond with hfull | ⟨f, rest, hfirst, hf⟩ | hfits
    · omega
    · cases pre with
      | nil => rfl
      | cons g pre =>
        -- the loop took the first handler, so it was not refused
        rw [hsplit] at hfirst
        obtain ⟨rfl, -⟩ := List.cons.inj hfirst
        exact absurd (hpre.1 g List.mem_cons_self) hf
    · rw [hsplit] at hfits
      have hpre' : ∀ g ∈ pre, g.NonNull := by
        intro g hg
        exact hfn g (by rw [hsplit]; exact List.mem_append_left _ hg)
      exact absurd (hfits.takes_middle hpre') hrefused

/-- A registration is all or nothing if and only if no module can be added, the first handler
is refused already, or no handler is refused. -/
theorem allOrNothing_iff (h : Registered mr) (hfn : mod.NonNull) :
    AllOrNothing mr mod ↔
      gmkMaxModules ≤ mr.nModules ∨ FirstRefused mr mod ∨ mr.Fits mod.handlers :=
  ⟨cond_of_allOrNothing hfn, allOrNothing_of_cond h.counted hfn⟩

/-- A module with one handler for each of the given types. -/
def moduleOf (types : List UInt32) : Module where
  name := "m"
  handlers := types.map fun type => ⟨type, some 0, some "h", 0⟩

theorem moduleOf_nonNull (types : List UInt32) : (moduleOf types).NonNull := by
  intro h hh
  obtain ⟨type, -, rfl⟩ := List.mem_map.mp hh
  rfl

/-- Two handlers of different types go in together. -/
theorem allOrNothing_two_types : AllOrNothing gmkModuleRegInit (moduleOf [5, 6]) :=
  (allOrNothing_iff .start (moduleOf_nonNull _)).mpr (Or.inr (Or.inr (by decide)))

/-- A module that names one type twice is refused, but its first handler stays. -/
theorem refused_module_stays : ¬ ∀ mr mod, Registered mr → mod.NonNull → AllOrNothing mr mod := by
  intro h
  have hrc : (gmkModuleRegister gmkModuleRegInit (moduleOf [5, 5])).1 = gmkFail gmkErrExists := by
    decide
  have hdispatch : (gmkModuleRegister gmkModuleRegInit (moduleOf [5, 5])).2.dispatch 5 = some 0 := by
    decide
  have hall := h gmkModuleRegInit (moduleOf [5, 5]) .start (moduleOf_nonNull _)
  rw [hall.1 (by rw [hrc]; decide)] at hdispatch
  exact absurd hdispatch (by decide)

end Register

/-! ## A handler that has been registered -/

section HasHandler
variable {mr : Registry} {h : HandlerReg} {hs : List HandlerReg}

theorem taken_of_entry {mr' : Registry} {type : ℕ} (he : mr'.entry type = mr.entry type)
    (ht : mr.dispatch type ≠ none) : mr'.dispatch type ≠ none := by
  have hdispatch : mr'.dispatch type = mr.dispatch type := congrArg Prod.fst he
  rw [hdispatch]
  exact ht

theorem taken_of_handler (he : mr.entry h.type.toNat = (h.fn, h.name, h.limit))
    (hfn : h.NonNull) : mr.dispatch h.type.toNat ≠ none := by
  have hdispatch : mr.dispatch h.type.toNat = h.fn := congrArg Prod.fst he
  rw [hdispatch]
  exact Option.isSome_iff_ne_none.mp hfn

/-- A taken type keeps its entry. -/
theorem registerHandlers_keeps {type : ℕ} (ht : mr.dispatch type ≠ none) :
    (registerHandlers mr hs).2.entry type = mr.entry type := by
  induction hs generalizing mr with
  | nil => rfl
  | cons h hs ih =>
    rw [registerHandlers]
    split
    · rfl
    split
    · rfl
    next _ hfree =>
      have hne : h.type.toNat ≠ type := by
        rintro rfl
        exact hfree (Option.isSome_iff_ne_none.mpr ht)
      have hentry : (mr.install h).entry type = mr.entry type := Registry.install_entry_of_ne hne
      rw [ih (taken_of_entry hentry ht), hentry]

theorem registerHandlers_mem (hok : (registerHandlers mr hs).1 = 0) (hmem : h ∈ hs)
    (hfn : h.NonNull) : h.type.toNat < gmkMaxHandlers ∧
      (registerHandlers mr hs).2.entry h.type.toNat = (h.fn, h.name, h.limit) := by
  induction hs generalizing mr with
  | nil => simp at hmem
  | cons g hs ih =>
    rw [registerHandlers] at hok ⊢
    by_cases hrange : gmkMaxHandlers ≤ g.type.toNat
    · rw [if_pos hrange] at hok
      exact absurd hok (by decide : gmkFail gmkErrInvalid ≠ 0)
    rw [if_neg hrange] at hok ⊢
    by_cases htaken : (mr.dispatch g.type.toNat).isSome
    · rw [if_pos htaken] at hok
      exact absurd hok (by decide : gmkFail gmkErrExists ≠ 0)
    rw [if_neg htaken] at hok ⊢
    rcases List.mem_cons.mp hmem with rfl | hmem
    · have hself : (mr.install h).entry h.type.toNat = (h.fn, h.name, h.limit) :=
        Registry.install_entry_self
      exact ⟨not_le.mp hrange, (registerHandlers_keeps (taken_of_handler hself hfn)).trans hself⟩
    · exact ih hok hmem

theorem gmkModuleRegister_keeps (mod : Module) {type : ℕ} (ht : mr.dispatch type ≠ none) :
    (gmkModuleRegister mr mod).2.entry type = mr.entry type := by
  have hkeeps := @registerHandlers_keeps mr mod.handlers type ht
  unfold gmkModuleRegister
  split
  · rfl
  · simp only
    split <;> exact hkeeps

/-- Registrations one after the other, whatever they return. -/
def registerEach (mr : Registry) (mods : List Module) : Registry :=
  mods.foldl (fun mr mod => (gmkModuleRegister mr mod).2) mr

/-- What a registration of a module with handler `h`, and any registrations after it, have
left. -/
def HasHandler (mr : Registry) (h : HandlerReg) : Prop :=
  ∃ before mod later, h ∈ mod.handlers ∧ (gmkModuleRegister before mod).1 = 0 ∧
    mr = registerEach (gmkModuleRegister before mod).2 later

theorem registerEach_keeps (mods : List Module) {type : ℕ} (ht : mr.dispatch type ≠ none) :
    (registerEach mr mods).entry type = mr.entry type := by
  induction mods generalizing mr with
  | nil => rfl
  | cons mod mods ih =>
    have hkeeps := gmkModuleRegister_keeps mod ht
    exact (ih (taken_of_entry hkeeps ht)).trans hkeeps

theorem HasHandler.entry (hh : HasHandler mr h) (hfn : h.NonNull) :
    h.type.toNat < gmkMaxHandlers ∧ mr.entry h.type.toNat = (h.fn, h.name, h.limit) := by
  obtain ⟨before, mod, later, hmem, hok, rfl⟩ := hh
  have hloop : (gmkModuleRegister before mod).2.entry h.type.toNat =
      (registerHandlers before mod.handlers).2.entry h.type.toNat ∧
      (registerHandlers before mod.handlers).1 = 0 := by
    unfold gmkModuleRegister at hok ⊢
    by_cases hfull : gmkMaxModules ≤ before.nModules
    · rw [if_pos hfull] at hok
      exact absurd hok gmkErrFull_ne
    simp only [if_neg hfull] at hok ⊢
    by_cases hrc : (registerHandlers before mod.handlers).1 = 0
    · rw [if_pos hrc]
      exact ⟨rfl, hrc⟩
    · rw [if_neg hrc] at hok
      exact absurd hok hrc
  obtain ⟨hrange, hentry⟩ := registerHandlers_mem hloop.2 hmem hfn
  rw [← hloop.1] at hentry
  exact ⟨hrange, (registerEach_keeps later (taken_of_handler hentry hfn)).trans hentry⟩

end HasHandler
end Ggmk.Registration

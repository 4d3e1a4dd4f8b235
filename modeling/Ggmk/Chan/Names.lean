import Ggmk.Lib.Reach
import Ggmk.Lifecycle.Host

/-! Channel names over every history of opens and closes: what a name that was opened finds. -/
namespace Ggmk.Lifecycle
open Guarded

/-- The test of `gmk_chan_open` and `gmk_chan_find`: `strncmp` over `GMK_MAX_CHAN_NAME`. -/
def ChanRegMem.answersTo (cr : ChanRegMem) (name : List UInt8) (i : ℕ) : Bool :=
  (cr.channels i).isOpen && (cr.channels i).name.take gmkMaxChanName == name.take gmkMaxChanName

def gmkChanFind (cr : ChanRegMem) (name : List UInt8) : ℤ :=
  match (List.range cr.nChannels).find? (cr.answersTo name) with
  | some i => i
  | none => -1

/-- The capacity that `gmk_chan_open` asks for. -/
def roundSlots (slots : ℕ) : ℕ :=
  let slots := if slots = 0 then gmkChanDefaultSlots else slots
  if !gmkIsPowerOfTwo slots then gmkNextPow2 slots else slots

theorem roundSlots_lt {slots : ℕ} (h : slots < 2 ^ 32) : roundSlots slots < 2 ^ 32 := by
  have hnext (x : ℕ) : gmkNextPow2 x < 2 ^ 32 := by
    unfold gmkNextPow2
    split
    · norm_num
    · exact Word.u32_lt _
  have hasked : (if slots = 0 then gmkChanDefaultSlots else slots) < 2 ^ 32 := by
    split
    · norm_num [gmkChanDefaultSlots]
    · exact h
  unfold roundSlots
  generalize (if slots = 0 then gmkChanDefaultSlots else slots) = asked at hasked ⊢
  simp only
  split
  · exact hnext asked
  · exact hasked

/-- The ring of the next channel cannot be had. -/
def ringRefused (w : World) (cr : ChanRegMem) (slots : ℕ) : Prop :=
  (gmkRingMpmcInit w (cr.channels cr.nChannels).ring (roundSlots slots) sizeofTask).1 = false

/-- The entries that count are as before. -/
def SameEntries (cr cr' : ChanRegMem) : Prop :=
  ∀ i < cr.nChannels, cr'.channels i = cr.channels i

inductive OpenCase (w : World) (cr : ChanRegMem) (name : List UInt8) (slots : ℕ) :
    ℤ × ChanRegMem × World → Prop
  | refused (rc : ℤ) (cr' : ChanRegMem) (w' : World) (hrc : rc < 0)
      (hn : cr'.nChannels = cr.nChannels) (hsame : SameEntries cr cr') :
      OpenCase w cr name slots (rc, cr', w')
  | opened (cr' : ChanRegMem) (w' : World) (hroom : cr.nChannels < gmkMaxChannels)
      (hfree : ∀ i < cr.nChannels, cr.answersTo name i = false)
      (hring : ¬ ringRefused w cr slots)
      (hn : cr'.nChannels = cr.nChannels + 1) (hsame : SameEntries cr cr')
      (hname : (cr'.channels cr.nChannels).name = name.take (gmkMaxChanName - 1))
      (hopen : (cr'.channels cr.nChannels).isOpen) :
      OpenCase w cr name slots (cr.nChannels, cr', w')

/-- The entry that `gmk_chan_open` writes, with the ring that it has asked for. -/
def ChanRegMem.enter (cr : ChanRegMem) (name : List UInt8) (slots : ℕ) (ring : RingMem) :
    ChanRegMem :=
  { cr with
    channels := Function.update cr.channels cr.nChannels
      ⟨name.take (gmkMaxChanName - 1), true, roundSlots slots, ring⟩ }

theorem ChanRegMem.enter_same (cr : ChanRegMem) (name : List UInt8) (slots : ℕ) (ring : RingMem) :
    SameEntries cr (cr.enter name slots ring) :=
  fun _ hi => Function.update_of_ne hi.ne _ _

/-- An open that finds room in the table and no channel of that name. -/
theorem gmkChanOpen_new {w w' : World} {cr : ChanRegMem} {name : List UInt8} {slots : ℕ} {ok : Bool}
    {ring : RingMem} (hroom : cr.nChannels < gmkMaxChannels)
    (hfree : (List.range cr.nChannels).any (cr.answersTo name) = false)
    (hring : gmkRingMpmcInit w (cr.channels cr.nChannels).ring (roundSlots slots) sizeofTask =
      (ok, ring, w')) :
    gmkChanOpen w cr name slots =
      if ok then ((cr.nChannels : ℤ), { cr.enter name slots ring with
        nChannels := cr.nChannels + 1 }, w')
      else (gmkFail gmkErrNomem, cr.enter name slots ring, w') := by
  unfold ChanRegMem.answersTo at hfree
  unfold roundSlots at hring
  simp only at hring
  simp only [gmkChanOpen, if_neg (not_le.mpr hroom), hfree, Bool.false_eq_true, if_false, hring]
  rfl

theorem gmkChanOpen_cases (w : World) (cr : ChanRegMem) (name : List UInt8) (slots : ℕ) :
    OpenCase w cr name slots (gmkChanOpen w cr name slots) := by
  by_cases hroom : gmkMaxChannels ≤ cr.nChannels
  · rw [gmkChanOpen, if_pos hroom]
    exact .refused _ _ _ (by decide) rfl fun _ _ => rfl
  cases hfree : (List.range cr.nChannels).any (cr.answersTo name) with
  | true =>
    unfold ChanRegMem.answersTo at hfree
    rw [gmkChanOpen, if_neg hroom, if_pos hfree]
    exact .refused _ _ _ (by decide) rfl fun _ _ => rfl
  | false =>
    rcases hring : gmkRingMpmcInit w (cr.channels cr.nChannels).ring (roundSlots slots)
      sizeofTask with ⟨ok, ring, w'⟩
    rw [gmkChanOpen_new (not_le.mp hroom) hfree hring]
    cases ok with
    | false => exact .refused _ _ _ (by decide) rfl (cr.enter_same name slots ring)
    | true =>
      refine .opened _ _ (not_le.mp hroom) ?_ ?_ rfl (cr.enter_same name slots ring) ?_ ?_
      · intro i hi
        exact Bool.eq_false_iff.mpr (List.any_eq_false.mp hfree i (List.mem_range.mpr hi))
      · intro hrefused
        rw [ringRefused, hring] at hrefused
        exact absurd hrefused (by simp)
      · simp only [ChanRegMem.enter, Function.update_self]
      · simp only [ChanRegMem.enter, Function.update_self]

inductive CloseCase (cr : ChanRegMem) (id : ℕ) : ℤ × ChanRegMem → Prop
  | refused (rc : ℤ) (hrc : rc ≠ 0) : CloseCase cr id (rc, cr)
  | closed (hid : id < cr.nChannels) : CloseCase cr id (0, { cr with
      channels := Function.update cr.channels id { cr.channels id with isOpen := false } })

theorem gmkChanClose_cases (cr : ChanRegMem) (id : ℕ) : CloseCase cr id (gmkChanClose cr id) := by
  unfold gmkChanClose
  split
  next => exact .refused _ (by decide)
  next hid =>
    split
    next => exact .refused _ (by decide)
    next => exact .closed (not_le.mp hid)

/-- A NUL-terminated string: no byte before the terminator is zero. -/
abbrev CName := { name : List UInt8 // 0 ∉ name }

/-- The registry, its host, and under which name each channel that is not closed was opened. -/
structure NameRun where
  world : World
  reg : ChanRegMem
  named : ℕ → Option CName

inductive NameAct where
  | openAs (name : CName) (slots : ℕ)
  | close (id : ℕ)

namespace NameRun

def step (s : NameRun) : NameAct → NameRun
  | .openAs name slots =>
      let (rc, reg, world) := gmkChanOpen s.world s.reg name slots
      { world, reg, named := if rc < 0 then s.named else
          Function.update s.named rc.toNat (some name) }
  | .close id =>
      let (rc, reg) := gmkChanClose s.reg id
      { s with reg, named := if rc = 0 then Function.update s.named id none else s.named }

/-- What `gmk_chan_reg_init` leaves, before any call. -/
def start (world : World) (reg : ChanRegMem) : NameRun where
  world := world
  reg := reg
  named _ := none

/-- Names identify channels. -/
structure Identified (s : NameRun) : Prop where
  found : ∀ id name, s.named id = some name → gmkChanFind s.reg name = id
  taken : ∀ id name, s.named id = some name → s.reg.nChannels < gmkMaxChannels →
    ∀ slots, (gmkChanOpen s.world s.reg name slots).1 = gmkFail gmkErrExists
  distinct : ∀ i < s.reg.nChannels, ∀ j < s.reg.nChannels, (s.reg.channels i).isOpen →
    (s.reg.channels j).isOpen → (s.reg.channels i).name = (s.reg.channels j).name → i = j

/-- The name fits an entry with its terminator, or no channel comes of the call: the table is
full or there is no ring. -/
def Short (s : NameRun) : NameAct → Prop
  | .openAs name slots => name.val.length < gmkMaxChanName ∨
      gmkMaxChannels ≤ s.reg.nChannels ∨ ringRefused s.world s.reg slots
  | .close _ => True

structure Inv (s : NameRun) : Prop where
  entered : ∀ id name, s.named id = some name → id < s.reg.nChannels ∧
    (s.reg.channels id).isOpen ∧ (s.reg.channels id).name = name.val
  short : ∀ i < s.reg.nChannels, (s.reg.channels i).name.length < gmkMaxChanName
  distinct : ∀ i < s.reg.nChannels, ∀ j < s.reg.nChannels, (s.reg.channels i).isOpen →
    (s.reg.channels j).isOpen → (s.reg.channels i).name = (s.reg.channels j).name → i = j

section Steps
variable {s : NameRun}

/-- Short names answer to themselves only. -/
theorem Inv.answersTo_iff (h : s.Inv) {i : ℕ} (hi : i < s.reg.nChannels) {name : List UInt8}
    (hname : name.length < gmkMaxChanName) :
    s.reg.answersTo name i = true ↔
      (s.reg.channels i).isOpen = true ∧ (s.reg.channels i).name = name := by
  simp only [ChanRegMem.answersTo, Bool.and_eq_true, beq_iff_eq,
    List.take_of_length_le (h.short i hi).le, List.take_of_length_le hname.le]

theorem Inv.answers (h : s.Inv) {id : ℕ} {name : CName} (hid : s.named id = some name) :
    id < s.reg.nChannels ∧ s.reg.answersTo name id = true ∧
      ∀ i < s.reg.nChannels, s.reg.answersTo name i = true → i = id := by
  obtain ⟨hlt, hopen, hname⟩ := h.entered id name hid
  have hshort : name.val.length < gmkMaxChanName := hname ▸ h.short id hlt
  refine ⟨hlt, (h.answersTo_iff hlt hshort).mpr ⟨hopen, hname⟩, ?_⟩
  intro i hi hans
  obtain ⟨hiopen, hiname⟩ := (h.answersTo_iff hi hshort).mp hans
  exact h.distinct i hi id hlt hiopen hopen (hiname.trans hname.symm)

theorem Inv.identified (h : s.Inv) : s.Identified := by
  constructor
  · intro id name hid
    obtain ⟨hlt, hans, honly⟩ := h.answers hid
    have hfind : (List.range s.reg.nChannels).find? (s.reg.answersTo name) = some id := by
      rw [List.find?_range_eq_some]
      refine ⟨hans, List.mem_range.mpr hlt, ?_⟩
      intro j hj
      rw [Bool.not_eq_true', ← Bool.not_eq_true]
      intro hjans
      exact hj.ne (honly j (by omega) hjans)
    rw [gmkChanFind, hfind]
  · intro id name hid hroom slots
    obtain ⟨hlt, hans, -⟩ := h.answers hid
    have hany : (List.range s.reg.nChannels).any (s.reg.answersTo name) = true :=
      List.any_eq_true.mpr ⟨id, List.mem_range.mpr hlt, hans⟩
    unfold ChanRegMem.answersTo at hany
    rw [gmkChanOpen, if_neg (not_le.mpr hroom), if_pos hany]
  · exact h.distinct

theorem start_inv (world : World) (ring : RingMem) : (start world (sysChannels ring)).Inv := by
  constructor
  · intro id name hid
    exact absurd hid (by simp [start])
  · intro i hi
    simp only [start, sysChannels] at hi
    interval_cases i
    · exact (by decide : sysDirect.length < gmkMaxChanName)
    · exact (by decide : sysDropped.length < gmkMaxChanName)
  · intro i hi j hj hiopen hjopen _
    simp only [start, sysChannels] at hi hj hiopen hjopen
    interval_cases i
    · exact absurd hiopen (by simp)
    · interval_cases j
      · exact absurd hjopen (by simp)
      · rfl

/-- An open that leaves the counted entries as they are. -/
theorem Inv.same (h : s.Inv) {reg : ChanRegMem} (world : World)
    (hn : reg.nChannels = s.reg.nChannels) (hsame : SameEntries s.reg reg) :
    Inv { s with world := world, reg := reg } := by
  constructor
  · intro id name hid
    obtain ⟨hlt, hopen, hname⟩ := h.entered id name hid
    simp only [hn, hsame id hlt]
    exact ⟨hlt, hopen, hname⟩
  · simp only [hn]
    intro i hi
    rw [hsame i hi]
    exact h.short i hi
  · simp only [hn]
    intro i hi j hj
    rw [hsame i hi, hsame j hj]
    exact h.distinct i hi j hj

theorem Inv.openAs (h : s.Inv) {reg : ChanRegMem} (world : World) {name : CName}
    (hshort : name.val.length < gmkMaxChanName)
    (hfree : ∀ i < s.reg.nChannels, s.reg.answersTo name i = false)
    (hn : reg.nChannels = s.reg.nChannels + 1) (hsame : SameEntries s.reg reg)
    (hname : (reg.channels s.reg.nChannels).name = name.val.take (gmkMaxChanName - 1))
    (hopen : (reg.channels s.reg.nChannels).isOpen) :
    Inv { world := world, reg := reg,
          named := Function.update s.named s.reg.nChannels (some name) } := by
  -- the entry holds the whole name, and no channel that is open has it
  rw [List.take_of_length_le (by omega)] at hname
  have hnew {i : ℕ} (hi : i < s.reg.nChannels) (hiopen : (s.reg.channels i).isOpen)
      (heq : (s.reg.channels i).name = name.val) : False := by
    have hans := (h.answersTo_iff hi hshort).mpr ⟨hiopen, heq⟩
    exact Bool.false_ne_true ((hfree i hi).symm.trans hans)
  constructor
  · intro id name' hid
    by_cases heq : id = s.reg.nChannels
    · subst heq
      simp only [Function.update_self, Option.some.injEq] at hid
      subst hid
      exact ⟨by simp only [hn]; omega, hopen, hname⟩
    · simp only [Function.update_of_ne heq] at hid
      obtain ⟨hlt, hidopen, hidname⟩ := h.entered id name' hid
      simp only [hsame id hlt]
      exact ⟨by omega, hidopen, hidname⟩
  · intro i hi
    simp only [hn] at hi
    rcases Nat.lt_succ_iff_lt_or_eq.mp hi with hlt | rfl
    · simp only [hsame i hlt]
      exact h.short i hlt
    · simp only [hname]
      exact hshort
  · intro i hi j hj hiopen hjopen heq
    simp only [hn] at hi hj
    simp only at hiopen hjopen heq
    rcases Nat.lt_succ_iff_lt_or_eq.mp hi with hilt | rfl
    · rw [hsame i hilt] at hiopen heq
      rcases Nat.lt_succ_iff_lt_or_eq.mp hj with hjlt | rfl
      · rw [hsame j hjlt] at hjopen heq
        exact h.distinct i hilt j hjlt hiopen hjopen heq
      · exact (hnew hilt hiopen (heq.trans hname)).elim
    · rcases Nat.lt_succ_iff_lt_or_eq.mp hj with hjlt | rfl
      · rw [hsame j hjlt] at hjopen heq
        exact (hnew hjlt hjopen (heq.symm.trans hname)).elim
      · rfl

theorem Inv.close (h : s.Inv) (id : ℕ) :
    Inv { s with
      reg := { s.reg with
        channels := Function.update s.reg.channels id
          { s.reg.channels id with isOpen := false } }
      named := Function.update s.named id none } := by
  have hname (i : ℕ) : (Function.update s.reg.channels id
      { s.reg.channels id with isOpen := false } i).name = (s.reg.channels i).name := by
    by_cases hi : i = id
    · subst hi
      rw [Function.update_self]
    · rw [Function.update_of_ne hi]
  have hopen {i : ℕ} (hi : (Function.update s.reg.channels id
      { s.reg.channels id with isOpen := false } i).isOpen) : (s.reg.channels i).isOpen := by
    by_cases heq : i = id
    · subst heq
      simp only [Function.update_self, Bool.false_eq_true] at hi
    · rwa [Function.update_of_ne heq] at hi
  constructor
  · intro i name hi
    by_cases heq : i = id
    · subst heq
      simp only [Function.update_self, reduceCtorEq] at hi
    · simp only [Function.update_of_ne heq] at hi ⊢
      exact h.entered i name hi
  · intro i hi
    simp only [hname]
    exact h.short i hi
  · intro i hi j hj hiopen hjopen heq
    simp only [hname] at heq
    exact h.distinct i hi j hj (hopen hiopen) (hopen hjopen) heq

theorem Inv.step (h : s.Inv) {act : NameAct} (hg : s.Short act) : (s.step act).Inv := by
  cases act with
  | openAs name slots =>
    simp only [NameRun.step]
    have hcase := gmkChanOpen_cases s.world s.reg name slots
    generalize gmkChanOpen s.world s.reg name slots = res at hcase ⊢
    cases hcase with
    | refused rc reg world hrc hn hsame =>
      simp only [if_pos hrc]
      exact h.same world hn hsame
    | opened reg world hroom hfree hring hn hsame hname hopen =>
      have hshort := hg.resolve_right fun hno => hno.elim (not_le.mpr hroom) hring
      simp only [if_neg (not_lt.mpr (Int.natCast_nonneg _)), Int.toNat_natCast]
      exact h.openAs world hshort hfree hn hsame hname hopen
  | close id =>
    simp only [NameRun.step]
    have hcase := gmkChanClose_cases s.reg id
    generalize gmkChanClose s.reg id = res at hcase ⊢
    cases hcase with
    | refused rc hrc =>
      simp only [if_neg hrc]
      exact h
    | closed hid =>
      simp only [if_true]
      exact h.close id

end Steps

/-- Over every history in which each channel is opened under a name of at most 63 characters,
names identify channels. -/
theorem identified_of_short {w₀ w : World} {reg : ChanRegMem}
    (hinit : gmkChanRegInit w₀ = (some reg, w)) {s : NameRun}
    (hrun : Reach (fun s act s' => s' = s.step act) Short (start w reg) s) :
    s.Identified := by
  have hreg : ∃ ring, reg = sysChannels ring := by
    unfold gmkChanRegInit at hinit
    split at hinit
    next ok ring w' _ =>
      simp only [Prod.mk.injEq, Option.some.injEq] at hinit
      exact ⟨ring, hinit.1.symm⟩
    next => simp at hinit
  obtain ⟨ring, rfl⟩ := hreg
  have hinv : s.Inv := by
    refine Reach.inv (I := Inv) (start_inv w ring) ?_ hrun
    rintro s act _ hs hg rfl
    exact hs.step hg
  exact hinv.identified

/-- A host that always obliges, and the registry it gets. -/
def obliging : World := ⟨fun _ => true, 0, []⟩

def fresh : NameRun :=
  start (gmkRingMpmcInit obliging .zero gmkChanDefaultSlots sizeofTask).2.2
    (sysChannels (gmkRingMpmcInit obliging .zero gmkChanDefaultSlots sizeofTask).2.1)

theorem fresh_init : gmkChanRegInit obliging = (some fresh.reg, fresh.world) := rfl

/-- A name of `n` letters. -/
def letters (n : ℕ) : CName := ⟨List.replicate n 97, by simp [List.mem_replicate]⟩

theorem identified_of_short_letters :
    (fresh.step (.openAs (letters 63) 64)).named 2 = some (letters 63) ∧
      gmkChanFind (fresh.step (.openAs (letters 63) 64)).reg (letters 63).val = 2 := by
  have hnamed : (fresh.step (.openAs (letters 63) 64)).named 2 = some (letters 63) := by
    decide +kernel
  have hobeys : Obeys step Short fresh [.openAs (letters 63) 64] := ⟨.inl (by decide), trivial⟩
  have h := identified_of_short fresh_init (Reach.foldl hobeys .start)
  exact ⟨hnamed, h.found 2 (letters 63) hnamed⟩

/-- A name of 64 characters is stored without its last one and not found again. -/
theorem long_name_lost : ∃ w₀ w reg s, gmkChanRegInit w₀ = (some reg, w) ∧
    Reach (fun s act s' => s' = s.step act) (fun _ _ => True) (start w reg) s ∧
      ¬ s.Identified := by
  have hobeys : Obeys step (fun _ _ => True) fresh [.openAs (letters 64) 64] := ⟨trivial, trivial⟩
  refine ⟨obliging, fresh.world, fresh.reg, _, fresh_init, Reach.foldl hobeys .start, ?_⟩
  intro h
  have hnamed : (fresh.step (.openAs (letters 64) 64)).named 2 = some (letters 64) := by
    decide +kernel
  have hfound := h.found 2 (letters 64) hnamed
  exact absurd hfound (by decide +kernel)

end NameRun
end Ggmk.Lifecycle

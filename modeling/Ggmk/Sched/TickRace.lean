import Ggmk.Sched.Ticks
import Ggmk.Lib.Reach

/-! Any number of `gmk_tick_advance` calls at once. Each takes its tick from the kernel's
counter and then stores it into the workers one after the other. -/
namespace Ggmk
open Guarded

/-- A call that has its tick; the workers below `told` have been sent it. -/
structure TickCall where
  tick : UInt32
  told : ℕ

inductive TickAct where
  | fetchAdd
  | store (call : ℕ)
  deriving DecidableEq

/-- The clock and the calls, in the order in which they took their ticks. -/
structure TickRace where
  clock : Clock
  calls : List TickCall

namespace TickRace

def start (nWorkers : ℕ) : TickRace := ⟨⟨0, fun _ => 0, nWorkers⟩, []⟩

/-- The next store of `c`, the call at place `call`. -/
def storeOf (s : TickRace) (call : ℕ) (c : TickCall) : TickRace where
  clock := { s.clock with workerTick := Function.update s.clock.workerTick c.told c.tick }
  calls := s.calls.set call ⟨c.tick, c.told + 1⟩

/-- A call that has told every worker has returned. -/
def step (s : TickRace) : TickAct → TickRace
  | .fetchAdd =>
      let tick := s.clock.tick + 1
      ⟨{ s.clock with tick := tick }, s.calls ++ [⟨tick, 0⟩]⟩
  | .store call =>
      match s.calls[call]? with
      | some c => if c.told < s.clock.nWorkers then s.storeOf call c else s
      | none => s

/-- Every call has returned. -/
def AllReturned (s : TickRace) : Prop := ∀ c ∈ s.calls, c.told = s.clock.nWorkers

/-- The step takes no worker's tick back, and leaves the workers with the kernel's tick once
every call has returned. -/
def Forward (s : TickRace) (a : TickAct) : Prop :=
  (∀ w < s.clock.nWorkers, s.clock.workerTick w ≤ (s.step a).clock.workerTick w) ∧
  ((s.step a).AllReturned →
    ∀ w < s.clock.nWorkers, (s.step a).clock.workerTick w = (s.step a).clock.tick)

/-- No later call has told more workers than the call that stores. -/
def NotOvertaken (s : TickRace) : TickAct → Prop
  | .fetchAdd => True
  | .store call => ∀ c ∈ s.calls[call]?, ∀ d ∈ s.calls.drop (call + 1), d.told ≤ c.told

instance (s : TickRace) (a : TickAct) : Decidable (s.NotOvertaken a) := by
  cases a <;> unfold NotOvertaken <;> infer_instance

/-- What a store does: nothing, or the next store of a call that has not returned. -/
theorem step_store_cases (s : TickRace) (call : ℕ) :
    s.step (.store call) = s ∧ (∀ c ∈ s.calls[call]?, s.clock.nWorkers ≤ c.told) ∨
      ∃ c, s.calls[call]? = some c ∧ c.told < s.clock.nWorkers ∧
        s.step (.store call) = s.storeOf call c := by
  cases hc : s.calls[call]? with
  | none => exact Or.inl ⟨by simp [step, hc], by simp⟩
  | some c =>
    by_cases hlt : c.told < s.clock.nWorkers
    · exact Or.inr ⟨c, rfl, hlt, by simp [step, hc, hlt]⟩
    · exact Or.inl ⟨by simp [step, hc, hlt], by simpa using hlt⟩

/-! A call that no other call meets is the `gmkTickAdvance` of a single thread. -/

theorem foldl_stores (s : TickRace) {n : ℕ} (hn : n ≤ s.clock.nWorkers) :
    (List.replicate n (.store s.calls.length)).foldl step (s.step .fetchAdd) =
      ⟨⟨s.clock.tick + 1, fun w => if w < n then s.clock.tick + 1 else s.clock.workerTick w,
        s.clock.nWorkers⟩, s.calls ++ [⟨s.clock.tick + 1, n⟩]⟩ := by
  induction n with
  | zero => simp [step]
  | succ n ih =>
    rw [List.replicate_succ', List.foldl_append, ih (by omega)]
    have hlt : n < s.clock.nWorkers := hn
    simp only [List.foldl_cons, List.foldl_nil, step, storeOf,
      List.getElem?_append_right le_rfl, Nat.sub_self, List.getElem?_cons_zero, hlt, if_true]
    congr 2
    · funext w
      rcases eq_or_ne w n with rfl | hne
      · simp
      · rw [Function.update_of_ne hne]
        exact if_congr (by omega) rfl rfl
    · simp

theorem advance_alone (s : TickRace) :
    ((.fetchAdd :: List.replicate s.clock.nWorkers (.store s.calls.length)).foldl step s).clock =
      gmkTickAdvance s.clock := by
  rw [List.foldl_cons, foldl_stores s le_rfl]
  rfl

/-! Runs. A worker's tick is that of some call; that it is the latest call's that has told the
worker needs the guard. -/

structure Inv (s : TickRace) : Prop where
  tick_eq : s.clock.tick = UInt32.ofNat s.calls.length
  call_tick : ∀ {j c}, s.calls[j]? = some c → c.tick = UInt32.ofNat (j + 1)
  told_le : ∀ c ∈ s.calls, c.told ≤ s.clock.nWorkers
  worker_from : ∀ w < s.clock.nWorkers,
    s.clock.workerTick w = 0 ∨ ∃ c ∈ s.calls, w < c.told ∧ s.clock.workerTick w = c.tick

/-- Each worker has the tick of the latest call that has told it. -/
def Latest (s : TickRace) : Prop :=
  ∀ w < s.clock.nWorkers, ∀ c ∈ s.calls, w < c.told → c.tick ≤ s.clock.workerTick w

theorem start_inv (nWorkers : ℕ) : (start nWorkers).Inv where
  tick_eq := rfl
  call_tick := by simp [start]
  told_le := by simp [start]
  worker_from := fun _ _ => Or.inl rfl

theorem start_latest (nWorkers : ℕ) : (start nWorkers).Latest := by simp [Latest, start]

theorem Inv.fetchAdd {s : TickRace} (hs : s.Inv) : (s.step .fetchAdd).Inv where
  tick_eq := by
    show s.clock.tick + 1 = _
    simp [step, hs.tick_eq, UInt32.ofNat_add]
  call_tick := by
    intro j c hc
    rw [step, List.getElem?_append] at hc
    split at hc
    next h => exact hs.call_tick hc
    next h =>
      obtain ⟨hj, rfl⟩ := List.getElem?_eq_some_iff.mp hc
      have hj' : j = s.calls.length := by
        rw [List.length_singleton] at hj
        omega
      subst hj'
      simp [hs.tick_eq, UInt32.ofNat_add]
  told_le := by
    intro c hc
    rcases List.mem_append.mp hc with h | h
    · exact hs.told_le c h
    · rw [List.mem_singleton.mp h]
      exact Nat.zero_le _
  worker_from := by
    intro w hw
    exact (hs.worker_from w hw).imp_right fun ⟨c, hc, h⟩ =>
      ⟨c, List.mem_append_left _ hc, h⟩

section Store
variable {s : TickRace} {call : ℕ} {c : TickCall} (hc : s.calls[call]? = some c)
include hc

theorem mem_calls : c ∈ s.calls := List.mem_of_getElem? hc

/-- The calls after a store: the storing one has told one worker more. -/
theorem storeOf_getElem? {j : ℕ} {d : TickCall} (hd : (s.storeOf call c).calls[j]? = some d) :
    j = call ∧ d = ⟨c.tick, c.told + 1⟩ ∨ j ≠ call ∧ s.calls[j]? = some d := by
  rw [storeOf, List.getElem?_set] at hd
  split at hd
  next h =>
    subst h
    rw [if_pos (List.getElem?_eq_some_iff.mp hc).1] at hd
    exact Or.inl ⟨rfl, (Option.some.inj hd).symm⟩
  next h => exact Or.inr ⟨Ne.symm h, hd⟩

theorem storeOf_mem {d : TickCall} (hd : d ∈ (s.storeOf call c).calls) :
    d = ⟨c.tick, c.told + 1⟩ ∨ ∃ j ≠ call, s.calls[j]? = some d := by
  obtain ⟨j, hj⟩ := List.mem_iff_getElem?.mp hd
  exact (storeOf_getElem? hc hj).imp And.right fun h => ⟨j, h⟩

theorem mem_storeOf : (⟨c.tick, c.told + 1⟩ : TickCall) ∈ (s.storeOf call c).calls :=
  List.mem_set (List.getElem?_eq_some_iff.mp hc).1 _

theorem Inv.storeOf (hs : s.Inv) (hlt : c.told < s.clock.nWorkers) :
    (s.storeOf call c).Inv where
  tick_eq := by
    rw [TickRace.storeOf, List.length_set]
    exact hs.tick_eq
  call_tick := by
    intro j d hd
    rcases storeOf_getElem? hc hd with ⟨hj, hd⟩ | ⟨-, hd⟩
    · rw [hj, hd]
      show c.tick = _
      exact hs.call_tick hc
    · exact hs.call_tick hd
  told_le := by
    intro d hd
    rcases storeOf_mem hc hd with rfl | ⟨j, -, hd⟩
    · exact hlt
    · exact hs.told_le d (mem_calls hd)
  worker_from := by
    intro w hw
    rcases eq_or_ne w c.told with rfl | hne
    · exact Or.inr ⟨_, mem_storeOf hc, Nat.lt_succ_self _, Function.update_self ..⟩
    · have hkeep : (s.storeOf call c).clock.workerTick w = s.clock.workerTick w :=
        Function.update_of_ne hne _ _
      rw [hkeep]
      refine (hs.worker_from w hw).imp_right ?_
      rintro ⟨d, hd, hwd, htick⟩
      obtain ⟨j, hj⟩ := List.mem_iff_getElem?.mp hd
      rcases eq_or_ne j call with rfl | hjc
      · obtain rfl := Option.some.inj (hc.symm.trans hj)
        exact ⟨_, mem_storeOf hc, Nat.lt_succ_of_lt hwd, htick⟩
      · refine ⟨d, List.mem_iff_getElem?.mpr ⟨j, ?_⟩, hwd, htick⟩
        rw [TickRace.storeOf, List.getElem?_set_ne hjc.symm, hj]

end Store

theorem Inv.step {s : TickRace} (hs : s.Inv) (a : TickAct) : (s.step a).Inv := by
  cases a with
  | fetchAdd => exact hs.fetchAdd
  | store call =>
    rcases step_store_cases s call with ⟨heq, -⟩ | ⟨c, hc, hlt, heq⟩
    · rwa [heq]
    · rw [heq]
      exact hs.storeOf hc hlt

/-! With fewer than `2 ^ 32` calls the ticks are ordered as the calls are. -/

section Few
variable {s : TickRace} (hs : s.Inv) (hfew : s.calls.length < 2 ^ 32)
include hs hfew

theorem Inv.tick_toNat {j : ℕ} {c : TickCall} (hc : s.calls[j]? = some c) :
    c.tick.toNat = j + 1 := by
  have hj := (List.getElem?_eq_some_iff.mp hc).1
  rw [hs.call_tick hc, UInt32.toNat_ofNat', Nat.mod_eq_of_lt (by omega)]

theorem Inv.tick_le_iff {j k : ℕ} {c d : TickCall} (hc : s.calls[j]? = some c)
    (hd : s.calls[k]? = some d) : c.tick ≤ d.tick ↔ j ≤ k := by
  rw [UInt32.le_iff_toNat_le, hs.tick_toNat hfew hc, hs.tick_toNat hfew hd]
  omega

theorem Inv.worker_le {w : ℕ} (hw : w < s.clock.nWorkers) :
    s.clock.workerTick w ≤ s.clock.tick := by
  have htick : s.clock.tick.toNat = s.calls.length := by
    rw [hs.tick_eq, UInt32.toNat_ofNat', Nat.mod_eq_of_lt hfew]
  rw [UInt32.le_iff_toNat_le, htick]
  rcases hs.worker_from w hw with h | ⟨c, hc, -, h⟩
  · simp [h]
  · obtain ⟨j, hj⟩ := List.mem_iff_getElem?.mp hc
    have hlt := (List.getElem?_eq_some_iff.mp hj).1
    rw [h, hs.tick_toNat hfew hj]
    omega

theorem Inv.settled (hl : s.Latest) (hret : s.AllReturned) {w : ℕ} (hw : w < s.clock.nWorkers) :
    s.clock.workerTick w = s.clock.tick := by
  apply UInt32.le_antisymm (hs.worker_le hfew hw)
  rcases Nat.eq_zero_or_pos s.calls.length with hzero | hpos
  · rw [hs.tick_eq, hzero]
    exact UInt32.zero_le
  · -- the last call has told `w`
    obtain ⟨c, hc⟩ : ∃ c, s.calls[s.calls.length - 1]? = some c :=
      ⟨_, List.getElem?_eq_getElem (by omega)⟩
    have hmem := List.mem_of_getElem? hc
    have hle := hl w hw c hmem (hret c hmem ▸ hw)
    rwa [hs.call_tick hc, Nat.sub_add_cancel hpos, ← hs.tick_eq] at hle

variable {call : ℕ} {c : TickCall} (hc : s.calls[call]? = some c)
  (hlt : c.told < s.clock.nWorkers)
include hc

theorem Inv.le_of_notOvertaken (hlt : c.told < s.clock.nWorkers)
    (hguard : s.NotOvertaken (.store call)) : s.clock.workerTick c.told ≤ c.tick := by
  rcases hs.worker_from c.told hlt with h | ⟨d, hd, hahead, h⟩
  · rw [h]
    exact UInt32.zero_le
  · obtain ⟨k, hk⟩ := List.mem_iff_getElem?.mp hd
    rw [h, hs.tick_le_iff hfew hk hc]
    by_contra hlater
    have hmem : d ∈ s.calls.drop (call + 1) := by
      rw [List.mem_iff_getElem?]
      exact ⟨k - (call + 1), by rw [List.getElem?_drop, ← hk]; congr 1; omega⟩
    exact absurd hahead (not_lt.mpr (hguard c hc d hmem))

theorem Inv.notOvertaken_of_le (hl : s.Latest) (hlt : c.told < s.clock.nWorkers)
    (hle : s.clock.workerTick c.told ≤ c.tick) : s.NotOvertaken (.store call) := by
  intro c' hc' d hd
  obtain rfl : c' = c := Option.some.inj (Eq.trans (Eq.symm hc') hc)
  obtain ⟨k, hk⟩ := List.mem_iff_getElem?.mp hd
  rw [List.getElem?_drop] at hk
  by_contra hahead
  have hdle := hl _ hlt d (List.mem_of_getElem? hk) (not_le.mp hahead)
  have hkle := (hs.tick_le_iff hfew hk hc).mp (UInt32.le_trans hdle hle)
  omega

end Few

theorem Latest.storeOf {s : TickRace} {call : ℕ} {c : TickCall} (hl : s.Latest)
    (hc : s.calls[call]? = some c) (hle : s.clock.workerTick c.told ≤ c.tick) :
    (s.storeOf call c).Latest := by
  intro w hw d hd hwd
  rcases eq_or_ne w c.told with rfl | hne
  · have hself : (s.storeOf call c).clock.workerTick c.told = c.tick := Function.update_self ..
    rw [hself]
    rcases storeOf_mem hc hd with rfl | ⟨j, -, hj⟩
    · exact UInt32.le_refl _
    · exact UInt32.le_trans (hl _ hw d (List.mem_of_getElem? hj) hwd) hle
  · have hkeep : (s.storeOf call c).clock.workerTick w = s.clock.workerTick w :=
      Function.update_of_ne hne _ _
    rw [hkeep]
    rcases storeOf_mem hc hd with rfl | ⟨j, -, hj⟩
    · exact hl w hw c (mem_calls hc) (lt_of_le_of_ne (Nat.le_of_lt_succ hwd) hne)
    · exact hl w hw d (List.mem_of_getElem? hj) hwd

theorem Latest.fetchAdd {s : TickRace} (hl : s.Latest) : (s.step .fetchAdd).Latest := by
  intro w hw c hc hwc
  rcases List.mem_append.mp hc with h | h
  · exact hl w hw c h hwc
  · rw [List.mem_singleton.mp h] at hwc
    exact absurd hwc (Nat.not_lt_zero w)

theorem Latest.of_forward {s : TickRace} (hl : s.Latest) {a : TickAct} (h : s.Forward a) :
    (s.step a).Latest := by
  cases a with
  | fetchAdd => exact hl.fetchAdd
  | store call =>
    rcases step_store_cases s call with ⟨heq, -⟩ | ⟨c, hc, hlt, heq⟩
    · rwa [heq]
    · rw [heq]
      have hle := h.1 c.told hlt
      rw [heq] at hle
      exact hl.storeOf hc (hle.trans_eq (Function.update_self ..))

theorem Inv.forward_iff {s : TickRace} (hs : s.Inv) (hl : s.Latest) {a : TickAct}
    (hfew : (s.step a).calls.length < 2 ^ 32) : s.Forward a ↔ s.NotOvertaken a := by
  cases a with
  | fetchAdd =>
    refine iff_of_true ⟨fun _ _ => UInt32.le_refl _, fun hret w hw => ?_⟩ trivial
    exact hs.fetchAdd.settled hfew hl.fetchAdd hret hw
  | store call =>
    rcases step_store_cases s call with ⟨heq, hdone⟩ | ⟨c, hc, hlt, heq⟩
    · rw [heq] at hfew
      rw [Forward, heq]
      refine iff_of_true ⟨fun _ _ => UInt32.le_refl _, fun hret w hw => ?_⟩ fun c hc d hd => ?_
      · exact hs.settled hfew hl hret hw
      · exact (hs.told_le d (List.mem_of_mem_drop hd)).trans (hdone c hc)
    · rw [heq, TickRace.storeOf, List.length_set] at hfew
      rw [Forward, heq]
      have hself : (s.storeOf call c).clock.workerTick c.told = c.tick := Function.update_self ..
      constructor
      · intro h
        exact hs.notOvertaken_of_le hfew hc hl hlt ((h.1 c.told hlt).trans_eq hself)
      · intro hguard
        have hle := hs.le_of_notOvertaken hfew hc hlt hguard
        refine ⟨fun w hw => ?_, fun hret w hw => ?_⟩
        · rcases eq_or_ne w c.told with rfl | hne
          · exact hle.trans_eq hself.symm
          · have hkeep : (s.storeOf call c).clock.workerTick w = s.clock.workerTick w :=
              Function.update_of_ne hne _ _
            rw [hkeep]
            exact UInt32.le_refl _
        · refine (hs.storeOf hc hlt).settled ?_ (hl.storeOf hc hle) hret hw
          rwa [TickRace.storeOf, List.length_set]

theorem step_calls_length (s : TickRace) (a : TickAct) :
    (s.step a).calls.length = s.calls.length + if a = .fetchAdd then 1 else 0 := by
  cases a with
  | fetchAdd => simp [step]
  | store call =>
    rcases step_store_cases s call with ⟨heq, -⟩ | ⟨c, hc, -, heq⟩
    · simp [heq]
    · simp [heq, storeOf]

theorem Inv.obeys_iff {s : TickRace} (hs : s.Inv) (hl : s.Latest) {acts : List TickAct}
    (hfew : s.calls.length + acts.count .fetchAdd < 2 ^ 32) :
    Obeys TickRace.step Forward s acts ↔ Obeys TickRace.step NotOvertaken s acts := by
  induction acts generalizing s with
  | nil => exact Iff.rfl
  | cons a acts ih =>
    have hlen := step_calls_length s a
    simp only [List.count_cons, beq_iff_eq] at hfew
    have hiff := hs.forward_iff hl (a := a) (by omega)
    rw [Obeys, Obeys, hiff]
    refine and_congr_right fun hguard => ?_
    exact ih (hs.step a) (hl.of_forward (hiff.mpr hguard)) (by omega)

/-- In every run of fewer than `2 ^ 32` calls the ticks go forward, and agree whenever all calls
have returned, if and only if no store is overtaken. -/
theorem ticks_forward_iff (nWorkers : ℕ) (acts : List TickAct)
    (hfew : acts.count .fetchAdd < 2 ^ 32) :
    Obeys step Forward (start nWorkers) acts ↔ Obeys step NotOvertaken (start nWorkers) acts :=
  (start_inv nWorkers).obeys_iff (start_latest nWorkers) (by simpa [start] using hfew)

/-- Two calls that meet without an overtaking, on two workers. -/
theorem ticks_forward_two : Obeys step Forward (start 2)
    [.fetchAdd, .fetchAdd, .store 0, .store 1, .store 0, .store 1] :=
  (ticks_forward_iff 2 _ (by decide)).mpr ⟨by decide, by decide, by decide, by decide, by decide,
    by decide, trivial⟩

/-- The second call stores 2 into the worker before the first stores 1. -/
theorem tick_goes_back : ¬ ∀ nWorkers acts, acts.count TickAct.fetchAdd < 2 ^ 32 →
    Obeys step Forward (start nWorkers) acts := by
  intro h
  obtain ⟨-, -, -, ⟨hkeeps, -⟩, -⟩ :=
    h 1 [.fetchAdd, .fetchAdd, .store 1, .store 0] (by decide)
  exact absurd (hkeeps 0 zero_lt_one) (by decide)

end TickRace
end Ggmk

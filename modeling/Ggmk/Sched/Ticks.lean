import Ggmk.Sched.Evq

/-! The tick counter of `boot.c` and the events that wait for it. Ticks are 64-bit in a
task, truncated to 32 bits in its key, and compared with a 32-bit counter that wraps. -/
namespace Ggmk
open Word BinaryHeap

structure Clock where
  tick : UInt32
  workerTick : ℕ → UInt32
  nWorkers : ℕ

/-- The counter advances and every worker of the pool is told. -/
def gmkTickAdvance (c : Clock) : Clock :=
  let tick := c.tick + 1
  { c with
    tick := tick
    workerTick := fun i => if i < c.nWorkers then tick else c.workerTick i }

inductive TickOp where
  | push (t : Task)
  | tickAdvance
  | popDue (worker : ℕ)

/-- An event queue with the clock; `advances` counts the `gmk_tick_advance` calls. -/
structure TickRun where
  evq : Evq
  clock : Clock
  advances : ℕ

namespace TickRun

def start (cap nWorkers : ℕ) : TickRun := ⟨gmkEvqInit cap, ⟨0, fun _ => 0, nWorkers⟩, 0⟩

def step (s : TickRun) : TickOp → TickRun
  | .push t =>
      match gmkEvqPush s.evq t with
      | some e => { s with evq := e }
      | none => s
  | .tickAdvance => { s with clock := gmkTickAdvance s.clock, advances := s.advances + 1 }
  | .popDue worker =>
      match gmkEvqPopDue s.evq (s.clock.workerTick worker) with
      | some (_, e) => { s with evq := e }
      | none => s

def exec (cap nWorkers : ℕ) (ops : List TickOp) : TickRun := ops.foldl step (start cap nWorkers)

/-- The tasks that wait in the queue. -/
def waiting (s : TickRun) : Multiset Task := s.evq.entries.map EvqEntry.task

/-- What worker `w` would be handed now is due, and a task that alone is due is handed out. -/
def FiresOnTime (s : TickRun) (w : ℕ) : Prop :=
  (∀ t e, gmkEvqPopDue s.evq (s.clock.workerTick w) = some (t, e) → t.meta0.toNat ≤ s.advances) ∧
  ∀ t rest, s.waiting = t ::ₘ rest → t.meta0.toNat ≤ s.advances →
    (∀ u ∈ rest, s.advances < u.meta0.toNat) →
      ∃ e, gmkEvqPopDue s.evq (s.clock.workerTick w) = some (t, e)

/-- Tick `T` and time `N` compare as their low 32 bits do. -/
def TickAgrees (T N : ℕ) : Prop := T ≤ N ↔ u32 T ≤ u32 N

instance (T N : ℕ) : Decidable (TickAgrees T N) := by unfold TickAgrees; infer_instance

theorem tickAgrees_of_lt {T N : ℕ} (hT : T < 2 ^ 32) (hN : N < 2 ^ 32) : TickAgrees T N := by
  rw [TickAgrees, u32_of_lt hT, u32_of_lt hN]

/-- Every waiting task is on the same side of the present in 64 bits as in 32. -/
def TicksAgree (s : TickRun) : Prop := ∀ t ∈ s.waiting, TickAgrees t.meta0.toNat s.advances

structure Inv (s : TickRun) : Prop where
  wf : s.evq.WF
  tick_eq : s.clock.tick.toNat = u32 s.advances
  worker_eq : ∀ w < s.clock.nWorkers, s.clock.workerTick w = s.clock.tick

theorem start_inv (cap nWorkers : ℕ) : (start cap nWorkers).Inv where
  wf := Evq.init_wf cap
  tick_eq := rfl
  worker_eq := fun _ _ => rfl

theorem step_inv {s : TickRun} (hs : s.Inv) (op : TickOp) : (s.step op).Inv := by
  cases op with
  | push t =>
    simp only [step]
    split
    next e h => exact ⟨Evq.push_wf hs.wf h, hs.tick_eq, hs.worker_eq⟩
    next => exact hs
  | tickAdvance =>
    refine ⟨hs.wf, ?_, fun w hw => if_pos hw⟩
    show (s.clock.tick + 1).toNat = u32 (s.advances + 1)
    rw [UInt32.toNat_add, hs.tick_eq, UInt32.toNat_one]
    exact u32_u32_add _ _
  | popDue w =>
    simp only [step]
    split
    next t e h => exact ⟨Evq.popDue_wf hs.wf h, hs.tick_eq, hs.worker_eq⟩
    next => exact hs

theorem step_nWorkers (s : TickRun) (op : TickOp) :
    (s.step op).clock.nWorkers = s.clock.nWorkers := by
  cases op with
  | push t => simp only [step]; split <;> rfl
  | tickAdvance => rfl
  | popDue w => simp only [step]; split <;> rfl

theorem exec_snoc (cap nWorkers : ℕ) (ops : List TickOp) (op : TickOp) :
    exec cap nWorkers (ops ++ [op]) = (exec cap nWorkers ops).step op := by simp [exec]

theorem exec_inv (cap nWorkers : ℕ) (ops : List TickOp) :
    (exec cap nWorkers ops).Inv ∧ (exec cap nWorkers ops).clock.nWorkers = nWorkers := by
  induction ops using List.reverseRecOn with
  | nil => exact ⟨start_inv cap nWorkers, rfl⟩
  | append_singleton ops op ih =>
    rw [exec_snoc]
    exact ⟨step_inv ih.1 op, (step_nWorkers _ op).trans ih.2⟩

section Firing
variable {s : TickRun} (hs : s.Inv)
include hs

theorem Inv.worker_tick {w : ℕ} (hw : w < s.clock.nWorkers) :
    (s.clock.workerTick w).toNat = u32 s.advances := by
  rw [hs.worker_eq w hw, hs.tick_eq]

theorem Inv.fires {w : ℕ} (hw : w < s.clock.nWorkers) (hagree : s.TicksAgree) :
    s.FiresOnTime w := by
  constructor
  · intro t e h
    obtain ⟨hpos, rfl, htick, -⟩ := Evq.popDue_some h
    have hroot := Evq.root_mem hpos
    rw [hs.wf.key_tick hroot, hs.worker_tick hw] at htick
    exact (hagree _ (Multiset.mem_map_of_mem _ hroot)).mpr htick
  · intro t rest hsplit hdue hrest
    have hmem : t ∈ s.waiting := hsplit ▸ Multiset.mem_cons_self t rest
    obtain ⟨x, hx, rfl⟩ := Multiset.mem_map.mp hmem
    have hxtick : u32 (x.key >>> 32) ≤ u32 s.advances := by
      rw [hs.wf.key_tick hx]
      exact (hagree _ hmem).mp hdue
    have hpop : gmkEvqPopDue s.evq (s.clock.workerTick w) ≠ none := by
      rw [Ne, Evq.popDue_none_iff, hs.worker_tick hw]
      rintro (hc | hlt)
      · rw [Evq.entries, hc] at hx
        simp [contents] at hx
      · have := hs.wf.root_tick_le hx
        omega
    obtain ⟨⟨u, e⟩, hue⟩ := Option.ne_none_iff_exists'.mp hpop
    refine ⟨e, ?_⟩
    obtain ⟨hpos, rfl, htick, -⟩ := Evq.popDue_some hue
    have hroot := Evq.root_mem hpos
    -- the root is due, so it is not among the others
    have hroot' : (s.evq.heap 0).task ∈ s.waiting := Multiset.mem_map_of_mem _ hroot
    rw [hs.wf.key_tick hroot, hs.worker_tick hw] at htick
    have hdue' := (hagree _ hroot').mpr htick
    rw [hsplit, Multiset.mem_cons] at hroot'
    rcases hroot' with heq | hin
    · rw [← heq, hue]
    · exact absurd hdue' (not_le.mpr (hrest _ hin))

/-- For one waiting task the condition on its tick is exact. -/
theorem Inv.fires_iff_of_single {w : ℕ} (hw : w < s.clock.nWorkers) {t : Task}
    (ht : s.waiting = {t}) : s.FiresOnTime w ↔ TickAgrees t.meta0.toNat s.advances := by
  constructor
  · intro h
    obtain ⟨x, hx, rfl⟩ : ∃ x ∈ s.evq.entries, x.task = t := by
      have hmem : t ∈ s.waiting := ht ▸ Multiset.mem_singleton_self t
      exact Multiset.mem_map.mp hmem
    have hpos := Evq.count_pos hx
    have hroot := Evq.root_mem hpos
    have heq : (s.evq.heap 0).task = x.task := by
      rw [← Multiset.mem_singleton, ← ht]
      exact Multiset.mem_map_of_mem _ hroot
    rw [TickAgrees, ← heq, ← hs.wf.key_tick hroot, ← hs.worker_tick hw]
    constructor
    · intro hdue
      obtain ⟨e, he⟩ := h.2 x.task 0 ht (heq ▸ hdue) (by simp)
      exact (Evq.popDue_some he).2.2.1
    · intro htick
      have hpop : gmkEvqPopDue s.evq (s.clock.workerTick w) ≠ none := by
        rw [Ne, Evq.popDue_none_iff]
        omega
      obtain ⟨⟨u, e⟩, hue⟩ := Option.ne_none_iff_exists'.mp hpop
      obtain ⟨-, rfl, -⟩ := Evq.popDue_some hue
      exact h.1 _ e hue
  · intro hagree
    apply hs.fires hw
    intro u hu
    rw [ht, Multiset.mem_singleton] at hu
    exact hu ▸ hagree

end Firing

/-- In every run, events fire on time in each state whose waiting ticks compare with the
number of advances as their low 32 bits do. -/
theorem events_fire_on_time (cap nWorkers : ℕ) (ops : List TickOp)
    (hagree : (exec cap nWorkers ops).TicksAgree) {w : ℕ} (hw : w < nWorkers) :
    (exec cap nWorkers ops).FiresOnTime w := by
  obtain ⟨hinv, hn⟩ := exec_inv cap nWorkers ops
  exact hinv.fires (hn.symm ▸ hw) hagree

theorem waiting_push_first (t : Task) : (exec 1 1 [.push t]).waiting = {{ t with seq := 0 }} := by
  obtain ⟨e, he⟩ : ∃ e, gmkEvqPush (gmkEvqInit 1) t = some e := by
    rw [← Option.ne_none_iff_exists', Ne, Evq.push_none_iff]
    decide
  have hrun : exec 1 1 [.push t] = { start 1 1 with evq := e } := by simp [exec, step, start, he]
  rw [hrun, waiting, (Evq.push_some he).1]
  simp [Evq.entries, gmkEvqInit, contents, evqEntry]

/-- A task for tick zero is handed out at once. -/
theorem events_fire_on_time_at_zero : (exec 1 1 [.push default]).FiresOnTime 0 := by
  apply events_fire_on_time 1 1 [.push default] _ zero_lt_one
  intro t ht
  rw [waiting_push_first, Multiset.mem_singleton] at ht
  subst ht
  decide

/-- A task for tick `2 ^ 32` is handed out before the first advance. -/
theorem event_fires_early : ¬ ∀ cap nWorkers ops, ∀ w < nWorkers,
    (exec cap nWorkers ops).FiresOnTime w := by
  intro h
  have hfire := h 1 1 [.push { meta0 := 2 ^ 32 }] 0 zero_lt_one
  obtain ⟨hinv, hn⟩ := exec_inv 1 1 [.push { meta0 := 2 ^ 32 }]
  rw [hinv.fires_iff_of_single (hn.symm ▸ zero_lt_one) (waiting_push_first _)] at hfire
  exact absurd hfire (by decide)

end TickRun
end Ggmk

import Ggmk.Arch.LockThreads
import Ggmk.Lib.Tally

/-! What the callers of operations under a lock own: a call hands over what its operation takes,
and its return hands over what the operation gives. -/
namespace Ggmk
open CriticalSection

/-- The tokens that a call takes from its caller and those that its answer brings. -/
structure Exchange (ι ο α : Type*) where
  takes : ι → Multiset α
  gives : ι → ο → Multiset α

namespace Exchange
variable {δ ι κ ο α : Type*}

/-- Run alone, the operation turns what it takes into what it gives, whatever else is owned. -/
def Keeps (x : Exchange ι ο α) (P : Program δ ι κ ο) (Good : δ → Multiset α → Prop) : Prop :=
  ∀ d i m, Good d (x.takes i + m) → ∃ o d', P.Answers i d o d' ∧ Good d' (x.gives i o + m)

/-- The tokens that a thread has handed over or has not been handed yet. -/
def pending (x : Exchange ι ο α) : CallPc ι κ ο → Multiset α
  | .idle => 0
  | .waiting i => x.takes i
  | .running i _ => x.takes i
  | .leaving i o => x.gives i o

end Exchange

/-- Threads under a lock, and the tokens in the hands of all of them. -/
structure LockOwners (n : ℕ) (δ ι κ ο α : Type*) where
  core : LockThreads n δ ι κ ο
  hand : Multiset α

namespace LockOwners
variable {n : ℕ} {δ ι κ ο α : Type*} {P : Program δ ι κ ο} {x : Exchange ι ο α}
  {Good : δ → Multiset α → Prop} {s : LockOwners n δ ι κ ο α} {d₀ : δ} {t : Fin n} {hand₀ : Multiset α}

def start (n : ℕ) (d₀ : δ) (hand₀ : Multiset α) : LockOwners n δ ι κ ο α :=
  ⟨LockThreads.start n d₀, hand₀⟩

/-- All tokens there are: in somebody's hands, or on their way into or out of an operation. -/
def owned (x : Exchange ι ο α) (s : LockOwners n δ ι κ ο α) : Multiset α :=
  s.hand + ∑ t, x.pending (s.core.call t)

theorem owned_setCall {core : LockThreads n δ ι κ ο} {hand : Multiset α} {c : CallPc ι κ ο}
    (hcall : core.call = Function.update s.core.call t c)
    (h : hand + x.pending c = s.hand + x.pending (s.core.call t)) :
    owned x ⟨core, hand⟩ = owned x s := by
  have hsum := Tally.sum_update_add Finset.univ x.pending s.core.call (Finset.mem_univ t) c
  rw [← hcall] at hsum
  apply add_right_cancel (b := x.pending (s.core.call t))
  simp only [owned]
  rw [add_assoc, hsum, add_left_comm, ← add_assoc, add_comm _ hand, add_assoc]
  rw [add_comm (∑ _, _), ← add_assoc, h, add_assoc, add_assoc, add_comm (x.pending _)]

/-- The threads implement a critical section whose history leaves good data. -/
def Kept (P : Program δ ι κ ο) (x : Exchange ι ο α) (Good : δ → Multiset α → Prop) (d₀ : δ)
    (s : LockOwners n δ ι κ ο α) : Prop :=
  ∃ a d, s.core.Abstracts a ∧ a.At P d₀ d ∧ Good d (s.owned x)

theorem start_kept (n : ℕ) (h₀ : Good d₀ hand₀) : Kept P x Good d₀ (start n d₀ hand₀) := by
  refine ⟨_, d₀, LockThreads.start_abstracts n d₀, State.start_at P d₀, ?_⟩
  simpa [owned, start, LockThreads.start, Exchange.pending] using h₀

/-- A step that moves no token. -/
theorem kept_same {core : LockThreads n δ ι κ ο} {a : State δ ι κ ο (Fin n)} {d : δ}
    (ha : core.Abstracts a) (hd : a.At P d₀ d)
    (hcall : ∀ u, x.pending (core.call u) = x.pending (s.core.call u))
    (hgood : Good d (s.owned x)) : Kept P x Good d₀ { s with core := core } := by
  refine ⟨a, d, ha, hd, ?_⟩
  simpa [owned, hcall] using hgood

/-- A thread in acquire stays there or enters with the same call. -/
theorem pending_spin (core : LockThreads n δ ι κ ο) (t u : Fin n) :
    x.pending ((core.step P (.spin t)).call u) = x.pending (core.call u) := by
  rw [LockThreads.step]
  cases hc : core.call t with
  | waiting i =>
    simp only
    split
    · by_cases hu : u = t
      · rw [hu, hc]
        simp [LockThreads.setCall, Exchange.pending]
      · simp [LockThreads.setCall, Function.update_of_ne hu]
    · rfl
  | idle => rfl
  | running i l => rfl
  | leaving i o => rfl

/-- What is owned fits the data that the serial history of the operations leaves, and this is the
data itself while no thread is in the body of an operation. -/
theorem Kept.serial (h : Kept P x Good d₀ s) : ∃ d, P.Serial d₀ s.core.history d ∧
    Good d (s.owned x) ∧ ((∀ t i l, s.core.call t ≠ .running i l) → s.core.data = d) ∧
      s.core.history.map (fun e => e.1) <+: s.core.lock.taken := by
  obtain ⟨a, d, ha, hd, hgood⟩ := h
  have hserial := hd.serial
  rw [ha.history_eq] at hserial
  exact ⟨d, hserial, hgood, ha.data_of_outside hd.partway, ha.history_isPrefix⟩

/-- What is owned at the moment of an answer fits the data of the operation that answers. -/
theorem Kept.answer {i : ι} {l : κ} {o : ο} (h : Kept P x Good d₀ s)
    (hc : s.core.call t = .running i l) (hans : (s.core.step P (.body t)).call t = .leaving i o) :
    ∃ d d', P.Answers i d o d' ∧ Good d (s.owned x) := by
  obtain ⟨a, d, ha, hd, hgood⟩ := h
  rcases State.body_at hd ((ha.inside_iff t i l).mpr hc) with
    ⟨l', e, hstep, -⟩ | ⟨o', d', hstep, h', -⟩ <;> rw [ha.data_eq] at hstep <;>
    simp [LockThreads.step, hc, hstep, LockThreads.setCall] at hans
  rw [hans] at h'
  exact ⟨d, d', h', hgood⟩

variable [DecidableEq α]

/-- A thread makes a call only with what it owns. -/
def step (P : Program δ ι κ ο) (x : Exchange ι ο α) (s : LockOwners n δ ι κ ο α) :
    LockCall n ι → LockOwners n δ ι κ ο α
  | .call t i =>
      match s.core.call t with
      | .idle =>
          if x.takes i ≤ s.hand then ⟨s.core.step P (.call t i), s.hand - x.takes i⟩ else s
      | _ => s
  | .storeServing t =>
      match s.core.call t, s.core.lock.pc t with
      | .leaving i o, .releasing _ => ⟨s.core.step P (.storeServing t), s.hand + x.gives i o⟩
      | _, _ => s
  | .spin t => { s with core := s.core.step P (.spin t) }
  | .body t => { s with core := s.core.step P (.body t) }
  | .loadCurrent t => { s with core := s.core.step P (.loadCurrent t) }

def run (P : Program δ ι κ ο) (x : Exchange ι ο α) (s : LockOwners n δ ι κ ο α)
    (acts : List (LockCall n ι)) : LockOwners n δ ι κ ο α := acts.foldl (step P x) s

/-- The caller hands over what the operation takes. -/
theorem kept_call (h : Kept P x Good d₀ s) (t : Fin n) (i : ι) :
    Kept P x Good d₀ (s.step P x (.call t i)) := by
  obtain ⟨a, d, ha, hd, hgood⟩ := h
  rw [step]
  cases hc : s.core.call t with
  | idle =>
    simp only
    split_ifs with hle
    · refine ⟨a, d, LockThreads.call_abstracts (P := P) ha t i, hd, ?_⟩
      have hnew : (s.core.step P (.call t i)).call =
          Function.update s.core.call t (.waiting i) := by
        simp [LockThreads.step, hc, LockThreads.setCall]
      rw [owned_setCall hnew]
      · exact hgood
      · rw [hc]
        exact (tsub_add_cancel_of_le hle).trans (add_zero _).symm
    · exact ⟨a, d, ha, hd, hgood⟩
  | waiting j => exact ⟨a, d, ha, hd, hgood⟩
  | running j l => exact ⟨a, d, ha, hd, hgood⟩
  | leaving j o => exact ⟨a, d, ha, hd, hgood⟩

theorem kept_spin (h : Kept P x Good d₀ s) (hn : n < 2 ^ 32) (t : Fin n) :
    Kept P x Good d₀ (s.step P x (.spin t)) := by
  obtain ⟨a, d, ha, hd, hgood⟩ := h
  rcases LockThreads.spin_abstracts (P := P) ha hn t with hs | ⟨i, hs⟩
  · exact kept_same hs hd (pending_spin s.core t) hgood
  · exact kept_same hs (State.enter_at hd t i) (pending_spin s.core t) hgood

/-- The body exchanges what it takes for what it gives when it answers, and nothing before. -/
theorem kept_body (hx : x.Keeps P Good) (h : Kept P x Good d₀ s) (t : Fin n) :
    Kept P x Good d₀ (s.step P x (.body t)) := by
  obtain ⟨a, d, ha, hd, hgood⟩ := h
  by_cases hc : ∃ i l, s.core.call t = .running i l
  · obtain ⟨i, l, hc⟩ := hc
    have hs := LockThreads.body_abstracts (P := P) ha hc
    have hsplit := Finset.add_sum_erase Finset.univ (fun u => x.pending (s.core.call u))
      (Finset.mem_univ t)
    rcases State.body_at hd ((ha.inside_iff t i l).mpr hc) with
      ⟨l', e, hstep, hd'⟩ | ⟨o, d', hstep, hans, hd'⟩ <;> rw [ha.data_eq] at hstep
    · refine kept_same hs hd' (fun u => ?_) hgood
      simp only [LockThreads.step, hc, hstep]
      by_cases hu : u = t
      · rw [hu, hc]
        simp [LockThreads.setCall, Exchange.pending]
      · simp [LockThreads.setCall, Function.update_of_ne hu]
    · refine ⟨_, d', hs, hd', ?_⟩
      have hrest : ∀ u ∈ Finset.univ.erase t, x.pending ((s.core.step P (.body t)).call u) =
          x.pending (s.core.call u) := by
        intro u hu
        simp [LockThreads.step, hc, hstep, LockThreads.setCall,
          Function.update_of_ne (Finset.ne_of_mem_erase hu)]
      have hself : x.pending ((s.core.step P (.body t)).call t) = x.gives i o := by
        simp [LockThreads.step, hc, hstep, LockThreads.setCall, Exchange.pending]
      have hnew := Finset.add_sum_erase Finset.univ
        (fun u => x.pending ((s.core.step P (.body t)).call u)) (Finset.mem_univ t)
      rw [owned, ← hsplit, hc, add_left_comm] at hgood
      obtain ⟨o', e, hans', hgood'⟩ := hx d i _ hgood
      obtain ⟨ho, rfl⟩ := Prod.mk.inj (hans.unique hans')
      rw [owned, step, ← hnew, hself, Finset.sum_congr rfl hrest, add_left_comm, ho]
      exact hgood'
  · have hsame : s.core.step P (.body t) = s.core :=
      LockThreads.step_body_of_ne fun i l hrun => hc ⟨i, l, hrun⟩
    rw [step, hsame]
    exact ⟨a, d, ha, hd, hgood⟩

theorem kept_loadCurrent (h : Kept P x Good d₀ s) (t : Fin n) :
    Kept P x Good d₀ (s.step P x (.loadCurrent t)) := by
  obtain ⟨a, d, ha, hd, hgood⟩ := h
  refine kept_same (LockThreads.loadCurrent_abstracts ha t) hd (fun u => ?_) hgood
  rw [LockThreads.step]
  split <;> rfl

/-- The caller gets what the answer gives. -/
theorem kept_storeServing (h : Kept P x Good d₀ s) (t : Fin n) :
    Kept P x Good d₀ (s.step P x (.storeServing t)) := by
  obtain ⟨a, d, ha, hd, hgood⟩ := h
  rw [step]
  split
  next i o current hc hpc =>
    refine ⟨a, d, LockThreads.storeServing_abstracts (P := P) ha t, hd, ?_⟩
    have hnew : (s.core.step P (.storeServing t)).call = Function.update s.core.call t .idle := by
      simp [LockThreads.step, hpc, LockThreads.setCall]
    rw [owned_setCall hnew]
    · exact hgood
    · rw [hc]
      exact add_zero _
  next => exact ⟨a, d, ha, hd, hgood⟩

theorem step_kept (hx : x.Keeps P Good) (h : Kept P x Good d₀ s) (hn : n < 2 ^ 32)
    (act : LockCall n ι) : Kept P x Good d₀ (s.step P x act) := by
  cases act with
  | call t i => exact kept_call h t i
  | spin t => exact kept_spin h hn t
  | body t => exact kept_body hx h t
  | loadCurrent t => exact kept_loadCurrent h t
  | storeServing t => exact kept_storeServing h t

theorem run_kept (hx : x.Keeps P Good) (hn : n < 2 ^ 32) (h : Kept P x Good d₀ s)
    (acts : List (LockCall n ι)) : Kept P x Good d₀ (s.run P x acts) := by
  unfold run
  induction acts generalizing s with
  | nil => exact h
  | cons act acts ih => exact ih (step_kept hx h hn act)

end LockOwners
end Ggmk

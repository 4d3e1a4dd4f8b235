import Ggmk.Arch.Spinlock
import Ggmk.Lib.CriticalSection

/-! Operations between `gmk_lock_acquire` and `gmk_lock_release` of the bare-metal HAL, whose lock is
the ticket lock. Threads take their steps in any order; the lock makes each operation one step. -/
namespace Ggmk
open Word CriticalSection

/-- Where a thread is with its call: in acquire, in the body of the operation, or in release. -/
inductive CallPc (ι κ ο : Type*)
  | idle
  | waiting (i : ι)
  | running (i : ι) (l : κ)
  | leaving (i : ι) (o : ο)

structure LockThreads (n : ℕ) (δ ι κ ο : Type*) where
  lock : Spinlock n
  data : δ
  call : Fin n → CallPc ι κ ο
  history : List (Fin n × ι × ο)

inductive LockCall (n : ℕ) (ι : Type*)
  | call (t : Fin n) (i : ι)
  | spin (t : Fin n)
  | body (t : Fin n)
  | loadCurrent (t : Fin n)
  | storeServing (t : Fin n)

namespace LockThreads
variable {n : ℕ} {δ ι κ ο : Type*} {P : Program δ ι κ ο} {d₀ : δ} {s : LockThreads n δ ι κ ο}
  {a : State δ ι κ ο (Fin n)} {t u : Fin n}

def start (n : ℕ) (d₀ : δ) : LockThreads n δ ι κ ο :=
  ⟨Spinlock.gmkSpinlockInit n, d₀, fun _ => .idle, []⟩

def setCall (s : LockThreads n δ ι κ ο) (t : Fin n) (c : CallPc ι κ ο) : LockThreads n δ ι κ ο :=
  { s with call := Function.update s.call t c }

/-- The body runs between the last load of acquire and the load of release. -/
def step (P : Program δ ι κ ο) (s : LockThreads n δ ι κ ο) : LockCall n ι → LockThreads n δ ι κ ο
  | .call t i =>
      match s.call t with
      | .idle => { s.setCall t (.waiting i) with lock := s.lock.step (.fetchAdd t) }
      | _ => s
  | .spin t =>
      match s.call t with
      | .waiting i =>
          let lock := s.lock.step (.loadServing t)
          match lock.pc t with
          | .holding => { s.setCall t (.running i (P.enter i)) with lock := lock }
          | _ => { s with lock := lock }
      | _ => s
  | .body t =>
      match s.call t with
      | .running i l =>
          match P.step l s.data with
          | (.inl l', d) => { s.setCall t (.running i l') with data := d }
          | (.inr o, d) => { s.setCall t (.leaving i o) with
              data := d, history := s.history ++ [(t, i, o)] }
      | _ => s
  | .loadCurrent t =>
      match s.call t with
      | .leaving _ _ => { s with lock := s.lock.step (.loadCurrent t) }
      | _ => s
  | .storeServing t =>
      match s.lock.pc t with
      | .releasing _ => { s.setCall t .idle with lock := s.lock.step (.storeServing t) }
      | _ => s

def run (P : Program δ ι κ ο) (s : LockThreads n δ ι κ ο) (acts : List (LockCall n ι)) :
    LockThreads n δ ι κ ο := acts.foldl (step P) s

/-- The call of a thread and its place in the lock agree. -/
def Agrees : CallPc ι κ ο → LockPc → Prop
  | .idle, pc => pc = .idle
  | .waiting _, pc => ∃ ticket, pc = .spinning ticket
  | .running _ _, pc => pc = .holding
  | .leaving _ _, pc => pc = .holding ∨ ∃ current, pc = .releasing current

/-- The critical section that the threads implement. -/
structure Abstracts (s : LockThreads n δ ι κ ο) (a : State δ ι κ ο (Fin n)) : Prop where
  queue : ∃ finished waiting, s.lock.Queue finished waiting
  agrees : ∀ t, Agrees (s.call t) (s.lock.pc t)
  data_eq : a.data = s.data
  history_eq : a.history = s.history
  inside_iff : ∀ t i l, a.inside = some (t, i, l) ↔ s.call t = .running i l
  granted_eq : s.lock.granted =
    a.history.map (fun e => e.1) ++ (a.inside.map fun c => c.1).toList

theorem start_abstracts (n : ℕ) (d₀ : δ) :
    (start n d₀ : LockThreads n δ ι κ ο).Abstracts (State.start d₀) where
  queue := ⟨[], [], Spinlock.queue_init n⟩
  agrees := fun _ => rfl
  data_eq := rfl
  history_eq := rfl
  inside_iff := fun t i l => by simp [State.start, start]
  granted_eq := rfl

/-- A step of thread `t` that moves its call to `c`. -/
theorem Abstracts.set {lock : Spinlock n} {c : CallPc ι κ ο} {data : δ}
    {inside : Option (Fin n × ι × κ)} {history : List (Fin n × ι × ο)} (h : s.Abstracts a)
    (hq : ∃ finished waiting, lock.Queue finished waiting) (hself : Agrees c (lock.pc t))
    (hother : ∀ u, u ≠ t → lock.pc u = s.lock.pc u)
    (hin : ∀ u i l, inside = some (u, i, l) ↔ Function.update s.call t c u = .running i l)
    (hgr : lock.granted = history.map (fun e => e.1) ++ (inside.map fun c => c.1).toList) :
    Abstracts ⟨lock, data, Function.update s.call t c, history⟩ ⟨data, inside, history⟩ := by
  refine ⟨hq, fun u => ?_, rfl, rfl, hin, hgr⟩
  change Agrees (Function.update s.call t c u) (lock.pc u)
  by_cases hu : u = t
  · rw [hu, Function.update_self]
    exact hself
  · rw [Function.update_of_ne hu, hother u hu]
    exact h.agrees u

/-- A step outside of the critical section: the abstract one stands still. -/
theorem Abstracts.stand {lock : Spinlock n} {c : CallPc ι κ ο} (h : s.Abstracts a)
    (hq : ∃ finished waiting, lock.Queue finished waiting) (hself : Agrees c (lock.pc t))
    (hother : ∀ u, u ≠ t → lock.pc u = s.lock.pc u) (hgr : lock.granted = s.lock.granted)
    (hnew : ∀ i l, c ≠ .running i l) (hold : ∀ i l, s.call t ≠ .running i l) :
    Abstracts { s.setCall t c with lock := lock } a := by
  have hset : Abstracts ⟨lock, s.data, Function.update s.call t c, s.history⟩
      ⟨s.data, a.inside, s.history⟩ := h.set hq hself hother
    (fun u i l => ?_) (by rw [hgr, h.granted_eq, h.history_eq])
  · have ha : (⟨s.data, a.inside, s.history⟩ : State δ ι κ ο (Fin n)) = a := by
      rw [← h.data_eq, ← h.history_eq]
    rwa [ha] at hset
  · rw [h.inside_iff]
    by_cases hu : u = t
    · rw [hu, Function.update_self]
      exact iff_of_false (hold i l) (hnew i l)
    · rw [Function.update_of_ne hu]

theorem call_abstracts (h : s.Abstracts a) (t : Fin n) (i : ι) :
    (s.step P (.call t i)).Abstracts a := by
  rw [step]
  cases hc : s.call t with
  | idle =>
    have hidle : s.lock.pc t = .idle := by simpa [hc, Agrees] using h.agrees t
    obtain ⟨finished, waiting, hq⟩ := h.queue
    simp only [Spinlock.step, hidle]
    exact h.stand ⟨_, _, hq.fetchAdd hidle⟩ ⟨_, Spinlock.setPc_self ..⟩
      (fun u hu => Spinlock.setPc_of_ne _ _ hu) rfl (fun _ _ hrun => by cases hrun)
      (fun _ _ hrun => by cases hc.symm.trans hrun)
  | waiting i => exact h
  | running i l => exact h
  | leaving i o => exact h

/-- Nobody is inside when a ticket is served. -/
theorem Abstracts.inside_none (h : s.Abstracts a) (hn : n < 2 ^ 32)
    (ht : s.lock.pc t = .spinning s.lock.serving) : a.inside = none := by
  rcases hin : a.inside with _ | ⟨u, i, l⟩
  · rfl
  · have hrun := (h.inside_iff u i l).mp hin
    have hhold : s.lock.pc u = .holding := by simpa [hrun, Agrees] using h.agrees u
    obtain ⟨finished, waiting, hq⟩ := h.queue
    have hhead := hq.head_of_inside (.inl hhold)
    rw [(hq.head_of_served hn ht).1] at hhead
    obtain rfl := Option.some.inj hhead
    rw [ht] at hhold
    cases hhold

/-- A served ticket enters the critical section. -/
theorem spin_abstracts (h : s.Abstracts a) (hn : n < 2 ^ 32) (t : Fin n) :
    (s.step P (.spin t)).Abstracts a ∨
      ∃ i, (s.step P (.spin t)).Abstracts (a.step P (.enter t i)) := by
  rw [step]
  cases hc : s.call t with
  | waiting i =>
    obtain ⟨ticket, hspin⟩ : ∃ ticket, s.lock.pc t = .spinning ticket := by
      simpa [hc, Agrees] using h.agrees t
    by_cases hserve : s.lock.serving = ticket
    · subst hserve
      have hnone := h.inside_none hn hspin
      obtain ⟨finished, waiting, hq⟩ := h.queue
      obtain ⟨hhead, hg⟩ := hq.head_of_served hn hspin
      have hlock : s.lock.step (.loadServing t) =
          { s.lock.setPc t .holding with granted := s.lock.granted ++ [t] } := by
        simp [Spinlock.step, hspin]
      have hself := Spinlock.setPc_self s.lock t .holding
      have hin := h.inside_iff
      have hgr := h.granted_eq
      simp only [hnone, Option.map_none, Option.toList_none, List.append_nil] at hin hgr
      refine .inr ⟨i, ?_⟩
      simp only [hlock, hself, State.step, hnone, h.data_eq, h.history_eq]
      refine h.set ⟨_, _, hq.setFront hhead ⟨.inl rfl, by rw [hg]⟩⟩ hself
        (fun u hu => Spinlock.setPc_of_ne _ _ hu) (fun u j l => ?_) ?_
      · by_cases hu : u = t
        · simp [hu]
        · simp [Function.update_of_ne hu, ← hin, Ne.symm hu]
      · simp [hgr, h.history_eq, setCall]
    · have hlock : s.lock.step (.loadServing t) = s.lock := by
        simp [Spinlock.step, hspin, hserve]
      simp only [hlock, hspin]
      exact .inl h
  | idle => exact .inl h
  | running i l => exact .inl h
  | leaving i o => exact .inl h

/-- The body of the operation is a step of the call inside. -/
theorem body_abstracts (h : s.Abstracts a) {i : ι} {l : κ} (hc : s.call t = .running i l) :
    (s.step P (.body t)).Abstracts (a.step P .body) := by
  have hhold : s.lock.pc t = .holding := by simpa [hc, Agrees] using h.agrees t
  have hin := (h.inside_iff t i l).mpr hc
  have hgr := h.granted_eq
  have hothers : ∀ u j m, u ≠ t → s.call u ≠ .running j m := by
    intro u j m hu hrun
    rw [← h.inside_iff, hin] at hrun
    exact hu (Prod.mk.inj (Option.some.inj hrun)).1.symm
  simp only [step, hc, State.step, hin, h.data_eq]
  rcases hs : P.step l s.data with ⟨l' | o, d⟩ <;> simp only
  · rw [h.history_eq]
    refine h.set h.queue hhold (fun _ _ => rfl) (fun u j m => ?_) ?_
    · by_cases hu : u = t
      · simp [hu]
      · simp [Function.update_of_ne hu, hothers u j m hu, Ne.symm hu]
    · simp [setCall, hgr, hin, h.history_eq]
  · rw [h.history_eq]
    refine h.set h.queue (.inl hhold) (fun _ _ => rfl) (fun u j m => ?_) ?_
    · by_cases hu : u = t
      · simp [hu]
      · simp [Function.update_of_ne hu, hothers u j m hu]
    · simp [setCall, hgr, hin, h.history_eq]

theorem step_body_of_ne (hc : ∀ i l, s.call t ≠ .running i l) : s.step P (.body t) = s := by
  rw [step]
  split
  next i l hrun => exact absurd hrun (hc i l)
  next => rfl

theorem loadCurrent_abstracts (h : s.Abstracts a) (t : Fin n) :
    (s.step P (.loadCurrent t)).Abstracts a := by
  rw [step]
  cases hc : s.call t with
  | leaving i o =>
    have hplace : s.lock.pc t = .holding ∨ ∃ current, s.lock.pc t = .releasing current := by
      simpa [hc, Agrees] using h.agrees t
    rcases hplace with hhold | ⟨current, hrel⟩
    · obtain ⟨finished, waiting, hq⟩ := h.queue
      have hhead := hq.head_of_inside (.inl hhold)
      have hg := (hq.granted_of_inside (.inl hhold)).2
      have hself : Function.update s.call t (.leaving i o) = s.call := by
        rw [← hc, Function.update_eq_self]
      have hst : Abstracts { s.setCall t (.leaving i o) with
          lock := s.lock.setPc t (.releasing s.lock.serving) } a := h.stand
        ⟨_, _, hq.setFront hhead ⟨.inr (by rw [hq.serving_eq]), hg⟩⟩
        (.inr ⟨_, Spinlock.setPc_self ..⟩) (fun u hu => Spinlock.setPc_of_ne _ _ hu) rfl
        (fun _ _ hrun => by cases hrun) (fun _ _ hrun => by cases hc.symm.trans hrun)
      simp only [Spinlock.step, hhold]
      rw [setCall, hself] at hst
      exact hst
    · simp only [Spinlock.step, hrel]
      exact h
  | idle => exact h
  | waiting i => exact h
  | running i l => exact h

theorem storeServing_abstracts (h : s.Abstracts a) (t : Fin n) :
    (s.step P (.storeServing t)).Abstracts a := by
  rw [step]
  cases hpc : s.lock.pc t with
  | releasing current =>
    obtain ⟨finished, waiting, hq⟩ := h.queue
    have hhead := hq.head_of_inside (.inr ⟨current, hpc⟩)
    obtain ⟨ws, rfl⟩ := List.head?_eq_some_iff.mp hhead
    have hcur := (hq.granted_of_inside (.inr ⟨current, hpc⟩)).1
    obtain rfl : current = u32 finished.length := by simpa [hpc] using hcur
    have hnot : ∀ i l, s.call t ≠ .running i l := by
      intro i l hrun
      have hagree := h.agrees t
      rw [hrun, hpc] at hagree
      cases hagree
    simp only [Spinlock.step, hpc]
    exact h.stand ⟨_, _, hq.storeServing hpc⟩ (Spinlock.setPc_self ..)
      (fun u hu => Spinlock.setPc_of_ne _ _ hu) rfl (fun _ _ hrun => by cases hrun) hnot
  | idle => exact h
  | spinning ticket => exact h
  | holding => exact h

/-- Every step of the threads is a step of the critical section, or none. -/
theorem step_abstracts (h : s.Abstracts a) (hn : n < 2 ^ 32) (act : LockCall n ι) :
    (s.step P act).Abstracts a ∨ ∃ m, (s.step P act).Abstracts (a.step P m) := by
  cases act with
  | call t i => exact .inl (call_abstracts h t i)
  | spin t => exact (spin_abstracts h hn t).imp_right fun ⟨i, hi⟩ => ⟨_, hi⟩
  | body t =>
    by_cases hc : ∃ i l, s.call t = .running i l
    · obtain ⟨i, l, hc⟩ := hc
      exact .inr ⟨_, body_abstracts h hc⟩
    · rw [step_body_of_ne fun i l hrun => hc ⟨i, l, hrun⟩]
      exact .inl h
  | loadCurrent t => exact .inl (loadCurrent_abstracts h t)
  | storeServing t => exact .inl (storeServing_abstracts h t)

theorem step_at {d : δ} (h : s.Abstracts a) (hd : a.At P d₀ d) (hn : n < 2 ^ 32)
    (act : LockCall n ι) : ∃ a' d', (s.step P act).Abstracts a' ∧ a'.At P d₀ d' := by
  rcases step_abstracts (P := P) h hn act with hs | ⟨m, hs⟩
  · exact ⟨a, d, hs, hd⟩
  · obtain ⟨d', hd'⟩ := State.step_at hd m
    exact ⟨_, d', hs, hd'⟩

theorem run_at (P : Program δ ι κ ο) (d₀ : δ) (hn : n < 2 ^ 32) (acts : List (LockCall n ι)) :
    ∃ a d, ((start n d₀).run P acts).Abstracts a ∧ a.At P d₀ d := by
  unfold run
  induction acts using List.reverseRecOn with
  | nil => exact ⟨_, d₀, start_abstracts n d₀, State.start_at P d₀⟩
  | append_singleton acts act ih =>
    obtain ⟨a, d, ha, hd⟩ := ih
    rw [List.foldl_append]
    exact step_at ha hd hn act

theorem granted_isPrefix {lock : Spinlock n} {finished waiting : List (Fin n)}
    (h : lock.Queue finished waiting) : lock.granted <+: lock.taken := by
  rw [h.taken_eq]
  cases waiting with
  | nil =>
    rw [h.free rfl]
    exact List.prefix_append ..
  | cons t ws =>
    rcases h.front t rfl with ⟨-, hg⟩ | ⟨-, hg⟩
    · rw [hg]
      exact List.prefix_append ..
    · rw [hg]
      exact ⟨ws, by simp⟩

/-- The threads answered so far took their tickets first. -/
theorem Abstracts.history_isPrefix (h : s.Abstracts a) :
    s.history.map (fun e => e.1) <+: s.lock.taken := by
  obtain ⟨finished, waiting, hq⟩ := h.queue
  refine List.IsPrefix.trans ?_ (granted_isPrefix hq)
  rw [h.granted_eq, h.history_eq]
  exact List.prefix_append ..

theorem Abstracts.data_of_outside {d : δ} (h : s.Abstracts a)
    (hpart : State.Partway P d a.data a.inside) (hout : ∀ t i l, s.call t ≠ .running i l) :
    s.data = d := by
  have hnone : a.inside = none := by
    rcases hin : a.inside with _ | ⟨t, i, l⟩
    · rfl
    · exact absurd ((h.inside_iff t i l).mp hin) (hout t i l)
  rw [hnone, State.Partway, h.data_eq] at hpart
  exact hpart

/-- Fewer than `2 ^ 32` threads that step through operations under the lock, in any order, get the
answers that the operations give one after the other, in the order of the `fetch_add`s; and while
none of them is in the body of an operation the data is what those operations leave. -/
theorem serialised (hn : n < 2 ^ 32) (P : Program δ ι κ ο) (d₀ : δ) (acts : List (LockCall n ι))
    {s : LockThreads n δ ι κ ο} (hs : s = (start n d₀).run P acts) :
    ∃ d, P.Serial d₀ s.history d ∧ ((∀ t i l, s.call t ≠ .running i l) → s.data = d) ∧
      s.history.map (fun e => e.1) <+: s.lock.taken := by
  subst hs
  obtain ⟨a, d, ha, hd⟩ := run_at P d₀ hn acts
  have hserial := hd.serial
  rw [ha.history_eq] at hserial
  exact ⟨d, hserial, ha.data_of_outside hd.partway, ha.history_isPrefix⟩

/-- A load and a store, as two memory steps. -/
def increment : Program ℕ Unit (Option ℕ) ℕ where
  enter _ := none
  step
    | none, d => (.inl (some d), d)
    | some v, _ => (.inr v, v + 1)

/-- Two threads, the second of which spins while the first is between its load and its store. -/
theorem serialised_two :
    let acts : List (LockCall 2 Unit) := [.call 0 (), .spin 0, .call 1 (), .body 0, .spin 1, .body 0,
      .loadCurrent 0, .storeServing 0, .spin 1, .body 1, .body 1]
    ∃ d, increment.Serial 0 ((start 2 0).run increment acts).history d ∧
      ((∀ t i l, ((start 2 0).run increment acts).call t ≠ .running i l) →
        ((start 2 0).run increment acts).data = d) ∧
      ((start 2 0).run increment acts).history.map (fun e => e.1) <+:
        ((start 2 0).run increment acts).lock.taken := by
  exact serialised (by norm_num) increment 0 _ rfl

end LockThreads
end Ggmk

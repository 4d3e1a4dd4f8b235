import Ggmk.Lib.Reach
import Ggmk.Lib.WeightedRound
import Ggmk.Lifecycle.Host
import Ggmk.Sched.Queues

/-! The ready queue over rings of any accepted capacity, a single cell included, and what its
weighted pops owe to each priority over a whole run. -/
namespace Ggmk
open Word Guarded

structure RqRings where
  queues : ℕ → RingMpmc Task
  popCounters : ℕ → ℕ

inductive RqPushResult where
  | ok (rq : RqRings)
  | full
  | spin

inductive RqPassResult where
  | ok (t : Task) (rq : RqRings)
  | empty
  | spin

namespace RqRings

/-- The state `gmk_rq_init` leaves once `cap_per_queue` has been accepted. -/
def gmkRqInit (capPerQueue : ℕ) : RqRings where
  queues _ := Ggmk.gmkRingMpmcInit capPerQueue
  popCounters _ := 0

def gmkRqPush (rq : RqRings) (t : Task) : RqPushResult :=
  let prio := if gmkPriorityCount ≤ t.prio then gmkPrioLow else t.prio
  match gmkRingMpmcPush (rq.queues prio) t with
  | .ok r => .ok { rq with queues := Function.update rq.queues prio r }
  | .full => .full
  | .spin => .spin

/-- Queue `prio` has delivered and is left as `r`. -/
def served (rq : RqRings) (prio : ℕ) (r : RingMpmc Task) : RqRings where
  queues := Function.update rq.queues prio r
  popCounters := Function.update rq.popCounters prio (u32 (rq.popCounters prio + 1))

/-- One of the two loops of the pop, over the priorities that it may take from. -/
def pass (rq : RqRings) (allowed : ℕ → Bool) : List ℕ → RqPassResult
  | [] => .empty
  | prio :: rest =>
      if allowed prio then
        match gmkRingMpmcPop (rq.queues prio) with
        | .ok t r => .ok t (rq.served prio r)
        | .empty => pass rq allowed rest
        | .spin => .spin
      else pass rq allowed rest

def weightedPass (rq : RqRings) : RqPassResult :=
  rq.pass (fun prio => rq.popCounters prio < gmkWeight prio) Rq.priorities

def anyPass (rq : RqRings) : RqPassResult := rq.pass (fun _ => true) Rq.priorities

def reset (rq : RqRings) : RqRings := { rq with popCounters := fun _ => 0 }

/-- `none` is a pop that never returns. -/
def gmkRqPop (rq : RqRings) : Option (Option Task × RqRings) :=
  match rq.weightedPass with
  | .ok t rq' => some (some t, rq')
  | .spin => none
  | .empty =>
      match rq.reset.anyPass with
      | .ok t rq' => some (some t, rq')
      | .spin => none
      | .empty => some (none, rq.reset)

/-- The pop comes to the reset of the counters. -/
def resets (rq : RqRings) : Bool :=
  match rq.weightedPass with
  | .empty => true
  | _ => false

/-- The four rings represent the queues `q`. -/
def Holds (rq : RqRings) (q : ℕ → List Task) : Prop :=
  ∀ p < gmkPriorityCount, (rq.queues p).Holds (q p)

/-- The first queue of `l` that is allowed and not empty delivers. -/
theorem pass_cases (rq : RqRings) {q : ℕ → List Task} (allowed : ℕ → Bool) {l : List ℕ}
    (hq : ∀ p ∈ l, (rq.queues p).Holds (q p)) (hsorted : l.Pairwise (· < ·)) :
    (rq.pass allowed l = .empty ∧ ∀ p ∈ l, allowed p = true → q p = []) ∨
    ∃ p ∈ l, ∃ t rest r, allowed p = true ∧ q p = t :: rest ∧ r.Holds rest ∧
      r.cap = (rq.queues p).cap ∧ rq.pass allowed l = .ok t (rq.served p r) ∧
      ∀ p' ∈ l, p' < p → allowed p' = true → q p' = [] := by
  induction l with
  | nil => exact .inl ⟨rfl, by simp⟩
  | cons x l ih =>
    obtain ⟨hx, hl⟩ := List.pairwise_cons.mp hsorted
    have ih := ih (fun p hp => hq p (List.mem_cons_of_mem x hp)) hl
    by_cases hskip : allowed x = true → q x = []
    · -- the loop goes on behind a queue that is not allowed or empty
      have hpass : rq.pass allowed (x :: l) = rq.pass allowed l := by
        rw [pass]
        split
        next ha =>
          have hxq := hq x List.mem_cons_self
          rw [hskip ha] at hxq
          rw [hxq.pop_empty]
        next => rfl
      rw [hpass]
      rcases ih with ⟨hempty, hall⟩ | ⟨p, hp, t, rest, r, ha, ht, hr, hcap, hok, hbefore⟩
      · refine .inl ⟨hempty, ?_⟩
        intro p hp
        rcases List.mem_cons.mp hp with rfl | hp
        · exact hskip
        · exact hall p hp
      · refine .inr ⟨p, List.mem_cons_of_mem x hp, t, rest, r, ha, ht, hr, hcap, hok, ?_⟩
        intro p' hp'
        rcases List.mem_cons.mp hp' with rfl | hp'
        · exact fun _ => hskip
        · exact hbefore p' hp'
    · obtain ⟨ha, hne⟩ := Classical.not_imp.mp hskip
      obtain ⟨t, rest, ht⟩ := List.exists_cons_of_ne_nil hne
      have hxq := hq x List.mem_cons_self
      rw [ht] at hxq
      obtain ⟨r, hpop, hr, hcap⟩ := hxq.pop_ok
      refine .inr ⟨x, List.mem_cons_self, t, rest, r, ha, ht, hr, hcap, ?_, ?_⟩
      · rw [pass, if_pos ha, hpop]
      · intro p' hp' hlt
        rcases List.mem_cons.mp hp' with rfl | hp'
        · exact absurd hlt (lt_irrefl _)
        · exact absurd (hx p' hp') (by omega)

theorem mem_priorities {p : ℕ} : p ∈ Rq.priorities ↔ p < gmkPriorityCount := by
  simp only [Rq.priorities, gmkPriorityCount, List.mem_cons, List.not_mem_nil, or_false]
  omega

/-- What a pop does: serve the first queue with quota left, or else reset the counters and serve
the first queue, or else find all queues empty. -/
inductive PopCase (rq : RqRings) (q : ℕ → List Task) : Prop
  | quota (p : ℕ) (t : Task) (rest : List Task) (r : RingMpmc Task) (hp : p < gmkPriorityCount)
      (hc : rq.popCounters p < gmkWeight p) (ht : q p = t :: rest) (hr : r.Holds rest)
      (hcap : r.cap = (rq.queues p).cap)
      (hfirst : ∀ p' < p, rq.popCounters p' < gmkWeight p' → q p' = [])
      (hpop : rq.gmkRqPop = some (some t, rq.served p r)) (hreset : rq.resets = false)
  | round (p : ℕ) (t : Task) (rest : List Task) (r : RingMpmc Task) (hp : p < gmkPriorityCount)
      (ht : q p = t :: rest) (hr : r.Holds rest) (hcap : r.cap = (rq.queues p).cap)
      (hspent : ∀ p' < gmkPriorityCount, rq.popCounters p' < gmkWeight p' → q p' = [])
      (hfirst : ∀ p' < p, q p' = [])
      (hpop : rq.gmkRqPop = some (some t, rq.reset.served p r)) (hreset : rq.resets = true)
  | empty (hall : ∀ p < gmkPriorityCount, q p = []) (hpop : rq.gmkRqPop = some (none, rq.reset))
      (hreset : rq.resets = true)

theorem Holds.popCase {rq : RqRings} {q : ℕ → List Task} (h : rq.Holds q) : PopCase rq q := by
  have hsorted : Rq.priorities.Pairwise (· < ·) := by decide
  have hq : ∀ p ∈ Rq.priorities, (rq.queues p).Holds (q p) :=
    fun p hp => h p (mem_priorities.mp hp)
  rcases rq.pass_cases (fun p => rq.popCounters p < gmkWeight p) hq hsorted with
    ⟨hnone, hspent⟩ | ⟨p, hp, t, rest, r, ha, ht, hr, hcap, hok, hbefore⟩
  · change rq.weightedPass = _ at hnone
    have hreset : rq.resets = true := by rw [resets, hnone]
    simp only [mem_priorities, decide_eq_true_eq] at hspent
    rcases rq.reset.pass_cases (fun _ => true) hq hsorted with
      ⟨hempty, hall⟩ | ⟨p, hp, t, rest, r, -, ht, hr, hcap, hok, hbefore⟩
    · change rq.reset.anyPass = _ at hempty
      simp only [mem_priorities, forall_true_left] at hall
      exact .empty hall (by rw [gmkRqPop, hnone]; simp only [hempty]) hreset
    · change rq.reset.anyPass = _ at hok
      simp only [mem_priorities, forall_true_left] at hp hbefore
      exact .round p t rest r hp ht hr hcap hspent (fun p' hp' => hbefore p' (by omega) hp')
        (by rw [gmkRqPop, hnone]; simp only [hok]) hreset
  · change rq.weightedPass = _ at hok
    simp only [mem_priorities, decide_eq_true_eq] at hp ha hbefore
    exact .quota p t rest r hp ha ht hr hcap (fun p' hp' => hbefore p' (by omega) hp')
      (by rw [gmkRqPop, hok]) (by rw [resets, hok])

end RqRings

/-- A pop that has returned, with the tasks that waited in each queue just before it. -/
structure RqPopEvent where
  task : Option Task
  waiting : ℕ → List Task
  reset : Bool

def RqPopEvent.Returns (e : RqPopEvent) (p : ℕ) : Prop := e.task.map Task.prio = some p

instance (e : RqPopEvent) (p : ℕ) : Decidable (e.Returns p) := inferInstanceAs (Decidable (_ = _))

/-- The last task of priority `p` was returned `n` pops ago, and before none of them was its
queue empty. The newest pop stands first. -/
inductive Waited (p : ℕ) : ℕ → List RqPopEvent → Prop
  | served {e : RqPopEvent} {l : List RqPopEvent} (he : e.Returns p) : Waited p 0 (e :: l)
  | other {e : RqPopEvent} {l : List RqPopEvent} {n : ℕ} (h : Waited p n l) (he : ¬ e.Returns p)
      (hq : e.waiting p ≠ []) : Waited p (n + 1) (e :: l)

/-- Pops in a row after the first of which none has reset the counters returned `n` tasks of
priority `p`; the reset of the first one comes before what it returns. -/
inductive Spent (p : ℕ) : ℕ → List RqPopEvent → Prop
  | first (e : RqPopEvent) (l : List RqPopEvent) : Spent p (if e.Returns p then 1 else 0) (e :: l)
  | more {e : RqPopEvent} {l : List RqPopEvent} {n : ℕ} (h : Spent p n l) (he : e.reset = false) :
      Spent p (n + if e.Returns p then 1 else 0) (e :: l)

/-- The ready queue with the history of its calls: per priority the tasks that were accepted and
those that were returned, and the pops, the newest first. A call that never returns hangs. -/
structure RqRun where
  rq : RqRings
  hung : Bool
  accepted : ℕ → List Task
  popped : ℕ → List Task
  pops : List RqPopEvent

inductive RqAct where
  | push (t : Task)
  | pop

namespace RqRun

def waiting (s : RqRun) (p : ℕ) : List Task := (s.accepted p).drop (s.popped p).length

def push (s : RqRun) (t : Task) : RqRun :=
  match s.rq.gmkRqPush t with
  | .ok rq => { s with
      rq := rq
      accepted := Function.update s.accepted t.prio (s.accepted t.prio ++ [t]) }
  | .full => s
  | .spin => { s with hung := true }

def pop (s : RqRun) : RqRun :=
  match s.rq.gmkRqPop with
  | none => { s with hung := true }
  | some (none, rq) => { s with rq := rq, pops := ⟨none, s.waiting, s.rq.resets⟩ :: s.pops }
  | some (some t, rq) => { s with
      rq := rq
      popped := Function.update s.popped t.prio (s.popped t.prio ++ [t])
      pops := ⟨some t, s.waiting, s.rq.resets⟩ :: s.pops }

def step (s : RqRun) (act : RqAct) : RqRun :=
  if s.hung then s
  else
    match act with
    | .push t => s.push t
    | .pop => s.pop

def start (capPerQueue : ℕ) : RqRun where
  rq := RqRings.gmkRqInit capPerQueue
  hung := false
  accepted _ := []
  popped _ := []
  pops := []

/-- No priority starves: every call has returned, a priority that waits is passed over for a
bounded number of pops, each queue is served in order, a pop fails only when nothing waits, and
no priority exceeds its weight between two resets. -/
structure Served (s : RqRun) : Prop where
  alive : s.hung = false
  turn : ∀ p < gmkPriorityCount, ∀ n, Waited p n s.pops →
    n ≤ (15 - gmkWeight p) + ∑ q ∈ Finset.range p, gmkWeight q
  oldest : ∀ p < gmkPriorityCount, s.popped p <+: s.accepted p
  failed : ∀ e ∈ s.pops, e.task = none ↔ ∀ p < gmkPriorityCount, e.waiting p = []
  quota : ∀ p < gmkPriorityCount, ∀ n, Spent p n s.pops → n ≤ gmkWeight p

/-- A queue of a single cell takes a task only when it is empty. -/
def Spaced (s : RqRun) : RqAct → Prop
  | .push t => (s.rq.queues t.prio).cap = 1 → gmkRingMpmcCount (s.rq.queues t.prio) = 0
  | .pop => True

/-- The rings hold what waits, and the counters account for the pops since any of them. -/
structure Inv (s : RqRun) : Prop where
  alive : s.hung = false
  rings : s.rq.Holds s.waiting
  oldest : ∀ p, s.popped p <+: s.accepted p
  labelled : ∀ p, ∀ t ∈ s.accepted p, t.prio = p
  counters : ∀ p < gmkPriorityCount, s.rq.popCounters p ≤ gmkWeight p
  failed : ∀ e ∈ s.pops, e.task = none ↔ ∀ p < gmkPriorityCount, e.waiting p = []
  turn : ∀ p < gmkPriorityCount, ∀ n, Waited p n s.pops →
    n + WeightedRound.ahead gmkPriorityCount gmkWeight s.rq.popCounters p ≤
      WeightedRound.bound gmkPriorityCount gmkWeight p
  spent : ∀ p < gmkPriorityCount, ∀ n, Spent p n s.pops → n ≤ s.rq.popCounters p

theorem bound_eq {p : ℕ} (hp : p < gmkPriorityCount) :
    WeightedRound.bound gmkPriorityCount gmkWeight p =
      (15 - gmkWeight p) + ∑ q ∈ Finset.range p, gmkWeight q := by
  simp only [gmkPriorityCount] at hp
  interval_cases p <;> decide

theorem Inv.served {s : RqRun} (h : s.Inv) : s.Served where
  alive := h.alive
  turn := by
    intro p hp n hn
    have ht := h.turn p hp n hn
    rw [bound_eq hp] at ht
    omega
  oldest p _ := h.oldest p
  failed := h.failed
  quota p hp n hn := (h.spent p hp n hn).trans (h.counters p hp)

theorem start_inv {k : ℕ} (hk : k ≤ 31) : (start (2 ^ k)).Inv := by
  constructor
  · rfl
  · exact fun p _ => RingMpmc.init_holds hk
  · exact fun p => List.prefix_refl []
  · simp [start]
  · simp [start, RqRings.gmkRqInit]
  · simp [start]
  · rintro p _ n ⟨⟩
  · rintro p _ n ⟨⟩

section Steps
variable {s : RqRun} {p : ℕ} {t : Task} {rest : List Task} {r : RingMpmc Task}

theorem Inv.accepted_eq (h : s.Inv) (p : ℕ) : s.accepted p = s.popped p ++ s.waiting p :=
  (List.prefix_iff_eq_append.mp (h.oldest p)).symm

theorem holds_update {q : ℕ → List Task} (h : s.rq.Holds q) (hr : r.Holds rest) :
    ∀ x < gmkPriorityCount,
      (Function.update s.rq.queues p r x).Holds (Function.update q p rest x) := by
  intro x hx
  by_cases hxp : x = p
  · subst hxp
    simpa only [Function.update_self] using hr
  · simpa only [Function.update_of_ne hxp] using h x hx

/-- An accepted task waits behind the others of its priority. -/
theorem Inv.waiting_push (h : s.Inv) (rq : RqRings) (t : Task) :
    waiting { s with
      rq := rq
      accepted := Function.update s.accepted t.prio (s.accepted t.prio ++ [t]) } =
      Function.update s.waiting t.prio (s.waiting t.prio ++ [t]) := by
  funext x
  by_cases hx : x = t.prio
  · subst hx
    simp only [waiting, Function.update_self]
    exact List.drop_append_of_le_length (h.oldest t.prio).length_le
  · simp only [waiting, Function.update_of_ne hx]

/-- A returned task was the first of those that waited. -/
theorem Inv.waiting_pop (h : s.Inv) (hw : s.waiting p = t :: rest) (rq : RqRings)
    (pops : List RqPopEvent) :
    waiting { s with
      rq := rq
      popped := Function.update s.popped p (s.popped p ++ [t])
      pops := pops } = Function.update s.waiting p rest := by
  funext x
  by_cases hx : x = p
  · subst hx
    have hsplit : s.accepted x = (s.popped x ++ [t]) ++ rest := by
      rw [h.accepted_eq x, hw, List.append_assoc, List.singleton_append]
    simp only [waiting, Function.update_self, hsplit, List.drop_left]
  · simp only [waiting, Function.update_of_ne hx]

theorem Inv.prio_eq (h : s.Inv) (hw : s.waiting p = t :: rest) : t.prio = p := by
  apply h.labelled p
  rw [h.accepted_eq p, hw]
  exact List.mem_append_right _ List.mem_cons_self

theorem Inv.push (h : s.Inv) (t : Task) (hg : s.Spaced (.push t)) : (s.push t).Inv := by
  have hq := h.rings t.prio t.prio_lt
  have hprio : ¬ gmkPriorityCount ≤ t.prio := not_le.mpr t.prio_lt
  unfold RqRun.push RqRings.gmkRqPush
  simp only [if_neg hprio]
  rcases hq.room.lt_or_eq with hlt | hfull
  · obtain ⟨r, hpush, hr, -⟩ := hq.push_ok t hlt
    simp only [hpush]
    constructor
    · exact h.alive
    · rw [h.waiting_push]
      exact holds_update h.rings hr
    · intro p
      by_cases hp : p = t.prio
      · subst hp
        simp only [Function.update_self]
        exact (h.oldest t.prio).trans (List.prefix_append _ _)
      · simpa only [Function.update_of_ne hp] using h.oldest p
    · intro p u hu
      by_cases hp : p = t.prio
      · subst hp
        simp only [Function.update_self, List.mem_append, List.mem_singleton] at hu
        rcases hu with hold | rfl
        · exact h.labelled t.prio u hold
        · rfl
      · simp only [Function.update_of_ne hp] at hu
        exact h.labelled p u hu
    · exact h.counters
    · exact h.failed
    · exact h.turn
    · exact h.spent
  · -- a full ring has two cells or more, for a single cell is empty here
    have htwo : 2 ≤ (s.rq.queues t.prio).cap := by
      have hpos := hq.cap_pos
      by_contra hlt
      have hone : (s.rq.queues t.prio).cap = 1 := by omega
      have hzero := hg hone
      rw [hq.count_eq] at hzero
      omega
    simp only [hq.push_full t hfull htwo]
    exact h

/-- A pop that delivers from queue `p` and leaves the counters `c`. -/
theorem Inv.deliver (h : s.Inv) {c : ℕ → ℕ} {reset : Bool} (hp : p < gmkPriorityCount)
    (hw : s.waiting p = t :: rest) (hr : r.Holds rest)
    (hc : ∀ x < gmkPriorityCount, c x ≤ gmkWeight x)
    (hturn : ∀ x < gmkPriorityCount, x ≠ p → s.waiting x ≠ [] →
      WeightedRound.ahead gmkPriorityCount gmkWeight c x + 1 ≤
        WeightedRound.ahead gmkPriorityCount gmkWeight s.rq.popCounters x)
    (hone : 1 ≤ c p)
    (hmore : reset = false → ∀ x, s.rq.popCounters x + (if x = p then 1 else 0) ≤ c x) :
    Inv { s with
      rq := ⟨Function.update s.rq.queues p r, c⟩
      popped := Function.update s.popped t.prio (s.popped t.prio ++ [t])
      pops := ⟨some t, s.waiting, reset⟩ :: s.pops } := by
  have hprio := h.prio_eq hw
  have hreturns (x : ℕ) : RqPopEvent.Returns ⟨some t, s.waiting, reset⟩ x ↔ x = p := by
    simp only [RqPopEvent.Returns, Option.map_some, Option.some.injEq, hprio, eq_comm]
  rw [hprio]
  constructor
  · exact h.alive
  · rw [h.waiting_pop hw]
    exact holds_update h.rings hr
  · intro x
    by_cases hx : x = p
    · subst hx
      simp only [Function.update_self]
      exact ⟨rest, by rw [h.accepted_eq x, hw, List.append_assoc, List.singleton_append]⟩
    · simpa only [Function.update_of_ne hx] using h.oldest x
  · exact h.labelled
  · exact hc
  · intro e he
    rcases List.mem_cons.mp he with rfl | he
    · constructor
      · simp
      · intro hall
        have hnil : s.waiting p = [] := hall p hp
        rw [hnil] at hw
        exact absurd hw (by simp)
    · exact h.failed e he
  · intro x hx n hn
    cases hn with
    | served he =>
      rw [Nat.zero_add]
      exact WeightedRound.ahead_le_bound gmkPriorityCount gmkWeight c x
    | other hn he hq =>
      have hold := h.turn x hx _ hn
      have hnear := hturn x hx (fun hxp => he ((hreturns x).mpr hxp)) hq
      simp only
      omega
  · intro x hx n hn
    cases hn with
    | first =>
      simp only [hreturns]
      split
      next hxp =>
        subst hxp
        exact hone
      next => exact Nat.zero_le _
    | more hn he =>
      have hold := h.spent x hx _ hn
      have hnew := hmore he x
      simp only [hreturns]
      omega

theorem weight_le (p : ℕ) : 1 ≤ gmkWeight p ∧ gmkWeight p ≤ 8 := by
  unfold gmkWeight
  split <;> norm_num

/-- The counters count up to a weight and never come near `2 ^ 32`. -/
theorem Inv.count_succ (h : s.Inv) (hp : p < gmkPriorityCount) :
    u32 (s.rq.popCounters p + 1) = s.rq.popCounters p + 1 := by
  have hc := h.counters p hp
  have hw := weight_le p
  exact u32_of_lt (by omega)

theorem Inv.pop_quota (h : s.Inv) (hp : p < gmkPriorityCount)
    (hc : s.rq.popCounters p < gmkWeight p) (hw : s.waiting p = t :: rest) (hr : r.Holds rest)
    (hfirst : ∀ x < p, s.rq.popCounters x < gmkWeight x → s.waiting x = []) :
    Inv { s with
      rq := s.rq.served p r
      popped := Function.update s.popped t.prio (s.popped t.prio ++ [t])
      pops := ⟨some t, s.waiting, false⟩ :: s.pops } := by
  unfold RqRings.served
  rw [h.count_succ hp]
  apply h.deliver hp hw hr
  · intro x hx
    by_cases hxp : x = p
    · subst hxp
      rw [Function.update_self]
      exact hc
    · rw [Function.update_of_ne hxp]
      exact h.counters x hx
  · intro x hx hxp hne
    apply WeightedRound.ahead_serve hp hc hxp.symm
    intro hcx
    by_contra hle
    exact hne (hfirst x (by omega) hcx)
  · rw [Function.update_self]
    omega
  · intro _ x
    by_cases hxp : x = p
    · subst hxp
      rw [if_pos rfl, Function.update_self]
    · rw [if_neg hxp, Function.update_of_ne hxp, Nat.add_zero]

theorem Inv.pop_round (h : s.Inv) (hp : p < gmkPriorityCount) (hw : s.waiting p = t :: rest)
    (hr : r.Holds rest)
    (hspent : ∀ x < gmkPriorityCount, s.rq.popCounters x < gmkWeight x → s.waiting x = [])
    (hfirst : ∀ x < p, s.waiting x = []) :
    Inv { s with
      rq := s.rq.reset.served p r
      popped := Function.update s.popped t.prio (s.popped t.prio ++ [t])
      pops := ⟨some t, s.waiting, true⟩ :: s.pops } := by
  have hone : u32 (s.rq.reset.popCounters p + 1) = 1 := rfl
  unfold RqRings.served
  rw [hone]
  apply h.deliver hp hw hr
  · intro x hx
    have hwx := weight_le x
    by_cases hxp : x = p
    · subst hxp
      rw [Function.update_self]
      exact hwx.1
    · rw [Function.update_of_ne hxp]
      exact Nat.zero_le _
  · intro x hx hxp hne
    have hlt : p < x := by
      by_contra hle
      exact hne (hfirst x (by omega))
    exact WeightedRound.ahead_reset hlt (fun hcx => hne (hspent x hx hcx)) (weight_le p).1
      (weight_le x).1
  · rw [Function.update_self]
  · exact fun hfalse => absurd hfalse (by simp)

/-- A pop that finds all queues empty resets the counters. -/
theorem Inv.pop_empty (h : s.Inv) (hall : ∀ x < gmkPriorityCount, s.waiting x = []) :
    Inv { s with rq := s.rq.reset, pops := ⟨none, s.waiting, true⟩ :: s.pops } := by
  constructor
  · exact h.alive
  · exact h.rings
  · exact h.oldest
  · exact h.labelled
  · exact fun p _ => Nat.zero_le _
  · intro e he
    rcases List.mem_cons.mp he with rfl | he
    · exact ⟨fun _ => hall, fun _ => rfl⟩
    · exact h.failed e he
  · intro p hp n hn
    cases hn with
    | served he => simp [RqPopEvent.Returns] at he
    | other hn he hq => exact absurd (hall p hp) hq
  · intro p hp n hn
    cases hn with
    | first => simp [RqPopEvent.Returns]
    | more hn he => exact absurd he (by simp)

theorem Inv.pop (h : s.Inv) : s.pop.Inv := by
  unfold RqRun.pop
  cases h.rings.popCase with
  | quota p t rest r hp hc ht hr hcap hfirst hpop hreset =>
    simp only [hpop, hreset]
    exact h.pop_quota hp hc ht hr hfirst
  | round p t rest r hp ht hr hcap hspent hfirst hpop hreset =>
    simp only [hpop, hreset]
    exact h.pop_round hp ht hr hspent hfirst
  | empty hall hpop hreset =>
    simp only [hpop, hreset]
    exact h.pop_empty hall

theorem Inv.step (h : s.Inv) {act : RqAct} (hg : s.Spaced act) : (s.step act).Inv := by
  simp only [RqRun.step, h.alive, Bool.false_eq_true, if_false]
  cases act with
  | push t => exact h.push t hg
  | pop => exact h.pop

end Steps

/-- In every run that pushes to a queue of one cell only when it is empty, no priority starves;
queues of two cells or more meet this for every run. -/
theorem served_of_spaced {cap : ℕ} (hcap : cap < 2 ^ 32)
    (hpow : Lifecycle.gmkIsPowerOfTwo cap = true) {s : RqRun}
    (hrun : Reach (fun s act s' => s' = s.step act) Spaced (start cap) s) : s.Served := by
  obtain ⟨k, hk, rfl⟩ := Lifecycle.pow_of_isPowerOfTwo hcap hpow
  have hinv : s.Inv := by
    refine Reach.inv (I := Inv) (start_inv hk) ?_ hrun
    rintro s act _ hs hg rfl
    exact hs.step hg
  exact hinv.served

/-- Two critical tasks and a low one. -/
def mixed : List RqAct :=
  [.push { type := 1 }, .push { type := 2, flags := 3 }, .push { type := 3 }, .pop, .pop]

theorem served_of_spaced_mixed :
    (mixed.foldl step (start 2)).popped 0 = [{ type := 1 }, { type := 3 }] ∧
      (mixed.foldl step (start 2)).Served := by
  have hobeys : Obeys step Spaced (start 2) mixed := by
    simp only [Obeys, mixed, Spaced]
    decide
  exact ⟨by decide, served_of_spaced (by norm_num) (by decide) (Reach.foldl hobeys .start)⟩

/-- Two critical tasks in a queue of one cell. -/
def overfull : List RqAct := [.push { type := 1 }, .push { type := 2 }, .pop]

/-- The second push replaces the first task and the pop reloads the head for ever. -/
theorem overfull_hangs : ∃ s,
    Reach (fun s act s' => s' = s.step act) (fun _ _ => True) (start 1) s ∧ ¬ s.Served := by
  have hobeys : Obeys step (fun _ _ => True) (start 1) overfull := by
    simp [Obeys, overfull]
  refine ⟨_, Reach.foldl hobeys .start, ?_⟩
  intro h
  exact absurd h.alive (by decide)

end RqRun
end Ggmk

import Ggmk.Lib.Reach
import Ggmk.Lib.TicketRing
import Ggmk.Ring.Mpmc

/-! The ring of `ring_mpmc.c` under any number of threads that push and pop, in steps of one
load, compare-and-swap, copy or store each, in any order. -/
namespace Ggmk
open Word Guarded

/-- What a thread does next. `first` is the number of claims at the first load of the call;
after its claim a thread keeps the number `n` of that claim. -/
inductive MpmcPc (α : Type*) where
  | idle
  | pushTail (x : α)
  | pushSeq (x : α) (first tail : ℕ)
  | pushReload (x : α) (first : ℕ)
  | pushCas (x : α) (first tail : ℕ)
  | pushCopy (x : α) (tail n : ℕ)
  | pushStore (x : α) (tail n : ℕ)
  | popHead
  | popSeq (first head : ℕ)
  | popReload (first : ℕ)
  | popCas (first head : ℕ)
  | popCopy (head n : ℕ)
  | popStore (head n : ℕ) (x : α)

/-- The claim of a push that has not returned. -/
def MpmcPc.pushClaim {α : Type*} : MpmcPc α → Option ℕ
  | .pushCopy _ _ n | .pushStore _ _ n => some n
  | _ => none

/-- The claim of a pop that has not returned. -/
def MpmcPc.popClaim {α : Type*} : MpmcPc α → Option ℕ
  | .popCopy _ n | .popStore _ n _ => some n
  | _ => none

/-- The ring and its threads. The other fields are history: the elements of the push claims in
the order of the claims, the number of pop claims, the claims whose element is written, what
each pop claim has copied, the pops that have returned with their claims, and the sequence
numbers before they wrap. -/
structure MpmcThreads (α : Type*) where
  ring : RingMpmc α
  pc : ℕ → MpmcPc α
  pushed : List α
  popClaims : ℕ
  written : Finset ℕ
  read : ℕ → Option α
  returned : List (ℕ × α)
  stamp : ℕ → ℕ

inductive MpmcAct (α : Type*) where
  | push (t : ℕ) (x : α)
  | pop (t : ℕ)
  | run (t : ℕ)
  | casFail (t : ℕ)

namespace MpmcThreads
variable {α : Type*}

/-- After `gmk_ring_mpmc_init` with `2 ^ k` cells. -/
def start [Inhabited α] (k : ℕ) : MpmcThreads α where
  ring := gmkRingMpmcInit (2 ^ k)
  pc _ := .idle
  pushed := []
  popClaims := 0
  written := ∅
  read _ := none
  returned := []
  stamp := id

def setPc (s : MpmcThreads α) (t : ℕ) (pc : MpmcPc α) : MpmcThreads α :=
  { s with pc := Function.update s.pc t pc }

/-- The claims that have succeeded. -/
def claims (s : MpmcThreads α) : ℕ := s.pushed.length + s.popClaims

/-- The next step of thread `t`. -/
def run (s : MpmcThreads α) (t : ℕ) : MpmcThreads α :=
  match s.pc t with
  | .idle => s
  | .pushTail x => s.setPc t (.pushSeq x s.claims s.ring.tail)
  | .pushSeq x first tail =>
      let diff := sdiff32 (s.ring.seq (tail &&& s.ring.mask)) tail
      if diff = 0 then s.setPc t (.pushCas x first tail)
      else if diff < 0 then s.setPc t .idle
      else s.setPc t (.pushReload x first)
  | .pushReload x first => s.setPc t (.pushSeq x first s.ring.tail)
  | .pushCas x first tail =>
      if s.ring.tail = tail then
        { s with
          ring := { s.ring with tail := u32 (tail + 1) }
          pushed := s.pushed ++ [x] }.setPc t (.pushCopy x tail s.pushed.length)
      else s.setPc t (.pushSeq x first s.ring.tail)
  | .pushCopy x tail n =>
      { s with
        ring := { s.ring with data := Function.update s.ring.data (tail &&& s.ring.mask) x }
        written := insert n s.written }.setPc t (.pushStore x tail n)
  | .pushStore _ tail n =>
      { s with
        ring := { s.ring with
          seq := Function.update s.ring.seq (tail &&& s.ring.mask) (u32 (tail + 1)) }
        stamp := Function.update s.stamp (n % s.ring.cap) (n + 1) }.setPc t .idle
  | .popHead => s.setPc t (.popSeq s.claims s.ring.head)
  | .popSeq first head =>
      let diff := sdiff32 (s.ring.seq (head &&& s.ring.mask)) (u32 (head + 1))
      if diff = 0 then s.setPc t (.popCas first head)
      else if diff < 0 then s.setPc t .idle
      else s.setPc t (.popReload first)
  | .popReload first => s.setPc t (.popSeq first s.ring.head)
  | .popCas first head =>
      if s.ring.head = head then
        { s with
          ring := { s.ring with head := u32 (head + 1) }
          popClaims := s.popClaims + 1 }.setPc t (.popCopy head s.popClaims)
      else s.setPc t (.popSeq first s.ring.head)
  | .popCopy head n =>
      let x := s.ring.data (head &&& s.ring.mask)
      { s with read := Function.update s.read n (some x) }.setPc t (.popStore head n x)
  | .popStore head n x =>
      { s with
        ring := { s.ring with
          seq := Function.update s.ring.seq (head &&& s.ring.mask) (u32 (head + s.ring.cap)) }
        stamp := Function.update s.stamp (n % s.ring.cap) (n + s.ring.cap)
        returned := s.returned ++ [(n, x)] }.setPc t .idle

/-- A weak compare-and-swap of thread `t` that fails loads the current value. -/
def casFail (s : MpmcThreads α) (t : ℕ) : MpmcThreads α :=
  match s.pc t with
  | .pushCas x first _ => s.setPc t (.pushSeq x first s.ring.tail)
  | .popCas first _ => s.setPc t (.popSeq first s.ring.head)
  | _ => s

/-- A thread that is not in a call may start one, or any thread takes its next step. -/
def step (s : MpmcThreads α) : MpmcAct α → MpmcThreads α
  | .push t x =>
      match s.pc t with
      | .idle => s.setPc t (.pushTail x)
      | _ => s
  | .pop t =>
      match s.pc t with
      | .idle => s.setPc t .popHead
      | _ => s
  | .run t => s.run t
  | .casFail t => s.casFail t

/-- At its compare-and-swap a call has seen fewer than `2 ^ 31` claims since its first load. -/
def Timely (s : MpmcThreads α) : MpmcAct α → Prop
  | .run t =>
      match s.pc t with
      | .pushCas _ first _ | .popCas first _ => s.claims < first + 2 ^ 31
      | _ => True
  | _ => True

/-- Exactly-once delivery in the order of the claims. -/
structure Exact (s : MpmcThreads α) : Prop where
  /-- What the pop with claim `i` copies is the element of the push with claim `i`. -/
  fifo : ∀ i x, s.read i = some x → s.pushed[i]? = some x
  /-- A pop returns what it has copied, and no two pops return for one claim. -/
  once : (∀ e ∈ s.returned, s.read e.1 = some e.2) ∧ (s.returned.map Prod.fst).Nodup
  /-- The claims of the calls under way are distinct. -/
  alone : ∀ t u n, ((s.pc t).pushClaim = some n → (s.pc u).pushClaim = some n → t = u) ∧
    ((s.pc t).popClaim = some n → (s.pc u).popClaim = some n → t = u)
  /-- An element that is not yet read is in its cell or about to be written there. -/
  kept : ∀ i x, s.pushed[i]? = some x → s.read i = none →
    (i ∈ s.written ∧ s.ring.data (i % s.ring.cap) = x) ∨ ∃ t, (s.pc t).pushClaim = some i
  /-- A pop copies when its element has been written and is still there. -/
  ready : ∀ t head n, s.pc t = .popCopy head n → n ∈ s.written ∧
    s.pushed[n]? = some (s.ring.data (head &&& s.ring.mask))
  /-- A push writes when the element that was in its cell has been read. -/
  clear : ∀ t x tail n, s.pc t = .pushCopy x tail (n + s.ring.cap) → (s.read n).isSome

/-- A push of thread `t` from its call to its return. -/
def pushing (t : ℕ) (x : α) : List (MpmcAct α) := .push t x :: List.replicate 5 (.run t)

/-- Steps that no other thread interrupts do what `gmk_ring_mpmc_push` does as a whole. -/
theorem pushing_ring (s : MpmcThreads α) (t : ℕ) (ht : s.pc t = .idle) (x : α) :
    ((pushing t x).foldl step s).ring =
      match gmkRingMpmcPush s.ring x with
      | .ok r => r
      | _ => s.ring := by
  simp only [pushing, List.replicate, List.foldl, step, ht, run, setPc, Function.update_self]
  by_cases h0 : sdiff32 (s.ring.seq (s.ring.tail &&& s.ring.mask)) s.ring.tail = 0
  · simp [h0, gmkRingMpmcPush]
  · by_cases hneg : sdiff32 (s.ring.seq (s.ring.tail &&& s.ring.mask)) s.ring.tail < 0
    · simp [h0, hneg, gmkRingMpmcPush]
    · simp [h0, hneg, gmkRingMpmcPush]

/-! ## The invariant -/

/-- The tickets of the ring, with counters that do not wrap. -/
def tickets (s : MpmcThreads α) : TicketRing := ⟨s.ring.cap, s.pushed.length, s.popClaims, s.stamp⟩

/-- What a thread at a point of a call relies on. Before its claim it holds a former counter
`m`; what it read in the cell of `m` counts when it is in time. -/
def Thread (s : MpmcThreads α) : MpmcPc α → Prop
  | .idle | .pushTail _ | .popHead => True
  | .pushReload _ first | .popReload first => first ≤ s.claims
  | .pushSeq _ first tail =>
      ∃ m, tail = u32 m ∧ m ≤ s.pushed.length ∧ first ≤ m + s.popClaims
  | .pushCas _ first tail =>
      ∃ m, tail = u32 m ∧ m ≤ s.pushed.length ∧ first ≤ m + s.popClaims ∧
        (s.claims < first + 2 ^ 31 → m ≤ s.stamp (m % s.ring.cap))
  | .pushCopy x tail n =>
      tail = u32 n ∧ s.pushed[n]? = some x ∧ s.stamp (n % s.ring.cap) = n
  | .pushStore x tail n =>
      tail = u32 n ∧ s.pushed[n]? = some x ∧ s.stamp (n % s.ring.cap) = n ∧ n ∈ s.written ∧
        s.ring.data (n % s.ring.cap) = x
  | .popSeq first head =>
      ∃ m, head = u32 m ∧ m ≤ s.popClaims ∧ first ≤ s.pushed.length + m
  | .popCas first head =>
      ∃ m, head = u32 m ∧ m ≤ s.popClaims ∧ first ≤ s.pushed.length + m ∧
        (s.claims < first + 2 ^ 31 → m + 1 ≤ s.stamp (m % s.ring.cap))
  | .popCopy head n =>
      head = u32 n ∧ n < s.popClaims ∧ s.stamp (n % s.ring.cap) = n + 1
  | .popStore head n x =>
      head = u32 n ∧ n < s.popClaims ∧ s.stamp (n % s.ring.cap) = n + 1 ∧ s.read n = some x

/-- No two threads have the same claim. -/
def Alone (claim : MpmcPc α → Option ℕ) (pc : ℕ → MpmcPc α) : Prop :=
  ∀ t u n, claim (pc t) = some n → claim (pc u) = some n → t = u

/-- The words of the ring are those of the tickets. -/
structure Represents (s : MpmcThreads α) : Prop where
  pow : ∃ k ≤ 31, s.ring.cap = 2 ^ k
  mask_eq : s.ring.mask = s.ring.cap - 1
  tail_eq : s.ring.tail = u32 s.pushed.length
  head_eq : s.ring.head = u32 s.popClaims
  seq_eq : ∀ n, s.ring.seq (n % s.ring.cap) = u32 (s.stamp (n % s.ring.cap))

/-- What the stamps say about the elements. -/
structure Delivery (s : MpmcThreads α) : Prop where
  writer : ∀ n < s.pushed.length, s.stamp (n % s.ring.cap) = n → ∃ t, (s.pc t).pushClaim = some n
  content : ∀ n, s.stamp (n % s.ring.cap) = n + 1 → n ∈ s.written ∧
    s.pushed[n]? = some (s.ring.data (n % s.ring.cap))
  passed : ∀ n, n + s.ring.cap ≤ s.stamp (n % s.ring.cap) → (s.read n).isSome
  fifo : ∀ n x, s.read n = some x → s.pushed[n]? = some x
  returned : ∀ e ∈ s.returned, s.read e.1 = some e.2 ∧
    e.1 + s.ring.cap ≤ s.stamp (e.1 % s.ring.cap)
  nodup : (s.returned.map Prod.fst).Nodup

structure Inv (s : MpmcThreads α) : Prop where
  represents : s.Represents
  tickets : s.tickets.Inv
  thread : ∀ t, s.Thread (s.pc t)
  pushAlone : Alone MpmcPc.pushClaim s.pc
  popAlone : Alone MpmcPc.popClaim s.pc
  delivery : s.Delivery

section Steps
variable {s s' : MpmcThreads α} {t : ℕ}

theorem Represents.and_mask (h : s.Represents) (n : ℕ) :
    u32 n &&& s.ring.mask = n % s.ring.cap := by
  obtain ⟨k, hk, hc⟩ := h.pow
  rw [h.mask_eq, hc, u32_and_mask n hk]

theorem Represents.cap_le (h : s.Represents) : s.ring.cap ≤ 2 ^ 31 := by
  obtain ⟨k, hk, hc⟩ := h.pow
  rw [hc]
  exact Nat.pow_le_pow_right (by norm_num) hk

theorem Alone.update {claim : MpmcPc α → Option ℕ} {pc : ℕ → MpmcPc α} (h : Alone claim pc)
    {q : MpmcPc α} (hq : ∀ n, claim q = some n → ∀ u, u ≠ t → claim (pc u) ≠ some n) :
    Alone claim (Function.update pc t q) := by
  intro u v n hu hv
  by_cases hut : u = t <;> by_cases hvt : v = t
  · rw [hut, hvt]
  · rw [hut, Function.update_self] at hu
    rw [Function.update_of_ne hvt] at hv
    exact absurd hv (hq n hu v hvt)
  · rw [hvt, Function.update_self] at hv
    rw [Function.update_of_ne hut] at hu
    exact absurd hu (hq n hv u hut)
  · rw [Function.update_of_ne hut] at hu
    rw [Function.update_of_ne hvt] at hv
    exact h u v n hu hv

/-- A thread that keeps its claim, or gives it up, or never had one. -/
theorem Alone.keep {claim : MpmcPc α → Option ℕ} {pc : ℕ → MpmcPc α} (h : Alone claim pc)
    {q : MpmcPc α} (hq : ∀ n, claim q = some n → claim (pc t) = some n) :
    Alone claim (Function.update pc t q) :=
  h.update fun n hn u hut hu => hut (h u t n hu (hq n hn))

/-- Steps of other threads do not disturb a thread whose cell they leave alone. -/
theorem Thread.mono {pc : MpmcPc α} (h : s.Thread pc) (hcap : s'.ring.cap = s.ring.cap)
    (hpushed : s.pushed <+: s'.pushed) (hpops : s.popClaims ≤ s'.popClaims)
    (hstamp : ∀ j, s.stamp j ≤ s'.stamp j) (hwritten : s.written ⊆ s'.written)
    (hpush : ∀ n, pc.pushClaim = some n → s'.stamp (n % s.ring.cap) = s.stamp (n % s.ring.cap) ∧
      s'.ring.data (n % s.ring.cap) = s.ring.data (n % s.ring.cap))
    (hpop : ∀ n, pc.popClaim = some n → s'.stamp (n % s.ring.cap) = s.stamp (n % s.ring.cap) ∧
      s'.read n = s.read n) : s'.Thread pc := by
  have hlen := hpushed.length_le
  have hget : ∀ (n : ℕ) (x : α), s.pushed[n]? = some x → s'.pushed[n]? = some x := by
    intro n x hx
    obtain ⟨l, hl⟩ := hpushed
    rw [← hl]
    exact List.getElem?_append_left (List.getElem?_eq_some_iff.mp hx).1 ▸ hx
  have hclaims : s.claims ≤ s'.claims := by
    unfold claims
    omega
  cases pc with
  | idle => trivial
  | pushTail x => trivial
  | popHead => trivial
  | pushReload x first => exact le_trans h hclaims
  | popReload first => exact le_trans h hclaims
  | pushSeq x first tail =>
    obtain ⟨m, hm, hle, hfirst⟩ := h
    exact ⟨m, hm, by omega, by omega⟩
  | popSeq first head =>
    obtain ⟨m, hm, hle, hfirst⟩ := h
    exact ⟨m, hm, by omega, by omega⟩
  | pushCas x first tail =>
    obtain ⟨m, hm, hle, hfirst, hseen⟩ := h
    refine ⟨m, hm, by omega, by omega, ?_⟩
    intro hlt
    rw [hcap]
    exact (hseen (by omega)).trans (hstamp _)
  | popCas first head =>
    obtain ⟨m, hm, hle, hfirst, hseen⟩ := h
    refine ⟨m, hm, by omega, by omega, ?_⟩
    intro hlt
    rw [hcap]
    exact (hseen (by omega)).trans (hstamp _)
  | pushCopy x tail n =>
    obtain ⟨htail, hx, hs⟩ := h
    refine ⟨htail, hget n x hx, ?_⟩
    rw [hcap, (hpush n rfl).1, hs]
  | pushStore x tail n =>
    obtain ⟨htail, hx, hs, hw, hd⟩ := h
    refine ⟨htail, hget n x hx, ?_, hwritten hw, ?_⟩
    · rw [hcap, (hpush n rfl).1, hs]
    · rw [hcap, (hpush n rfl).2, hd]
  | popCopy head n =>
    obtain ⟨hhead, hlt, hs⟩ := h
    refine ⟨hhead, by omega, ?_⟩
    rw [hcap, (hpop n rfl).1, hs]
  | popStore head n x =>
    obtain ⟨hhead, hlt, hs, hr⟩ := h
    refine ⟨hhead, by omega, ?_, ?_⟩
    · rw [hcap, (hpop n rfl).1, hs]
    · rw [(hpop n rfl).2, hr]

/-! What a call still knows when it goes back to load the tail or the head again. -/

theorem Thread.pushUnseen {x : α} {first tail : ℕ} (h : s.Thread (.pushCas x first tail)) :
    s.Thread (.pushSeq x first tail) := by
  obtain ⟨m, hm, hle, hfirst, -⟩ := h
  exact ⟨m, hm, hle, hfirst⟩

theorem Thread.popUnseen {first head : ℕ} (h : s.Thread (.popCas first head)) :
    s.Thread (.popSeq first head) := by
  obtain ⟨m, hm, hle, hfirst, -⟩ := h
  exact ⟨m, hm, hle, hfirst⟩

theorem Thread.pushReload {x : α} {first tail : ℕ} (h : s.Thread (.pushSeq x first tail)) :
    s.Thread (.pushReload x first) := by
  obtain ⟨m, -, hle, hfirst⟩ := h
  simp only [Thread, claims]
  omega

theorem Thread.popReload {first head : ℕ} (h : s.Thread (.popSeq first head)) :
    s.Thread (.popReload first) := by
  obtain ⟨m, -, hle, hfirst⟩ := h
  simp only [Thread, claims]
  omega

/-- The threads after a step of thread `t` that leaves the cells of the others alone. -/
theorem Inv.thread_update (h : s.Inv) {q : MpmcPc α} (hpc : s'.pc = Function.update s.pc t q)
    (hq : s'.Thread q) (hother : ∀ u, u ≠ t → s.Thread (s.pc u) → s'.Thread (s.pc u)) :
    ∀ u, s'.Thread (s'.pc u) := by
  intro u
  rw [hpc]
  by_cases hut : u = t
  · rw [hut, Function.update_self]
    exact hq
  · rw [Function.update_of_ne hut]
    exact hother u hut (h.thread u)

/-- The writer of a claim is still there after a step of a thread with another claim. -/
theorem Inv.writer_update (h : s.Inv) {q : MpmcPc α} {n : ℕ} (hn : n < s.pushed.length)
    (hs : s.stamp (n % s.ring.cap) = n) (ht : (s.pc t).pushClaim ≠ some n) :
    ∃ u, (Function.update s.pc t q u).pushClaim = some n := by
  obtain ⟨u, hu⟩ := h.delivery.writer n hn hs
  have hut : u ≠ t := by
    rintro rfl
    exact ht hu
  exact ⟨u, by rw [Function.update_of_ne hut, hu]⟩

/-- A step that only moves a thread that has no claim. -/
theorem Inv.goto (h : s.Inv) {q : MpmcPc α} (hpush : (s.pc t).pushClaim = none)
    (hq : s.Thread q) (hq1 : q.pushClaim = none) (hq2 : q.popClaim = none) :
    (s.setPc t q).Inv := by
  refine ⟨⟨h.represents.pow, h.represents.mask_eq, h.represents.tail_eq, h.represents.head_eq,
    h.represents.seq_eq⟩, h.tickets, ?_, ?_, ?_, ⟨?_, h.delivery.content, h.delivery.passed,
    h.delivery.fifo, h.delivery.returned, h.delivery.nodup⟩⟩
  · refine h.thread_update rfl ?_ ?_
    · exact hq.mono rfl (List.prefix_refl _) le_rfl (fun _ => le_rfl) (Finset.Subset.refl _)
        (fun _ _ => ⟨rfl, rfl⟩) (fun _ _ => ⟨rfl, rfl⟩)
    · intro u _ hu
      exact hu.mono rfl (List.prefix_refl _) le_rfl (fun _ => le_rfl) (Finset.Subset.refl _)
        (fun _ _ => ⟨rfl, rfl⟩) (fun _ _ => ⟨rfl, rfl⟩)
  · exact h.pushAlone.keep fun n hn => by simp [hq1] at hn
  · exact h.popAlone.keep fun n hn => by simp [hq2] at hn
  · intro n hn hs
    exact h.writer_update hn hs (by rw [hpush]; simp)

theorem Inv.stamp_bounds (h : s.Inv) (n : ℕ) : s.popClaims ≤ s.pushed.length ∧
    s.pushed.length ≤ s.stamp (n % s.ring.cap) + s.ring.cap ∧
    s.stamp (n % s.ring.cap) ≤ s.popClaims + s.ring.cap :=
  ⟨h.tickets.le, h.tickets.stamp_bounds n⟩

/-- A cell that shows the position `z` has the stamp `z`, unless it is a turn of the counters
away. -/
theorem Inv.stamp_of_sdiff (h : s.Inv) {n z : ℕ}
    (hdiff : sdiff32 (s.ring.seq (u32 n &&& s.ring.mask)) (u32 z) = 0)
    (hlow : z < s.stamp (n % s.ring.cap) + 2 ^ 32)
    (hhigh : s.stamp (n % s.ring.cap) < z + 2 ^ 32) : s.stamp (n % s.ring.cap) = z := by
  have heq := u32_eq_of_sdiff32 hdiff
  rw [h.represents.and_mask, h.represents.seq_eq, u32_u32, u32_u32] at heq
  exact eq_of_u32_eq heq hhigh hlow

/-- A push that finds its tail in the cell, in time, has seen the cell wait for its writer. -/
theorem Inv.pushSeq (h : s.Inv) {x : α} {first tail : ℕ} (ht : s.Thread (.pushSeq x first tail))
    (hdiff : sdiff32 (s.ring.seq (tail &&& s.ring.mask)) tail = 0) :
    s.Thread (.pushCas x first tail) := by
  obtain ⟨m, rfl, hle, hfirst⟩ := ht
  refine ⟨m, rfl, hle, hfirst, ?_⟩
  intro hlt
  have hcap := h.represents.cap_le
  obtain ⟨hrw, hlow, hhigh⟩ := h.stamp_bounds m
  simp only [claims] at hlt
  exact (h.stamp_of_sdiff hdiff (by omega) (by omega)).ge

/-- A pop that finds its head plus one in the cell, in time, has seen the cell wait for its
reader. -/
theorem Inv.popSeq (h : s.Inv) {first head : ℕ} (ht : s.Thread (.popSeq first head))
    (hdiff : sdiff32 (s.ring.seq (head &&& s.ring.mask)) (u32 (head + 1)) = 0) :
    s.Thread (.popCas first head) := by
  obtain ⟨m, rfl, hle, hfirst⟩ := ht
  refine ⟨m, rfl, hle, hfirst, ?_⟩
  intro hlt
  have hcap := h.represents.cap_le
  obtain ⟨hrw, hlow, hhigh⟩ := h.stamp_bounds m
  simp only [claims] at hlt
  rw [u32_u32_add] at hdiff
  exact (h.stamp_of_sdiff hdiff (by omega) (by omega)).ge

theorem Inv.tail_thread (h : s.Inv) (x : α) {first : ℕ} (hfirst : first ≤ s.claims) :
    s.Thread (.pushSeq x first s.ring.tail) :=
  ⟨s.pushed.length, h.represents.tail_eq, le_rfl, hfirst⟩

theorem Inv.head_thread (h : s.Inv) {first : ℕ} (hfirst : first ≤ s.claims) :
    s.Thread (.popSeq first s.ring.head) :=
  ⟨s.popClaims, h.represents.head_eq, le_rfl, hfirst⟩

/-- The compare-and-swap of a push in time succeeds only while its cell waits for a ticket. -/
theorem Inv.pushCas_turn (h : s.Inv) {x : α} {first tail : ℕ}
    (ht : s.Thread (.pushCas x first tail)) (htime : s.claims < first + 2 ^ 31)
    (hcas : s.ring.tail = tail) : s.stamp (s.pushed.length % s.ring.cap) = s.pushed.length ∧
      s.pushed.length < s.popClaims + s.ring.cap := by
  obtain ⟨m, rfl, hle, hfirst, hseen⟩ := ht
  rw [h.represents.tail_eq] at hcas
  have hm : s.pushed.length = m := by
    simp only [claims] at htime
    exact eq_of_u32_eq hcas (by omega) (by omega)
  have hs := hseen htime
  rw [← hm] at hs
  exact h.tickets.stamp_writers hs

theorem Inv.popCas_turn (h : s.Inv) {first head : ℕ} (ht : s.Thread (.popCas first head))
    (htime : s.claims < first + 2 ^ 31) (hcas : s.ring.head = head) :
    s.stamp (s.popClaims % s.ring.cap) = s.popClaims + 1 ∧ s.popClaims < s.pushed.length := by
  obtain ⟨m, rfl, hle, hfirst, hseen⟩ := ht
  rw [h.represents.head_eq] at hcas
  have hm : s.popClaims = m := by
    simp only [claims] at htime
    exact eq_of_u32_eq hcas (by omega) (by omega)
  have hs := hseen htime
  rw [← hm] at hs
  exact h.tickets.stamp_readers hs

theorem Inv.pushClaim_lt (h : s.Inv) {u n : ℕ} (hu : (s.pc u).pushClaim = some n) :
    n < s.pushed.length ∧ s.stamp (n % s.ring.cap) = n := by
  have ht := h.thread u
  cases hpc : s.pc u with
  | pushCopy x tail m =>
    rw [hpc] at ht hu
    obtain rfl := Option.some.inj hu
    exact ⟨(List.getElem?_eq_some_iff.mp ht.2.1).1, ht.2.2⟩
  | pushStore x tail m =>
    rw [hpc] at ht hu
    obtain rfl := Option.some.inj hu
    exact ⟨(List.getElem?_eq_some_iff.mp ht.2.1).1, ht.2.2.1⟩
  | _ => rw [hpc] at hu; exact absurd hu (by simp [MpmcPc.pushClaim])

theorem Inv.popClaim_lt (h : s.Inv) {u n : ℕ} (hu : (s.pc u).popClaim = some n) :
    n < s.popClaims ∧ s.stamp (n % s.ring.cap) = n + 1 := by
  have ht := h.thread u
  cases hpc : s.pc u with
  | popCopy head m =>
    rw [hpc] at ht hu
    obtain rfl := Option.some.inj hu
    exact ⟨ht.2.1, ht.2.2⟩
  | popStore head m x =>
    rw [hpc] at ht hu
    obtain rfl := Option.some.inj hu
    exact ⟨ht.2.1, ht.2.2.1⟩
  | _ => rw [hpc] at hu; exact absurd hu (by simp [MpmcPc.popClaim])

/-- Positions of one cell whose stamps say that they are written or read are the same. -/
theorem Inv.cell_ne (h : s.Inv) {m n : ℕ} (hne : m ≠ n)
    (hm : s.stamp (m % s.ring.cap) = m ∨ s.stamp (m % s.ring.cap) = m + 1)
    (hn : s.stamp (n % s.ring.cap) = n ∨ s.stamp (n % s.ring.cap) = n + 1) :
    m % s.ring.cap ≠ n % s.ring.cap := by
  intro hmod
  have hcap : 2 ≤ s.ring.cap := h.tickets.two_le
  rw [hmod] at hm
  rcases hm with hm | hm <;> rcases hn with hn | hn
  · omega
  · rw [show m = n + 1 by omega] at hmod
    exact TicketRing.succ_mod_ne hcap hmod
  · rw [show n = m + 1 by omega] at hmod
    exact TicketRing.succ_mod_ne hcap hmod.symm
  · omega

end Steps
end MpmcThreads
end Ggmk

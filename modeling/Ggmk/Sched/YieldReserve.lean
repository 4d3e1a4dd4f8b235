import Ggmk.Sched.Queues

/-! The places that a local queue keeps for yielded tasks, over every sequence of pushes, yield
pushes and pops of one thread. -/
namespace Ggmk
open Word

/-- The queue that `gmk_lq_init` leaves once a capacity of `2 ^ k` has been accepted. -/
def gmkLqInit (k : ℕ) (hk : k ≤ 31) : Lq where
  ring :=
    { ring := gmkRingSpscInit (2 ^ k)
      holds := by
        have h := RingSpsc.init_holds (α := Task) hk
        rwa [h.items_eq] }
  yieldWatermark := sub32 (2 ^ k) (u32 (2 ^ k * gmkLqYieldReservePct) / 100)
  cap := 2 ^ k

/-- The queue with its tasks, each marked when it has come by a yield, and the tasks that have been
accepted and popped. -/
structure LqRun where
  lq : Lq
  resident : List (Task × Bool)
  accepted : List Task
  popped : List Task

inductive LqOp where
  | push (t : Task)
  | pushYield (t : Task)
  | pop

namespace LqRun

/-- A push that has been accepted. -/
def accept (s : LqRun) (lq : Lq) (t : Task) (yielded : Bool) : LqRun :=
  { s with lq := lq, resident := s.resident ++ [(t, yielded)], accepted := s.accepted ++ [t] }

def step (s : LqRun) : LqOp → LqRun
  | .push t =>
      match gmkLqPush s.lq t with
      | some lq => s.accept lq t false
      | none => s
  | .pushYield t =>
      match gmkLqPushYield s.lq t with
      | some lq => s.accept lq t true
      | none => s
  | .pop =>
      match gmkLqPop s.lq with
      | some (t, lq) => { s with lq := lq, resident := s.resident.tail, popped := s.popped ++ [t] }
      | none => s

def start (k : ℕ) (hk : k ≤ 31) : LqRun := ⟨gmkLqInit k hk, [], [], []⟩

def nNormal (s : LqRun) : ℕ := s.resident.countP fun e => !e.2
def nYielded (s : LqRun) : ℕ := s.resident.countP fun e => e.2

theorem nNormal_add_nYielded (s : LqRun) : s.nNormal + s.nYielded = s.resident.length := by
  have h := List.length_eq_countP_add_countP (fun e : Task × Bool => e.2) (l := s.resident)
  simp only [Bool.not_eq_true, Bool.decide_eq_false] at h
  rw [nNormal, nYielded, h, add_comm]

/-- What the reserve of a queue of `cap` places means. -/
structure Reserved (cap : ℕ) (s : LqRun) : Prop where
  /-- The tasks leave the queue in the order in which they came. -/
  fifo : s.accepted = s.popped ++ s.resident.map Prod.fst
  resident : s.lq.items = s.resident.map Prod.fst
  push_iff : ∀ t, (gmkLqPush s.lq t).isSome ↔ s.resident.length < cap - cap / 4
  normal : s.nNormal ≤ cap - cap / 4
  yields : s.nYielded < cap / 4 → ∀ t, (gmkLqPushYield s.lq t).isSome

/-- The marked tasks are those of the queue, and normal pushes have kept below the watermark. -/
structure Inv (cap : ℕ) (s : LqRun) : Prop where
  cap_eq : s.lq.ring.cap = cap
  watermark : s.lq.yieldWatermark = cap - cap / 4
  items : s.lq.items = s.resident.map Prod.fst
  fifo : s.accepted = s.popped ++ s.resident.map Prod.fst
  normal : s.nNormal ≤ cap - cap / 4

variable {cap : ℕ} {s : LqRun}

theorem Inv.length_eq (h : Inv cap s) : s.lq.items.length = s.resident.length := by
  rw [h.items, List.length_map]

/-- A push that leaves the shape of the queue alone and that the watermark allows. -/
theorem Inv.accept (h : Inv cap s) {lq : Lq} {t : Task} {yielded : Bool}
    (hitems : lq.items = s.lq.items ++ [t]) (hshape : lq.SameShape s.lq)
    (hroom : yielded = false → s.resident.length < cap - cap / 4) :
    Inv cap (s.accept lq t yielded) where
  cap_eq := hshape.1.trans h.cap_eq
  watermark := hshape.2.1.trans h.watermark
  items := by
    simp only [LqRun.accept, List.map_append, List.map_singleton, hitems, h.items]
  fifo := by
    simp only [LqRun.accept, List.map_append, List.map_singleton, h.fifo, List.append_assoc]
  normal := by
    have hnormal := h.normal
    have hsum := s.nNormal_add_nYielded
    unfold nNormal at hnormal hsum ⊢
    simp only [LqRun.accept, List.countP_append, List.countP_singleton]
    cases yielded with
    | true => simpa using hnormal
    | false =>
      have hlt := hroom rfl
      simp only [Bool.not_false, if_true]
      omega

/-- A pop takes the oldest task, normal or yielded. -/
theorem Inv.pop (h : Inv cap s) {lq : Lq} {t : Task} (hitems : s.lq.items = t :: lq.items)
    (hshape : lq.SameShape s.lq) :
    Inv cap { s with lq := lq, resident := s.resident.tail, popped := s.popped ++ [t] } := by
  have hres := h.items
  rw [hitems] at hres
  cases hl : s.resident with
  | nil =>
    rw [hl] at hres
    cases hres
  | cons e l =>
    rw [hl, List.map_cons, List.cons.injEq] at hres
    obtain ⟨rfl, hrest⟩ := hres
    refine ⟨hshape.1.trans h.cap_eq, hshape.2.1.trans h.watermark, hrest, ?_, ?_⟩
    · rw [h.fifo, hl, List.map_cons, List.append_cons]
      rfl
    · have hnormal := h.normal
      unfold nNormal at hnormal ⊢
      rw [hl, List.countP_cons] at hnormal
      simp only [List.tail_cons]
      omega

theorem Inv.step (h : Inv cap s) (op : LqOp) : Inv cap (s.step op) := by
  cases op with
  | push t =>
    simp only [LqRun.step]
    split
    next lq hpush =>
      obtain ⟨hitems, hshape, hnot⟩ := gmkLqPush_some hpush
      apply h.accept hitems hshape
      intro _
      by_contra hfull
      apply hnot
      left
      rw [h.watermark, h.length_eq]
      exact not_lt.mp hfull
    next => exact h
  | pushYield t =>
    simp only [LqRun.step]
    split
    next lq hpush =>
      obtain ⟨hitems, hshape, -⟩ := gmkLqPushYield_some hpush
      exact h.accept hitems hshape (by simp)
    next => exact h
  | pop =>
    simp only [LqRun.step]
    split
    next t lq hpop =>
      obtain ⟨hitems, hshape⟩ := gmkLqPop_some hpop
      exact h.pop hitems hshape
    next => exact h

/-- The percentage does not wrap below `2 ^ 28` and gives a quarter of the capacity. -/
theorem start_inv {k : ℕ} (hk : k ≤ 27) : Inv (2 ^ k) (start k (by omega)) := by
  have hwater : sub32 (2 ^ k) (u32 (2 ^ k * gmkLqYieldReservePct) / 100) = 2 ^ k - 2 ^ k / 4 := by
    revert k
    decide +kernel
  have hempty := (RingSpsc.init_holds (α := Task) (show k ≤ 31 by omega)).items_eq
  exact ⟨rfl, hwater, hempty, rfl, Nat.zero_le _⟩

/-- The invariant is what the two admission rules need: yielded tasks find a place beside the
normal ones. -/
theorem Inv.reserved (h : Inv cap s) : s.Reserved cap where
  fifo := h.fifo
  resident := h.items
  push_iff := by
    intro t
    rw [Option.isSome_iff_ne_none, ne_eq, gmkLqPush_eq_none_iff, Lq.Refuses, h.watermark, h.cap_eq,
      h.length_eq]
    omega
  normal := h.normal
  yields := by
    intro hlt t
    have hsum := s.nNormal_add_nYielded
    have hnormal := h.normal
    rw [Option.isSome_iff_ne_none, ne_eq, gmkLqPushYield_eq_none_iff, h.cap_eq, h.length_eq]
    omega

/-- Whatever has been pushed, yielded and popped, a quarter of the places serves yielded tasks. -/
theorem reserved_of_run {k : ℕ} (hk : k ≤ 27) (ops : List LqOp) :
    (ops.foldl step (start k (by omega))).Reserved (2 ^ k) := by
  have hinv : Inv (2 ^ k) (ops.foldl step (start k (by omega))) :=
    List.foldlRecOn ops step (start_inv hk) fun s h op _ => h.step op
  exact hinv.reserved

theorem reserved_of_run_eight :
    (List.foldl step (start 3 (by norm_num))
      [.push {}, .push {}, .pushYield {}, .push {}, .pop]).Reserved 8 :=
  reserved_of_run (k := 3) (by norm_num) _

end LqRun
end Ggmk

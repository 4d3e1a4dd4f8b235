import Mathlib

/-! Histories of acquisitions and releases. A release is in order when what it gives back is
held at that moment. -/
namespace Ledger

variable {α : Type*} [DecidableEq α] {m m' : Multiset α} {b : α}

inductive Entry (α : Type*) where
  | acquire (b : α)
  | release (b : α)
  deriving DecidableEq

/-- What is held after a history, unless one of its releases is out of order. -/
def run : Multiset α → List (Entry α) → Option (Multiset α)
  | m, [] => some m
  | m, .acquire b :: l => run (b ::ₘ m) l
  | m, .release b :: l => if b ∈ m then run (m.erase b) l else none

theorem run_append (m : Multiset α) (l l' : List (Entry α)) :
    run m (l ++ l') = (run m l).bind fun m' => run m' l' := by
  induction l generalizing m with
  | nil => rfl
  | cons e l ih =>
    cases e with
    | acquire b => exact ih _
    | release b =>
      simp only [List.cons_append, run]
      split
      · exact ih _
      · rfl

theorem run_acquire {l : List (Entry α)} (h : run m l = some m') :
    run m (l ++ [.acquire b]) = some (b ::ₘ m') := by
  rw [run_append, h]
  rfl

theorem run_release {l : List (Entry α)} (h : run m l = some (b ::ₘ m')) :
    run m (l ++ [.release b]) = some m' := by
  rw [run_append, h]
  simp [run]

/-- What was acquired has been released or is still held. -/
theorem count_run {l : List (Entry α)} (h : run m l = some m') (b : α) :
    m.count b + l.count (.acquire b) = m'.count b + l.count (.release b) := by
  induction l generalizing m with
  | nil =>
    obtain rfl := Option.some.inj h
    rfl
  | cons e l ih =>
    cases e with
    | acquire c =>
      have hc := ih h
      by_cases hcb : c = b
      · subst hcb
        rw [Multiset.count_cons_self] at hc
        rw [List.count_cons_self, List.count_cons_of_ne (by simp)]
        omega
      · rw [Multiset.count_cons_of_ne (Ne.symm hcb)] at hc
        rw [List.count_cons_of_ne (by simp [hcb]), List.count_cons_of_ne (by simp)]
        exact hc
    | release c =>
      simp only [run] at h
      split at h
      next hmem =>
        have hc := ih h
        by_cases hcb : c = b
        · subst hcb
          have hpos : 0 < m.count c := Multiset.count_pos.mpr hmem
          rw [Multiset.count_erase_self] at hc
          rw [List.count_cons_self, List.count_cons_of_ne (by simp)]
          omega
        · rw [Multiset.count_erase_of_ne (Ne.symm hcb)] at hc
          rw [List.count_cons_of_ne (by simp), List.count_cons_of_ne (by simp [hcb])]
          exact hc
      next => simp at h

/-- Everything that was acquired has been released exactly once, and nothing else has been
released. -/
structure Settled (l : List (Entry α)) : Prop where
  once : ∀ b, .acquire b ∈ l → l.count (.release b) = 1
  only : ∀ b, .release b ∈ l → .acquire b ∈ l

/-- A history in order that ends with nothing held is settled, if nothing was acquired
twice. -/
theorem settled_of_run {l : List (Entry α)} (h : run 0 l = some 0)
    (honce : ∀ b, l.count (.acquire b) ≤ 1) : Settled l := by
  have heq : ∀ b, l.count (.acquire b) = l.count (.release b) := by
    intro b
    have := count_run h b
    simpa using this
  constructor
  · intro b hb
    have hpos := List.count_pos_iff.mpr hb
    have := honce b
    have := heq b
    omega
  · intro b hb
    have hpos := List.count_pos_iff.mpr hb
    rw [← heq b] at hpos
    exact List.count_pos_iff.mp hpos

end Ledger

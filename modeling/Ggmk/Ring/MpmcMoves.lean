import Ggmk.Ring.Mpmc

/-! What any sequence of pushes and pops makes of a Vyukov ring, the ring of one cell included,
whose pushes are never refused. -/
namespace Ggmk
open Word

namespace RingMpmc
variable {α : Type*} {r r' : RingMpmc α}

/-- One push that is published or one pop that takes an element. -/
def Move (r r' : RingMpmc α) : Prop :=
  (∃ x, gmkRingMpmcPush r x = .ok r') ∨ ∃ x, gmkRingMpmcPop r = .ok x r'

def Moves (r r' : RingMpmc α) : Prop := Relation.ReflTransGen Move r r'

/-- `r'` is what pops leave of `r`: no element has come in. -/
def PopsTo (r r' : RingMpmc α) : Prop :=
  Relation.ReflTransGen (fun r r' => ∃ x, gmkRingMpmcPop r = .ok x r') r r'

theorem PopsTo.moves (h : r.PopsTo r') : r.Moves r' := by
  induction h with
  | refl => exact .refl
  | tail _ hpop ih => exact ih.tail (.inr hpop)

/-- With two cells or more the ring always represents a queue. -/
theorem Moves.holds {q : List α} (hq : r.Holds q) (htwo : 2 ≤ r.cap) (h : r.Moves r') :
    ∃ q', r'.Holds q' ∧ r'.cap = r.cap := by
  induction h with
  | refl => exact ⟨q, hq, rfl⟩
  | @tail a b _ hmove ih =>
    obtain ⟨q', hq', hcap⟩ := ih
    rcases hmove with ⟨x, hpush⟩ | ⟨x, hpop⟩
    · obtain ⟨hb, hb'⟩ := hq'.of_push hpush (by omega)
      exact ⟨_, hb, hb'.trans hcap⟩
    · obtain ⟨l, -, hb, hb'⟩ := hq'.of_pop hpop
      exact ⟨l, hb, hb'.trans hcap⟩

/-- The stamp of a single cell is the tail, whatever has been pushed and popped. -/
structure OneCell (r : RingMpmc α) : Prop where
  cap_eq : r.cap = 1
  mask_eq : r.mask = 0
  head_lt : r.head < 2 ^ 32
  tail_lt : r.tail < 2 ^ 32
  seq_eq : r.seq 0 = r.tail

namespace OneCell

theorem init [Inhabited α] : (gmkRingMpmcInit 1 : RingMpmc α).OneCell :=
  ⟨rfl, rfl, by norm_num [gmkRingMpmcInit], by norm_num [gmkRingMpmcInit], rfl⟩

/-- A pop succeeds only where the tail is one ahead. -/
theorem tail_of_pop (h : r.OneCell) {x : α} (hpop : gmkRingMpmcPop r = .ok x r') :
    r.tail = u32 (r.head + 1) ∧ r'.OneCell := by
  simp only [gmkRingMpmcPop, h.mask_eq, Nat.and_zero, h.seq_eq, h.cap_eq] at hpop
  split at hpop
  next hdiff =>
    have htail := u32_eq_of_sdiff32 hdiff
    rw [u32_of_lt h.tail_lt, u32_u32] at htail
    obtain ⟨-, rfl⟩ : _ ∧ _ = r' := by simpa only [PopResult.ok.injEq] using hpop
    exact ⟨htail, rfl, rfl, u32_lt _, h.tail_lt, by simp only [Function.update_self, htail]⟩
  next => split at hpop <;> simp at hpop

/-- A single cell takes every push. -/
theorem push_ok (h : r.OneCell) (x : α) : ∃ r', gmkRingMpmcPush r x = .ok r' ∧ r'.OneCell := by
  have hdiff : sdiff32 r.tail r.tail = 0 := by
    rw [← u32_of_lt h.tail_lt]
    exact sdiff32_self _
  refine ⟨{ r with
    tail := u32 (r.tail + 1)
    mask := 0
    data := Function.update r.data 0 x
    seq := Function.update r.seq 0 (u32 (r.tail + 1)) }, ?_, h.cap_eq, rfl, h.head_lt, u32_lt _, ?_⟩
  · simp only [gmkRingMpmcPush, h.mask_eq, Nat.and_zero, h.seq_eq, hdiff, ↓reduceIte]
  · simp only [Function.update_self]

theorem of_push (h : r.OneCell) {x : α} (hpush : gmkRingMpmcPush r x = .ok r') : r'.OneCell := by
  obtain ⟨r₂, hr₂, hone⟩ := h.push_ok x
  rw [hr₂, PushResult.ok.injEq] at hpush
  exact hpush ▸ hone

theorem of_moves (h : r.OneCell) (hm : r.Moves r') : r'.OneCell := by
  induction hm with
  | refl => exact h
  | tail _ hmove ih =>
    rcases hmove with ⟨x, hpush⟩ | ⟨x, hpop⟩
    · exact ih.of_push hpush
    · exact (ih.tail_of_pop hpop).2

/-- A single cell that has not been overfilled represents a queue. -/
theorem holds (h : r.OneCell) (hcount : gmkRingMpmcCount r ≤ 1) :
    r.Holds r.items ∧ gmkRingMpmcCount r ≤ r.cap := by
  have hcap := h.cap_eq
  have hhead := h.head_lt
  have htail := h.tail_lt
  have hq : ∃ q, r.Holds q := by
    rcases Nat.le_one_iff_eq_zero_or_eq_one.mp hcount with hzero | hone
    · have heq : r.tail = u32 r.head := by
        simp only [gmkRingMpmcCount, sub32, u32] at hzero ⊢
        omega
      refine ⟨[], ⟨0, by norm_num, hcap⟩, by rw [h.mask_eq, hcap], hhead, heq, Nat.zero_le _,
        by simp, ?_⟩
      intro i _ hi
      obtain rfl : i = 0 := by omega
      rw [hcap, Nat.mod_one, h.seq_eq]
      exact heq
    · have heq : r.tail = u32 (r.head + 1) := by
        simp only [gmkRingMpmcCount, sub32, u32] at hone ⊢
        omega
      refine ⟨[r.data 0], ⟨0, by norm_num, hcap⟩, by rw [h.mask_eq, hcap], hhead, heq, hcap.ge,
        ?_, ?_⟩
      · intro i hi
        obtain rfl : i = 0 := by simpa using hi
        rw [hcap, Nat.mod_one, h.seq_eq]
        exact ⟨heq, rfl⟩
      · intro i hle hi
        simp only [List.length_singleton] at hle
        omega
  obtain ⟨q, hq⟩ := hq
  rw [hq.items_eq, hcap]
  exact ⟨hq, hcount⟩

/-- An overfilled cell delivers nothing more. -/
theorem pop_ne_ok (h : r.OneCell) (hcount : 1 < gmkRingMpmcCount r) (x : α) (r' : RingMpmc α) :
    gmkRingMpmcPop r ≠ .ok x r' := by
  intro hpop
  have heq := (h.tail_of_pop hpop).1
  have hhead := h.head_lt
  have hone := sub32_add_left (n := r.head) (d := 1) (by norm_num)
  rw [u32_of_lt hhead, ← heq] at hone
  unfold gmkRingMpmcCount at hcount
  omega

end OneCell

/-- A ring that has been initialised and used represents a queue unless it has one cell and
has been overfilled, and then it delivers nothing more. -/
theorem holds_iff_count_le [Inhabited α] {j : ℕ} (hj : j ≤ 31)
    (h : (gmkRingMpmcInit (2 ^ j)).Moves r) :
    (r.Holds r.items ↔ gmkRingMpmcCount r ≤ r.cap) ∧
      (¬ r.Holds r.items → ∀ x r', gmkRingMpmcPop r ≠ .ok x r') := by
  have hle (hq : r.Holds r.items) : gmkRingMpmcCount r ≤ r.cap := hq.count_eq ▸ hq.room
  cases j with
  | zero =>
    have hone := OneCell.init.of_moves h
    refine ⟨⟨hle, fun hc => (hone.holds (hone.cap_eq ▸ hc)).1⟩, ?_⟩
    intro hnot
    apply hone.pop_ne_ok
    by_contra hcount
    exact hnot (hone.holds (not_lt.mp hcount)).1
  | succ j =>
    have htwo : 2 ≤ (gmkRingMpmcInit (2 ^ (j + 1)) : RingMpmc α).cap :=
      Nat.pow_le_pow_right (n := 2) (by norm_num) (Nat.succ_le_succ (Nat.zero_le j))
    obtain ⟨q, hq, -⟩ := h.holds (init_holds hj) htwo
    have hitems : r.Holds r.items := hq.items_eq.symm ▸ hq
    exact ⟨⟨hle, fun _ => hitems⟩, fun hnot => absurd hitems hnot⟩

end RingMpmc
end Ggmk

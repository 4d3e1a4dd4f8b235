import Mathlib

/-! Sums over a finite family of containers when one member of the family is replaced. -/
namespace Tally

variable {ι β M : Type*} [DecidableEq ι] [AddCommMonoid M]

/-- Replacing one member exchanges its share of the total. -/
theorem sum_update_add (s : Finset ι) (g : β → M) (f : ι → β) {i : ι} (hi : i ∈ s) (v : β) :
    (∑ x ∈ s, g (Function.update f i v x)) + g (f i) = (∑ x ∈ s, g (f x)) + g v := by
  have he : ∑ x ∈ s.erase i, g (Function.update f i v x) = ∑ x ∈ s.erase i, g (f x) := by
    refine Finset.sum_congr rfl fun x hx => ?_
    rw [Function.update_of_ne (Finset.ne_of_mem_erase hx)]
  rw [← Finset.sum_erase_add _ _ hi, ← Finset.sum_erase_add s (fun x => g (f x)) hi, he,
    Function.update_self, add_right_comm]

end Tally

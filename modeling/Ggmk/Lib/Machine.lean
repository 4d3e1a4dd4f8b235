import Mathlib

/-! Machines that answer one call after another, and the simulation of one by another. -/
namespace Machine

variable {σ τ ι ο : Type*}

/-- The answers to a list of calls. -/
def answers (f : σ → ι → ο × σ) : σ → List ι → List ο
  | _, [] => []
  | s, i :: l => (f s i).1 :: answers f (f s i).2 l

theorem answers_append (f : σ → ι → ο × σ) (s : σ) (l l' : List ι) :
    answers f s (l ++ l') =
      answers f s l ++ answers f (l.foldl (fun s i => (f s i).2) s) l' := by
  induction l generalizing s with
  | nil => rfl
  | cons i l ih => simp only [List.cons_append, answers, ih, List.foldl_cons]

/-- `R` relates the states of two machines that give the same answer to every call and stay
related. -/
def Simulates (f : σ → ι → ο × σ) (g : τ → ι → ο × τ) (R : σ → τ → Prop) : Prop :=
  ∀ s t i, R s t → (f s i).1 = (g t i).1 ∧ R (f s i).2 (g t i).2

theorem Simulates.answers_eq {f : σ → ι → ο × σ} {g : τ → ι → ο × τ} {R : σ → τ → Prop}
    (h : Simulates f g R) {s : σ} {t : τ} (hst : R s t) (l : List ι) :
    answers f s l = answers g t l := by
  induction l generalizing s t with
  | nil => rfl
  | cons i l ih =>
    obtain ⟨hans, hnext⟩ := h s t i hst
    simp only [answers, hans, ih hnext]

/-- What no single call answers is never answered. -/
theorem not_mem_answers {f : σ → ι → ο × σ} {o : ο} (h : ∀ s i, (f s i).1 ≠ o) (s : σ)
    (l : List ι) : o ∉ answers f s l := by
  induction l generalizing s with
  | nil => exact List.not_mem_nil
  | cons i l ih =>
    rw [answers, List.mem_cons, not_or]
    exact ⟨(h s i).symm, ih _⟩

end Machine

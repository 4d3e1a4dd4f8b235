import Mathlib

/-! Runs of a labelled transition system in which every step meets a guard on the state it
is taken from. -/
namespace Guarded

variable {σ ι : Type*} {step : σ → ι → σ → Prop} {guard : σ → ι → Prop} {s₀ s s' : σ} {i : ι}

/-- The states that guarded steps reach from `s₀`. -/
inductive Reach (step : σ → ι → σ → Prop) (guard : σ → ι → Prop) (s₀ : σ) : σ → Prop
  | start : Reach step guard s₀ s₀
  | next {s s' : σ} (i : ι) (h : Reach step guard s₀ s) (hg : guard s i) (hs : step s i s') :
      Reach step guard s₀ s'

/-- What the start has and every guarded step keeps, every reached state has. -/
theorem Reach.inv {I : σ → Prop} (hstart : I s₀)
    (hstep : ∀ s i s', I s → guard s i → step s i s' → I s')
    (h : Reach step guard s₀ s) : I s := by
  induction h with
  | start => exact hstart
  | next i _ hg hs ih => exact hstep _ i _ ih hg hs

theorem Reach.trans {s₁ s₂ : σ} (h : Reach step guard s₀ s₁) (h' : Reach step guard s₁ s₂) :
    Reach step guard s₀ s₂ := by
  induction h' with
  | start => exact h
  | next i _ hg hs ih => exact ih.next i hg hs

/-- Each step of the run of `l` from `s` meets the guard. -/
def Obeys (f : σ → ι → σ) (guard : σ → ι → Prop) : σ → List ι → Prop
  | _, [] => True
  | s, i :: l => guard s i ∧ Obeys f guard (f s i) l

/-- The run of a list of labels, for a system that is a function. -/
theorem Reach.foldl {f : σ → ι → σ} {l : List ι} (h : Obeys f guard s l)
    (hs : Reach (fun s i s' => s' = f s i) guard s₀ s) :
    Reach (fun s i s' => s' = f s i) guard s₀ (l.foldl f s) := by
  induction l generalizing s with
  | nil => exact hs
  | cons i l ih => exact ih h.2 (hs.next i h.1 rfl)

end Guarded

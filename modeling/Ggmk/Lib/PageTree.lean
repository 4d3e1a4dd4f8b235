import Mathlib

/-! Trees of tables in memory. `child f i` is the frame that entry `i` of the table in frame `f`
points to. A node is named by the indices on the way to it, the last one first. -/
namespace PageTree

/-- The frame of a node. -/
def frameOf (child : ℕ → ℕ → Option ℕ) (root : ℕ) : List ℕ → Option ℕ
  | [] => some root
  | i :: p => (frameOf child root p).bind fun f => child f i

/-- Distinct nodes of `N` are in distinct frames. -/
def Separate (child : ℕ → ℕ → Option ℕ) (root : ℕ) (N : Set (List ℕ)) : Prop :=
  ∀ p ∈ N, ∀ q ∈ N, ∀ f, frameOf child root p = some f → frameOf child root q = some f → p = q

variable {child child' : ℕ → ℕ → Option ℕ} {root f₀ i₀ : ℕ} {N : Set (List ℕ)} {p₀ : List ℕ}

theorem frameOf_cons {i : ℕ} {p : List ℕ} {f : ℕ} (h : frameOf child root p = some f) :
    frameOf child root (i :: p) = child f i := by
  rw [frameOf, h]
  rfl

theorem frameOf_tail {i : ℕ} {p : List ℕ} {f : ℕ} (h : frameOf child root (i :: p) = some f) :
    ∃ g, frameOf child root p = some g ∧ child g i = some f := Option.bind_eq_some_iff.mp h

/-- The way to a node leads through nodes. -/
theorem frameOf_suffix {q p : List ℕ} (hqp : q <:+ p) {f : ℕ} (h : frameOf child root p = some f) :
    ∃ g, frameOf child root q = some g := by
  induction p generalizing f with
  | nil =>
    rw [List.suffix_nil.mp hqp]
    exact ⟨f, h⟩
  | cons i p ih =>
    rcases List.suffix_cons_iff.mp hqp with rfl | hqp
    · exact ⟨f, h⟩
    · obtain ⟨g, hg, -⟩ := frameOf_tail h
      exact ih hqp hg

section
variable (hN : ∀ i p, i :: p ∈ N → p ∈ N)
include hN

/-- The entries of the tables decide where the nodes are. -/
theorem frameOf_congr
    (h : ∀ i p f, i :: p ∈ N → frameOf child root p = some f → child' f i = child f i) :
    ∀ p ∈ N, frameOf child' root p = frameOf child root p := by
  intro p
  induction p with
  | nil => exact fun _ => rfl
  | cons i p ih =>
    intro hp
    rw [frameOf, frameOf, ih (hN i p hp)]
    cases hf : frameOf child root p with
    | none => rfl
    | some f => exact h i p f hp hf

/-- The entry `i₀` of the table of `p₀` is set: below a node that has not moved, only that node
moves. -/
theorem frameOf_cons_set (hsep : Separate child root N) (hp₀ : p₀ ∈ N)
    (hf₀ : frameOf child root p₀ = some f₀) {c : Option ℕ}
    (hset : ∀ g i p, i :: p ∈ N → frameOf child root p = some g →
      child' g i = if g = f₀ ∧ i = i₀ then c else child g i)
    {i : ℕ} {p : List ℕ} (hq : i :: p ∈ N)
    (hsame : frameOf child' root p = frameOf child root p) :
    frameOf child' root (i :: p) =
      if i :: p = i₀ :: p₀ then c else frameOf child root (i :: p) := by
  cases hf : frameOf child root p with
  | none =>
    have hne : i :: p ≠ i₀ :: p₀ := by
      intro he
      rw [(List.cons.inj he).2, hf₀] at hf
      exact absurd hf (by simp)
    rw [if_neg hne, frameOf, frameOf, hsame, hf]
    rfl
  | some g =>
    rw [frameOf_cons (hsame.trans hf), frameOf_cons hf, hset g i p hq hf]
    by_cases hgi : g = f₀ ∧ i = i₀
    · have hpe : p = p₀ := hsep p (hN i p hq) p₀ hp₀ f₀ (hgi.1 ▸ hf) hf₀
      rw [if_pos hgi, if_pos (by rw [hgi.2, hpe])]
    · have hne : i :: p ≠ i₀ :: p₀ := by
        intro he
        obtain ⟨hi, hpe⟩ := List.cons.inj he
        rw [hpe, hf₀] at hf
        exact hgi ⟨(Option.some.inj hf).symm, hi⟩
      rw [if_neg hgi, if_neg hne]

/-- An empty table in a frame of its own is hung below the table of `p₀`. -/
theorem frameOf_link (hsep : Separate child root N) (hp₀ : p₀ ∈ N)
    (hf₀ : frameOf child root p₀ = some f₀) (hnone : child f₀ i₀ = none) {f : ℕ}
    (hset : ∀ g i p, i :: p ∈ N → frameOf child root p = some g →
      child' g i = if g = f₀ ∧ i = i₀ then some f else child g i)
    (hempty : ∀ i, i :: i₀ :: p₀ ∈ N → child' f i = none) :
    ∀ q ∈ N, frameOf child' root q = if q = i₀ :: p₀ then some f else frameOf child root q := by
  intro q
  induction q with
  | nil => exact fun _ => rfl
  | cons i p ih =>
    intro hq
    have hp := ih (hN i p hq)
    by_cases hpp : p = i₀ :: p₀
    · -- below the new table there is nothing, and there was nothing before
      subst hpp
      rw [if_pos rfl] at hp
      rw [frameOf_cons hp, hempty i hq, if_neg (by simp), frameOf, frameOf_cons hf₀, hnone]
      rfl
    · rw [if_neg hpp] at hp
      exact frameOf_cons_set hN hsep hp₀ hf₀ hset hq hp

/-- The entry of a node that has none below it is set. -/
theorem frameOf_set (hsep : Separate child root N) (hp₀ : p₀ ∈ N)
    (hf₀ : frameOf child root p₀ = some f₀) (hleaf : ∀ i, i :: i₀ :: p₀ ∉ N) {c : Option ℕ}
    (hset : ∀ g i p, i :: p ∈ N → frameOf child root p = some g →
      child' g i = if g = f₀ ∧ i = i₀ then c else child g i) :
    ∀ q ∈ N, frameOf child' root q = if q = i₀ :: p₀ then c else frameOf child root q := by
  intro q
  induction q with
  | nil => exact fun _ => rfl
  | cons i p ih =>
    intro hq
    have hp := ih (hN i p hq)
    have hpp : p ≠ i₀ :: p₀ := by
      rintro rfl
      exact hleaf i hq
    rw [if_neg hpp] at hp
    exact frameOf_cons_set hN hsep hp₀ hf₀ hset hq hp

end

/-- A node is moved to a frame of its own, or taken away. -/
theorem Separate.set (hsep : Separate child root N) {c : Option ℕ} {q₀ : List ℕ}
    (hfresh : ∀ f, c = some f → ∀ p ∈ N, frameOf child root p ≠ some f)
    (hframe : ∀ q ∈ N, frameOf child' root q = if q = q₀ then c else frameOf child root q) :
    Separate child' root N := by
  intro p hp q hq g hpg hqg
  rw [hframe p hp] at hpg
  rw [hframe q hq] at hqg
  by_cases hpn : p = q₀ <;> by_cases hqn : q = q₀
  · rw [hpn, hqn]
  · rw [if_pos hpn] at hpg
    rw [if_neg hqn] at hqg
    exact absurd hqg (hfresh g hpg q hq)
  · rw [if_neg hpn] at hpg
    rw [if_pos hqn] at hqg
    exact absurd hpg (hfresh g hqg p hp)
  · rw [if_neg hpn] at hpg
    rw [if_neg hqn] at hqg
    exact hsep p hp q hq g hpg hqg

end PageTree

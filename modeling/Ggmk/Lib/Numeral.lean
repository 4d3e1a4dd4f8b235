import Mathlib

/-! Positional numbers: lists of digits with the most significant one first, their value by
Horner's rule, and their spelling in ASCII. -/
namespace Numeral

/-- The number that the digits `ds` stand for in base `b`. -/
def value (b : ℕ) (ds : List ℕ) : ℕ := ds.foldl (fun v d => v * b + d) 0

/-- The digits of `n` without a superfluous leading zero. -/
def digits (b n : ℕ) : List ℕ := if n = 0 then [0] else (Nat.digits b n).reverse

/-- The character `c` is the digit `d`; a letter counts from ten on in either case. -/
def IsDigit (b : ℕ) (c : UInt8) (d : ℕ) : Prop :=
  d < b ∧ (d < 10 ∧ c.toNat = 48 + d ∨ 10 ≤ d ∧ (c.toNat = 87 + d ∨ c.toNat = 55 + d))

/-- The string `s` is a numeral in base `b` and `n` is its value. -/
def Spells (b : ℕ) (s : List UInt8) (n : ℕ) : Prop :=
  s ≠ [] ∧ ∃ ds, List.Forall₂ (IsDigit b) s ds ∧ value b ds = n

variable {b n m : ℕ} {c : UInt8} {s : List UInt8}

theorem value_eq_ofDigits (b : ℕ) (ds : List ℕ) : value b ds = Nat.ofDigits b ds.reverse := by
  induction ds using List.reverseRecOn with
  | nil => rfl
  | append_singleton ds d ih =>
    have hstep : value b (ds ++ [d]) = value b ds * b + d := by simp [value]
    rw [hstep, ih, List.reverse_append, List.reverse_singleton, List.singleton_append,
      Nat.ofDigits_cons]
    ring

/-- Horner's rule may be computed modulo `m` at every step. -/
theorem foldl_mod (b m : ℕ) (ds : List ℕ) (v : ℕ) :
    ds.foldl (fun v d => (v * b + d) % m) (v % m) = ds.foldl (fun v d => v * b + d) v % m := by
  induction ds generalizing v with
  | nil => rfl
  | cons d ds ih =>
    rw [List.foldl_cons, List.foldl_cons, ← ih]
    congr 1
    simp [Nat.add_mod, Nat.mul_mod]

theorem value_digits (b n : ℕ) : value b (digits b n) = n := by
  unfold digits
  split_ifs with hn
  · simp [value, hn]
  · rw [value_eq_ofDigits, List.reverse_reverse, Nat.ofDigits_digits]

theorem digits_lt (hb : 1 < b) : ∀ d ∈ digits b n, d < b := by
  intro d hd
  unfold digits at hd
  split_ifs at hd with hn
  · rw [List.mem_singleton] at hd
    omega
  · exact Nat.digits_lt_base hb (List.mem_reverse.mp hd)

theorem digits_ne_nil (b n : ℕ) : digits b n ≠ [] := by
  unfold digits
  split_ifs with hn
  · exact List.cons_ne_nil 0 []
  · rwa [Ne, List.reverse_eq_nil_iff, Nat.digits_eq_nil_iff_eq_zero]

/-- A number of at least one digit starts with zero only if it is zero. -/
theorem eq_of_digits_head (h : (digits b n).head? = some 0) : digits b n = [0] := by
  unfold digits at *
  split_ifs at h ⊢ with hn
  · rfl
  · rw [List.head?_reverse, List.getLast?_eq_some_getLast (Nat.digits_ne_nil_iff_ne_zero.mpr hn),
      Option.some_inj] at h
    exact absurd h (Nat.getLast_digit_ne_zero b hn)

theorem IsDigit.unique {d e : ℕ} (hb : b ≤ 36) (hd : IsDigit b c d) (he : IsDigit b c e) :
    d = e := by
  unfold IsDigit at hd he
  omega

theorem Spells.unique (hb : b ≤ 36) (hn : Spells b s n) (hm : Spells b s m) : n = m := by
  obtain ⟨-, ds, hds, rfl⟩ := hn
  obtain ⟨-, es, hes, rfl⟩ := hm
  have heq : ds = es := by
    induction hds generalizing es with
    | nil => cases hes; rfl
    | cons hd _ ih =>
      cases hes with
      | cons he hes => rw [hd.unique hb he, ih _ hes]
  rw [heq]

/-- Digits written one character each spell the number. -/
theorem spells_digits {g : ℕ → UInt8} (hb : 1 < b) (hg : ∀ d, d < b → IsDigit b (g d) d) (n : ℕ) :
    Spells b ((digits b n).map g) n := by
  refine ⟨by simpa using digits_ne_nil b n, digits b n, ?_, value_digits b n⟩
  rw [List.forall₂_map_left_iff, List.forall₂_same]
  intro d hd
  exact hg d (digits_lt hb d hd)

/-- A written number starts with the character of zero only if it is zero. -/
theorem eq_of_map_digits_head {g : ℕ → UInt8} (hb : 1 < b)
    (hg : ∀ d, d < b → IsDigit b (g d) d) (h : ((digits b n).map g).head? = some 48) :
    (digits b n).map g = [48] := by
  obtain ⟨d, hd, hgd⟩ := Option.map_eq_some_iff.mp (List.head?_map .. ▸ h)
  have hdigit := hg d (digits_lt hb d (List.mem_of_head? hd))
  obtain rfl : d = 0 := by
    rw [hgd] at hdigit
    have h48 : (48 : UInt8).toNat = 48 := rfl
    unfold IsDigit at hdigit
    omega
  rw [eq_of_digits_head hd, List.map_singleton, hgd]

end Numeral

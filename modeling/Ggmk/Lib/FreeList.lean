import Mathlib

/-! A singly linked list of array slots: every slot holds the index of the next one and
a negative number ends the list. -/
namespace FreeList

/-- Following `links` from `head` visits the slots of `l`. -/
def Chain (links : ℕ → ℤ) : ℤ → List ℕ → Prop
  | head, [] => head < 0
  | head, i :: l => head = i ∧ Chain links (links i) l

/-- The slots are visited once each. -/
def Lists (links : ℕ → ℤ) (head : ℤ) (l : List ℕ) : Prop := Chain links head l ∧ l.Nodup

/-- Only the links of the visited slots matter. -/
theorem chain_congr {links links' : ℕ → ℤ} {head : ℤ} {l : List ℕ}
    (hl : ∀ i ∈ l, links' i = links i) (h : Chain links head l) : Chain links' head l := by
  induction l generalizing head with
  | nil => exact h
  | cons j l ih =>
    refine ⟨h.1, ?_⟩
    rw [hl j (List.mem_cons_self ..)]
    exact ih (fun i hi => hl i (List.mem_cons_of_mem j hi)) h.2

theorem chain_update {links : ℕ → ℤ} {head : ℤ} {l : List ℕ} {i : ℕ} (hi : i ∉ l) (v : ℤ)
    (h : Chain links head l) : Chain (Function.update links i v) head l := by
  refine chain_congr (fun j hj => ?_) h
  rw [Function.update_of_ne (ne_of_mem_of_not_mem hj hi)]

/-- The first slot of the list is its head; the rest is listed from the link. -/
theorem Lists.pop {links : ℕ → ℤ} {head : ℤ} {l : List ℕ} (h : Lists links head l)
    (hpos : 0 ≤ head) : ∃ l', l = head.toNat :: l' ∧ Lists links (links head.toNat) l' := by
  cases l with
  | nil => exact absurd h.1 (not_lt.mpr hpos)
  | cons i l =>
    obtain ⟨rfl, hc⟩ := h.1
    exact ⟨l, by simp, by simpa using hc, (List.nodup_cons.mp h.2).2⟩

theorem Lists.push {links : ℕ → ℤ} {head : ℤ} {l : List ℕ} {i : ℕ} (h : Lists links head l)
    (hi : i ∉ l) : Lists (Function.update links i head) i (i :: l) := by
  refine ⟨⟨rfl, ?_⟩, List.nodup_cons.mpr ⟨hi, h.2⟩⟩
  rw [Function.update_self]
  exact chain_update hi _ h.1

/-- Slots linked in increasing order up to an end mark at `n`. -/
theorem lists_range' {links : ℕ → ℤ} {n : ℕ} (hn : links n < 0) {m i : ℕ} (hi : i + m = n)
    (hl : ∀ j, i ≤ j → j < n → links j = (j : ℤ) + 1) :
    Lists links i (List.range' i (m + 1)) := by
  refine ⟨?_, List.nodup_range'⟩
  induction m generalizing i with
  | zero =>
    obtain rfl : i = n := by omega
    exact ⟨rfl, hn⟩
  | succ m ih =>
    refine ⟨rfl, ?_⟩
    rw [hl i le_rfl (by omega)]
    have h := ih (i := i + 1) (by omega) (fun j hj => hl j (by omega))
    simpa using h

/-- What stands behind the last of the visited slots. -/
def endMark (links : ℕ → ℤ) (head : ℤ) (l : List ℕ) : ℤ := l.foldl (fun _ i => links i) head

theorem endMark_cons (links : ℕ → ℤ) (head : ℤ) (i : ℕ) (l : List ℕ) :
    endMark links head (i :: l) = endMark links (links i) l := rfl

theorem endMark_concat (links : ℕ → ℤ) (head : ℤ) (l : List ℕ) (i : ℕ) :
    endMark links head (l ++ [i]) = links i := by
  rw [endMark, List.foldl_append]
  rfl

/-- A slot put in front of the list leaves its end as it is. -/
theorem endMark_push {links : ℕ → ℤ} {head : ℤ} {l : List ℕ} {i : ℕ} (hi : i ∉ l) :
    endMark (Function.update links i head) i (i :: l) = endMark links head l := by
  rw [endMark_cons, Function.update_self, endMark, endMark]
  apply List.foldl_ext
  intro _ j hj
  exact Function.update_of_ne (ne_of_mem_of_not_mem hj hi) _ _

end FreeList

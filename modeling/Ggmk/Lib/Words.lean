import Mathlib

/-! The words of a list: its maximal runs of elements that do not separate. -/
namespace Words

variable {α : Type*} (sep : α → Bool) {c : α} {l : List α}

/-- The maximal runs of elements other than separators, in their order. -/
def words (l : List α) : List (List α) := (l.splitOnP sep).filter fun w => !w.isEmpty

/-- What is left behind the first word. -/
def skipWord (l : List α) : List α := (l.dropWhile sep).dropWhile fun x => !sep x

/-- The part of the list that starts with its `n`-th word, counted from zero; empty if there are
not that many words. -/
def fromWord (n : ℕ) (l : List α) : List α := ((skipWord sep)^[n] l).dropWhile sep

@[simp] theorem words_nil : words sep [] = [] := rfl

theorem words_cons_sep (h : sep c = true) : words sep (c :: l) = words sep l := by
  rw [words, List.splitOnP_cons_eq_if_modifyHead, if_pos h]
  rfl

theorem words_cons (h : sep c = false) : words sep (c :: l) =
    (c :: l.takeWhile fun x => !sep x) :: words sep (l.dropWhile fun x => !sep x) := by
  have hrun : ∀ x ∈ c :: l.takeWhile (fun x => !sep x), sep x = false := by
    intro x hx
    rcases List.mem_cons.mp hx with rfl | hx
    · exact h
    · simpa using List.mem_takeWhile_imp hx
  have hl : c :: l = (c :: l.takeWhile fun x => !sep x) ++ l.dropWhile fun x => !sep x := by
    rw [List.cons_append, List.takeWhile_append_dropWhile]
  cases hd : l.dropWhile (fun x => !sep x) with
  | nil =>
    rw [hd, List.append_nil] at hl
    rw [words, hl, List.splitOnP_eq_singleton hrun]
    rfl
  | cons s r =>
    have hs : sep s = true := by
      have hne : l.dropWhile (fun x => !sep x) ≠ [] := by
        rw [hd]
        exact List.cons_ne_nil s r
      have hhead := List.head_dropWhile_not (fun x => !sep x) hne
      simpa [hd] using hhead
    rw [hd] at hl
    rw [words_cons_sep sep hs, words, hl, List.splitOnP_append_cons_of_forall_mem hrun s hs r]
    rfl

@[simp] theorem fromWord_nil (n : ℕ) : fromWord sep n [] = [] := by
  induction n with
  | zero => rfl
  | succ n ih => exact ih

theorem fromWord_cons_sep (h : sep c = true) (n : ℕ) :
    fromWord sep n (c :: l) = fromWord sep n l := by
  cases n with
  | zero => exact List.dropWhile_cons_of_pos h
  | succ n =>
    have hskip : skipWord sep (c :: l) = skipWord sep l := by
      rw [skipWord, List.dropWhile_cons_of_pos h, skipWord]
    rw [fromWord, fromWord, Function.iterate_succ_apply, Function.iterate_succ_apply, hskip]

theorem fromWord_zero_cons (h : sep c = false) : fromWord sep 0 (c :: l) = c :: l :=
  List.dropWhile_cons_of_neg (by simp [h])

theorem fromWord_succ_cons (h : sep c = false) (n : ℕ) :
    fromWord sep (n + 1) (c :: l) = fromWord sep n (l.dropWhile fun x => !sep x) := by
  have hskip : skipWord sep (c :: l) = l.dropWhile fun x => !sep x := by
    rw [skipWord, List.dropWhile_cons_of_neg (by simp [h]),
      List.dropWhile_cons_of_pos (by simp [h])]
  rw [fromWord, fromWord, Function.iterate_succ_apply, hskip]

/-- A list is one run exactly if nothing in it separates. -/
theorem takeWhile_eq_self_iff :
    (l.takeWhile fun x => !sep x) = l ↔ ∀ x ∈ l, sep x = false := by
  rw [List.takeWhile_eq_self_iff]
  simp

end Words

import Mathlib

/-! In-place binary min-heaps over an array read as a function. Both sifts permute the
occupied prefix, and each restores the heap order from an order broken at one index. -/
namespace BinaryHeap

variable {α β : Type*} [LinearOrder β] (key : α → β)

def swap (h : ℕ → α) (i j : ℕ) : ℕ → α := Function.update (Function.update h i (h j)) j (h i)

def parent (i : ℕ) : ℕ := (i - 1) / 2

/-- Move the element at `idx` up while it is smaller than its parent. -/
def siftUp (h : ℕ → α) (idx : ℕ) : ℕ → α :=
  if 0 < idx then
    if key (h idx) < key (h (parent idx)) then siftUp (swap h idx (parent idx)) (parent idx)
    else h
  else h
termination_by idx
decreasing_by unfold parent; omega

/-- The index of the least element among `idx` and its children. -/
def smallest (h : ℕ → α) (count idx : ℕ) : ℕ :=
  let s := if 2 * idx + 1 < count ∧ key (h (2 * idx + 1)) < key (h idx) then 2 * idx + 1 else idx
  if 2 * idx + 2 < count ∧ key (h (2 * idx + 2)) < key (h s) then 2 * idx + 2 else s

theorem smallest_cases (h : ℕ → α) (count idx : ℕ) :
    smallest key h count idx = idx ∨ (smallest key h count idx < count ∧
      (smallest key h count idx = 2 * idx + 1 ∨ smallest key h count idx = 2 * idx + 2)) := by
  unfold smallest
  grind

/-- Move the element at `idx` down while one of its children is smaller. -/
def siftDown (h : ℕ → α) (count idx : ℕ) : ℕ → α :=
  if smallest key h count idx ≠ idx then
    siftDown (swap h idx (smallest key h count idx)) count (smallest key h count idx)
  else h
termination_by count - idx
decreasing_by have := smallest_cases key h count idx; omega

/-- The occupied prefix of the array, as a multiset. -/
def contents (h : ℕ → α) (n : ℕ) : Multiset α := (Multiset.range n).map h

theorem mem_contents {h : ℕ → α} {n : ℕ} {x : α} : x ∈ contents h n ↔ ∃ i < n, h i = x := by
  simp [contents]

theorem contents_succ (h : ℕ → α) (n : ℕ) : contents h (n + 1) = h n ::ₘ contents h n := by
  simp [contents]

theorem contents_eq_cons (h : ℕ → α) (n : ℕ) :
    contents h (n + 1) = h 0 ::ₘ contents (fun i => h (i + 1)) n := by
  induction n with
  | zero => simp [contents]
  | succ n ih =>
    rw [contents_succ, ih, contents_succ (fun i => h (i + 1)), Multiset.cons_swap]

theorem contents_update_ge (h : ℕ → α) {n i : ℕ} (hi : n ≤ i) (x : α) :
    contents (Function.update h i x) n = contents h n := by
  refine Multiset.map_congr rfl fun j hj => ?_
  rw [Function.update_of_ne]
  have := Multiset.mem_range.mp hj
  omega

section swap
variable {h : ℕ → α} {i j : ℕ}

@[simp] theorem swap_left (hij : i ≠ j) : swap h i j i = h j := by simp [swap, hij]

@[simp] theorem swap_right : swap h i j j = h i := by simp [swap]

theorem swap_of_ne {k : ℕ} (hi : k ≠ i) (hj : k ≠ j) : swap h i j k = h k := by
  simp [swap, hi, hj]

theorem swap_eq_comp : swap h i j = h ∘ Equiv.swap i j := by
  funext k
  by_cases hj : k = j
  · subst hj; simp [swap]
  · by_cases hi : k = i
    · subst hi; simp [swap, hj]
    · rw [swap_of_ne hi hj, Function.comp_apply, Equiv.swap_apply_of_ne_of_ne hi hj]

theorem contents_swap {n : ℕ} (hi : i < n) (hj : j < n) :
    contents (swap h i j) n = contents h n := by
  unfold contents
  rw [swap_eq_comp, ← Multiset.map_map]
  congr 1
  have hmap : (Finset.range n).map (Equiv.swap i j).toEmbedding = Finset.range n := by
    refine Finset.map_eq_of_subset fun k hk => ?_
    obtain ⟨k', hk', rfl⟩ := Finset.mem_map.mp hk
    simp only [Equiv.coe_toEmbedding, Finset.mem_range] at hk' ⊢
    rw [Equiv.swap_apply_def]
    split_ifs <;> omega
  exact congrArg Finset.val hmap

end swap

theorem contents_siftUp (h : ℕ → α) {n idx : ℕ} (hidx : idx < n) :
    contents (siftUp key h idx) n = contents h n := by
  fun_induction siftUp key h idx with
  | case1 h idx hpos hlt ih =>
    have hp : parent idx < n := by unfold parent; omega
    rw [ih hp, contents_swap hidx hp]
  | case2 => rfl
  | case3 => rfl

theorem contents_siftDown (h : ℕ → α) {count idx : ℕ} (hidx : idx < count) :
    contents (siftDown key h count idx) count = contents h count := by
  fun_induction siftDown key h count idx with
  | case1 h idx hne ih =>
    have hs : smallest key h count idx < count :=
      ((smallest_cases key h count idx).resolve_left hne).1
    rw [ih hs, contents_swap hidx hs]
  | case2 => rfl

/-- No element of the prefix is smaller than its parent. -/
def Ordered (h : ℕ → α) (n : ℕ) : Prop :=
  ∀ i, 0 < i → i < n → key (h (parent i)) ≤ key (h i)

/-- The order may fail only between `idx` and its parent. -/
structure UpOrdered (h : ℕ → α) (n idx : ℕ) : Prop where
  off : ∀ i, 0 < i → i < n → i ≠ idx → key (h (parent i)) ≤ key (h i)
  across : 0 < idx → ∀ c, 0 < c → c < n → parent c = idx → key (h (parent idx)) ≤ key (h c)

/-- The order may fail only between `idx` and its children. -/
structure DownOrdered (h : ℕ → α) (n idx : ℕ) : Prop where
  off : ∀ i, 0 < i → i < n → parent i ≠ idx → key (h (parent i)) ≤ key (h i)
  across : 0 < idx → ∀ c, 0 < c → c < n → parent c = idx → key (h (parent idx)) ≤ key (h c)

variable {key}

theorem parent_lt {i : ℕ} (hi : 0 < i) : parent i < i := by unfold parent; omega

theorem UpOrdered.swap {h : ℕ → α} {n idx : ℕ} (ho : UpOrdered key h n idx) (hpos : 0 < idx)
    (hidx : idx < n) (hlt : key (h idx) < key (h (parent idx))) :
    UpOrdered key (swap h idx (parent idx)) n (parent idx) := by
  have hp := parent_lt hpos
  have hpp (h0 : 0 < parent idx) : key (h (parent (parent idx))) ≤ key (h (parent idx)) :=
    ho.off _ h0 (by omega) (by omega)
  constructor
  · intro i hi hn hne
    have hpi := parent_lt hi
    by_cases hii : i = idx
    · subst hii
      rw [swap_left (by omega), swap_right]
      exact hlt.le
    · rw [swap_of_ne hii hne]
      by_cases h1 : parent i = idx
      · rw [h1, swap_left (by omega)]
        exact ho.across hpos i hi hn h1
      · by_cases h2 : parent i = parent idx
        · rw [h2, swap_right]
          have := ho.off i hi hn hii
          rw [h2] at this
          exact hlt.le.trans this
        · rw [swap_of_ne h1 h2]
          exact ho.off i hi hn hii
  · intro h0 c hc hn hcp
    have hpp' := parent_lt h0
    rw [swap_of_ne (by omega) (by omega)]
    by_cases hci : c = idx
    · subst hci
      rw [swap_left (by omega)]
      exact hpp h0
    · have := parent_lt hc
      rw [swap_of_ne hci (by omega)]
      have := ho.off c hc hn hci
      rw [hcp] at this
      exact (hpp h0).trans this

theorem siftUp_ordered {h : ℕ → α} {n idx : ℕ} (hidx : idx < n) (ho : UpOrdered key h n idx) :
    Ordered key (siftUp key h idx) n := by
  fun_induction siftUp key h idx with
  | case1 h idx hpos hlt ih =>
    exact ih ((parent_lt hpos).trans hidx) (ho.swap hpos hidx hlt)
  | case2 h idx hpos hlt =>
    intro i hi hn
    by_cases hii : i = idx
    · subst hii
      exact not_lt.mp hlt
    · exact ho.off i hi hn hii
  | case3 h idx hpos =>
    intro i hi hn
    exact ho.off i hi hn (by omega)

variable (key) in
/-- The chosen index holds the least of the three keys. -/
theorem smallest_le (h : ℕ → α) (count idx : ℕ) :
    key (h (smallest key h count idx)) ≤ key (h idx) ∧
      ∀ c, 0 < c → c < count → parent c = idx →
        key (h (smallest key h count idx)) ≤ key (h c) := by
  have hc {c : ℕ} (h0 : 0 < c) (hp : parent c = idx) : c = 2 * idx + 1 ∨ c = 2 * idx + 2 := by
    unfold parent at hp; omega
  have hs : (smallest key h count idx = idx ∧
        (2 * idx + 1 < count → key (h idx) ≤ key (h (2 * idx + 1))) ∧
        (2 * idx + 2 < count → key (h idx) ≤ key (h (2 * idx + 2)))) ∨
      (smallest key h count idx = 2 * idx + 1 ∧ key (h (2 * idx + 1)) < key (h idx) ∧
        (2 * idx + 2 < count → key (h (2 * idx + 1)) ≤ key (h (2 * idx + 2)))) ∨
      (smallest key h count idx = 2 * idx + 2 ∧ key (h (2 * idx + 2)) ≤ key (h idx) ∧
        (2 * idx + 1 < count → key (h (2 * idx + 2)) ≤ key (h (2 * idx + 1)))) := by
    unfold smallest
    grind
  rcases hs with ⟨he, hl, hr⟩ | ⟨he, hl, hr⟩ | ⟨he, hl, hr⟩ <;> rw [he]
  · refine ⟨le_rfl, fun c h0 hn hp => ?_⟩
    rcases hc h0 hp with rfl | rfl
    · exact hl hn
    · exact hr hn
  · refine ⟨hl.le, fun c h0 hn hp => ?_⟩
    rcases hc h0 hp with rfl | rfl
    · exact le_rfl
    · exact hr hn
  · refine ⟨hl, fun c h0 hn hp => ?_⟩
    rcases hc h0 hp with rfl | rfl
    · exact hr hn
    · exact le_rfl

theorem DownOrdered.swap {h : ℕ → α} {n idx s : ℕ} (ho : DownOrdered key h n idx)
    (hs : s < n) (hps : parent s = idx) (h0 : 0 < s) (hle : key (h s) ≤ key (h idx))
    (hmin : ∀ c, 0 < c → c < n → parent c = idx → key (h s) ≤ key (h c)) :
    DownOrdered key (swap h idx s) n s := by
  have hlt : idx < s := hps ▸ parent_lt h0
  constructor
  · intro i hi hn hne
    have hpi := parent_lt hi
    by_cases his : i = s
    · subst his
      rw [hps, swap_left (by omega), swap_right]
      exact hle
    · by_cases hii : i = idx
      · subst hii
        rw [swap_left (by omega), swap_of_ne (by omega) (by omega)]
        exact ho.across hi s h0 hs hps
      · rw [swap_of_ne hii his]
        by_cases hp : parent i = idx
        · rw [hp, swap_left (by omega)]
          exact hmin i hi hn hp
        · rw [swap_of_ne hp hne]
          exact ho.off i hi hn hp
  · intro _ c hc hn hcs
    have hpc := parent_lt hc
    rw [hps, swap_left (by omega), swap_of_ne (by omega) (by omega)]
    have := ho.off c hc hn (by omega)
    rwa [hcs] at this

theorem siftDown_ordered {h : ℕ → α} {count idx : ℕ} (ho : DownOrdered key h count idx) :
    Ordered key (siftDown key h count idx) count := by
  fun_induction siftDown key h count idx with
  | case1 h idx hne ih =>
    obtain ⟨hn, hch⟩ := (smallest_cases key h count idx).resolve_left hne
    have hle := smallest_le key h count idx
    exact ih (ho.swap hn (by unfold parent; omega) (by omega) hle.1 hle.2)
  | case2 h idx heq =>
    intro i hi hn
    have hle := smallest_le key h count idx
    rw [not_not.mp heq] at hle
    by_cases hp : parent i = idx
    · rw [hp]
      exact hle.2 i hi hn hp
    · exact ho.off i hi hn hp

/-- The root of an ordered prefix is a least element. -/
theorem Ordered.root_le {h : ℕ → α} {n : ℕ} (ho : Ordered key h n) {i : ℕ} (hi : i < n) :
    key (h 0) ≤ key (h i) := by
  induction i using Nat.strongRecOn with
  | ind i ih =>
    by_cases h0 : i = 0
    · rw [h0]
    · have hp := parent_lt (Nat.pos_of_ne_zero h0)
      exact (ih _ hp (hp.trans hi)).trans (ho i (Nat.pos_of_ne_zero h0) hi)

end BinaryHeap

import Ggmk.Lib.Machine

/-! Operations on shared data that take several memory steps each and run in a critical section:
whatever the interleaving, they do what they would do one after the other. -/
namespace CriticalSection

variable {δ ι κ ο τ : Type*}

/-- An operation in memory steps. A call with `i` starts from the locals `enter i`; a step reads
and writes the shared data and goes on with new locals, or answers. -/
structure Program (δ ι κ ο : Type*) where
  enter : ι → κ
  step : κ → δ → (κ ⊕ ο) × δ

namespace Program
variable {P : Program δ ι κ ο} {l l' : κ} {d d' d₀ : δ} {i : ι} {o : ο}

/-- At most `n` steps from the locals `l`, without interruption. -/
def exec (P : Program δ ι κ ο) : ℕ → κ → δ → (κ ⊕ ο) × δ
  | 0, l, d => (.inl l, d)
  | n + 1, l, d =>
      match P.step l d with
      | (.inl l', d') => P.exec n l' d'
      | (.inr o, d') => (.inr o, d')

theorem exec_succ_inl (hs : P.step l d = (.inl l', d')) (n : ℕ) :
    P.exec (n + 1) l d = P.exec n l' d' := by
  rw [exec, hs]

theorem exec_succ_inr (hs : P.step l d = (.inr o, d')) (n : ℕ) :
    P.exec (n + 1) l d = (.inr o, d') := by
  rw [exec, hs]

/-- One more step at the end. -/
theorem exec_snoc {n : ℕ} (h : P.exec n l d = (.inl l', d')) :
    P.exec (n + 1) l d = P.step l' d' := by
  induction n generalizing l d with
  | zero =>
    obtain ⟨hl, rfl⟩ := Prod.mk.inj h
    obtain rfl := Sum.inl.inj hl
    rw [exec]
    rcases hs : P.step l d with ⟨l'' | o, d''⟩ <;> rfl
  | succ n ih =>
    rcases hs : P.step l d with ⟨l'' | o, d''⟩
    · rw [exec_succ_inl hs] at h ⊢
      exact ih h
    · rw [exec_succ_inr hs] at h
      cases h

theorem exec_add {m : ℕ} (h : P.exec m l d = (.inl l', d')) (n : ℕ) :
    P.exec (m + n) l d = P.exec n l' d' := by
  induction m generalizing l d with
  | zero =>
    obtain ⟨hl, rfl⟩ := Prod.mk.inj h
    obtain rfl := Sum.inl.inj hl
    rw [Nat.zero_add]
  | succ m ih =>
    rcases hs : P.step l d with ⟨l'' | o, d''⟩
    · rw [exec_succ_inl hs] at h
      rw [Nat.add_right_comm, exec_succ_inl hs, ih h]
    · rw [exec_succ_inr hs] at h
      cases h

/-- An answer is final. -/
theorem exec_mono {m n : ℕ} (h : P.exec m l d = (.inr o, d')) (hmn : m ≤ n) :
    P.exec n l d = (.inr o, d') := by
  induction m generalizing l d n with
  | zero => cases h
  | succ m ih =>
    obtain ⟨n, rfl⟩ : ∃ k, n = k + 1 := ⟨n - 1, by omega⟩
    rcases hs : P.step l d with ⟨l'' | o', d''⟩
    · rw [exec_succ_inl hs] at h ⊢
      exact ih h (Nat.le_of_succ_le_succ hmn)
    · rw [exec_succ_inr hs] at h ⊢
      exact h

/-- Called alone with `i` on `d` the operation answers `o` and leaves `d'`. -/
def Answers (P : Program δ ι κ ο) (i : ι) (d : δ) (o : ο) (d' : δ) : Prop :=
  ∃ n, P.exec n (P.enter i) d = (.inr o, d')

theorem Answers.unique {o' : ο} {d'' : δ} (h : P.Answers i d o d') (h' : P.Answers i d o' d'') :
    (o, d') = (o', d'') := by
  obtain ⟨m, hm⟩ := h
  obtain ⟨n, hn⟩ := h'
  have hle := exec_mono hm (le_max_left m n)
  rw [exec_mono hn (le_max_right m n)] at hle
  obtain ⟨ho, rfl⟩ := Prod.mk.inj hle
  rw [Sum.inr.inj ho]

/-- The calls of a history, made one after the other from `d₀`. -/
inductive Serial (P : Program δ ι κ ο) (d₀ : δ) : List (τ × ι × ο) → δ → Prop
  | nil : Serial P d₀ [] d₀
  | snoc {l : List (τ × ι × ο)} {d d' : δ} {t : τ} {i : ι} {o : ο} (h : Serial P d₀ l d)
      (ha : P.Answers i d o d') : Serial P d₀ (l ++ [(t, i, o)]) d'

/-- The call at any place of a history is answered on what the calls before it leave. -/
theorem Serial.answers_at {l l' : List (τ × ι × ο)} {t : τ} (h : P.Serial d₀ (l ++ (t, i, o) :: l') d) :
    ∃ d₁ d₂, P.Serial d₀ l d₁ ∧ P.Answers i d₁ o d₂ := by
  induction l' using List.reverseRecOn generalizing d with
  | nil =>
    generalize hl : l ++ [(t, i, o)] = l'' at h
    cases h with
    | nil => exact absurd hl (List.append_ne_nil_of_right_ne_nil _ (List.cons_ne_nil _ _))
    | snoc h ha =>
      obtain ⟨rfl, hlast⟩ := List.append_inj' hl rfl
      obtain ⟨rfl, rfl, rfl⟩ : _ ∧ _ ∧ _ := by simpa using hlast
      exact ⟨_, _, h, ha⟩
  | append_singleton l' e ih =>
    generalize hl : l ++ (t, i, o) :: (l' ++ [e]) = l'' at h
    cases h with
    | nil => exact absurd hl (List.append_ne_nil_of_right_ne_nil _ (List.cons_ne_nil _ _))
    | snoc h ha =>
      rw [← List.cons_append, ← List.append_assoc] at hl
      obtain ⟨rfl, -⟩ := List.append_inj' hl rfl
      exact ih h

/-- On data that meets `I` the operation computes `f` and keeps `I`. -/
def Computes (P : Program δ ι κ ο) (I : δ → Prop) (f : δ → ι → ο × δ) : Prop :=
  ∀ d i, I d → P.Answers i d (f d i).1 (f d i).2 ∧ I (f d i).2

/-- A history of calls gives the answers of the function that the operation computes. -/
theorem Serial.eq_answers {I : δ → Prop} {f : δ → ι → ο × δ} (hf : P.Computes I f) (h₀ : I d₀)
    {l : List (τ × ι × ο)} (h : P.Serial d₀ l d) :
    I d ∧ d = (l.map fun e => e.2.1).foldl (fun d i => (f d i).2) d₀ ∧
      l.map (fun e => e.2.2) = Machine.answers f d₀ (l.map fun e => e.2.1) := by
  induction h with
  | nil => exact ⟨h₀, rfl, rfl⟩
  | @snoc l d d' t i o _ ha ih =>
    obtain ⟨hd, heq, hans⟩ := ih
    obtain ⟨hcomp, hkeep⟩ := hf d i hd
    obtain ⟨ho, rfl⟩ := Prod.mk.inj (ha.unique hcomp)
    refine ⟨hkeep, ?_, ?_⟩
    · rw [List.map_append, List.foldl_append, ← heq]
      rfl
    · rw [List.map_append, List.map_append, Machine.answers_append, ← heq, hans, ho]
      rfl

end Program

/-- The shared data, the call inside the critical section with its locals, and the calls that have
been answered. -/
structure State (δ ι κ ο τ : Type*) where
  data : δ
  inside : Option (τ × ι × κ)
  history : List (τ × ι × ο)

inductive Move (τ ι : Type*)
  | enter (t : τ) (i : ι)
  | body

namespace State
variable {P : Program δ ι κ ο} {s : State δ ι κ ο τ} {d₀ d : δ}

def start (d₀ : δ) : State δ ι κ ο τ := ⟨d₀, none, []⟩

/-- Nobody enters while somebody is inside, and who is inside makes the next step. -/
def step (P : Program δ ι κ ο) (s : State δ ι κ ο τ) : Move τ ι → State δ ι κ ο τ
  | .enter t i =>
      match s.inside with
      | none => { s with inside := some (t, i, P.enter i) }
      | some _ => s
  | .body =>
      match s.inside with
      | none => s
      | some (t, i, l) =>
          match P.step l s.data with
          | (.inl l', d) => { s with data := d, inside := some (t, i, l') }
          | (.inr o, d) => ⟨d, none, s.history ++ [(t, i, o)]⟩

/-- The data is what the history leaves and the call inside has made of it. -/
def Partway (P : Program δ ι κ ο) (d data : δ) : Option (τ × ι × κ) → Prop
  | none => data = d
  | some (_, i, l) => ∃ n, P.exec n (P.enter i) d = (.inl l, data)

/-- The history leaves `d`, and the call inside is partway from there. -/
structure At (P : Program δ ι κ ο) (d₀ d : δ) (s : State δ ι κ ο τ) : Prop where
  serial : P.Serial d₀ s.history d
  partway : Partway P d s.data s.inside

theorem start_at (P : Program δ ι κ ο) (d₀ : δ) :
    At P d₀ d₀ (start d₀ : State δ ι κ ο τ) := ⟨.nil, rfl⟩

theorem enter_at (h : At P d₀ d s) (t : τ) (i : ι) : At P d₀ d (s.step P (.enter t i)) := by
  rw [step]
  cases hin : s.inside with
  | none =>
    have hpart := h.partway
    rw [hin] at hpart
    have hdata : s.data = d := hpart
    refine ⟨h.serial, 0, ?_⟩
    rw [Program.exec, hdata]
  | some c => exact h

/-- A step of the call inside goes on, or answers as the operation alone does. -/
theorem body_at (h : At P d₀ d s) {t : τ} {i : ι} {l : κ} (hin : s.inside = some (t, i, l)) :
    (∃ l' e, P.step l s.data = (.inl l', e) ∧ At P d₀ d (s.step P .body)) ∨
      ∃ o d', P.step l s.data = (.inr o, d') ∧ P.Answers i d o d' ∧
        At P d₀ d' (s.step P .body) := by
  have hpart := h.partway
  rw [hin] at hpart
  obtain ⟨n, hn⟩ := hpart
  have hsnoc := Program.exec_snoc hn
  simp only [step, hin]
  rcases hs : P.step l s.data with ⟨l' | o, d'⟩
  · exact .inl ⟨l', d', rfl, h.serial, n + 1, hsnoc.trans hs⟩
  · have hans : P.Answers i d o d' := ⟨n + 1, hsnoc.trans hs⟩
    exact .inr ⟨o, d', rfl, hans, h.serial.snoc hans, rfl⟩

theorem step_at (h : At P d₀ d s) (m : Move τ ι) : ∃ d', At P d₀ d' (s.step P m) := by
  cases m with
  | enter t i => exact ⟨d, enter_at h t i⟩
  | body =>
    rcases hin : s.inside with _ | ⟨t, i, l⟩
    · rw [step, hin]
      exact ⟨d, h⟩
    · rcases body_at h hin with ⟨-, -, -, h'⟩ | ⟨-, d', -, -, h'⟩
      · exact ⟨d, h'⟩
      · exact ⟨d', h'⟩

end State
end CriticalSection

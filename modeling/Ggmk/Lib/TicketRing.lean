import Mathlib

/-! A ring of cells that writers and readers take in turn by ticket. A writer's ticket is a
position of the ring; the stamp of a cell says whose turn it is: `p` for the writer of position
`p`, `p + 1` for its reader, and `p + cap` for the writer of the next round. -/

structure TicketRing where
  cap : ℕ
  /-- Tickets given to writers and to readers. -/
  writers : ℕ
  readers : ℕ
  stamp : ℕ → ℕ

namespace TicketRing
variable {r : TicketRing} {n p : ℕ}

theorem eq_of_mod_eq {a b c : ℕ} (h : a % c = b % c) (hle : b ≤ a) (hlt : a < b + c) : a = b := by
  have hdvd : c ∣ a - b := (Nat.modEq_iff_dvd' hle).mp h.symm
  have hzero := Nat.eq_zero_of_dvd_of_lt hdvd (by omega)
  omega

theorem succ_mod_ne {a c : ℕ} (hc : 2 ≤ c) : (a + 1) % c ≠ a % c := by
  intro h
  have := eq_of_mod_eq h (by omega) (by omega)
  omega

/-- What the cell of position `p` waits for: a ticket for its writer, its writer, a ticket for
its reader, or its reader. -/
inductive Cell (r : TicketRing) (p : ℕ) : Prop
  | free (hs : r.stamp (p % r.cap) = p) (hw : r.writers ≤ p) (hr : p < r.readers + r.cap)
  | writing (hs : r.stamp (p % r.cap) = p) (hr : r.readers ≤ p) (hw : p < r.writers)
  | full (hs : r.stamp (p % r.cap) = p + 1) (hr : r.readers ≤ p) (hw : p < r.writers)
  | reading (hs : r.stamp (p % r.cap) = p + 1) (hr : p < r.readers)
      (hw : r.writers ≤ p + r.cap)

structure Inv (r : TicketRing) : Prop where
  two_le : 2 ≤ r.cap
  le : r.readers ≤ r.writers
  room : r.writers ≤ r.readers + r.cap
  cell : ∀ j < r.cap, ∃ p, p % r.cap = j ∧ r.Cell p

def start (cap : ℕ) : TicketRing := ⟨cap, 0, 0, id⟩

theorem start_inv {cap : ℕ} (hcap : 2 ≤ cap) : (start cap).Inv := by
  refine ⟨hcap, le_rfl, Nat.zero_le _, ?_⟩
  intro j hj
  have hmod : j % cap = j := Nat.mod_eq_of_lt hj
  refine ⟨j, hmod, .free hmod (Nat.zero_le _) ?_⟩
  simpa [start] using hj

/-- The position a cell of the ring is at, found from any position of that cell. -/
theorem Inv.at (h : r.Inv) (n : ℕ) : ∃ p, p % r.cap = n % r.cap ∧ r.Cell p := by
  have := h.two_le
  exact h.cell _ (Nat.mod_lt _ (by omega))

/-- The stamps are at most one round away from the tickets. -/
theorem Inv.stamp_bounds (h : r.Inv) (n : ℕ) :
    r.writers ≤ r.stamp (n % r.cap) + r.cap ∧ r.stamp (n % r.cap) ≤ r.readers + r.cap := by
  obtain ⟨p, hp, hcell⟩ := h.at n
  have hle := h.le
  have hroom := h.room
  rw [← hp]
  cases hcell with
  | free hs hw hr => omega
  | writing hs hr hw => omega
  | full hs hr hw => omega
  | reading hs hr hw => omega

/-! ## Tickets and turns -/

def takeWriter (r : TicketRing) : TicketRing := { r with writers := r.writers + 1 }
def takeReader (r : TicketRing) : TicketRing := { r with readers := r.readers + 1 }

/-- The holder of position `n` passes the cell on. -/
def pass (r : TicketRing) (n v : ℕ) : TicketRing :=
  { r with stamp := Function.update r.stamp (n % r.cap) v }

/-- A cell whose stamp has come to the next ticket waits for its writer. -/
theorem Inv.stamp_writers (h : r.Inv) (hs : r.writers ≤ r.stamp (r.writers % r.cap)) :
    r.stamp (r.writers % r.cap) = r.writers ∧ r.writers < r.readers + r.cap := by
  obtain ⟨p, hp, hcell⟩ := h.at r.writers
  have hle := h.le
  rw [← hp] at hs ⊢
  cases hcell with
  | free hs' hw hr =>
    have heq : p = r.writers := eq_of_mod_eq hp hw (by omega)
    omega
  | writing hs' hr hw => omega
  | full hs' hr hw =>
    have heq : r.writers = p + 1 := by omega
    rw [heq] at hp
    exact absurd hp.symm (succ_mod_ne h.two_le)
  | reading hs' hr hw =>
    have heq : r.writers = p + 1 := by omega
    rw [heq] at hp
    exact absurd hp.symm (succ_mod_ne h.two_le)

/-- A cell whose stamp has passed the next ticket waits for its reader. -/
theorem Inv.stamp_readers (h : r.Inv) (hs : r.readers + 1 ≤ r.stamp (r.readers % r.cap)) :
    r.stamp (r.readers % r.cap) = r.readers + 1 ∧ r.readers < r.writers := by
  obtain ⟨p, hp, hcell⟩ := h.at r.readers
  have hle := h.le
  have hroom := h.room
  rw [← hp] at hs ⊢
  cases hcell with
  | free hs' hw hr =>
    have heq : p = r.readers := eq_of_mod_eq hp (by omega) hr
    omega
  | writing hs' hr hw =>
    have heq : p = r.readers := eq_of_mod_eq hp hr (by omega)
    omega
  | full hs' hr hw =>
    have heq : p = r.readers := eq_of_mod_eq hp hr (by omega)
    omega
  | reading hs' hr hw => omega

theorem Inv.takeWriter (h : r.Inv) (hs : r.stamp (r.writers % r.cap) = r.writers)
    (hlt : r.writers < r.readers + r.cap) : r.takeWriter.Inv := by
  have hle := h.le
  refine ⟨h.two_le, ?_, ?_, ?_⟩
  · simp only [TicketRing.takeWriter]
    omega
  · simp only [TicketRing.takeWriter]
    omega
  · intro j hj
    obtain ⟨p, hp, hcell⟩ := h.cell j hj
    by_cases hpt : p % r.cap = r.writers % r.cap
    · exact ⟨r.writers, hpt ▸ hp, .writing hs hle (Nat.lt_succ_self _)⟩
    · have hne : p ≠ r.writers := fun he => hpt (he ▸ rfl)
      have hne' : r.writers ≠ p + r.cap := fun he => hpt (by rw [he, Nat.add_mod_right])
      refine ⟨p, hp, ?_⟩
      cases hcell with
      | free hs' hw hr => exact .free hs' (show r.writers + 1 ≤ p by omega) hr
      | writing hs' hr hw => exact .writing hs' hr (show p < r.writers + 1 by omega)
      | full hs' hr hw => exact .full hs' hr (show p < r.writers + 1 by omega)
      | reading hs' hr hw => exact .reading hs' hr (show r.writers + 1 ≤ p + r.cap by omega)

theorem Inv.takeReader (h : r.Inv) (hs : r.stamp (r.readers % r.cap) = r.readers + 1)
    (hlt : r.readers < r.writers) : r.takeReader.Inv := by
  have hroom := h.room
  refine ⟨h.two_le, hlt, ?_, ?_⟩
  · simp only [TicketRing.takeReader]
    omega
  · intro j hj
    obtain ⟨p, hp, hcell⟩ := h.cell j hj
    by_cases hpt : p % r.cap = r.readers % r.cap
    · exact ⟨r.readers, hpt ▸ hp, .reading hs (Nat.lt_succ_self _) hroom⟩
    · have hne : p ≠ r.readers := fun he => hpt (he ▸ rfl)
      refine ⟨p, hp, ?_⟩
      cases hcell with
      | free hs' hw hr => exact .free hs' hw (show p < r.readers + 1 + r.cap by omega)
      | writing hs' hr hw => exact .writing hs' (show r.readers + 1 ≤ p by omega) hw
      | full hs' hr hw => exact .full hs' (show r.readers + 1 ≤ p by omega) hw
      | reading hs' hr hw => exact .reading hs' (show p < r.readers + 1 by omega) hw

/-- A cell that is passed on, with what holds of its new position. -/
theorem Inv.pass (h : r.Inv) {v : ℕ} (hcell : (r.pass n v).Cell p) (hp : p % r.cap = n % r.cap) :
    (r.pass n v).Inv := by
  refine ⟨h.two_le, h.le, h.room, ?_⟩
  intro j hj
  obtain ⟨q, hq, hold⟩ := h.cell j hj
  by_cases hqn : q % r.cap = n % r.cap
  · exact ⟨p, by rw [show (r.pass n v).cap = r.cap from rfl, hp, ← hqn, hq], hcell⟩
  · have hkeep : (r.pass n v).stamp (q % r.cap) = r.stamp (q % r.cap) :=
      Function.update_of_ne hqn _ _
    refine ⟨q, hq, ?_⟩
    cases hold with
    | free hs hw hr => exact .free (hkeep.trans hs) hw hr
    | writing hs hr hw => exact .writing (hkeep.trans hs) hr hw
    | full hs hr hw => exact .full (hkeep.trans hs) hr hw
    | reading hs hr hw => exact .reading (hkeep.trans hs) hr hw

@[simp] theorem pass_stamp_self (r : TicketRing) (n v : ℕ) :
    (r.pass n v).stamp (n % r.cap) = v := Function.update_self _ _ _

/-- The writer of a position that has been given out is before all readers of it. -/
theorem Inv.writer_turn (h : r.Inv) (hs : r.stamp (n % r.cap) = n) (hlt : n < r.writers) :
    r.readers ≤ n := by
  obtain ⟨p, hp, hcell⟩ := h.at n
  rw [← hp] at hs
  cases hcell with
  | free hs' hw hr => omega
  | writing hs' hr hw => omega
  | full hs' hr hw =>
    rw [← hs, hs'] at hp
    exact absurd hp.symm (succ_mod_ne h.two_le)
  | reading hs' hr hw =>
    rw [← hs, hs'] at hp
    exact absurd hp.symm (succ_mod_ne h.two_le)

/-- The reader of a position keeps the writers of the next round off the cell. -/
theorem Inv.reader_turn (h : r.Inv) (hs : r.stamp (n % r.cap) = n + 1) (hlt : n < r.readers) :
    r.writers ≤ n + r.cap := by
  obtain ⟨p, hp, hcell⟩ := h.at n
  rw [← hp] at hs
  cases hcell with
  | free hs' hw hr =>
    rw [show p = n + 1 by omega] at hp
    exact absurd hp (succ_mod_ne h.two_le)
  | writing hs' hr hw =>
    rw [show p = n + 1 by omega] at hp
    exact absurd hp (succ_mod_ne h.two_le)
  | full hs' hr hw => omega
  | reading hs' hr hw => omega

/-- The writer passes the cell to its reader. -/
theorem Inv.publish (h : r.Inv) (hs : r.stamp (n % r.cap) = n) (hlt : n < r.writers) :
    (r.pass n (n + 1)).Inv :=
  h.pass (.full (pass_stamp_self r n _) (h.writer_turn hs hlt) hlt) rfl

/-- The reader passes the cell to the writer of the next round. -/
theorem Inv.release (h : r.Inv) (hs : r.stamp (n % r.cap) = n + 1) (hlt : n < r.readers) :
    (r.pass n (n + r.cap)).Inv := by
  have hmod : (n + r.cap) % r.cap = n % r.cap := Nat.add_mod_right _ _
  refine h.pass (.free ?_ (h.reader_turn hs hlt) ?_) hmod
  · rw [show (r.pass n (n + r.cap)).cap = r.cap from rfl, hmod]
    exact pass_stamp_self r n _
  · simp only [TicketRing.pass]
    omega

/-- A position that has been given out and not passed to the next round is at its cell. -/
theorem Inv.current (h : r.Inv) (hlt : n < r.writers) (hs : r.stamp (n % r.cap) < n + r.cap) :
    r.stamp (n % r.cap) = n ∨ r.stamp (n % r.cap) = n + 1 := by
  obtain ⟨p, hp, hcell⟩ := h.at n
  have hroom := h.room
  rw [← hp] at hs ⊢
  -- the position of the cell is not a round before `n` and not a round after it
  have hpn (h1 : n < p + r.cap) (h2 : p < n + r.cap) : p = n := by
    rcases Nat.le_total n p with hle | hle
    · exact eq_of_mod_eq hp hle h2
    · exact (eq_of_mod_eq hp.symm hle h1).symm
  cases hcell with
  | free hs' hw hr => left; rw [hs', hpn (by omega) (by omega)]
  | writing hs' hr hw => left; rw [hs', hpn (by omega) (by omega)]
  | full hs' hr hw => right; rw [hs', hpn (by omega) (by omega)]
  | reading hs' hr hw => right; rw [hs', hpn (by omega) (by omega)]

end TicketRing

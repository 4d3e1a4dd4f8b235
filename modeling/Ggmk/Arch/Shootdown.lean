import Ggmk.Lib.Reach
import Ggmk.Lib.Word

/-! The TLB shootdown of `vmm.c`: one address word and one counter of acknowledgements, shared
by every CPU that runs `vmm_tlb_shootdown` and by the handlers of the interrupts it sends. -/
namespace Ggmk
open Word Guarded

/-- Where a CPU is in its call of `vmm_tlb_shootdown`, named by the step it has just taken. -/
inductive ShootdownPc where
  | idle
  | begun (v : UInt64)
  | addrStored (v : UInt64)
  | ackCleared (v : UInt64)
  | ipisSent (v : UInt64)
  | ackObserved (v : UInt64)
  | returned (v : UInt64)
  deriving DecidableEq

/-- The address of a call that has begun and not returned. -/
def ShootdownPc.active : ShootdownPc → Option UInt64
  | .begun v | .addrStored v | .ackCleared v | .ipisSent v | .ackObserved v => some v
  | .idle | .returned _ => none

/-- The call uses the shared words: it has stored its address and not cleared it. -/
def ShootdownPc.Open : ShootdownPc → Prop
  | .addrStored _ | .ackCleared _ | .ipisSent _ | .ackObserved _ => True
  | .idle | .begun _ | .returned _ => False

instance : (pc : ShootdownPc) → Decidable pc.Open
  | .addrStored _ | .ackCleared _ | .ipisSent _ | .ackObserved _ => .isTrue trivial
  | .idle | .begun _ | .returned _ => .isFalse id

/-- Where a CPU is in `vmm_tlb_shootdown_handler`. -/
inductive HandlerPc where
  | idle
  | addrLoaded (addr : UInt64)
  | invalidated
  deriving DecidableEq

/-- `since i` is the history of the CPUs that have invalidated the address of the call of CPU
`i` between its begin and its return. -/
structure Tlb (n : ℕ) where
  addr : UInt64
  ack : ℕ
  call : Fin n → ShootdownPc
  handler : Fin n → HandlerPc
  /-- Interrupts that were sent to a CPU and that it has not taken yet. -/
  pending : Fin n → ℕ
  since : Fin n → Finset (Fin n)

inductive TlbAct (n : ℕ) where
  | begin (i : Fin n) (v : UInt64)
  | storeAddr (i : Fin n)
  | storeAck (i : Fin n)
  | sendIpi (i : Fin n)
  | observeAck (i : Fin n)
  | clearAddr (i : Fin n)
  | loadAddr (c : Fin n)
  | invalidate (c : Fin n)
  | addAck (c : Fin n)

namespace Tlb
variable {n : ℕ}

def start : Tlb n := ⟨0, 0, fun _ => .idle, fun _ => .idle, fun _ => 0, fun _ => ∅⟩

def setCall (s : Tlb n) (i : Fin n) (pc : ShootdownPc) : Tlb n :=
  { s with call := Function.update s.call i pc }

/-- CPU `c` runs `paging_invlpg(a)`. -/
def invlpg (s : Tlb n) (c : Fin n) (a : UInt64) : Fin n → Finset (Fin n) := fun i =>
  if (s.call i).active = some a then insert c (s.since i) else s.since i

/-- The steps of the calls and of the handlers. A CPU goes on with its call when its handler
has returned; `total_cpus` is `n`, and a single CPU returns at once. -/
inductive Step : Tlb n → TlbAct n → Tlb n → Prop
  | begin {s : Tlb n} {i : Fin n} {v : UInt64} (hn : 1 < n) (hc : (s.call i).active = none)
      (hh : s.handler i = .idle) :
      Step s (.begin i v) { s.setCall i (.begun v) with since := Function.update s.since i ∅ }
  | storeAddr {s : Tlb n} {i : Fin n} {v : UInt64} (hc : s.call i = .begun v)
      (hh : s.handler i = .idle) :
      Step s (.storeAddr i) { s.setCall i (.addrStored v) with addr := v }
  | storeAck {s : Tlb n} {i : Fin n} {v : UInt64} (hc : s.call i = .addrStored v)
      (hh : s.handler i = .idle) :
      Step s (.storeAck i) { s.setCall i (.ackCleared v) with ack := 0 }
  | sendIpi {s : Tlb n} {i : Fin n} {v : UInt64} (hc : s.call i = .ackCleared v)
      (hh : s.handler i = .idle) :
      Step s (.sendIpi i) { s.setCall i (.ipisSent v) with
        pending := fun c => if c = i then s.pending c else s.pending c + 1 }
  | observeAck {s : Tlb n} {i : Fin n} {v : UInt64} (hc : s.call i = .ipisSent v)
      (hh : s.handler i = .idle) (hack : n - 1 ≤ s.ack) :
      Step s (.observeAck i) (s.setCall i (.ackObserved v))
  | clearAddr {s : Tlb n} {i : Fin n} {v : UInt64} (hc : s.call i = .ackObserved v)
      (hh : s.handler i = .idle) :
      Step s (.clearAddr i) { s.setCall i (.returned v) with addr := 0 }
  | loadAddr {s : Tlb n} {c : Fin n} (hp : 0 < s.pending c) (hh : s.handler c = .idle) :
      Step s (.loadAddr c) { s with
        pending := Function.update s.pending c (s.pending c - 1)
        handler := Function.update s.handler c (.addrLoaded s.addr) }
  | invalidate {s : Tlb n} {c : Fin n} {a : UInt64} (hh : s.handler c = .addrLoaded a) :
      Step s (.invalidate c) { s with
        handler := Function.update s.handler c .invalidated
        -- the zero address means that there is nothing to invalidate
        since := if a = 0 then s.since else s.invlpg c a }
  | addAck {s : Tlb n} {c : Fin n} (hh : s.handler c = .invalidated) :
      Step s (.addAck c) { s with
        handler := Function.update s.handler c .idle
        ack := u32 (s.ack + 1) }

/-- Every call that has returned left every other CPU with its address invalidated. -/
def Complete (s : Tlb n) : Prop :=
  ∀ i v, s.call i = .returned v → ∀ c, c ≠ i → c ∈ s.since i

/-- A call stores its address, which is not zero, while no other call uses the shared words. -/
def Alone (s : Tlb n) : TlbAct n → Prop
  | .storeAddr i => s.call i ≠ .begun 0 ∧ ∀ j, ¬ (s.call j).Open
  | _ => True

/-! ## The invariant -/

/-- No interrupt is on its way and no handler runs. -/
def Quiet (s : Tlb n) : Prop := ∀ c, s.pending c = 0 ∧ s.handler c = .idle

/-- The CPUs that have handled the interrupt of the call of CPU `i`. -/
def acked (s : Tlb n) (i : Fin n) : Finset (Fin n) :=
  Finset.univ.filter fun c => c ≠ i ∧ s.pending c = 0 ∧ s.handler c = .idle

/-- Every other CPU has one interrupt to handle, handles it, or has acknowledged it. -/
structure Collecting (s : Tlb n) (i : Fin n) (v : UInt64) : Prop where
  self : s.pending i = 0 ∧ s.handler i = .idle
  others : ∀ c, c ≠ i → (s.pending c = 1 ∧ s.handler c = .idle) ∨
    (s.pending c = 0 ∧ (s.handler c = .addrLoaded v ∨
      ((s.handler c = .invalidated ∨ s.handler c = .idle) ∧ c ∈ s.since i)))
  ack_eq : s.ack = (s.acked i).card

/-- What holds while CPU `i` is at a point of its call. -/
def Phase (s : Tlb n) (i : Fin n) : ShootdownPc → Prop
  | .idle | .begun _ => True
  | .addrStored v => v ≠ 0 ∧ s.addr = v ∧ s.Quiet
  | .ackCleared v => v ≠ 0 ∧ s.addr = v ∧ s.Quiet ∧ s.ack = 0
  | .ipisSent v => v ≠ 0 ∧ s.addr = v ∧ s.Collecting i v
  | .ackObserved _ => s.Quiet ∧ ∀ c, c ≠ i → c ∈ s.since i
  | .returned _ => ∀ c, c ≠ i → c ∈ s.since i

structure Inv (s : Tlb n) : Prop where
  phase : ∀ i, s.Phase i (s.call i)
  one : ∀ i j, (s.call i).Open → (s.call j).Open → i = j
  closed : (∀ j, ¬ (s.call j).Open) → s.Quiet

section Steps
variable {s s' : Tlb n} {i : Fin n} {v : UInt64}

/-- A call that does not use the shared words only depends on its own history. -/
theorem Phase.mono {pc : ShootdownPc} (h : s.Phase i pc) (hpc : ¬ pc.Open)
    (hsince : s.since i ⊆ s'.since i) : s'.Phase i pc := by
  cases pc with
  | idle => trivial
  | begun v => trivial
  | returned v => exact fun c hc => hsince (h c hc)
  | _ => exact absurd trivial hpc

/-- A step of the call of CPU `i` while no other call is open. -/
theorem Inv.of_call (h : s.Inv) (hother : ∀ j, j ≠ i → ¬ (s.call j).Open) {pc : ShootdownPc}
    (hcall : s'.call = Function.update s.call i pc) (hsince : s'.since = s.since)
    (hphase : s'.Phase i pc) (hquiet : ¬ pc.Open → s'.Quiet) : s'.Inv := by
  have hself : s'.call i = pc := by rw [hcall, Function.update_self]
  have hne : ∀ j, j ≠ i → s'.call j = s.call j := by
    intro j hj
    rw [hcall, Function.update_of_ne hj]
  have honly : ∀ j, (s'.call j).Open → j = i := by
    intro j hopen
    by_contra hj
    rw [hne j hj] at hopen
    exact hother j hj hopen
  refine ⟨?_, ?_, ?_⟩
  · intro j
    by_cases hj : j = i
    · rw [hj, hself]
      exact hphase
    · rw [hne j hj]
      exact (h.phase j).mono (hother j hj) (hsince ▸ subset_rfl)
  · intro j k hopen hopen'
    rw [honly j hopen, honly k hopen']
  · intro hall
    exact hquiet (hself ▸ hall i)

/-- A step of a handler, all of which belong to the one open call. -/
theorem Inv.of_handler (h : s.Inv) (hc : s.call i = .ipisSent v) (hcall : s'.call = s.call)
    (haddr : s'.addr = s.addr) (hsince : ∀ j, s.since j ⊆ s'.since j)
    (hcol : s'.Collecting i v) : s'.Inv := by
  have hopen : (s.call i).Open := hc ▸ trivial
  have hphase := h.phase i
  rw [hc] at hphase
  refine ⟨?_, ?_, ?_⟩
  · intro j
    rw [hcall]
    by_cases hj : j = i
    · rw [hj, hc]
      exact ⟨hphase.1, haddr ▸ hphase.2.1, hcol⟩
    · refine (h.phase j).mono ?_ (hsince j)
      intro hopen'
      exact hj (h.one j i hopen' hopen)
  · rw [hcall]
    exact h.one
  · intro hall
    rw [hcall] at hall
    exact absurd hopen (hall i)

/-- An interrupt or a handler belongs to a call that waits for it. -/
theorem Inv.collecting (h : s.Inv) (hbusy : ¬ s.Quiet) :
    ∃ i v, s.call i = .ipisSent v ∧ v ≠ 0 ∧ s.addr = v ∧ s.Collecting i v := by
  have hopen : ∃ i, (s.call i).Open := by
    by_contra hall
    exact hbusy (h.closed (not_exists.mp hall))
  obtain ⟨i, hi⟩ := hopen
  have hphase := h.phase i
  cases hc : s.call i with
  | ipisSent v =>
    rw [hc] at hphase
    exact ⟨i, v, hc, hphase⟩
  | addrStored v => rw [hc] at hphase; exact absurd hphase.2.2 hbusy
  | ackCleared v => rw [hc] at hphase; exact absurd hphase.2.2.1 hbusy
  | ackObserved v => rw [hc] at hphase; exact absurd hphase.1 hbusy
  | _ => rw [hc] at hi; exact hi.elim

theorem Inv.others_closed (h : s.Inv) (hi : (s.call i).Open) :
    ∀ j, j ≠ i → ¬ (s.call j).Open := fun j hj hopen => hj (h.one j i hopen hi)

/-- The number of acknowledgements tells that all other CPUs are done. -/
theorem Collecting.all_done (h : s.Collecting i v) (hack : n - 1 ≤ s.ack) :
    s.Quiet ∧ ∀ c, c ≠ i → c ∈ s.since i := by
  have hsub : s.acked i ⊆ Finset.univ.erase i := by
    intro c hc
    exact Finset.mem_erase.mpr ⟨(Finset.mem_filter.mp hc).2.1, Finset.mem_univ c⟩
  have hcard : (Finset.univ.erase i).card = n - 1 := by
    rw [Finset.card_erase_of_mem (Finset.mem_univ i), Finset.card_univ, Fintype.card_fin]
  have heq : s.acked i = Finset.univ.erase i := by
    apply Finset.eq_of_subset_of_card_le hsub
    rw [hcard, ← h.ack_eq]
    exact hack
  have hdone : ∀ c, c ≠ i → s.pending c = 0 ∧ s.handler c = .idle := by
    intro c hc
    have hmem : c ∈ s.acked i := heq ▸ Finset.mem_erase.mpr ⟨hc, Finset.mem_univ c⟩
    exact (Finset.mem_filter.mp hmem).2.2
  constructor
  · intro c
    by_cases hc : c = i
    · rw [hc]
      exact h.self
    · exact hdone c hc
  · intro c hc
    obtain ⟨hp, hh⟩ := hdone c hc
    rcases h.others c hc with ⟨hp', -⟩ | ⟨-, hh' | ⟨-, hmem⟩⟩
    · omega
    · rw [hh] at hh'
      exact absurd hh' (by simp)
    · exact hmem

/-- A call that begins changes nothing for the others. -/
theorem Inv.begin (h : s.Inv) (hc : (s.call i).active = none) :
    Inv { s.setCall i (.begun v) with since := Function.update s.since i ∅ } := by
  have hopen : ∀ j, (Function.update s.call i (.begun v) j).Open ↔ (s.call j).Open := by
    intro j
    by_cases hj : j = i
    · subst hj
      rw [Function.update_self]
      refine ⟨False.elim, ?_⟩
      intro ho
      cases hpc : s.call j <;> simp_all [ShootdownPc.active, ShootdownPc.Open]
    · rw [Function.update_of_ne hj]
  refine ⟨?_, ?_, ?_⟩
  · intro j
    simp only [setCall]
    by_cases hj : j = i
    · subst hj
      rw [Function.update_self]
      trivial
    · rw [Function.update_of_ne hj]
      have hphase := h.phase j
      have hsince : Function.update s.since i ∅ j = s.since j := Function.update_of_ne hj _ _
      cases hpc : s.call j with
      | idle => trivial
      | begun w => trivial
      | ipisSent w =>
        rw [hpc] at hphase
        obtain ⟨hw, haddr, hcol⟩ := hphase
        exact ⟨hw, haddr, hcol.self, by simp only [hsince]; exact hcol.others, hcol.ack_eq⟩
      | addrStored w => rw [hpc] at hphase; exact hphase
      | ackCleared w => rw [hpc] at hphase; exact hphase
      | ackObserved w =>
        rw [hpc] at hphase
        exact ⟨hphase.1, by simp only [hsince]; exact hphase.2⟩
      | returned w =>
        rw [hpc] at hphase
        simp only [Phase, hsince]
        exact hphase
  · intro j k hj hk
    exact h.one j k ((hopen j).mp hj) ((hopen k).mp hk)
  · intro hall
    exact h.closed fun j hj => hall j ((hopen j).mpr hj)

theorem Inv.storeAddr (h : s.Inv) (hc : s.call i = .begun v) (hg : s.Alone (.storeAddr i)) :
    Inv { s.setCall i (.addrStored v) with addr := v } := by
  have hv : v ≠ 0 := by
    intro hv
    exact hg.1 (hv ▸ hc)
  refine h.of_call (fun j _ => hg.2 j) rfl rfl ⟨hv, rfl, h.closed hg.2⟩ ?_
  intro hopen
  exact absurd trivial hopen

theorem Inv.storeAck (h : s.Inv) (hc : s.call i = .addrStored v) :
    Inv { s.setCall i (.ackCleared v) with ack := 0 } := by
  have hphase := h.phase i
  rw [hc] at hphase
  obtain ⟨hv, haddr, hquiet⟩ := hphase
  refine h.of_call (h.others_closed (hc ▸ trivial)) rfl rfl ⟨hv, haddr, hquiet, rfl⟩ ?_
  intro hopen
  exact absurd trivial hopen

theorem Inv.sendIpi (h : s.Inv) (hc : s.call i = .ackCleared v) :
    Inv { s.setCall i (.ipisSent v) with
      pending := fun c => if c = i then s.pending c else s.pending c + 1 } := by
  have hphase := h.phase i
  rw [hc] at hphase
  obtain ⟨hv, haddr, hquiet, hack⟩ := hphase
  refine h.of_call (h.others_closed (hc ▸ trivial)) rfl rfl ⟨hv, haddr, ?_, ?_, ?_⟩ ?_
  · simp [setCall, hquiet i]
  · intro c hne
    exact .inl (by simp [setCall, hne, hquiet c])
  · simp only [setCall, hack, acked]
    apply Eq.symm
    rw [Finset.card_eq_zero, Finset.filter_eq_empty_iff]
    rintro c - ⟨hne, hp, -⟩
    simp [hne] at hp
  · intro hopen
    exact absurd trivial hopen

theorem Inv.observeAck (h : s.Inv) (hc : s.call i = .ipisSent v) (hack : n - 1 ≤ s.ack) :
    Inv (s.setCall i (.ackObserved v)) := by
  have hphase := h.phase i
  rw [hc] at hphase
  refine h.of_call (h.others_closed (hc ▸ trivial)) rfl rfl (hphase.2.2.all_done hack) ?_
  intro hopen
  exact absurd trivial hopen

theorem Inv.clearAddr (h : s.Inv) (hc : s.call i = .ackObserved v) :
    Inv { s.setCall i (.returned v) with addr := 0 } := by
  have hphase := h.phase i
  rw [hc] at hphase
  exact h.of_call (h.others_closed (hc ▸ trivial)) rfl rfl hphase.2 fun _ => hphase.1

/-! Another CPU `c` moves while CPU `i` collects. -/

theorem Collecting.ne_of_handler {c : Fin n} (h : s.Collecting i v) (hh : s.handler c ≠ .idle) :
    c ≠ i := by
  rintro rfl
  exact hh h.self.2

theorem acked_of_busy {c : Fin n}
    (hrest : ∀ d, d ≠ c → s'.pending d = s.pending d ∧ s'.handler d = s.handler d)
    (hbusy : ¬ (s.pending c = 0 ∧ s.handler c = .idle))
    (hbusy' : ¬ (s'.pending c = 0 ∧ s'.handler c = .idle)) : s'.acked i = s.acked i := by
  apply Finset.filter_congr
  intro d _
  by_cases hdc : d = c
  · subst hdc
    simp only [hbusy, hbusy', and_false]
  · rw [(hrest d hdc).1, (hrest d hdc).2]

theorem Collecting.move {c : Fin n} (h : s.Collecting i v) (hci : c ≠ i)
    (hrest : ∀ d, d ≠ c → s'.pending d = s.pending d ∧ s'.handler d = s.handler d)
    (hsince : s.since i ⊆ s'.since i)
    (hc : s'.pending c = 0 ∧ (s'.handler c = .addrLoaded v ∨
      ((s'.handler c = .invalidated ∨ s'.handler c = .idle) ∧ c ∈ s'.since i)))
    (hack : s'.ack = (s'.acked i).card) : s'.Collecting i v := by
  refine ⟨?_, ?_, hack⟩
  · rw [(hrest i hci.symm).1, (hrest i hci.symm).2]
    exact h.self
  · intro d hd
    by_cases hdc : d = c
    · subst hdc
      exact .inr hc
    · rw [(hrest d hdc).1, (hrest d hdc).2]
      rcases h.others d hd with hp | ⟨hp, hl | ⟨hh, hm⟩⟩
      · exact .inl hp
      · exact .inr ⟨hp, .inl hl⟩
      · exact .inr ⟨hp, .inr ⟨hh, hsince hm⟩⟩

theorem Inv.loadAddr (h : s.Inv) {c : Fin n} (hp : 0 < s.pending c) : Inv { s with
      pending := Function.update s.pending c (s.pending c - 1)
      handler := Function.update s.handler c (.addrLoaded s.addr) } := by
  obtain ⟨i, v, hc, hv, haddr, hcol⟩ := h.collecting fun hq => by have := (hq c).1; omega
  have hci : c ≠ i := by
    rintro rfl
    have := hcol.self.1
    omega
  have hone : s.pending c = 1 := by
    rcases hcol.others c hci with ⟨h1, -⟩ | ⟨h0, -⟩ <;> omega
  have hrest (d : Fin n) (hd : d ≠ c) :
      Function.update s.pending c (s.pending c - 1) d = s.pending d ∧
        Function.update s.handler c (.addrLoaded s.addr) d = s.handler d :=
    ⟨Function.update_of_ne hd _ _, Function.update_of_ne hd _ _⟩
  refine h.of_handler hc rfl rfl (fun _ => subset_rfl) (hcol.move hci hrest subset_rfl ?_ ?_)
  · simp [hone, haddr]
  · rw [acked_of_busy hrest (by simp [hone]) (by simp)]
    exact hcol.ack_eq

theorem Inv.invalidate (h : s.Inv) {c : Fin n} {a : UInt64} (hh : s.handler c = .addrLoaded a) :
    Inv { s with
      handler := Function.update s.handler c .invalidated
      since := if a = 0 then s.since else s.invlpg c a } := by
  obtain ⟨i, v, hc, hv, haddr, hcol⟩ := h.collecting fun hq => by simp [(hq c).2] at hh
  have hci := hcol.ne_of_handler (c := c) (by simp [hh])
  obtain ⟨hp, rfl⟩ : s.pending c = 0 ∧ a = v := by
    rcases hcol.others c hci with ⟨-, h1⟩ | ⟨h0, h1 | ⟨h1 | h1, -⟩⟩ <;> rw [hh] at h1 <;> simp_all
  have hsub : ∀ j, s.since j ⊆ s.invlpg c a j := by
    intro j
    unfold invlpg
    split
    · exact Finset.subset_insert _ _
    · exact subset_rfl
  have hmem : c ∈ s.invlpg c a i := by simp [invlpg, hc, ShootdownPc.active]
  simp only [if_neg hv]
  have hrest (d : Fin n) (hd : d ≠ c) : s.pending d = s.pending d ∧
      Function.update s.handler c .invalidated d = s.handler d :=
    ⟨rfl, Function.update_of_ne hd _ _⟩
  refine h.of_handler hc rfl rfl hsub (hcol.move hci hrest (hsub i) ?_ ?_)
  · simp [hp, hmem]
  · rw [acked_of_busy hrest (by simp [hh]) (by simp)]
    exact hcol.ack_eq

theorem Inv.addAck (h : s.Inv) (hn : n < 2 ^ 32) {c : Fin n} (hh : s.handler c = .invalidated) :
    Inv { s with
      handler := Function.update s.handler c .idle
      ack := u32 (s.ack + 1) } := by
  obtain ⟨i, v, hc, hv, haddr, hcol⟩ := h.collecting fun hq => by simp [(hq c).2] at hh
  have hci := hcol.ne_of_handler (c := c) (by simp [hh])
  obtain ⟨hp, hmem⟩ : s.pending c = 0 ∧ c ∈ s.since i := by
    rcases hcol.others c hci with ⟨-, h1⟩ | ⟨h0, h1 | ⟨-, h2⟩⟩
    · simp [hh] at h1
    · simp [hh] at h1
    · exact ⟨h0, h2⟩
  -- the set of acknowledgements gains this CPU
  have hset : Finset.univ.filter (fun d => d ≠ i ∧ s.pending d = 0 ∧
      Function.update s.handler c .idle d = .idle) = insert c (s.acked i) := by
    ext d
    by_cases hdc : d = c
    · subst hdc
      simp [hci, hp]
    · simp [acked, hdc]
  have hnot : c ∉ s.acked i := by simp [acked, hh]
  have hcard : (insert c (s.acked i)).card = s.ack + 1 := by
    rw [Finset.card_insert_of_notMem hnot, hcol.ack_eq]
  have hle : s.ack + 1 ≤ n := by
    rw [← hcard]
    exact (Finset.card_le_univ _).trans (Fintype.card_fin n).le
  have hrest (d : Fin n) (hd : d ≠ c) : s.pending d = s.pending d ∧
      Function.update s.handler c .idle d = s.handler d :=
    ⟨rfl, Function.update_of_ne hd _ _⟩
  refine h.of_handler hc rfl rfl (fun _ => subset_rfl) (hcol.move hci hrest subset_rfl ?_ ?_)
  · simp [hp, hmem]
  · simp only [acked]
    rw [hset, hcard, u32_of_lt (by omega)]

theorem Inv.step (h : s.Inv) (hn : n < 2 ^ 32) {act : TlbAct n} (hg : s.Alone act)
    (hstep : Step s act s') : s'.Inv := by
  cases hstep with
  | begin hn hc hh => exact h.begin hc
  | storeAddr hc hh => exact h.storeAddr hc hg
  | storeAck hc hh => exact h.storeAck hc
  | sendIpi hc hh => exact h.sendIpi hc
  | observeAck hc hh hack => exact h.observeAck hc hack
  | clearAddr hc hh => exact h.clearAddr hc
  | loadAddr hp hh => exact h.loadAddr hp
  | invalidate hh => exact h.invalidate hh
  | addAck hh => exact h.addAck hn hh

end Steps

theorem start_inv : (start : Tlb n).Inv :=
  ⟨fun _ => trivial, fun _ _ h => h.elim, fun _ _ => ⟨rfl, rfl⟩⟩

/-- In every interleaving in which the calls use the shared words one after the other, with
addresses other than zero, a call returns when every other CPU has invalidated its address. -/
theorem shootdown_complete (hn : n < 2 ^ 32) {s : Tlb n} (hrun : Reach Step Alone start s) :
    s.Complete := by
  have hinv : s.Inv := hrun.inv start_inv fun s _ s' h hg hs => h.step hn hg hs
  intro i v hc
  have hphase := hinv.phase i
  rw [hc] at hphase
  exact hphase

/-- One call among two CPUs. -/
theorem shootdown_complete_two : ∃ s : Tlb 2, Reach Step Alone start s ∧
    s.call 0 = .returned 0x1000 ∧ s.Complete := by
  have h1 : Reach Step Alone (start : Tlb 2) _ :=
    .next (.begin 0 0x1000) .start trivial (.begin (by decide) (by decide) (by decide))
  have h2 := h1.next (TlbAct.storeAddr 0) ⟨by decide, by decide⟩ (.storeAddr rfl (by decide))
  have h3 := h2.next (TlbAct.storeAck 0) trivial (.storeAck rfl (by decide))
  have h4 := h3.next (TlbAct.sendIpi 0) trivial (.sendIpi rfl (by decide))
  have h5 := h4.next (TlbAct.loadAddr 1) trivial (.loadAddr (by decide) (by decide))
  have h6 := h5.next (TlbAct.invalidate 1) trivial (.invalidate rfl)
  have h7 := h6.next (TlbAct.addAck 1) trivial (.addAck rfl)
  have h8 := h7.next (TlbAct.observeAck 0) trivial (.observeAck rfl (by decide) (by decide))
  have h9 := h8.next (TlbAct.clearAddr 0) trivial (.clearAddr rfl (by decide))
  exact ⟨_, h9, rfl, shootdown_complete (by decide) h9⟩

/-- A second CPU overwrites the address before it takes the interrupt of the first call: it
invalidates its own address and acknowledges the other one. -/
theorem shootdown_incomplete : ∃ s : Tlb 2, Reach Step (fun _ _ => True) start s ∧
    ¬ s.Complete := by
  have h1 : Reach Step (fun _ _ => True) (start : Tlb 2) _ :=
    .next (.begin 0 0x1000) .start trivial (.begin (by decide) (by decide) (by decide))
  have h2 := h1.next (TlbAct.storeAddr 0) trivial (.storeAddr rfl (by decide))
  have h3 := h2.next (TlbAct.storeAck 0) trivial (.storeAck rfl (by decide))
  have h4 := h3.next (TlbAct.sendIpi 0) trivial (.sendIpi rfl (by decide))
  have h5 := h4.next (TlbAct.begin 1 0x2000) trivial (.begin (by decide) (by decide) (by decide))
  have h6 := h5.next (TlbAct.storeAddr 1) trivial (.storeAddr rfl (by decide))
  have h7 := h6.next (TlbAct.loadAddr 1) trivial (.loadAddr (by decide) (by decide))
  have h8 := h7.next (TlbAct.invalidate 1) trivial (.invalidate rfl)
  have h9 := h8.next (TlbAct.addAck 1) trivial (.addAck rfl)
  have h10 := h9.next (TlbAct.observeAck 0) trivial (.observeAck rfl (by decide) (by decide))
  have h11 := h10.next (TlbAct.clearAddr 0) trivial (.clearAddr rfl (by decide))
  refine ⟨_, h11, ?_⟩
  intro hcomplete
  exact absurd (hcomplete 0 0x1000 rfl 1 (by decide)) (by decide)

end Tlb
end Ggmk

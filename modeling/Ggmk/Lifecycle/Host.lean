import Ggmk.Lib.Ledger
import Ggmk.Alloc.Unified
import Ggmk.Types

/-! The buffers that the init functions obtain from the host and their destroy functions give
back: arena, trace rings, queues and channel rings. -/
namespace Ggmk.Lifecycle
open Word Ledger

/-- Memory from `gmk_hal_page_alloc`, which is freed with its size, or from
`gmk_hal_calloc`. -/
inductive BufferKind where
  | pages (size : ℕ)
  | calloc
  deriving DecidableEq

structure Buffer where
  ptr : ℕ
  kind : BufferKind
  deriving DecidableEq

/-- The host: `answers` tells which of its calls succeed. Every buffer gets a pointer of its
own, so that the history can tell it from the buffers before it. -/
structure World where
  answers : ℕ → Bool
  calls : ℕ
  log : List (Entry Buffer)

/-! ## The host's functions -/

def halObtain (w : World) (kind : BufferKind) : Option ℕ × World :=
  if w.answers w.calls then
    (some (w.calls + 1), { w with
      calls := w.calls + 1
      log := w.log ++ [.acquire ⟨w.calls + 1, kind⟩] })
  else (none, { w with calls := w.calls + 1 })

def gmkHalPageAlloc (w : World) (size : ℕ) : Option ℕ × World := halObtain w (.pages size)

def gmkHalPageFree (w : World) (ptr size : ℕ) : World :=
  { w with log := w.log ++ [.release ⟨ptr, .pages size⟩] }

def gmkHalCalloc (w : World) : Option ℕ × World := halObtain w .calloc

def gmkHalFree (w : World) (ptr : ℕ) : World :=
  { w with log := w.log ++ [.release ⟨ptr, .calloc⟩] }

def gmkHalThreadCreate (w : World) : Bool × World :=
  (w.answers w.calls, { w with calls := w.calls + 1 })

/-! ## Rings -/

def gmkIsPowerOfTwo (x : ℕ) : Bool := x != 0 && x &&& (x - 1) == 0

/-- The 32-bit capacities that a ring accepts. -/
theorem pow_of_isPowerOfTwo {x : ℕ} (hx : x < 2 ^ 32) (h : gmkIsPowerOfTwo x = true) :
    ∃ k ≤ 31, x = 2 ^ k := by
  simp only [gmkIsPowerOfTwo, Bool.and_eq_true, bne_iff_ne, beq_iff_eq] at h
  obtain ⟨k, rfl⟩ := Nat.ne_zero_and_sub_one_eq_zero_iff_isPowerOfTwo.mp h
  have hlt := (Nat.pow_lt_pow_iff_right (by norm_num)).mp hx
  exact ⟨k, by omega, rfl⟩

/-- The memory of a ring; `stride` is the size of a cell, or of an element. -/
structure RingMem where
  buf : Option ℕ
  cap : ℕ
  stride : ℕ

/-- Zeroed memory. -/
def RingMem.zero : RingMem := ⟨none, 0, 0⟩

def cellStride (elemSize : ℕ) : ℕ := alignUp8 (u32 (4 + elemSize))

/-- Both kinds of ring; a ring that is refused keeps the memory it had. -/
def ringInit (w : World) (r : RingMem) (cap stride elemSize : ℕ) : Bool × RingMem × World :=
  if !gmkIsPowerOfTwo cap || elemSize == 0 then (false, r, w)
  else
    match gmkHalPageAlloc w (cap * stride) with
    | (some p, w) => (true, ⟨some p, cap, stride⟩, w)
    | (none, w) => (false, ⟨none, cap, stride⟩, w)

def gmkRingMpmcInit (w : World) (r : RingMem) (cap elemSize : ℕ) : Bool × RingMem × World :=
  ringInit w r cap (cellStride elemSize) elemSize

def gmkRingSpscInit (w : World) (r : RingMem) (cap elemSize : ℕ) : Bool × RingMem × World :=
  ringInit w r cap elemSize elemSize

def gmkRingDestroy (w : World) (r : RingMem) : World :=
  match r.buf with
  | some p => gmkHalPageFree w p (r.cap * r.stride)
  | none => w

def destroyRings (w : World) (rs : List RingMem) : World := rs.foldl gmkRingDestroy w

/-- The loops that init `n` rings of zeroed memory, `rs` being those before; when one is
refused, those before it are destroyed. -/
def initRings (init : World → Bool × RingMem × World) :
    ℕ → List RingMem → World → Option (List RingMem) × World
  | 0, rs, w => (some rs, w)
  | n + 1, rs, w =>
      match init w with
      | (true, r, w) => initRings init n (rs ++ [r]) w
      | (false, _, w) => (none, destroyRings w rs)

/-! ## Arena and trace -/

/-- The arena, once its parts have been laid out. -/
structure ArenaMem where
  base : ℕ
  size : ℕ

def gmkArenaDestroy (w : World) (a : ArenaMem) : World := gmkHalPageFree w a.base a.size

def gmkAllocInit (w : World) (arenaSize : ℕ) : Option ArenaMem × World :=
  if arenaSize < 4096 then (none, w)
  else
    match gmkHalPageAlloc w arenaSize with
    | (none, w) => (none, w)
    | (some base, w) =>
        if (Ggmk.gmkAllocInit base arenaSize).isSome then (some ⟨base, arenaSize⟩, w)
        else (none, gmkArenaDestroy w ⟨base, arenaSize⟩)

def gmkAllocDestroy (w : World) (a : ArenaMem) : World := gmkArenaDestroy w a

def gmkTraceRingCap : ℕ := 4096

def gmkTraceInit (w : World) (nTenants : ℕ) : Option (List RingMem) × World :=
  if nTenants = 0 ∨ gmkMaxTenants < nTenants then (none, w)
  else initRings (fun w => gmkRingSpscInit w .zero gmkTraceRingCap sizeofTraceEv) nTenants [] w

def gmkTraceDestroy (w : World) (rings : List RingMem) : World := destroyRings w rings

/-! ## Scheduler -/

structure SchedMem where
  rq : List RingMem
  lqs : ℕ
  lqRings : List RingMem
  evqHeap : ℕ
  overflow : RingMem

def gmkRqInit (w : World) (cap : ℕ) : Option (List RingMem) × World :=
  initRings (fun w => gmkRingMpmcInit w .zero cap sizeofTask) gmkPriorityCount [] w

def gmkEvqInit (w : World) : Option ℕ × World := gmkHalCalloc w

def gmkEvqDestroy (w : World) (heap : ℕ) : World := gmkHalFree w heap

/-- The exits of `gmk_sched_init` after the local queues. -/
def undoLqs (w : World) (rq : List RingMem) (lqs : ℕ) (lqRings : List RingMem) : World :=
  destroyRings (gmkHalFree (destroyRings w lqRings) lqs) rq

def gmkSchedInit (w : World) (nWorkers : ℕ) : Option SchedMem × World :=
  if nWorkers = 0 ∨ gmkMaxWorkers < nWorkers then (none, w)
  else
    match gmkRqInit w gmkRqDefaultCap with
    | (none, w) => (none, w)
    | (some rq, w) =>
        match gmkHalCalloc w with
        | (none, w) => (none, destroyRings w rq)
        | (some lqs, w) =>
            match initRings (fun w => gmkRingSpscInit w .zero gmkLqDefaultCap sizeofTask)
              nWorkers [] w with
            | (none, w) => (none, destroyRings (gmkHalFree w lqs) rq)
            | (some lqRings, w) =>
                match gmkEvqInit w with
                | (none, w) => (none, undoLqs w rq lqs lqRings)
                | (some heap, w) =>
                    match gmkRingMpmcInit w .zero gmkOverflowCap sizeofTask with
                    | (true, overflow, w) => (some ⟨rq, lqs, lqRings, heap, overflow⟩, w)
                    | (false, _, w) => (none, undoLqs (gmkEvqDestroy w heap) rq lqs lqRings)

def gmkSchedDestroy (w : World) (s : SchedMem) : World :=
  let w := destroyRings w s.rq
  let w := destroyRings w s.lqRings
  let w := gmkHalFree w s.lqs
  let w := gmkEvqDestroy w s.evqHeap
  gmkRingDestroy w s.overflow

/-! ## Channels -/

/-- What `gmk_chan_reg_destroy` and the search for a name read of a channel. -/
structure ChanMem where
  name : List UInt8
  isOpen : Bool
  ringCap : ℕ
  ring : RingMem

structure ChanRegMem where
  channels : ℕ → ChanMem
  nChannels : ℕ

def gmkMaxChanName : ℕ := 64

def ascii (s : String) : List UInt8 := s.toList.map fun c => c.toNat.toUInt8

def sysDirect : List UInt8 := ascii "sys.direct"
def sysDropped : List UInt8 := ascii "sys.dropped"

/-- The two reserved channels; only the dead-letter channel has a ring. -/
def sysChannels (ring : RingMem) : ChanRegMem where
  channels i :=
    if i = 0 then ⟨sysDirect, false, 0, .zero⟩
    else if i = gmkChanSysDropped then ⟨sysDropped, true, gmkChanDefaultSlots, ring⟩
    else ⟨[], false, 0, .zero⟩
  nChannels := 2

def gmkChanRegInit (w : World) : Option ChanRegMem × World :=
  match gmkRingMpmcInit w .zero gmkChanDefaultSlots sizeofTask with
  | (true, ring, w) => (some (sysChannels ring), w)
  | (false, _, w) => (none, w)

def gmkChanRegDestroy (w : World) (cr : ChanRegMem) : World :=
  (List.range cr.nChannels).foldl (fun w i =>
    if (cr.channels i).isOpen || decide (0 < (cr.channels i).ringCap) then
      gmkRingDestroy w (cr.channels i).ring
    else w) w

/-- The result is an error code or the new channel. The entry is written before its ring is
obtained, and counts only afterwards. -/
def gmkChanOpen (w : World) (cr : ChanRegMem) (name : List UInt8) (slots : ℕ) :
    ℤ × ChanRegMem × World :=
  if gmkMaxChannels ≤ cr.nChannels then (gmkFail gmkErrFull, cr, w)
  else if (List.range cr.nChannels).any (fun i => (cr.channels i).isOpen &&
      (cr.channels i).name.take gmkMaxChanName == name.take gmkMaxChanName) then
    (gmkFail gmkErrExists, cr, w)
  else
    let slots := if slots = 0 then gmkChanDefaultSlots else slots
    let slots := if !gmkIsPowerOfTwo slots then gmkNextPow2 slots else slots
    let id := cr.nChannels
    let ch := gmkRingMpmcInit w (cr.channels id).ring slots sizeofTask
    let cr := { cr with
      channels := Function.update cr.channels id
        ⟨name.take (gmkMaxChanName - 1), true, slots, ch.2.1⟩ }
    if ch.1 then (id, { cr with nChannels := cr.nChannels + 1 }, ch.2.2)
    else (gmkFail gmkErrNomem, cr, ch.2.2)

def gmkChanClose (cr : ChanRegMem) (chanId : ℕ) : ℤ × ChanRegMem :=
  if cr.nChannels ≤ chanId then (gmkFail gmkErrInvalid, cr)
  else if chanId ≤ gmkChanSysDropped then (gmkFail gmkErrInvalid, cr)
  else (0, { cr with
    channels := Function.update cr.channels chanId
      { cr.channels chanId with isOpen := false } })

/-! ## Workers -/

def gmkWorkerPoolInit (w : World) (nWorkers : ℕ) : Option ℕ × World :=
  if nWorkers = 0 then (none, w) else gmkHalCalloc w

/-- One thread a worker; a refused one stops those before it. -/
def gmkWorkerPoolStart (w : World) : ℕ → Bool × World
  | 0 => (true, w)
  | n + 1 =>
      match gmkHalThreadCreate w with
      | (true, w) => gmkWorkerPoolStart w n
      | (false, w) => (false, w)

def gmkWorkerPoolDestroy (w : World) (workers : ℕ) : World := gmkHalFree w workers

/-! ## What is held -/

/-- `m` is what has been obtained and not been freed, and every free so far was in order. -/
structure World.Holds (w : World) (m : Multiset Buffer) : Prop where
  run_eq : run 0 w.log = some m
  fresh : ∀ b, .acquire b ∈ w.log → b.ptr ≤ w.calls
  once : ∀ b, w.log.count (.acquire b) ≤ 1

def heldBuf (r : Option ℕ) (kind : BufferKind) : Multiset Buffer := r.elim 0 fun p => {⟨p, kind⟩}

def RingMem.held (r : RingMem) : Multiset Buffer := heldBuf r.buf (.pages (r.cap * r.stride))

def ringsHeld (rs : List RingMem) : Multiset Buffer := (rs.map RingMem.held).sum

def ArenaMem.held (a : ArenaMem) : Multiset Buffer := {⟨a.base, .pages a.size⟩}

def SchedMem.held (s : SchedMem) : Multiset Buffer :=
  ringsHeld s.rq + ({⟨s.lqs, .calloc⟩} + (ringsHeld s.lqRings + ({⟨s.evqHeap, .calloc⟩} +
    s.overflow.held)))

def ChanRegMem.held (cr : ChanRegMem) : Multiset Buffer :=
  ((List.range cr.nChannels).map fun i => (cr.channels i).ring.held).sum

/-- Entries that do not count hold no ring, and a ring that is held has its capacity
noted. -/
structure ChanRegMem.Wf (cr : ChanRegMem) : Prop where
  unused : ∀ i, cr.nChannels ≤ i → (cr.channels i).ring.buf = none
  noted : ∀ i, (cr.channels i).ring.buf ≠ none → 0 < (cr.channels i).ringCap

@[simp] theorem RingMem.held_zero : RingMem.zero.held = 0 := rfl

@[simp] theorem ringsHeld_nil : ringsHeld [] = 0 := rfl

@[simp] theorem ringsHeld_append (rs : List RingMem) (r : RingMem) :
    ringsHeld (rs ++ [r]) = ringsHeld rs + r.held := by simp [ringsHeld]

section Specs
variable {w w' : World} {m m' : Multiset Buffer}

theorem World.Holds.congr (h : w.Holds m) (he : m = m') : w.Holds m' := he ▸ h

theorem halObtain_spec (h : w.Holds m) {kind : BufferKind} {r : Option ℕ}
    (he : halObtain w kind = (r, w')) : w'.Holds (heldBuf r kind + m) := by
  unfold halObtain at he
  split at he
  next =>
    obtain ⟨rfl, rfl⟩ := Prod.mk.inj he
    -- the pointer is one that no buffer before it had
    have hnew : .acquire ⟨w.calls + 1, kind⟩ ∉ w.log := by
      intro hmem
      have := h.fresh _ hmem
      simp only at this
      omega
    refine ⟨run_acquire h.run_eq, ?_, ?_⟩
    · intro b hb
      rcases List.mem_append.mp hb with hb | hb
      · exact (h.fresh b hb).trans (Nat.le_succ _)
      · simp only [List.mem_singleton, Entry.acquire.injEq] at hb
        simp [hb]
    · intro b
      rw [List.count_append]
      by_cases hb : b = ⟨w.calls + 1, kind⟩
      · rw [hb, List.count_eq_zero.mpr hnew]
        simp
      · have hone := h.once b
        rw [List.count_cons_of_ne (by simp [Ne.symm hb])]
        simpa using hone
  next =>
    obtain ⟨rfl, rfl⟩ := Prod.mk.inj he
    refine ⟨by simpa [heldBuf] using h.run_eq, ?_, h.once⟩
    intro b hb
    exact (h.fresh b hb).trans (Nat.le_succ _)

/-- What the free functions of the host do to the history. -/
theorem World.Holds.release {b : Buffer} (h : w.Holds ({b} + m)) :
    World.Holds { w with log := w.log ++ [.release b] } m := by
  refine ⟨run_release h.run_eq, ?_, ?_⟩
  · intro c hc
    rcases List.mem_append.mp hc with hc | hc
    · exact h.fresh c hc
    · simp at hc
  · intro c
    have hone := h.once c
    rw [List.count_append, List.count_cons_of_ne (by simp)]
    simpa using hone

theorem gmkHalThreadCreate_spec (h : w.Holds m) : (gmkHalThreadCreate w).2.Holds m :=
  ⟨h.run_eq, fun b hb => (h.fresh b hb).trans (Nat.le_succ _), h.once⟩

/-! ### Rings -/

/-- What a ring's init leaves: the ring holds its buffer, or nothing more is held. -/
theorem ringInit_spec (h : w.Holds m) {r r' : RingMem} {cap stride elemSize : ℕ} {ok : Bool}
    (he : ringInit w r cap stride elemSize = (ok, r', w')) :
    if ok then w'.Holds (r'.held + m) ∧ 0 < cap else w'.Holds m ∧ (r' = r ∨ r'.buf = none) := by
  unfold ringInit at he
  split at he
  next =>
    simp only [Prod.mk.injEq] at he
    obtain ⟨rfl, rfl, rfl⟩ := he
    exact ⟨h, .inl rfl⟩
  next hok =>
    have hcap : 0 < cap := by
      apply Nat.pos_of_ne_zero
      rintro rfl
      simp [gmkIsPowerOfTwo] at hok
    split at he
    next p w₁ hp =>
      simp only [Prod.mk.injEq] at he
      obtain ⟨rfl, rfl, rfl⟩ := he
      exact ⟨halObtain_spec h hp, hcap⟩
    next w₁ hp =>
      simp only [Prod.mk.injEq] at he
      obtain ⟨rfl, rfl, rfl⟩ := he
      have hw := halObtain_spec h hp
      simp only [heldBuf, Option.elim_none, zero_add] at hw
      exact ⟨hw, .inr rfl⟩

theorem gmkRingDestroy_spec {r : RingMem} (h : w.Holds (r.held + m)) :
    (gmkRingDestroy w r).Holds m := by
  unfold gmkRingDestroy
  unfold RingMem.held at h
  split
  next p hp =>
    rw [hp] at h
    exact h.release
  next hp =>
    rw [hp] at h
    simpa [heldBuf] using h

theorem destroyRings_spec {rs : List RingMem} (h : w.Holds (ringsHeld rs + m)) :
    (destroyRings w rs).Holds m := by
  induction rs generalizing w with
  | nil => simpa [destroyRings] using h
  | cons r rs ih =>
    have hcons : ringsHeld (r :: rs) + m = r.held + (ringsHeld rs + m) := by
      simp [ringsHeld, add_assoc]
    rw [hcons] at h
    exact ih (gmkRingDestroy_spec h)

/-- The loop over `n` rings. -/
theorem initRings_spec {init : World → Bool × RingMem × World}
    (hinit : ∀ {w w' : World} {m : Multiset Buffer} {ok : Bool} {r : RingMem}, w.Holds m →
      init w = (ok, r, w') → if ok then w'.Holds (r.held + m) else w'.Holds m)
    {n : ℕ} {rs : List RingMem} (h : w.Holds (ringsHeld rs + m)) {res : Option (List RingMem)}
    (he : initRings init n rs w = (res, w')) : w'.Holds (res.elim 0 ringsHeld + m) := by
  induction n generalizing rs w with
  | zero =>
    obtain ⟨rfl, rfl⟩ := Prod.mk.inj he
    exact h
  | succ n ih =>
    simp only [initRings] at he
    split at he
    next r w₁ hr =>
      have hw := hinit h hr
      refine ih ?_ he
      rw [ringsHeld_append, add_comm (ringsHeld rs), add_assoc]
      exact hw
    next r w₁ hr =>
      have hw := hinit h hr
      obtain ⟨rfl, rfl⟩ := Prod.mk.inj he
      rw [Option.elim_none, zero_add]
      exact destroyRings_spec hw

/-- The rings of the trace and of the queues are obtained in zeroed memory. -/
theorem ringInit_zero {cap stride elemSize : ℕ} {ok : Bool} {r : RingMem} (h : w.Holds m)
    (he : ringInit w .zero cap stride elemSize = (ok, r, w')) :
    if ok then w'.Holds (r.held + m) else w'.Holds m := by
  have hspec := ringInit_spec h he
  cases ok with
  | true => exact hspec.1
  | false => exact hspec.1

/-- The loop from its start. -/
theorem initRings_nil_spec {n cap stride elemSize : ℕ} (h : w.Holds m)
    {res : Option (List RingMem)}
    (he : initRings (fun w => ringInit w .zero cap stride elemSize) n [] w = (res, w')) :
    w'.Holds (res.elim 0 ringsHeld + m) := by
  have hstart : w.Holds (ringsHeld [] + m) := by simpa using h
  exact initRings_spec ringInit_zero hstart he

/-! ### Arena and trace -/

theorem gmkAllocInit_spec (h : w.Holds m) {n : ℕ} {r : Option ArenaMem}
    (he : gmkAllocInit w n = (r, w')) : w'.Holds (r.elim 0 ArenaMem.held + m) := by
  unfold gmkAllocInit at he
  split at he
  next =>
    obtain ⟨rfl, rfl⟩ := Prod.mk.inj he
    simpa using h
  next =>
    split at he
    next w₁ hp =>
      obtain ⟨rfl, rfl⟩ := Prod.mk.inj he
      exact halObtain_spec h hp
    next base w₁ hp =>
      have hw := halObtain_spec h hp
      split at he
      next =>
        obtain ⟨rfl, rfl⟩ := Prod.mk.inj he
        exact hw
      next =>
        obtain ⟨rfl, rfl⟩ := Prod.mk.inj he
        rw [Option.elim_none, zero_add]
        exact hw.release

theorem gmkAllocDestroy_spec {a : ArenaMem} (h : w.Holds (a.held + m)) :
    (gmkAllocDestroy w a).Holds m := h.release

theorem gmkTraceInit_spec (h : w.Holds m) {n : ℕ} {r : Option (List RingMem)}
    (he : gmkTraceInit w n = (r, w')) : w'.Holds (r.elim 0 ringsHeld + m) := by
  unfold gmkTraceInit at he
  split at he
  next =>
    obtain ⟨rfl, rfl⟩ := Prod.mk.inj he
    simpa using h
  next => exact initRings_nil_spec h he

/-! ### Scheduler -/

theorem gmkRqInit_spec (h : w.Holds m) {cap : ℕ} {r : Option (List RingMem)}
    (he : gmkRqInit w cap = (r, w')) : w'.Holds (r.elim 0 ringsHeld + m) :=
  initRings_nil_spec h he

theorem undoLqs_spec {rq lqRings : List RingMem} {lqs : ℕ}
    (h : w.Holds (ringsHeld lqRings + ({⟨lqs, .calloc⟩} + (ringsHeld rq + m)))) :
    (undoLqs w rq lqs lqRings).Holds m :=
  destroyRings_spec (destroyRings_spec h).release

theorem gmkSchedInit_spec (h : w.Holds m) {n : ℕ} {r : Option SchedMem}
    (he : gmkSchedInit w n = (r, w')) : w'.Holds (r.elim 0 SchedMem.held + m) := by
  unfold gmkSchedInit at he
  split at he
  next =>
    obtain ⟨rfl, rfl⟩ := Prod.mk.inj he
    simpa using h
  next =>
    split at he
    next w₁ hrq =>
      obtain ⟨rfl, rfl⟩ := Prod.mk.inj he
      exact gmkRqInit_spec h hrq
    next rq w₁ hrq =>
      have h₁ := gmkRqInit_spec h hrq
      split at he
      next w₂ hlqs =>
        have h₂ := halObtain_spec h₁ hlqs
        obtain ⟨rfl, rfl⟩ := Prod.mk.inj he
        simp only [heldBuf, Option.elim_none, zero_add] at h₂ ⊢
        exact destroyRings_spec h₂
      next lqs w₂ hlqs =>
        have h₂ := halObtain_spec h₁ hlqs
        split at he
        next w₃ hlq =>
          have h₃ := initRings_nil_spec h₂ hlq
          obtain ⟨rfl, rfl⟩ := Prod.mk.inj he
          simp only [Option.elim_none, zero_add] at h₃ ⊢
          exact destroyRings_spec h₃.release
        next lqRings w₃ hlq =>
          have h₃ := initRings_nil_spec h₂ hlq
          split at he
          next w₄ hevq =>
            have h₄ := halObtain_spec h₃ hevq
            obtain ⟨rfl, rfl⟩ := Prod.mk.inj he
            simp only [heldBuf, Option.elim_none, zero_add] at h₄ ⊢
            exact undoLqs_spec h₄
          next heap w₄ hevq =>
            have h₄ := halObtain_spec h₃ hevq
            split at he
            next overflow w₅ hover =>
              have h₅ := ringInit_zero h₄ hover
              obtain ⟨rfl, rfl⟩ := Prod.mk.inj he
              apply h₅.congr
              simp only [SchedMem.held, heldBuf, Option.elim_some]
              abel
            next overflow w₅ hover =>
              have h₅ := ringInit_zero h₄ hover
              obtain ⟨rfl, rfl⟩ := Prod.mk.inj he
              rw [Option.elim_none, zero_add]
              exact undoLqs_spec h₅.release

theorem gmkSchedDestroy_spec {s : SchedMem} (h : w.Holds (s.held + m)) :
    (gmkSchedDestroy w s).Holds m := by
  have h₁ : w.Holds (ringsHeld s.rq + (ringsHeld s.lqRings + ({⟨s.lqs, .calloc⟩} +
      ({⟨s.evqHeap, .calloc⟩} + (s.overflow.held + m))))) := by
    apply h.congr
    simp only [SchedMem.held]
    abel
  exact gmkRingDestroy_spec (destroyRings_spec (destroyRings_spec h₁)).release.release

/-! ### Channels -/

theorem sysChannels_held (ring : RingMem) : (sysChannels ring).held = ring.held := by
  have hrange : List.range (sysChannels ring).nChannels = [0, 1] := rfl
  rw [ChanRegMem.held, hrange]
  simp [sysChannels, gmkChanSysDropped]

theorem sysChannels_wf (ring : RingMem) : (sysChannels ring).Wf := by
  constructor
  · intro i hi
    have hi : 2 ≤ i := hi
    have h0 : i ≠ 0 := by omega
    have h1 : i ≠ gmkChanSysDropped := by
      unfold gmkChanSysDropped
      omega
    simp [sysChannels, h0, h1, RingMem.zero]
  · intro i hi
    by_cases h0 : i = 0
    · simp [sysChannels, h0, RingMem.zero] at hi
    · by_cases h1 : i = gmkChanSysDropped
      · simp [sysChannels, h1, gmkChanSysDropped, gmkChanDefaultSlots]
      · simp [sysChannels, h0, h1, RingMem.zero] at hi

theorem gmkChanRegInit_spec (h : w.Holds m) {r : Option ChanRegMem}
    (he : gmkChanRegInit w = (r, w')) :
    w'.Holds (r.elim 0 ChanRegMem.held + m) ∧ ∀ cr, r = some cr → cr.Wf := by
  unfold gmkChanRegInit at he
  split at he
  next ring w₁ hring =>
    have h₁ := ringInit_zero h hring
    obtain ⟨rfl, rfl⟩ := Prod.mk.inj he
    constructor
    · rw [Option.elim_some, sysChannels_held]
      exact h₁
    · intro cr hcr
      obtain rfl := Option.some.inj hcr
      exact sysChannels_wf ring
  next ring w₁ hring =>
    have h₁ := ringInit_zero h hring
    obtain ⟨rfl, rfl⟩ := Prod.mk.inj he
    simpa using h₁

/-- The loop of `gmk_chan_reg_destroy` frees the rings that are held. -/
theorem gmkChanRegDestroy_spec {cr : ChanRegMem} (hcr : cr.Wf) (h : w.Holds (cr.held + m)) :
    (gmkChanRegDestroy w cr).Holds m := by
  unfold gmkChanRegDestroy
  unfold ChanRegMem.held at h
  generalize List.range cr.nChannels = l at h
  induction l generalizing w with
  | nil => simpa using h
  | cons i l ih =>
    rw [List.map_cons, List.sum_cons, add_assoc] at h
    rw [List.foldl_cons]
    apply ih
    split
    next => exact gmkRingDestroy_spec h
    next hnot =>
      have hnone : (cr.channels i).ring.buf = none := by
        by_contra hbuf
        have := hcr.noted i hbuf
        simp [this] at hnot
      simpa [RingMem.held, heldBuf, hnone] using h

section Entry
variable {cr : ChanRegMem} {ch : ChanMem}

/-- An entry that does not count yet holds nothing of the registry. -/
theorem held_overwrite (cr : ChanRegMem) (ch : ChanMem) : ChanRegMem.held
    { cr with channels := Function.update cr.channels cr.nChannels ch } = cr.held := by
  simp only [ChanRegMem.held]
  congr 1
  apply List.map_congr_left
  intro i hi
  rw [Function.update_of_ne (Nat.ne_of_lt (List.mem_range.mp hi))]

theorem held_enter : ChanRegMem.held
    ⟨Function.update cr.channels cr.nChannels ch, cr.nChannels + 1⟩ = ch.ring.held + cr.held := by
  have hold := held_overwrite cr ch
  rw [ChanRegMem.held] at hold
  rw [ChanRegMem.held, List.range_succ, List.map_append, List.sum_append, hold, add_comm]
  simp

theorem ChanRegMem.Wf.enter (hcr : cr.Wf) (hcap : 0 < ch.ringCap) : ChanRegMem.Wf
    ⟨Function.update cr.channels cr.nChannels ch, cr.nChannels + 1⟩ := by
  constructor
  · intro i hi
    have hi : cr.nChannels + 1 ≤ i := hi
    simp only [Function.update_of_ne (show i ≠ cr.nChannels by omega)]
    exact hcr.unused i (by omega)
  · intro i hi
    by_cases hic : i = cr.nChannels
    · simp only [hic, Function.update_self]
      exact hcap
    · simp only [Function.update_of_ne hic] at hi ⊢
      exact hcr.noted i hi

theorem ChanRegMem.Wf.overwrite (hcr : cr.Wf) (hnone : ch.ring.buf = none) : ChanRegMem.Wf
    { cr with channels := Function.update cr.channels cr.nChannels ch } := by
  constructor
  · intro i hi
    by_cases hic : i = cr.nChannels
    · simp only [hic, Function.update_self]
      exact hnone
    · simp only [Function.update_of_ne hic]
      exact hcr.unused i hi
  · intro i hi
    by_cases hic : i = cr.nChannels
    · simp only [hic, Function.update_self] at hi
      exact absurd hnone hi
    · simp only [Function.update_of_ne hic] at hi ⊢
      exact hcr.noted i hi

end Entry

theorem gmkChanOpen_spec {cr cr' : ChanRegMem} (hcr : cr.Wf) (h : w.Holds (cr.held + m))
    {name : List UInt8} {slots : ℕ} {rc : ℤ} (he : gmkChanOpen w cr name slots = (rc, cr', w')) :
    cr'.Wf ∧ w'.Holds (cr'.held + m) := by
  unfold gmkChanOpen at he
  split at he
  next =>
    simp only [Prod.mk.injEq] at he
    obtain ⟨-, rfl, rfl⟩ := he
    exact ⟨hcr, h⟩
  next =>
    split at he
    next =>
      simp only [Prod.mk.injEq] at he
      obtain ⟨-, rfl, rfl⟩ := he
      exact ⟨hcr, h⟩
    next =>
      simp only at he
      generalize (if !gmkIsPowerOfTwo _ then gmkNextPow2 _ else _) = cap at he
      cases hring : gmkRingMpmcInit w (cr.channels cr.nChannels).ring cap sizeofTask with
      | mk ok res =>
        obtain ⟨ring, w₁⟩ := res
        have hspec := ringInit_spec h hring
        rw [hring] at he
        cases ok with
        | true =>
          simp only [if_true, Prod.mk.injEq] at he hspec
          obtain ⟨-, rfl, rfl⟩ := he
          refine ⟨hcr.enter hspec.2, ?_⟩
          rw [held_enter, add_assoc]
          exact hspec.1
        | false =>
          simp only [if_false, Bool.false_eq_true, Prod.mk.injEq] at he hspec
          obtain ⟨-, rfl, rfl⟩ := he
          have hnone : ring.buf = none := by
            rcases hspec.2 with rfl | hnone
            · exact hcr.unused _ le_rfl
            · exact hnone
          refine ⟨hcr.overwrite hnone, ?_⟩
          rw [held_overwrite]
          exact hspec.1

/-- Closing a channel keeps its ring for the end. -/
theorem gmkChanClose_spec {cr : ChanRegMem} (hcr : cr.Wf) (chanId : ℕ) :
    (gmkChanClose cr chanId).2.Wf ∧ (gmkChanClose cr chanId).2.held = cr.held := by
  unfold gmkChanClose
  split
  next => exact ⟨hcr, rfl⟩
  next =>
    split
    next => exact ⟨hcr, rfl⟩
    next =>
      have hring : ∀ i, (Function.update cr.channels chanId
          { cr.channels chanId with isOpen := false } i).ring = (cr.channels i).ring ∧
          (Function.update cr.channels chanId
            { cr.channels chanId with isOpen := false } i).ringCap = (cr.channels i).ringCap := by
        intro i
        by_cases hi : i = chanId
        · simp [hi]
        · simp [Function.update_of_ne hi]
      refine ⟨⟨?_, ?_⟩, ?_⟩
      · intro i hi
        rw [(hring i).1]
        exact hcr.unused i hi
      · intro i hi
        rw [(hring i).1] at hi
        rw [(hring i).2]
        exact hcr.noted i hi
      · simp only [ChanRegMem.held, hring]

/-! ### Workers -/

theorem gmkWorkerPoolInit_spec (h : w.Holds m) {n : ℕ} {r : Option ℕ}
    (he : gmkWorkerPoolInit w n = (r, w')) : w'.Holds (heldBuf r .calloc + m) := by
  unfold gmkWorkerPoolInit at he
  split at he
  next =>
    obtain ⟨rfl, rfl⟩ := Prod.mk.inj he
    simpa [heldBuf] using h
  next => exact halObtain_spec h he

theorem gmkWorkerPoolStart_spec (h : w.Holds m) {n : ℕ} {ok : Bool}
    (he : gmkWorkerPoolStart w n = (ok, w')) : w'.Holds m := by
  induction n generalizing w with
  | zero =>
    obtain ⟨rfl, rfl⟩ := Prod.mk.inj he
    exact h
  | succ n ih =>
    have hw := gmkHalThreadCreate_spec h
    simp only [gmkWorkerPoolStart] at he
    split at he
    next w₁ hw₁ =>
      rw [hw₁] at hw
      exact ih hw he
    next w₁ hw₁ =>
      rw [hw₁] at hw
      obtain ⟨rfl, rfl⟩ := Prod.mk.inj he
      exact hw

end Specs

end Ggmk.Lifecycle

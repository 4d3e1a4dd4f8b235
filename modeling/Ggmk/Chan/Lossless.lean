import Ggmk.Chan.Route
import Ggmk.Worker.Conservation

/-! A drain of a lossless fan-out channel: where each copy ends up, and how many copies find
no place at all. -/
namespace Ggmk
open RingMpmc

/-! ## Copies -/

inductive Place where
  | lq
  | rq
  | dead
  | lost
  deriving DecidableEq

/-- The copy of a message for the subscriber on `worker`. -/
structure Copy where
  task : Task
  worker : ℤ
  place : Place

def Copy.origin (c : Copy) : Task × ℤ := (c.task, c.worker)

/-- One copy for each active subscriber, in the order of the subscriptions. -/
def activeCopies (subs : List ChanSub) (t : Task) : List (Task × ℤ) :=
  (subs.filter ChanSub.active).map fun sub => (t, sub.workerId)

def copiesOf (subs : List ChanSub) (msgs : List Task) : List (Task × ℤ) :=
  msgs.flatMap (activeCopies subs)

def Kernel.deadRing (k : Kernel) : RingMpmc Task := (k.chan.channels gmkChanSysDropped).ring

/-- The contents of the copies at a place. -/
def contentsAt (cs : List Copy) (P : Copy → Bool) : List Task :=
  (cs.filter P).map fun c => c.task.content

/-- The queues have grown by the copies that are placed in them, those of a local queue being
for its worker. -/
structure Placed (k k' : Kernel) (cs : List Copy) : Prop where
  nWorkers : k'.sched.nWorkers = k.sched.nWorkers
  lqs : ∀ i, (k'.sched.lqs i).items.map Task.content = (k.sched.lqs i).items.map Task.content ++
    contentsAt cs fun c => c.place = .lq ∧ c.worker = i
  rq : ∀ p, (k'.sched.rq.queues p).items.map Task.content =
    (k.sched.rq.queues p).items.map Task.content ++
      contentsAt cs fun c => c.place = .rq ∧ c.task.prio = p
  dead : k'.deadRing.items.map Task.content = k.deadRing.items.map Task.content ++
    contentsAt cs fun c => c.place = .dead
  worker : ∀ c ∈ cs, c.place = .lq → 0 ≤ c.worker ∧ c.worker.toNat < k.sched.nWorkers

/-- Each copy is afterwards in its subscriber's local queue, in the ready queue or among the
dead letters. -/
def Kept (k k' : Kernel) (copies : List (Task × ℤ)) : Prop :=
  ∃ cs : List Copy, cs.map Copy.origin = copies ∧ (∀ c ∈ cs, c.place ≠ .lost) ∧ Placed k k' cs

/-! ## Counting the places -/

/-- The copies of priority `p` that come after their worker's local queue is full, or have no
local queue. -/
def late (s : Sched) (copies : List (Task × ℤ)) (p : ℕ) : ℕ :=
  copies.countP (fun x => (x.2 < 0 ∨ s.nWorkers ≤ x.2.toNat) ∧ x.1.prio = p) +
    ∑ i ∈ Finset.range s.nWorkers,
      ((copies.filter fun x => x.2 = (i : ℤ)).drop (s.lqs i).room).countP fun x => x.1.prio = p

/-- The copies that the ready queue has no room for either. -/
def deadNeed (s : Sched) (copies : List (Task × ℤ)) : ℕ :=
  ∑ p ∈ Finset.range gmkPriorityCount, (late s copies p - s.rq.room p)

/-- Places for dead letters. -/
def deadRoom (k : Kernel) : ℕ :=
  if (k.chan.channels gmkChanSysDropped).isOpen then k.deadRing.cap - k.deadRing.items.length else 0

section Late
variable {s s' : Sched} {t : Task} {w : ℤ} {copies : List (Task × ℤ)}

/-- A place in the local queue is taken by the first copy for its worker. -/
theorem late_cons_lq {i : ℕ} (hi : i < s.nWorkers) (hn : s'.nWorkers = s.nWorkers)
    (hroom : (s'.lqs i).room + 1 = (s.lqs i).room)
    (hother : ∀ j, j ≠ i → (s'.lqs j).room = (s.lqs j).room) (p : ℕ) :
    late s ((t, (i : ℤ)) :: copies) p = late s' copies p := by
  have hvalid : ¬ ((i : ℤ) < 0 ∨ s.nWorkers ≤ (i : ℤ).toNat) := by omega
  simp only [late, hn]
  congr 1
  · rw [List.countP_cons_of_neg (by simpa using fun h => absurd h hvalid)]
  · apply Finset.sum_congr rfl
    intro j _
    by_cases hj : j = i
    · subst hj
      rw [List.filter_cons_of_pos (by simp), ← hroom, List.drop_succ_cons]
    · have hne : ¬ ((i : ℤ) = j) := by omega
      rw [List.filter_cons_of_neg (by simpa using hne), hother j hj]

/-- Without such a place the copy is late. -/
theorem late_cons_none (hw : s.NoLq w) (p : ℕ) :
    late s ((t, w) :: copies) p = late s copies p + if t.prio = p then 1 else 0 := by
  simp only [late]
  by_cases hvalid : w < 0 ∨ s.nWorkers ≤ w.toNat
  · have hsum : ∀ i ∈ Finset.range s.nWorkers,
        ((((t, w) :: copies).filter fun x => x.2 = (i : ℤ)).drop (s.lqs i).room).countP
          (fun x => x.1.prio = p) =
        ((copies.filter fun x => x.2 = (i : ℤ)).drop (s.lqs i).room).countP
          fun x => x.1.prio = p := by
      intro i hi
      have hi := Finset.mem_range.mp hi
      have hne : ¬ (w = (i : ℤ)) := by omega
      rw [List.filter_cons_of_neg (by simpa using hne)]
    rw [Finset.sum_congr rfl hsum, List.countP_cons]
    simp only [hvalid, true_and, decide_eq_true_eq]
    omega
  · obtain ⟨i, rfl⟩ : ∃ i : ℕ, w = i := ⟨w.toNat, by omega⟩
    have hi : i < s.nWorkers := by omega
    have hroom : (s.lqs i).room = 0 := (noLq_iff hi).mp hw
    have hsum : ∀ j ∈ Finset.range s.nWorkers,
        ((((t, (i : ℤ)) :: copies).filter fun x => x.2 = (j : ℤ)).drop (s.lqs j).room).countP
          (fun x => x.1.prio = p) =
        ((copies.filter fun x => x.2 = (j : ℤ)).drop (s.lqs j).room).countP
          (fun x => x.1.prio = p) + if j = i then (if t.prio = p then 1 else 0) else 0 := by
      intro j _
      by_cases hj : j = i
      · subst hj
        rw [List.filter_cons_of_pos (by simp), hroom, List.drop_zero, List.drop_zero,
          List.countP_cons]
        simp
      · have hne : ¬ ((i : ℤ) = j) := by omega
        rw [List.filter_cons_of_neg (by simpa using hne), if_neg hj, Nat.add_zero]
    have hhead : ¬ ((((i : ℤ) < 0 ∨ s.nWorkers ≤ (i : ℤ).toNat)) ∧ t.prio = p) :=
      fun h => hvalid h.1
    rw [Finset.sum_congr rfl hsum, Finset.sum_add_distrib, Finset.sum_ite_eq',
      if_pos (Finset.mem_range.mpr hi), List.countP_cons_of_neg (by simpa using hhead),
      Nat.add_assoc]

/-- A late copy that the ready queue takes uses up a place there. -/
theorem deadNeed_rq {q q' : ℕ → ℕ} {l l' : ℕ → ℕ} {p₀ : ℕ}
    (hl : ∀ p, l p = l' p + if p₀ = p then 1 else 0)
    (hq : ∀ p, q' p + (if p₀ = p then 1 else 0) = q p) :
    ∑ p ∈ Finset.range gmkPriorityCount, (l p - q p) =
      ∑ p ∈ Finset.range gmkPriorityCount, (l' p - q' p) := by
  apply Finset.sum_congr rfl
  intro p _
  have h1 := hl p
  have h2 := hq p
  omega

/-- A late copy that the ready queue refuses is a dead letter. -/
theorem deadNeed_refused {q l l' : ℕ → ℕ} {p₀ : ℕ} (hp : p₀ < gmkPriorityCount)
    (hl : ∀ p, l p = l' p + if p₀ = p then 1 else 0) (hq : q p₀ = 0) :
    ∑ p ∈ Finset.range gmkPriorityCount, (l p - q p) =
      ∑ p ∈ Finset.range gmkPriorityCount, (l' p - q p) + 1 := by
  have hterm : ∀ p ∈ Finset.range gmkPriorityCount,
      l p - q p = (l' p - q p) + if p = p₀ then 1 else 0 := by
    intro p _
    have h1 := hl p
    by_cases hpp : p = p₀
    · subst hpp
      simp only [if_true] at h1 ⊢
      omega
    · simp only [if_neg hpp, if_neg (Ne.symm hpp)] at h1 ⊢
      omega
  rw [Finset.sum_congr rfl hterm, Finset.sum_add_distrib, Finset.sum_ite_eq',
    if_pos (Finset.mem_range.mpr hp)]

end Late

/-! ## One copy -/

/-- A lossless fan-out channel; the dead-letter channel is a lossy one. -/
structure Lossless (k : Kernel) (c : ℕ) : Prop where
  mode : (k.chan.channels c).mode = gmkChanFanout
  guarantee : (k.chan.channels c).guarantee = gmkChanLossless
  dead_lossy : (k.chan.channels gmkChanSysDropped).guarantee = gmkChanLossy
  dead_ring : k.deadRing.Holds k.deadRing.items
  dead_two : 2 ≤ k.deadRing.cap

namespace Placed
variable {k k' k'' : Kernel} {cs cs' : List Copy}

theorem refl (k : Kernel) : Placed k k [] := ⟨rfl, by simp [contentsAt], by simp [contentsAt],
  by simp [contentsAt], by simp⟩

theorem trans (h : Placed k k' cs) (h' : Placed k' k'' cs') : Placed k k'' (cs ++ cs') where
  nWorkers := h'.nWorkers.trans h.nWorkers
  lqs i := by
    rw [h'.lqs, h.lqs]
    simp [contentsAt]
  rq p := by
    rw [h'.rq, h.rq]
    simp [contentsAt]
  dead := by
    rw [h'.dead, h.dead]
    simp [contentsAt]
  worker c hc hp := by
    rcases List.mem_append.mp hc with hc | hc
    · exact h.worker c hc hp
    · rw [← h.nWorkers]
      exact h'.worker c hc hp

/-- Only the queues count. -/
theorem congr {k₁ k₂ : Kernel} (h : Placed k₁ k₂ cs) (hs : k.sched = k₁.sched)
    (hd : k.deadRing = k₁.deadRing) (hs' : k'.sched = k₂.sched)
    (hd' : k'.deadRing = k₂.deadRing) : Placed k k' cs := by
  refine ⟨?_, ?_, ?_, ?_, ?_⟩
  · rw [hs, hs']
    exact h.nWorkers
  · rw [hs, hs']
    exact h.lqs
  · rw [hs, hs']
    exact h.rq
  · rw [hd, hd']
    exact h.dead
  · rw [hs]
    exact h.worker

end Placed

section Copies
variable {k : Kernel} {c : ℕ} {t : Task}

theorem Lossless.ne_dead (h : Lossless k c) : c ≠ gmkChanSysDropped := by
  rintro rfl
  have hl := h.guarantee
  rw [h.dead_lossy] at hl
  exact absurd hl (by decide)

/-- The dead letter of a refused copy. -/
theorem Lossless.deadLetter (h : Lossless k c) (t : Task) :
    Lossless (routeToDeadLetter k t) c ∧
      ((deadRoom (routeToDeadLetter k t) + 1 = deadRoom k ∧
          (routeToDeadLetter k t).deadRing.items = k.deadRing.items ++ [t]) ∨
        (deadRoom k = 0 ∧ routeToDeadLetter k t = k)) := by
  by_cases hopen : (k.chan.channels gmkChanSysDropped).isOpen
  · rcases h.dead_ring.room.lt_or_eq with hlt | hfull
    · obtain ⟨r, hr, hh, hcap⟩ := h.dead_ring.push_ok t hlt
      have heq : routeToDeadLetter k t = k.setChan gmkChanSysDropped
          { k.chan.channels gmkChanSysDropped with ring := r } := by
        simp only [routeToDeadLetter, if_pos hopen, show gmkRingMpmcPush
          (k.chan.channels gmkChanSysDropped).ring t = .ok r from hr]
      rw [heq]
      have hitems : r.items = k.deadRing.items ++ [t] := hh.items_eq
      refine ⟨⟨?_, ?_, ?_, ?_, ?_⟩, .inl ⟨?_, ?_⟩⟩
      · rw [Kernel.setChan_of_ne _ _ _ h.ne_dead]
        exact h.mode
      · rw [Kernel.setChan_of_ne _ _ _ h.ne_dead]
        exact h.guarantee
      · simpa using h.dead_lossy
      · simpa [Kernel.deadRing, hitems] using hh
      · simpa [Kernel.deadRing, hcap] using h.dead_two
      · simp only [deadRoom, Kernel.deadRing, Kernel.setChan_self, hopen, if_true, hitems, hcap,
          List.length_append, List.length_singleton]
        unfold Kernel.deadRing at hlt
        omega
      · simpa [Kernel.deadRing] using hitems
    · have hpush := h.dead_ring.push_full t hfull h.dead_two
      have heq : routeToDeadLetter k t = k := by
        simp only [routeToDeadLetter, if_pos hopen, show gmkRingMpmcPush
          (k.chan.channels gmkChanSysDropped).ring t = .full from hpush]
      rw [heq]
      refine ⟨h, .inr ⟨?_, rfl⟩⟩
      simp only [deadRoom, hfull]
      split <;> omega
  · have heq : routeToDeadLetter k t = k := by
      simp only [routeToDeadLetter, if_neg hopen]
    rw [heq]
    refine ⟨h, .inr ⟨?_, rfl⟩⟩
    simp only [deadRoom, if_neg hopen]

/-- Copies that were lost. -/
def lostCount (cs : List Copy) : ℕ := cs.countP fun c => c.place = .lost

/-- `k'` is `k` after the delivery of `cs`; what more copies would lose is what they still
lose after it. -/
structure Delivered (c : ℕ) (k k' : Kernel) (cs : List Copy) : Prop where
  lossless : Lossless k' c
  placed : Placed k k' cs
  entry : k'.chan.channels c = k.chan.channels c
  nChannels : k'.chan.nChannels = k.chan.nChannels
  lost : ∀ rest, deadNeed k.sched (cs.map Copy.origin ++ rest) - deadRoom k =
    lostCount cs + (deadNeed k'.sched rest - deadRoom k')

/-- A copy that the worker's local queue takes. -/
theorem Lossless.toLq (h : Lossless k c) {i : ℕ} {lq : Lq} (hi : i < k.sched.nWorkers)
    (hpush : gmkLqPush (k.sched.lqs i) (k.sched.stamp t) = some lq) :
    Delivered c k { k with sched := { k.sched with
      nextSeq := k.sched.nextSeq + 1
      lqs := Function.update k.sched.lqs i lq } } [⟨t, i, .lq⟩] := by
  obtain ⟨hitems, ⟨hcap, hmark, -⟩, hroom⟩ := gmkLqPush_some hpush
  have hother : ∀ j, j ≠ i → Function.update k.sched.lqs i lq j = k.sched.lqs j :=
    fun j hj => Function.update_of_ne hj _ _
  refine ⟨⟨h.mode, h.guarantee, h.dead_lossy, h.dead_ring, h.dead_two⟩,
    ⟨rfl, ?_, ?_, ?_, ?_⟩, rfl, rfl, ?_⟩
  · intro j
    by_cases hj : j = i
    · subst hj
      simp [hitems, contentsAt]
    · have hne : ¬ ((i : ℤ) = j) := by omega
      simp [hother j hj, contentsAt, hne]
  · simp [contentsAt]
  · simp [contentsAt, Kernel.deadRing]
  · simp [hi]
  · intro rest
    have hlate (p : ℕ) : late k.sched ((t, (i : ℤ)) :: rest) p = late { k.sched with
        nextSeq := k.sched.nextSeq + 1
        lqs := Function.update k.sched.lqs i lq } rest p := by
      apply late_cons_lq hi
      · rfl
      · rw [Lq.refuses_iff_room] at hroom
        simp only [Function.update_self, Lq.room, hitems, hcap, hmark, List.length_append,
          List.length_singleton]
        unfold Lq.room at hroom
        omega
      · intro j hj
        simp only [hother j hj]
    simp only [List.map_cons, List.map_nil, Copy.origin, List.singleton_append, deadNeed, hlate]
    simp [lostCount, deadRoom, Kernel.deadRing]

/-- A late copy that the ready queue takes. -/
theorem Lossless.toRq (h : Lossless k c) {w : ℤ} {rq : Rq} (hlq : k.sched.NoLq w)
    (hpush : gmkRqPush k.sched.rq (k.sched.stamp t) = some rq) :
    Delivered c k { k with sched := { k.sched with
      nextSeq := k.sched.nextSeq + 1
      rq := rq } } [⟨t, w, .rq⟩] := by
  obtain ⟨q, hq, rfl⟩ := gmkRqPush_some hpush
  obtain ⟨hitems, hcap, hlt⟩ := MpmcQueue.push_some hq
  rw [Sched.stamp_prio] at hq hitems hcap hlt
  refine ⟨⟨h.mode, h.guarantee, h.dead_lossy, h.dead_ring, h.dead_two⟩,
    ⟨rfl, ?_, ?_, ?_, ?_⟩, rfl, rfl, ?_⟩
  · simp [contentsAt]
  · intro p
    by_cases hp : p = t.prio
    · subst hp
      simp [hitems, contentsAt]
    · simp [Function.update_of_ne hp, contentsAt, Ne.symm hp]
  · simp [contentsAt, Kernel.deadRing]
  · simp
  · intro rest
    have hneed : deadNeed k.sched ((t, w) :: rest) = deadNeed { k.sched with
        nextSeq := k.sched.nextSeq + 1
        rq := { k.sched.rq with
          queues := Function.update k.sched.rq.queues t.prio q } } rest := by
      refine deadNeed_rq (fun p => (?_ : _ = _ + if t.prio = p then 1 else 0)) fun p => ?_
      · rw [late_cons_none hlq]
        rfl
      · by_cases hp : t.prio = p
        · subst hp
          simp only [Rq.room, Function.update_self, hitems, hcap, if_true, List.length_append,
            List.length_singleton]
          omega
        · simp [Rq.room, Function.update_of_ne (Ne.symm hp), hp]
    simp only [List.map_cons, List.map_nil, Copy.origin, List.singleton_append, hneed,
      Sched.stamp_prio]
    simp [lostCount, deadRoom, Kernel.deadRing]

/-- Scheduler and channels are all that matters. -/
theorem Lossless.same {k' : Kernel} (h : Lossless k c) (hc : k'.chan = k.chan) : Lossless k' c := by
  refine ⟨?_, ?_, ?_, ?_, ?_⟩
  · rw [hc]
    exact h.mode
  · rw [hc]
    exact h.guarantee
  · rw [hc]
    exact h.dead_lossy
  · rw [Kernel.deadRing, hc]
    exact h.dead_ring
  · rw [Kernel.deadRing, hc]
    exact h.dead_two

theorem Delivered.same {k' k'' : Kernel} {cs : List Copy} (h : Delivered c k k' cs)
    (hs : k''.sched = k'.sched) (hc : k''.chan = k'.chan) : Delivered c k k'' cs := by
  have hdead : k''.deadRing = k'.deadRing := by rw [Kernel.deadRing, hc, Kernel.deadRing]
  have hroom : deadRoom k'' = deadRoom k' := by rw [deadRoom, hdead, hc, deadRoom]
  refine ⟨h.lossless.same hc, h.placed.congr rfl rfl hs hdead, ?_, ?_, ?_⟩
  · rw [hc]
    exact h.entry
  · rw [hc]
    exact h.nChannels
  · rw [hs, hroom]
    exact h.lost

/-- A late copy that no queue takes: it is the newest dead letter, or there is no room for it. -/
theorem Lossless.unqueued {k' : Kernel} (h : Lossless k' c) {w : ℤ} {place : Place}
    (hlq : k.sched.NoLq w) (hrq : k.sched.rq.Refuses t.prio)
    (hsched : k'.sched = { k.sched with nextSeq := k.sched.nextSeq + 1 })
    (hentry : k'.chan.channels c = k.chan.channels c) (hn : k'.chan.nChannels = k.chan.nChannels)
    (hplace : place = .dead ∧ deadRoom k' + 1 = deadRoom k ∧
        k'.deadRing.items = k.deadRing.items ++ [k.sched.stamp t] ∨
      place = .lost ∧ deadRoom k = 0 ∧ deadRoom k' = 0 ∧
        k'.deadRing.items = k.deadRing.items) : Delivered c k k' [⟨t, w, place⟩] := by
  have hneed (rest : List (Task × ℤ)) : deadNeed k.sched ((t, w) :: rest) =
      deadNeed k'.sched rest + 1 := by
    rw [hsched]
    refine deadNeed_refused t.prio_lt (fun p => ?_) ((Rq.refuses_iff_room _ _).mp hrq)
    rw [late_cons_none hlq]
    rfl
  have hplaces : place ≠ .lq ∧ place ≠ .rq := by
    rcases hplace with ⟨rfl, -⟩ | ⟨rfl, -⟩ <;> exact ⟨Place.noConfusion, Place.noConfusion⟩
  refine ⟨h, ⟨?_, ?_, ?_, ?_, ?_⟩, hentry, hn, ?_⟩
  · rw [hsched]
  · rw [hsched]
    simp [contentsAt, hplaces.1]
  · rw [hsched]
    simp [contentsAt, hplaces.2]
  · rcases hplace with ⟨rfl, -, hitems⟩ | ⟨rfl, -, -, hitems⟩
    · rw [hitems]
      simp [contentsAt]
    · rw [hitems]
      simp [contentsAt]
  · simp [hplaces.1]
  · intro rest
    simp only [List.map_cons, List.map_nil, Copy.origin, List.singleton_append, hneed]
    rcases hplace with ⟨rfl, hroom, -⟩ | ⟨rfl, hroom, hroom', -⟩
    · have hlost : lostCount [⟨t, w, .dead⟩] = 0 := rfl
      omega
    · have hlost : lostCount [⟨t, w, .lost⟩] = 1 := rfl
      omega

/-- A late copy that the ready queue refuses goes to the dead letters, or is lost. -/
theorem Lossless.refused (h : Lossless k c) {w : ℤ} (hlq : k.sched.NoLq w)
    (hrq : k.sched.rq.Refuses t.prio) (i : ℕ) : ∃ place, Delivered c k
      (copyFailed { k with sched := { k.sched with nextSeq := k.sched.nextSeq + 1 } } c t
        (k.sched.stamp t) i) [⟨t, w, place⟩] := by
  set k₁ : Kernel := { k with sched := { k.sched with nextSeq := k.sched.nextSeq + 1 } }
  have h₁ : Lossless k₁ c := h.same rfl
  obtain ⟨hl, hroute⟩ := h₁.deadLetter (k.sched.stamp t)
  have hsched : (routeToDeadLetter k₁ (k.sched.stamp t)).sched = k₁.sched :=
    routeToDeadLetter_sched _ _
  have hentry : (routeToDeadLetter k₁ (k.sched.stamp t)).chan.channels c = k.chan.channels c :=
    routeToDeadLetter_of_ne _ _ _ h.ne_dead
  have hn : (routeToDeadLetter k₁ (k.sched.stamp t)).chan.nChannels = k.chan.nChannels :=
    routeToDeadLetter_nChannels _ _
  have hfinal (place : Place)
      (hd : Delivered c k (routeToDeadLetter k₁ (k.sched.stamp t)) [⟨t, w, place⟩]) :
      Delivered c k (copyFailed k₁ c t (k.sched.stamp t) i) [⟨t, w, place⟩] := by
    have hlossless : ¬ (k₁.chan.channels c).guarantee = gmkChanLossy := by
      rw [h₁.guarantee]
      decide
    simp only [copyFailed, if_neg hlossless]
    split
    · exact hd.same rfl rfl
    · exact hd
  rcases hroute with ⟨hroom, hitems⟩ | ⟨hroom, heq⟩
  · exact ⟨.dead, hfinal _ (hl.unqueued hlq hrq hsched hentry hn (.inl ⟨rfl, hroom, hitems⟩))⟩
  · refine ⟨.lost, hfinal _ (hl.unqueued hlq hrq hsched hentry hn (.inr ⟨rfl, hroom, ?_, ?_⟩))⟩
    · rw [heq]
      exact hroom
    · rw [heq]
      rfl

theorem Lossless.deliverOne (h : Lossless k c) (t : Task) (i : ℕ) {sub : ChanSub}
    (ha : sub.active) : ∃ place,
      Delivered c k (deliverCopy k c t i sub) [⟨t, sub.workerId, place⟩] := by
  have hcase := gmkEnqueue_cases k.sched t sub.workerId
  simp only [deliverCopy, ha, if_true]
  generalize gmkEnqueue k.sched t sub.workerId = r at hcase ⊢
  cases hcase with
  | toLq j lq hw hj hpush =>
    rw [hw]
    exact ⟨.lq, h.toLq hj hpush⟩
  | toRq rq hlq hpush => exact ⟨.rq, h.toRq hlq hpush⟩
  | refused hlq hrq => exact h.refused hlq hrq i

theorem Delivered.refl (h : Lossless k c) : Delivered c k k [] :=
  ⟨h, .refl k, rfl, rfl, by simp [lostCount]⟩

theorem Delivered.trans {k' k'' : Kernel} {cs cs' : List Copy} (h : Delivered c k k' cs)
    (h' : Delivered c k' k'' cs') : Delivered c k k'' (cs ++ cs') := by
  refine ⟨h'.lossless, h.placed.trans h'.placed, h'.entry.trans h.entry,
    h'.nChannels.trans h.nChannels, ?_⟩
  intro rest
  rw [List.map_append, List.append_assoc, h.lost, h'.lost, lostCount, lostCount, lostCount,
    List.countP_append, Nat.add_assoc]

/-- The loop over the subscribers. -/
theorem Lossless.deliverAll (h : Lossless k c) (t : Task) (i : ℕ) (subs : List ChanSub) :
    ∃ cs, cs.map Copy.origin = activeCopies subs t ∧
      Delivered c k (deliverCopies c t i subs k) cs := by
  induction subs generalizing k i with
  | nil => exact ⟨[], rfl, .refl h⟩
  | cons sub subs ih =>
    rw [deliverCopies]
    by_cases ha : sub.active
    · obtain ⟨place, hd⟩ := h.deliverOne t i ha
      obtain ⟨cs, horigin, hd'⟩ := ih hd.lossless (i + 1)
      refine ⟨⟨t, sub.workerId, place⟩ :: cs, ?_, hd.trans hd'⟩
      simp [activeCopies, ha, Copy.origin, horigin]
    · have hskip : deliverCopy k c t i sub = k := by simp [deliverCopy, ha]
      rw [hskip]
      obtain ⟨cs, horigin, hd⟩ := ih h (i + 1)
      exact ⟨cs, by simp [activeCopies, ha, horigin], hd⟩

/-- A message of the drain. -/
theorem Lossless.drainOne (h : Lossless k c) (t : Task) (subs : List ChanSub) :
    ∃ cs, cs.map Copy.origin = activeCopies subs t ∧
      Delivered c k (drainTask k c subs t) cs := by
  have hmode : ¬ (k.chan.channels c).mode = gmkChanP2p := by
    rw [h.mode]
    decide
  simp only [drainTask, if_neg hmode, fanOut]
  split
  · have h' : Lossless { k with
        heap := retainTimes k.heap t.payloadPtr.toNat (nActive subs - 1) } c := h.same rfl
    obtain ⟨cs, horigin, hd⟩ := h'.deliverAll t 0 subs
    exact ⟨cs, horigin, hd.lossless, hd.placed.congr rfl rfl rfl rfl, hd.entry, hd.nChannels,
      hd.lost⟩
  · exact h.deliverAll t 0 subs

/-- Taking a message out of the channel's own ring leaves the queues alone. -/
theorem Lossless.setRing (h : Lossless k c) (r : RingMpmc Task) :
    Lossless (k.setChan c { k.chan.channels c with ring := r }) c ∧
      (k.setChan c { k.chan.channels c with ring := r }).deadRing = k.deadRing ∧
      deadRoom (k.setChan c { k.chan.channels c with ring := r }) = deadRoom k := by
  have hdead : (k.setChan c { k.chan.channels c with ring := r }).chan.channels
      gmkChanSysDropped = k.chan.channels gmkChanSysDropped :=
    Kernel.setChan_of_ne _ _ _ h.ne_dead.symm
  have hring : (k.setChan c { k.chan.channels c with ring := r }).deadRing = k.deadRing := by
    rw [Kernel.deadRing, hdead, Kernel.deadRing]
  refine ⟨⟨by simpa using h.mode, by simpa using h.guarantee, ?_, ?_, ?_⟩, hring, ?_⟩
  · rw [hdead]
    exact h.dead_lossy
  · rw [hring]
    exact h.dead_ring
  · rw [hring]
    exact h.dead_two
  · rw [deadRoom, hdead, hring, deadRoom]

/-- The drain loop delivers the oldest messages of the ring. -/
theorem Lossless.drainMany (h : Lossless k c) (subs : List ChanSub) (n : ℕ) {q : List Task}
    (hq : (k.chan.channels c).ring.Holds q) : ∃ k' cs,
      drainLoop c subs n k = some (min n q.length, k') ∧
      cs.map Copy.origin = copiesOf subs (q.take n) ∧ Placed k k' cs ∧
      ∀ rest, deadNeed k.sched (cs.map Copy.origin ++ rest) - deadRoom k =
        lostCount cs + (deadNeed k'.sched rest - deadRoom k') := by
  induction n generalizing k q with
  | zero => exact ⟨k, [], by simp [drainLoop], by simp [copiesOf], .refl k, by simp [lostCount]⟩
  | succ n ih =>
    cases q with
    | nil =>
      refine ⟨k, [], ?_, by simp [copiesOf], .refl k, by simp [lostCount]⟩
      simp [drainLoop, hq.pop_empty]
    | cons t q =>
      obtain ⟨r, hpop, hr, -⟩ := hq.pop_ok
      obtain ⟨h₁, hring₁, hroom₁⟩ := h.setRing r
      set k₁ := k.setChan c { k.chan.channels c with ring := r }
      have hsched₁ : k₁.sched = k.sched := rfl
      obtain ⟨cs, horigin, hd⟩ := h₁.drainOne t subs
      have hr' : ((drainTask k₁ c subs t).chan.channels c).ring.Holds q := by
        rw [hd.entry]
        simpa [k₁] using hr
      obtain ⟨k', cs', hloop, horigin', hplaced, hlost⟩ := ih hd.lossless hr'
      refine ⟨k', cs ++ cs', ?_, ?_, ?_, ?_⟩
      · simp only [drainLoop, hpop]
        rw [show drainLoop c subs n (drainTask k₁ c subs t) = _ from hloop, Option.map_some,
          List.length_cons, Nat.succ_min_succ]
      · rw [List.map_append, horigin, horigin', List.take_succ_cons, copiesOf, copiesOf,
          List.flatMap_cons]
      · exact (hd.placed.trans hplaced).congr hsched₁.symm hring₁.symm rfl rfl
      · intro rest
        have hone := hd.lost (cs'.map Copy.origin ++ rest)
        rw [hsched₁, hroom₁] at hone
        rw [List.map_append, List.append_assoc, hone, hlost, lostCount, lostCount, lostCount,
          List.countP_append, Nat.add_assoc]

/-- How many messages a drain takes. -/
def drainCount (ch : ChanEntry) (limit : ℕ) : ℕ :=
  if subsSnap ch = [] then 0
  else min (if limit = 0 then 2 ^ 32 - 1 else limit) ch.ring.items.length

/-- The copies that a drain makes. -/
def drainCopies (ch : ChanEntry) (limit : ℕ) : List (Task × ℤ) :=
  copiesOf (subsSnap ch) (ch.ring.items.take (drainCount ch limit))

/-- The drain of a lossless fan-out channel: each copy has its place, and the number of those
that are lost is what the dead letters lack in room. -/
theorem Lossless.drain_spec (h : Lossless k c) (hc : c < k.chan.nChannels)
    (hq : (k.chan.channels c).ring.Holds (k.chan.channels c).ring.items) (limit : ℕ) :
    ∃ k' cs, gmkChanDrain k c limit = some (drainCount (k.chan.channels c) limit, k') ∧
      cs.map Copy.origin = drainCopies (k.chan.channels c) limit ∧ Placed k k' cs ∧
      lostCount cs = deadNeed k.sched (drainCopies (k.chan.channels c) limit) - deadRoom k := by
  unfold gmkChanDrain drainCopies drainCount
  rw [if_neg (not_le.mpr hc)]
  by_cases hsubs : subsSnap (k.chan.channels c) = []
  · refine ⟨k, [], ?_, by simp [copiesOf, hsubs], .refl k, ?_⟩
    · simp only [if_pos hsubs]
    · simp [lostCount, deadNeed, late, copiesOf, hsubs]
  · simp only [if_neg hsubs]
    generalize (if limit = 0 then 2 ^ 32 - 1 else limit) = lim
    obtain ⟨k', cs, hloop, horigin, hplaced, hlost⟩ := h.drainMany
      (subsSnap (k.chan.channels c)) lim hq
    have horigin : cs.map Copy.origin = copiesOf (subsSnap (k.chan.channels c))
        ((k.chan.channels c).ring.items.take (min lim (k.chan.channels c).ring.items.length)) := by
      rw [horigin, ← List.take_take, List.take_length]
    rw [hloop, Option.map_some, ← horigin]
    refine ⟨_, cs, rfl, rfl, ?_, ?_⟩
    · refine hplaced.congr rfl rfl ?_ ?_
      · simp only
        split <;> rfl
      · simp only
        split <;> rfl
    · have hall := hlost []
      rw [List.append_nil] at hall
      rw [hall]
      simp [deadNeed, late]

end Copies

/-! ## Nothing is lost exactly when there is room -/

/-- The number of tasks in the queues that take copies. -/
def queued (k : Kernel) : ℕ :=
  ∑ i ∈ Finset.range k.sched.nWorkers, (k.sched.lqs i).items.length +
    ∑ p ∈ Finset.range gmkPriorityCount, (k.sched.rq.queues p).items.length +
    k.deadRing.items.length

/-- Every copy is counted at one place. -/
theorem count_places {n : ℕ} {cs : List Copy}
    (hw : ∀ c ∈ cs, c.place = .lq → 0 ≤ c.worker ∧ c.worker.toNat < n) :
    ∑ i ∈ Finset.range n, cs.countP (fun c => c.place = .lq ∧ c.worker = (i : ℤ)) +
      ∑ p ∈ Finset.range gmkPriorityCount, cs.countP (fun c => c.place = .rq ∧ c.task.prio = p) +
      cs.countP (fun c => c.place = .dead) + lostCount cs = cs.length := by
  induction cs with
  | nil => simp [lostCount]
  | cons c cs ih =>
    have hrest := ih fun d hd => hw d (List.mem_cons_of_mem _ hd)
    have hhead := hw c List.mem_cons_self
    simp only [List.countP_cons, lostCount, List.length_cons, Finset.sum_add_distrib,
      decide_eq_true_eq] at hrest ⊢
    cases hplace : c.place with
    | lq =>
      obtain ⟨hpos, hlt⟩ := hhead hplace
      have hone : ∑ i ∈ Finset.range n, (if c.worker = (i : ℤ) then 1 else 0) = 1 := by
        rw [Finset.sum_eq_single c.worker.toNat]
        · exact if_pos (by omega)
        · intro i _ hi
          exact if_neg (by omega)
        · intro hnot
          exact absurd (Finset.mem_range.mpr hlt) hnot
      simp only [reduceCtorEq, false_and, true_and, if_false, Finset.sum_const_zero, hone]
      omega
    | rq =>
      have hone : ∑ p ∈ Finset.range gmkPriorityCount, (if c.task.prio = p then 1 else 0) = 1 := by
        rw [Finset.sum_ite_eq, if_pos (Finset.mem_range.mpr c.task.prio_lt)]
      simp only [reduceCtorEq, false_and, true_and, if_false, Finset.sum_const_zero, hone]
      omega
    | dead =>
      simp only [reduceCtorEq, false_and, if_false, if_true, Finset.sum_const_zero]
      omega
    | lost =>
      simp only [reduceCtorEq, false_and, if_false, if_true, Finset.sum_const_zero]
      omega

theorem Placed.queued_eq {k k' : Kernel} {cs : List Copy} (h : Placed k k' cs) :
    queued k' + lostCount cs = queued k + cs.length := by
  have hlen {l l' : List Task} {P : Copy → Bool}
      (he : l'.map Task.content = l.map Task.content ++ contentsAt cs P) :
      l'.length = l.length + cs.countP P := by
    have := congrArg List.length he
    simpa [contentsAt, List.countP_eq_length_filter] using this
  have hcount := count_places h.worker
  unfold queued
  rw [h.nWorkers, hlen h.dead, Finset.sum_congr rfl fun i _ => hlen (h.lqs i),
    Finset.sum_congr rfl fun p _ => hlen (h.rq p), Finset.sum_add_distrib, Finset.sum_add_distrib]
  omega

/-- However the copies are placed, the queues tell how many were lost. -/
theorem Placed.kept_iff {k k' : Kernel} {cs : List Copy} (h : Placed k k' cs) :
    Kept k k' (cs.map Copy.origin) ↔ lostCount cs = 0 := by
  have hzero (ds : List Copy) : (∀ d ∈ ds, d.place ≠ .lost) ↔ lostCount ds = 0 := by
    simp [lostCount, List.countP_eq_zero]
  constructor
  · rintro ⟨ds, hds, hnone, hplaced⟩
    have hlen : ds.length = cs.length := by
      have := congrArg List.length hds
      simpa using this
    have h1 := h.queued_eq
    have h2 := hplaced.queued_eq
    have h3 := (hzero ds).mp hnone
    omega
  · intro hlost
    exact ⟨cs, rfl, (hzero cs).mpr hlost, h⟩

def fullSched : Sched := { gmkSchedInit 1 with rq := fullRq }

/-- A lossless fan-out channel with one message and one subscriber on no worker. -/
def fanEntry : ChanEntry :=
  { ChanEntry.zero with
    mode := gmkChanFanout
    guarantee := gmkChanLossless
    ring := RingMpmc.ofList 4 [default]
    ringCap := 4
    subs := fun _ => ⟨0, -1, true⟩
    nSubs := 1
    isOpen := true }

/-- That channel as number 2, with `dead` as the dead-letter ring. -/
def fanKernel (dead : RingMpmc Task) : Kernel :=
  { tinyKernel with
    sched := fullSched
    chan :=
      { channels := fun i =>
          if i = gmkChanSysDropped then
            { gmkChanRegInit.channels gmkChanSysDropped with ring := dead }
          else fanEntry
        nChannels := 3 } }

theorem fanEntry_ring : fanEntry.ring.Holds [default] := ofList_holds (k := 2) (by decide) (by decide)

theorem fanEntry_copies : drainCopies fanEntry 0 = [(default, -1)] := by
  have hitems : fanEntry.ring.items = [default] := fanEntry_ring.items_eq
  have hsubs : subsSnap fanEntry = [⟨0, -1, true⟩] := rfl
  simp [drainCopies, drainCount, hsubs, hitems, copiesOf, activeCopies]

theorem fanEntry_count : drainCount fanEntry 0 = 1 := by
  have hitems : fanEntry.ring.items = [default] := fanEntry_ring.items_eq
  have hsubs : subsSnap fanEntry = [⟨0, -1, true⟩] := rfl
  simp [drainCount, hsubs, hitems]

theorem fullSched_need : deadNeed fullSched [(default, -1)] = 1 := by
  have hlq : fullSched.NoLq (-1) := Or.inl (by decide)
  have hrq := (Rq.refuses_iff_room _ _).mp (fullRq_refuses (default : Task).prio)
  have hlate (p : ℕ) : late fullSched [(default, -1)] p =
      late fullSched [] p + if (default : Task).prio = p then 1 else 0 := late_cons_none hlq p
  refine (deadNeed_refused (Task.prio_lt _) hlate hrq).trans ?_
  simp [late]

theorem fanKernel_lossless {dead : RingMpmc Task} (hdead : dead.Holds dead.items)
    (htwo : 2 ≤ dead.cap) : Lossless (fanKernel dead) 2 := ⟨rfl, rfl, rfl, hdead, htwo⟩

theorem fanKernel_entry (dead : RingMpmc Task) : (fanKernel dead).chan.channels 2 = fanEntry := rfl

theorem fanKernel_room (dead : RingMpmc Task) :
    deadRoom (fanKernel dead) = dead.cap - dead.items.length := rfl

theorem fanKernel_need (dead : RingMpmc Task) :
    deadNeed (fanKernel dead).sched [(default, -1)] = 1 := fullSched_need

theorem fanKernel_ring (dead : RingMpmc Task) : ((fanKernel dead).chan.channels 2).ring.Holds
    ((fanKernel dead).chan.channels 2).ring.items := by
  rw [fanKernel_entry, fanEntry_ring.items_eq]
  exact fanEntry_ring

end Ggmk

import Ggmk.Chan.Lossless
import Ggmk.Chan.Registry

/-! A drain of a lossy fan-out channel: each copy is tried once, in the order of the ring and of
the subscriptions, and a copy that no queue takes is a drop. -/
namespace Ggmk
open Word RingMpmc

/-! ## Attempts -/

/-- The copy of a message for the subscriber at position `sub`. -/
structure FanCopy where
  msg : Task
  sub : ℕ
  worker : ℤ

/-- The copies for the active subscribers, the first of `subs` being at position `j`. -/
def subCopies (j : ℕ) (subs : List ChanSub) (t : Task) : List FanCopy :=
  ((subs.zipIdx j).filter fun p => p.1.active).map fun p => ⟨t, p.2, p.1.workerId⟩

def fanCopies (subs : List ChanSub) (msgs : List Task) : List FanCopy :=
  msgs.flatMap (subCopies 0 subs)

/-- A copy as `_gmk_enqueue` stamps it, and where it goes. -/
structure Attempt where
  copy : FanCopy
  stored : Task
  place : Place

def attempt (s : Sched) (x : FanCopy) : Attempt where
  copy := x
  stored := (gmkEnqueue s x.msg x.worker).2.1
  place :=
    if (gmkEnqueue s x.msg x.worker).1 = false then .lost
    else if s.NoLq x.worker then .rq else .lq

/-- One `_gmk_enqueue` for each copy. -/
def attempts : Sched → List FanCopy → List Attempt × Sched
  | s, [] => ([], s)
  | s, x :: xs =>
      let rest := attempts (gmkEnqueue s x.msg x.worker).2.2 xs
      (attempt s x :: rest.1, rest.2)

def dropped (as : List Attempt) : ℕ := as.countP fun a => a.place = .lost

/-- The number of tasks in the local queues and the ready queue. -/
def Sched.queued (s : Sched) : ℕ := Multiset.card (s.lqTasks + s.rq.tasks)

theorem attempts_append (s : Sched) (xs ys : List FanCopy) : attempts s (xs ++ ys) =
    ((attempts s xs).1 ++ (attempts (attempts s xs).2 ys).1,
      (attempts (attempts s xs).2 ys).2) := by
  induction xs generalizing s with
  | nil => rfl
  | cons x xs ih => simp only [List.cons_append, attempts, ih]

theorem attempts_copies (s : Sched) (xs : List FanCopy) :
    (attempts s xs).1.map Attempt.copy = xs := by
  induction xs generalizing s with
  | nil => rfl
  | cons x xs ih => simp only [attempts, List.map_cons, ih, attempt]

theorem attempts_stored (s : Sched) (xs : List FanCopy) :
    ∀ a ∈ (attempts s xs).1, a.stored.content = a.copy.msg.content := by
  induction xs generalizing s with
  | nil => simp [attempts]
  | cons x xs ih =>
    simp only [attempts, List.forall_mem_cons]
    exact ⟨by simp [attempt, gmkEnqueue_task], ih _⟩

/-- The queues have grown by the attempts that found a place in them. -/
structure Tried (s s' : Sched) (as : List Attempt) : Prop where
  queued : s'.queued + dropped as = s.queued + as.length
  lqs : ∀ w, (s'.lqs w).items = (s.lqs w).items ++
    (as.filter fun a => a.place = .lq ∧ a.copy.worker = (w : ℤ)).map Attempt.stored

theorem Tried.refl (s : Sched) : Tried s s [] := ⟨by simp [dropped], by simp⟩

theorem Tried.trans {s s' s'' : Sched} {as bs : List Attempt} (h : Tried s s' as)
    (h' : Tried s' s'' bs) : Tried s s'' (as ++ bs) := by
  constructor
  · have h1 := h.queued
    have h2 := h'.queued
    simp only [dropped, List.countP_append, List.length_append] at h1 h2 ⊢
    omega
  · intro w
    rw [h'.lqs, h.lqs]
    simp

theorem tried_attempt (s : Sched) (x : FanCopy) :
    Tried s (gmkEnqueue s x.msg x.worker).2.2 [attempt s x] := by
  have hcase := gmkEnqueue_cases s x.msg x.worker
  have hfalse := gmkEnqueue_eq_false_iff s x.msg x.worker
  simp only [attempt]
  generalize gmkEnqueue s x.msg x.worker = res at hcase hfalse ⊢
  cases hcase with
  | toLq i lq hw hi hpush =>
    obtain ⟨hitems, -, hroom⟩ := gmkLqPush_some hpush
    have hlq : ¬ s.NoLq x.worker := by
      rw [hw]
      rintro (h | h | h)
      · omega
      · omega
      · exact hroom h
    simp only [Bool.true_eq_false, if_false, if_neg hlq]
    constructor
    · simp only [Sched.queued, Multiset.card_add, dropped, List.countP_singleton]
      have hadd := congrArg Multiset.card (Sched.lqTasks_push hi hitems)
      rw [Multiset.card_cons] at hadd
      have hsame : Sched.lqTasks { s with
          nextSeq := s.nextSeq + 1
          lqs := Function.update s.lqs i lq } =
          Sched.lqTasks { s with lqs := Function.update s.lqs i lq } := rfl
      rw [hsame, hadd]
      simp
      omega
    · intro w
      by_cases hwi : w = i
      · subst hwi
        simp [hitems, hw]
      · have hne : ¬ ((i : ℤ) = w) := by omega
        simp [Function.update_of_ne hwi, hw, hne]
  | toRq rq hlq hpush =>
    simp only [Bool.true_eq_false, if_false, if_pos hlq]
    constructor
    · simp only [Sched.queued, Multiset.card_add, dropped, List.countP_singleton,
        gmkRqPush_tasks hpush, Multiset.card_cons]
      simp [Sched.lqTasks]
      omega
    · simp
  | refused hlq hrq =>
    simp only [if_true]
    exact ⟨rfl, by simp⟩

theorem tried_attempts (s : Sched) (xs : List FanCopy) :
    Tried s (attempts s xs).2 (attempts s xs).1 := by
  induction xs generalizing s with
  | nil => exact .refl s
  | cons x xs ih => exact (tried_attempt s x).trans (ih _)

/-! ## Ring order -/

/-- A message has at most one copy for the subscriber at a position. -/
theorem subCopies_of_sub (j : ℕ) (subs : List ChanSub) (t : Task) (i : ℕ) :
    (((subCopies j subs t).filter fun x => x.sub = i).map FanCopy.msg).Sublist [t] := by
  have hmsg : ∀ m ∈ ((subCopies j subs t).filter fun x => x.sub = i).map FanCopy.msg, m = t := by
    intro m hm
    simp only [subCopies, List.mem_map, List.mem_filter] at hm
    obtain ⟨x, ⟨⟨p, -, rfl⟩, -⟩, rfl⟩ := hm
    rfl
  have hnodup : ((subCopies j subs t).map FanCopy.sub).Nodup := by
    have hsub : ((subCopies j subs t).map FanCopy.sub).Sublist ((subs.zipIdx j).map Prod.snd) := by
      simp only [subCopies, List.map_map]
      exact (List.filter_sublist).map _
    rw [List.zipIdx_map_snd] at hsub
    exact hsub.nodup List.nodup_range'
  have hlen : (((subCopies j subs t).filter fun x => x.sub = i).map FanCopy.msg).length ≤ 1 := by
    have hcount := List.nodup_iff_count_le_one.mp hnodup i
    rw [List.count_eq_countP, List.countP_map, List.countP_eq_length_filter] at hcount
    rw [List.length_map]
    exact hcount
  rw [List.eq_replicate_of_mem hmsg]
  exact (List.replicate_sublist_replicate t).mpr hlen

theorem fanCopies_of_sub (subs : List ChanSub) (msgs : List Task) (i : ℕ) :
    (((fanCopies subs msgs).filter fun x => x.sub = i).map FanCopy.msg).Sublist msgs := by
  induction msgs with
  | nil => simp [fanCopies]
  | cons t msgs ih =>
    simp only [fanCopies, List.flatMap_cons, List.filter_append, List.map_append]
    exact (subCopies_of_sub 0 subs t i).append ih

theorem subCopies_length (j : ℕ) (subs : List ChanSub) (t : Task) :
    (subCopies j subs t).length = nActive subs := by
  have hcount : (subs.zipIdx j).countP (fun p => p.1.active) =
      ((subs.zipIdx j).map Prod.fst).countP ChanSub.active := by
    rw [List.countP_map]
    rfl
  rw [subCopies, List.length_map, ← List.countP_eq_length_filter, hcount, List.zipIdx_map_fst,
    nActive]

theorem fanCopies_length (subs : List ChanSub) (msgs : List Task) :
    (fanCopies subs msgs).length = nActive subs * msgs.length := by
  induction msgs with
  | nil => rfl
  | cons t msgs ih =>
    rw [fanCopies, List.flatMap_cons, List.length_append, subCopies_length, List.length_cons,
      Nat.mul_succ, Nat.add_comm]
    exact congrArg (· + _) ih

/-- What a subscriber finds in its local queue is in the order of the messages. -/
theorem attempts_order (s : Sched) (subs : List ChanSub) (msgs : List Task) (i : ℕ) :
    (((attempts s (fanCopies subs msgs)).1.filter fun a => a.copy.sub = i ∧ a.place = .lq).map
      fun a => a.stored.content).Sublist (msgs.map Task.content) := by
  set as := (attempts s (fanCopies subs msgs)).1 with has
  have hcontent : (as.filter fun a => a.copy.sub = i ∧ a.place = .lq).map
      (fun a => a.stored.content) =
      (as.filter fun a => a.copy.sub = i ∧ a.place = .lq).map fun a => a.copy.msg.content := by
    apply List.map_congr_left
    intro a ha
    exact attempts_stored _ _ a (List.mem_of_mem_filter ha)
  have hplace : (as.filter fun a => a.copy.sub = i ∧ a.place = .lq).Sublist
      (as.filter fun a => a.copy.sub = i) := by
    apply List.monotone_filter_right
    intro a ha
    simp only [decide_eq_true_eq] at ha ⊢
    exact ha.1
  have hcopies : (as.filter fun a => a.copy.sub = i).map (fun a => a.copy.msg) =
      ((fanCopies subs msgs).filter fun x => x.sub = i).map FanCopy.msg := by
    rw [← attempts_copies s (fanCopies subs msgs), List.filter_map, List.map_map]
    rfl
  rw [hcontent]
  have hsub := (hplace.map fun a => a.copy.msg).trans (hcopies ▸ fanCopies_of_sub subs msgs i)
  simpa only [List.map_map, Function.comp_def] using hsub.map Task.content

/-! ## The drain -/

section Drain
variable {k : Kernel} {c : ℕ}

/-- `k'` is `k` after the attempts of `xs`, with their drops counted. -/
structure Fanned (c : ℕ) (k k' : Kernel) (xs : List FanCopy) : Prop where
  sched : k'.sched = (attempts k.sched xs).2
  entry : k'.chan.channels c = { k.chan.channels c with
    dropCount := (k.chan.channels c).dropCount + UInt64.ofNat (dropped (attempts k.sched xs).1) }

theorem Fanned.refl (c : ℕ) (k : Kernel) : Fanned c k k [] := ⟨rfl, by simp [attempts, dropped]⟩

theorem Fanned.trans {k' k'' : Kernel} {xs ys : List FanCopy} (h : Fanned c k k' xs)
    (h' : Fanned c k' k'' ys) : Fanned c k k'' (xs ++ ys) := by
  constructor
  · rw [h'.sched, h.sched, attempts_append]
  · rw [h'.entry, h.entry, h.sched, attempts_append]
    simp only [dropped, List.countP_append, UInt64.ofNat_add, UInt64.add_assoc]

/-- The copy for an active subscriber. -/
theorem fanned_deliverCopy (hg : (k.chan.channels c).guarantee = gmkChanLossy) (t : Task) (i : ℕ)
    {sub : ChanSub} (ha : sub.active) :
    Fanned c k (deliverCopy k c t i sub) [⟨t, i, sub.workerId⟩] := by
  simp only [deliverCopy, ha, if_true]
  constructor
  · simp only [attempts]
    generalize gmkEnqueue k.sched t sub.workerId = res
    obtain ⟨ok, copy, s⟩ := res
    cases ok with
    | true => rfl
    | false =>
      simp only [copyFailed, hg, if_true, Bool.false_eq_true, if_false]
      split <;> rfl
  · simp only [attempts, attempt, dropped, List.countP_singleton]
    generalize gmkEnqueue k.sched t sub.workerId = res
    obtain ⟨ok, copy, s⟩ := res
    cases ok with
    | true =>
      have hplace : ¬ (if k.sched.NoLq sub.workerId then Place.rq else Place.lq) = .lost := by
        split <;> simp
      simp [hplace]
    | false =>
      simp only [copyFailed, hg, if_true, Bool.false_eq_true, if_false]
      split <;> simp [hg]

/-- The loop over the subscribers. -/
theorem fanned_deliverCopies (hg : (k.chan.channels c).guarantee = gmkChanLossy) (t : Task)
    (j : ℕ) (subs : List ChanSub) :
    Fanned c k (deliverCopies c t j subs k) (subCopies j subs t) := by
  induction subs generalizing k j with
  | nil => exact .refl c k
  | cons sub subs ih =>
    rw [deliverCopies]
    by_cases ha : sub.active
    · have hone := fanned_deliverCopy hg t j ha
      have hrest := ih (k := deliverCopy k c t j sub) (by rw [hone.entry]; exact hg) (j + 1)
      simpa [subCopies, ha] using hone.trans hrest
    · have hskip : deliverCopy k c t j sub = k := by simp [deliverCopy, ha]
      rw [hskip]
      simpa [subCopies, ha] using ih hg (j + 1)

theorem fanned_drainTask (hm : (k.chan.channels c).mode = gmkChanFanout)
    (hg : (k.chan.channels c).guarantee = gmkChanLossy) (subs : List ChanSub) (t : Task) :
    Fanned c k (drainTask k c subs t) (subCopies 0 subs t) := by
  have hmode : ¬ (k.chan.channels c).mode = gmkChanP2p := by
    rw [hm]
    decide
  simp only [drainTask, if_neg hmode, fanOut]
  split
  · have h := fanned_deliverCopies (k := { k with
      heap := retainTimes k.heap t.payloadPtr.toNat (nActive subs - 1) }) hg t 0 subs
    exact ⟨h.sched, h.entry⟩
  · exact fanned_deliverCopies hg t 0 subs

/-- The drain loop on a ring that represents the queue `q`. -/
theorem fanned_drainLoop (hm : (k.chan.channels c).mode = gmkChanFanout)
    (hg : (k.chan.channels c).guarantee = gmkChanLossy) (subs : List ChanSub) (n : ℕ)
    {q : List Task} (hq : (k.chan.channels c).ring.Holds q) : ∃ k' r,
      drainLoop c subs n k = some (min n q.length, k') ∧ r.Holds (q.drop n) ∧
      k'.sched = (attempts k.sched (fanCopies subs (q.take n))).2 ∧
      k'.chan.channels c = { k.chan.channels c with
        ring := r
        dropCount := (k.chan.channels c).dropCount +
          UInt64.ofNat (dropped (attempts k.sched (fanCopies subs (q.take n))).1) } := by
  induction n generalizing k q with
  | zero =>
    exact ⟨k, _, by simp [drainLoop], by simpa using hq, by simp [fanCopies, attempts],
      by simp [fanCopies, attempts, dropped]⟩
  | succ n ih =>
    cases q with
    | nil =>
      exact ⟨k, _, by simp [drainLoop, hq.pop_empty], by simpa using hq,
        by simp [fanCopies, attempts], by simp [fanCopies, attempts, dropped]⟩
    | cons t q =>
      obtain ⟨r, hpop, hr, -⟩ := hq.pop_ok
      set k₁ := k.setChan c { k.chan.channels c with ring := r } with hk₁
      have hentry₁ : k₁.chan.channels c = { k.chan.channels c with ring := r } := by simp [hk₁]
      have hone := fanned_drainTask (k := k₁) (c := c) (by rw [hentry₁]; exact hm)
        (by rw [hentry₁]; exact hg) subs t
      have hentry₂ := hone.entry
      rw [hentry₁] at hentry₂
      obtain ⟨k', r', hloop, hr', hsched, hentry⟩ := ih (k := drainTask k₁ c subs t)
        (by rw [hentry₂]; exact hm) (by rw [hentry₂]; exact hg) (q := q)
        (by rw [hentry₂]; exact hr)
      refine ⟨k', r', ?_, hr', ?_, ?_⟩
      · simp only [drainLoop, hpop]
        rw [show drainLoop c subs n (drainTask k₁ c subs t) = _ from hloop, Option.map_some,
          List.length_cons, Nat.succ_min_succ]
      · rw [hsched, hone.sched, List.take_succ_cons, fanCopies, fanCopies, List.flatMap_cons,
          attempts_append]
        rfl
      · rw [hentry, hentry₂, hone.sched, List.take_succ_cons, fanCopies, fanCopies,
          List.flatMap_cons, attempts_append]
        simp only [dropped, List.countP_append, UInt64.ofNat_add, UInt64.add_assoc]
        rfl

end Drain

/-! ## What a caller sees -/

/-- The count of `gmk_chan_drain` as the `int` it returns. -/
def gmkChanDrainRc (k : Kernel) (chanId limit : ℕ) : Option (ℤ × Kernel) :=
  (gmkChanDrain k chanId limit).map fun p => (int32 p.1, p.2)

/-- A lossy fan-out channel of the registry with an active subscriber. -/
structure LossyFanout (k : Kernel) (c : ℕ) : Prop where
  id : c < k.chan.nChannels
  mode : (k.chan.channels c).mode = gmkChanFanout
  guarantee : (k.chan.channels c).guarantee = gmkChanLossy
  ring : (k.chan.channels c).ring.Initialised
  subs : (k.chan.channels c).nSubs ≤ gmkMaxChanSubs
  active : 1 ≤ nActive (subsSnap (k.chan.channels c))

/-- The messages a drain is to take: all that are buffered, or `limit` of them. -/
def drainSize (ch : ChanEntry) (limit : UInt32) : ℕ :=
  if limit = 0 then gmkRingMpmcCount ch.ring else min limit.toNat (gmkRingMpmcCount ch.ring)

/-- The attempts for the `d` oldest messages of channel `c`. -/
def drainAttempts (k : Kernel) (c d : ℕ) : List Attempt × Sched :=
  attempts k.sched
    (fanCopies (subsSnap (k.chan.channels c)) ((k.chan.channels c).ring.items.take d))

/-- A drain of `d` messages that returned `rc` has tried each copy, has queued or dropped it, and
each subscriber's local queue holds its copies in the order of the ring. -/
structure Accounts (k : Kernel) (c d : ℕ) (rc : ℤ) (k' : Kernel) : Prop where
  returns : rc = d
  ring : (k'.chan.channels c).ring.items = (k.chan.channels c).ring.items.drop d
  attempted : k'.sched = (drainAttempts k c d).2
  balance : nActive (subsSnap (k.chan.channels c)) * d + k.sched.queued =
    k'.sched.queued + ((k'.chan.channels c).dropCount - (k.chan.channels c).dropCount).toNat
  lqs : ∀ w, (k'.sched.lqs w).items = (k.sched.lqs w).items ++
    ((drainAttempts k c d).1.filter fun a => a.place = .lq ∧ a.copy.worker = (w : ℤ)).map
      Attempt.stored
  order : ∀ i, (((drainAttempts k c d).1.filter fun a => a.copy.sub = i ∧ a.place = .lq).map
    fun a => a.stored.content).Sublist
      (((k.chan.channels c).ring.items.take d).map Task.content)

namespace LossyFanout
variable {k : Kernel} {c : ℕ} (h : LossyFanout k c)
include h

theorem subsSnap_ne : subsSnap (k.chan.channels c) ≠ [] := by
  intro hnil
  have hactive := h.active
  rw [hnil] at hactive
  exact absurd hactive (by decide)

theorem nActive_le : nActive (subsSnap (k.chan.channels c)) ≤ gmkMaxChanSubs := by
  refine List.countP_le_length.trans ?_
  simpa [subsSnap] using h.subs

/-- The drain loop behind `gmk_chan_drain`. -/
theorem drain_eq (limit : UInt32) : ∃ n : ℕ, 0 < n ∧
    (∀ m < 2 ^ 32, min n m = if limit = 0 then m else min limit.toNat m) ∧
    gmkChanDrain k c limit.toNat =
      (drainLoop c (subsSnap (k.chan.channels c)) n k).map fun p =>
        (p.1, if 0 < p.1 then
            p.2.traceWrite 0 gmkEvChanDrain 0 (UInt32.ofNat c) (UInt32.ofNat p.1)
          else p.2) := by
  have hzero : limit.toNat = 0 ↔ limit = 0 := by
    rw [← UInt32.toNat_inj]
    rfl
  refine ⟨if limit.toNat = 0 then 2 ^ 32 - 1 else limit.toNat, ?_, ?_, ?_⟩
  · split <;> omega
  · intro m hm
    by_cases hl : limit = 0
    · rw [if_pos (hzero.mpr hl), if_pos hl]
      omega
    · rw [if_neg (mt hzero.mp hl), if_neg hl]
  · simp only [gmkChanDrain, if_neg (not_le.mpr h.id), if_neg h.subsSnap_ne]

omit h in
/-- One attempt for each active subscriber and message. -/
theorem drainAttempts_length {d : ℕ} (hd : d ≤ (k.chan.channels c).ring.items.length) :
    (drainAttempts k c d).1.length = nActive (subsSnap (k.chan.channels c)) * d := by
  have hall := congrArg List.length (attempts_copies k.sched
    (fanCopies (subsSnap (k.chan.channels c)) ((k.chan.channels c).ring.items.take d)))
  rwa [List.length_map, fanCopies_length, List.length_take, min_eq_left hd] at hall

/-- The drop count does not wrap. -/
theorem dropped_lt (hq : (k.chan.channels c).ring.Holds (k.chan.channels c).ring.items) {d : ℕ}
    (hd : d ≤ (k.chan.channels c).ring.items.length) :
    dropped (drainAttempts k c d).1 < 2 ^ 64 := by
  have hmost : dropped (drainAttempts k c d).1 ≤ (drainAttempts k c d).1.length :=
    List.countP_le_length
  have hmul := Nat.mul_le_mul h.nActive_le (hd.trans hq.length_le)
  rw [drainAttempts_length hd] at hmost
  simp only [gmkMaxChanSubs] at hmul
  omega

/-- A drain of a ring that represents a queue. -/
theorem drain_spec (hq : (k.chan.channels c).ring.Holds (k.chan.channels c).ring.items)
    (limit : UInt32) : ∃ k', gmkChanDrain k c limit.toNat =
      some (drainSize (k.chan.channels c) limit, k') ∧
      Accounts k c (drainSize (k.chan.channels c) limit)
        (drainSize (k.chan.channels c) limit : ℕ) k' := by
  obtain ⟨n, -, hmin, heq⟩ := h.drain_eq limit
  set q := (k.chan.channels c).ring.items with hitems
  have hlen : q.length < 2 ^ 32 := by
    have := hq.length_le
    omega
  have hd : drainSize (k.chan.channels c) limit = min n q.length := by
    rw [drainSize, hq.count_eq, hmin _ hlen]
  obtain ⟨k', r, hloop, hr, hsched, hentry⟩ := fanned_drainLoop h.mode h.guarantee
    (subsSnap (k.chan.channels c)) n hq
  have htake : q.take n = q.take (min n q.length) := by
    rw [← List.take_take, List.take_length]
  have hdrop : q.drop n = q.drop (min n q.length) := by
    rcases le_total n q.length with hle | hle
    · rw [min_eq_left hle]
    · rw [min_eq_right hle, List.drop_length, List.drop_eq_nil_of_le hle]
  have hdle : min n q.length ≤ q.length := min_le_right _ _
  rw [hd, heq, hloop, Option.map_some]
  generalize min n q.length = d at htake hdrop hdle
  rw [htake] at hsched hentry
  rw [hdrop] at hr
  have htried := tried_attempts k.sched (fanCopies (subsSnap (k.chan.channels c)) (q.take d))
  have hcopies := drainAttempts_length (k := k) hdle
  have hdrops : (k'.chan.channels c).dropCount - (k.chan.channels c).dropCount =
      UInt64.ofNat (dropped (drainAttempts k c d).1) := by
    rw [hentry, UInt64.add_comm]
    exact UInt64.add_sub_cancel _ _
  have hbound := h.dropped_lt hq hdle
  refine ⟨_, rfl, rfl, ?_, ?_, ?_, ?_, ?_⟩
  · simp only [apply_ite Kernel.chan, Kernel.traceWrite_chan, ite_self, hentry]
    exact hr.items_eq
  · simp only [apply_ite Kernel.sched, Kernel.traceWrite_sched, ite_self]
    exact hsched
  · simp only [apply_ite Kernel.sched, Kernel.traceWrite_sched, apply_ite Kernel.chan,
      Kernel.traceWrite_chan, ite_self, hdrops, UInt64.toNat_ofNat_of_lt' hbound, hsched]
    have hqueued := htried.queued
    rw [← hcopies]
    simp only [drainAttempts, ← hitems] at hqueued ⊢
    omega
  · simp only [apply_ite Kernel.sched, Kernel.traceWrite_sched, ite_self, hsched]
    exact htried.lqs
  · exact attempts_order k.sched _ _

end LossyFanout

/-- Removing `d` messages of a lossy fan-out channel is accounted for exactly when its ring has
not been overfilled and `d` is an `int`. -/
theorem lossy_drain_accounts_iff {k : Kernel} {c : ℕ} (h : LossyFanout k c) (limit : UInt32) :
    (∃ rc k', gmkChanDrainRc k c limit.toNat = some (rc, k') ∧
      Accounts k c (drainSize (k.chan.channels c) limit) rc k') ↔
    gmkRingMpmcCount (k.chan.channels c).ring ≤ (k.chan.channels c).ring.cap ∧
      drainSize (k.chan.channels c) limit < 2 ^ 31 := by
  obtain ⟨j, hj, hmoves⟩ := h.ring
  obtain ⟨hiff, hstuck⟩ := holds_iff_count_le hj hmoves
  rw [← hiff]
  by_cases hq : (k.chan.channels c).ring.Holds (k.chan.channels c).ring.items
  · obtain ⟨k', hdrain, hacc⟩ := h.drain_spec hq limit
    have hrc : gmkChanDrainRc k c limit.toNat =
        some (int32 (drainSize (k.chan.channels c) limit), k') := by
      rw [gmkChanDrainRc, hdrain, Option.map_some]
    rw [← int32_eq_self_iff]
    constructor
    · rintro ⟨rc, k'', hrun, hret⟩
      obtain ⟨rfl, -⟩ := Prod.mk.inj (Option.some.inj (hrc.symm.trans hrun))
      exact ⟨hq, hret.returns⟩
    · rintro ⟨-, hval⟩
      exact ⟨_, k', hrc, hval ▸ hacc⟩
  · simp only [hq, false_and, iff_false]
    rintro ⟨rc, k', hrun, hret⟩
    -- the count is above the capacity, so the drain is to take a message
    have hover : drainSize (k.chan.channels c) limit ≠ 0 := by
      have hcount := not_le.mp (mt hiff.mpr hq)
      rw [drainSize]
      split
      next => omega
      next hl =>
        have hpos : limit.toNat ≠ 0 := fun hz => hl (UInt32.toNat_inj.mp hz)
        omega
    obtain ⟨n, hn, -, heq⟩ := h.drain_eq limit
    obtain ⟨n, rfl⟩ := Nat.exists_eq_succ_of_ne_zero hn.ne'
    rw [gmkChanDrainRc, heq] at hrun
    simp only [drainLoop] at hrun
    split at hrun
    next => simp at hrun
    next =>
      obtain ⟨rfl, -⟩ := Prod.mk.inj (Option.some.inj hrun)
      have hzero : int32 0 = (0 : ℤ) := rfl
      have hret := hret.returns
      simp only [hzero] at hret
      omega
    next t r hpop => exact hstuck hq t r hpop

/-- A lossy fan-out channel of `slots` slots with two subscribers and two critical messages. -/
def lossyOps (slots : UInt32) : List ChanOp :=
  [.openAs (Lifecycle.NameRun.letters 1) gmkChanFanout gmkChanLossy slots true, .sub 2 0 0,
    .sub 2 0 (-1), .emit 2 { type := 1 }, .emit 2 { type := 2 }]

def lossyKernel (slots : UInt32) : Kernel :=
  ((lossyOps slots).foldl ChanWorld.step (ChanWorld.start tinyKernel)).kernel

theorem lossyKernel_fanout {slots : UInt32}
    (h : 2 < (lossyKernel slots).chan.nChannels ∧
      ((lossyKernel slots).chan.channels 2).mode = gmkChanFanout ∧
      ((lossyKernel slots).chan.channels 2).guarantee = gmkChanLossy ∧
      1 ≤ nActive (subsSnap ((lossyKernel slots).chan.channels 2))) :
    LossyFanout (lossyKernel slots) 2 := by
  have hinv := ((ChanWorld.start_inv tinyKernel).run (lossyOps slots)).1
  exact ⟨h.1, h.2.1, h.2.2.1, hinv.rings 2 (by decide) h.1, hinv.subs 2 h.1, h.2.2.2⟩

/-- Both messages leave a ring of four cells. -/
theorem lossy_drain_accounts_two : drainSize ((lossyKernel 3).chan.channels 2) 0 = 2 ∧
    ∃ rc k', gmkChanDrainRc (lossyKernel 3) 2 0 = some (rc, k') ∧
      Accounts (lossyKernel 3) 2 2 rc k' := by
  have hsize : drainSize ((lossyKernel 3).chan.channels 2) 0 = 2 := by decide +kernel
  have hrun := (lossy_drain_accounts_iff (lossyKernel_fanout (by decide +kernel)) 0).mpr
    (show gmkRingMpmcCount ((lossyKernel 3).chan.channels 2).ring ≤ _ ∧ _ by decide +kernel)
  rw [hsize] at hrun
  exact ⟨hsize, hrun⟩

/-- A single cell that was overfilled is not drained. -/
theorem lossy_drain_spins : ¬ ∀ (k : Kernel) (c : ℕ) (limit : UInt32), LossyFanout k c →
    ∃ rc k', gmkChanDrainRc k c limit.toNat = some (rc, k') ∧
      Accounts k c (drainSize (k.chan.channels c) limit) rc k' := by
  intro hall
  obtain ⟨rc, k', hrun, -⟩ := hall (lossyKernel 1) 2 0 (lossyKernel_fanout (by decide +kernel))
  have hspin : (gmkChanDrainRc (lossyKernel 1) 2 0).isNone := by decide +kernel
  rw [show gmkChanDrainRc (lossyKernel 1) 2 0 = some (rc, k') from hrun] at hspin
  exact absurd hspin (by simp)

end Ggmk

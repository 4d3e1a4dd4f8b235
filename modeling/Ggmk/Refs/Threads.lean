import Ggmk.Chan.Threads
import Ggmk.Refs.Soundness

/-! The counts of all payloads while any number of threads emit, subscribe, drain and dispatch. The
copies that a drain makes are its own until it has made the last one; nobody else can reach their
payload before that. -/
namespace Ggmk
open RingMpmc Guarded

/-- The task of an emit that has not been accepted yet. -/
def ChanPc.front : ChanPc → Multiset Task
  | .check _ t | .count _ t | .full _ t | .fast _ t | .direct _ t _ | .push _ t => {t}
  | _ => 0

/-- The copies that a drain has still to deliver. -/
def ChanPc.back : ChanPc → Multiset Task
  | .p2p _ t | .p2pDead _ t => {t}
  | .retain _ t retained => Multiset.replicate (retained + 1) t
  | .copy d t i => Multiset.replicate (nActive (d.subs.drop i)) t
  | .copyFailed d t _ i | .copyRelease d t _ i =>
      t ::ₘ Multiset.replicate (nActive (d.subs.drop (i + 1))) t
  | _ => 0

/-- The message that a drain has to itself. -/
def ChanPc.own : ChanPc → Option Task
  | .p2p _ t | .p2pDead _ t | .retain _ t _ => some t
  | _ => none

/-- What a drain knows of its channel and its snapshot. -/
structure Drain.Wf (d : Drain) (r : ChanReg) : Prop where
  chan_lt : d.chan < r.nChannels
  chan_ne : d.chan ≠ 0
  active : ∀ sub ∈ d.subs, sub.active
  ne_nil : d.subs ≠ []
  length_le : d.subs.length ≤ gmkMaxChanSubs

/-- What a thread knows of the registry at its place. -/
def ChanPc.Wf (r : ChanReg) : ChanPc → Prop
  | .count c _ | .full c _ | .fast c _ | .direct c _ _ | .push c _ => c < r.nChannels ∧ c ≠ 0
  | .pop d | .p2pDrop d | .p2p d _ | .p2pDead d _ => d.Wf r
  | .copy d _ _ => d.Wf r
  | .copyFailed d t u _ | .copyRelease d t u _ => d.Wf r ∧ u.SameRef t
  | .retain d t retained => d.Wf r ∧ retained + 1 ≤ nActive d.subs ∧ (t.hasRc = false → retained = 0)
  | _ => True

/-- Which tasks carry the references does not matter. -/
theorem Owned.relabel {k : Kernel} {held held' loc loc' : Multiset Task}
    (h : Owned k held loc) (hheld : ∀ p, refs held' p = refs held p)
    (hloc : ∀ p, refs loc' p = refs loc p) : Owned k held' loc' :=
  h.same rfl h.reg (fun p => by rw [frontRefs, frontRefs, refs_add, refs_add, hheld])
    fun p => by rw [backRefs, backRefs, refs_add, refs_add, hloc]

/-- One more copy of a message, with a retain for it. -/
theorem Owned.retainOne {k : Kernel} {held loc : Multiset Task} {t : Task}
    (h : Owned k held (t ::ₘ loc)) (ht : t.hasRc = true)
    (hlt : backRefs k (t ::ₘ loc) t.payloadPtr.toNat < gmkMaxChanSubs) :
    Owned { k with heap := gmkPayloadRetain k.heap t.payloadPtr.toNat } held
      (t ::ₘ t ::ₘ loc) := by
  have hp := h.mem_live ht
  obtain ⟨hcount, hpos⟩ := h.live _ hp
  have hself := Task.ref_self ht
  have hmax : gmkMaxChanSubs = 32 := rfl
  have hstage := h.stage t.payloadPtr.toNat
  have hone : 1 ≤ backRefs k (t ::ₘ loc) t.payloadPtr.toNat := by
    rw [backRefs_cons, hself]
    exact Nat.le_add_left _ _
  obtain ⟨hk, hlive, hup, hrest⟩ := gmkPayloadRetain_spec h.heap hp (by omega)
  have hback (q : ℕ) : backRefs { k with heap := gmkPayloadRetain k.heap t.payloadPtr.toNat }
      (t ::ₘ t ::ₘ loc) q = backRefs k (t ::ₘ loc) q + t.ref q := backRefs_cons ..
  have hfront (q : ℕ) : frontRefs { k with heap := gmkPayloadRetain k.heap t.payloadPtr.toNat }
      held q = frontRefs k held q := rfl
  have hself' := hback t.payloadPtr.toNat
  rw [hself] at hself'
  refine h.recount t.payloadPtr.toNat hk h.reg ?_ ?_ hrest ?_ ?_ ?_
  · intro q hne
    rw [hback, Task.ref_of_ne hne]
    exact ⟨rfl, rfl⟩
  · intro q _
    rw [show Heap.live _ = _ from hlive]
  · intro _
    rw [show Heap.refcount _ _ = _ from hup, hfront, hself']
    omega
  · intro hmem
    rw [show Heap.live _ = _ from hlive] at hmem
    exact absurd hp hmem
  · rw [hfront, hself']
    omega

/-- A failed copy keeps its reference for the release that follows. -/
theorem Owned.failCopy {k : Kernel} {held loc : Multiset Task} {t u : Task} {c i : ℕ}
    (h : Owned k held (t ::ₘ loc)) (hu : u.SameRef t)
    (hsafe : t.hasRc = true → (k.chan.channels c).guarantee ≠ gmkChanLossy → DeadFull k) :
    Owned (failCopy k c t u i) held (t ::ₘ loc) := by
  rw [Ggmk.failCopy]
  split
  · exact h.frame rfl rfl (sameChans_countDrop k c)
  next hlossless =>
    cases ht : t.hasRc with
    | true =>
      rw [routeToDeadLetter_full k u (hsafe ht hlossless) h.dead_ring h.reg.dropped.two_le]
      exact h
    | false =>
      have hdead := h.deadLetter (fun p hp => absurd (Task.ref_of_not ht p) hp) (by simp [ht]) hu
      refine hdead.relabel (fun _ => rfl) fun p => ?_
      rw [refs_cons, Task.ref_of_not ht, Nat.add_zero]

theorem failCopy_sched (k : Kernel) (c : ℕ) (t u : Task) (i : ℕ) :
    (failCopy k c t u i).sched = k.sched := by
  unfold failCopy
  split
  · rfl
  · exact routeToDeadLetter_sched k u

theorem failCopy_nChannels (k : Kernel) (c : ℕ) (t u : Task) (i : ℕ) :
    (failCopy k c t u i).chan.nChannels = k.chan.nChannels := by
  unfold failCopy
  split
  · rfl
  · exact routeToDeadLetter_nChannels k u

theorem ringTasks_setChan {k : Kernel} {c : ℕ} {ch : ChanEntry}
    (hring : ch.ring = (k.chan.channels c).ring) : (k.setChan c ch).ringTasks = k.ringTasks := by
  refine Finset.sum_congr rfl fun d _ => ?_
  by_cases hd : d = c
  · rw [hd, Kernel.setChan_self, hring]
  · rw [Kernel.setChan_of_ne _ _ _ hd]

/-- A closed channel keeps its messages. -/
theorem Owned.close {k : Kernel} {held loc : Multiset Task} {c : ℕ} (h : Owned k held loc) :
    Owned (gmkChanClose k c).2 held loc := by
  unfold gmkChanClose
  split
  · exact h
  · split
    · exact h
    next hsys =>
      have h0 : c ≠ 0 := fun hc => hsys (hc ▸ Nat.zero_le _)
      have hset : Owned (k.setChan c { k.chan.channels c with isOpen := false }) held loc := by
        refine h.same rfl (h.reg.setChan h0 (fun hc => ?_) fun hdead => ?_) (fun p => ?_) fun _ => rfl
        · obtain ⟨hring, hle, hactive, hp2p⟩ := h.reg.chan c hc h0
          exact ⟨hring, hle, hactive, hp2p⟩
        · exact absurd hdead.le hsys
        · exact congrArg (fun m => refs (held + m) p) (ringTasks_setChan rfl)
      exact hset.frame rfl rfl (.refl _)

namespace ChanThreads
variable {n : ℕ} {s s' : ChanThreads n} {v : Fin n} {t u : Task} {p : ℕ}

/-- The tasks of emits and the copies of drains that are under way. -/
def calls (s : ChanThreads n) : Multiset Task := ∑ v, ((s.pc v).front + (s.pc v).back)

/-- All copies of tasks. -/
def places (s : ChanThreads n) : Multiset Task :=
  s.held + s.kernel.ringTasks + s.kernel.sched.readyTasks + s.running + s.calls

/-- A payload that is not freed counts the copies that refer to it, and no copy refers to a payload
that is. -/
structure Sound (s : ChanThreads n) : Prop where
  counts : ∀ p ∈ s.kernel.heap.live, s.kernel.heap.refcount p = refs s.places p
  fresh : ∀ t ∈ s.places, t.hasRc = true → t.payloadPtr.toNat ∈ s.kernel.heap.live

/-- No reference is lost or given up twice at this place of a call: a push does not overwrite the
message in an occupied ring of one slot, a point-to-point message that becomes a dead letter is
stored, and a failed copy on a lossless channel is not. -/
def CallSafe (k : Kernel) : ChanPc → Prop
  | .push c _ => 2 ≤ (k.chan.channels c).ring.cap ∨ gmkRingMpmcCount (k.chan.channels c).ring = 0
  | .p2pDead _ t => t.hasRc = true → ¬ DeadFull k
  | .copyFailed d t _ _ =>
      t.hasRc = true → (k.chan.channels d.chan).guarantee ≠ gmkChanLossy → DeadFull k
  | _ => True

def Safe (s : ChanThreads n) : ChanAct n → Prop
  | .step v => CallSafe s.kernel (s.pc v)
  | .retry t => t.hasRc = true → ¬ s.kernel.sched.rq.Refuses t.prio
  | _ => True

/-- The tasks before delivery, those of emits among them. -/
def fronts (s : ChanThreads n) : Multiset Task := s.held + ∑ v, (s.pc v).front

/-- The tasks that are being dispatched and the copies of drains. -/
def backs (s : ChanThreads n) : Multiset Task := s.running + ∑ v, (s.pc v).back

/-- What the other threads have. -/
def otherFronts (s : ChanThreads n) (v : Fin n) : Multiset Task :=
  s.held + ∑ u ∈ Finset.univ.erase v, (s.pc u).front

def otherBacks (s : ChanThreads n) (v : Fin n) : Multiset Task :=
  s.running + ∑ u ∈ Finset.univ.erase v, (s.pc u).back

theorem fronts_eq (s : ChanThreads n) (v : Fin n) : s.fronts = (s.pc v).front + s.otherFronts v := by
  rw [fronts, otherFronts, ← Finset.add_sum_erase _ _ (Finset.mem_univ v), add_left_comm]

theorem backs_eq (s : ChanThreads n) (v : Fin n) : s.backs = (s.pc v).back + s.otherBacks v := by
  rw [backs, otherBacks, ← Finset.add_sum_erase _ _ (Finset.mem_univ v), add_left_comm]

/-- The references are owned, and those to a message that a drain has to itself are in its hands. -/
structure Inv (s : ChanThreads n) : Prop where
  owned : Owned s.kernel s.fronts s.backs
  wf : ∀ v, (s.pc v).Wf s.kernel.chan
  own : ∀ v t, (s.pc v).own = some t → ∀ p, t.ref p ≠ 0 →
    backRefs s.kernel s.backs p = refs (s.pc v).back p

theorem refs_singleton (t : Task) (p : ℕ) : refs {t} p = t.ref p := by
  rw [← Multiset.cons_zero, refs_cons, refs_zero, zero_add]

theorem own_pos (ht : (s.pc v).own = some t) (hp : t.ref p ≠ 0) :
    refs (s.pc v).back p ≠ 0 := by
  cases hpc : s.pc v <;> rw [hpc] at ht <;> simp only [ChanPc.own, Option.some.injEq, reduceCtorEq] at ht
  all_goals subst ht
  all_goals simp only [ChanPc.back, refs_singleton, Owned.refs_replicate]
  · exact hp
  · exact hp
  · exact Nat.mul_ne_zero (Nat.succ_ne_zero _) hp

theorem wf_congr {r r' : ChanReg} (hn : r'.nChannels = r.nChannels) {l : ChanPc} (h : l.Wf r) :
    l.Wf r' := by
  have hd {d : Drain} (h : d.Wf r) : d.Wf r' := ⟨hn ▸ h.1, h.2, h.3, h.4, h.5⟩
  cases l <;> simp only [ChanPc.Wf, hn] at h ⊢
  all_goals first | exact h | exact hd h | exact ⟨hd h.1, h.2⟩

theorem refs_mono {m m' : Multiset Task} (h : m ≤ m') (p : ℕ) : refs m p ≤ refs m' p :=
  Multiset.countP_le_of_le _ h

theorem back_le_otherBacks {u : Fin n} (huv : u ≠ v) : (s.pc u).back ≤ s.otherBacks v := by
  have hmem : u ∈ Finset.univ.erase v := Finset.mem_erase.mpr ⟨huv, Finset.mem_univ u⟩
  have hsum := Finset.single_le_sum (f := fun u => (s.pc u).back) (fun _ _ => Multiset.zero_le _) hmem
  exact hsum.trans (Multiset.le_add_left _ _)

theorem otherFronts_of {l : ChanPc} (hpc : s'.pc = Function.update s.pc v l) :
    s'.otherFronts v = s'.held + ∑ u ∈ Finset.univ.erase v, (s.pc u).front := by
  rw [otherFronts, hpc]
  congr 1
  refine Finset.sum_congr rfl fun u hu => ?_
  rw [Function.update_of_ne (Finset.ne_of_mem_erase hu)]

theorem otherBacks_of {l : ChanPc} (hpc : s'.pc = Function.update s.pc v l) :
    s'.otherBacks v = s'.running + ∑ u ∈ Finset.univ.erase v, (s.pc u).back := by
  rw [otherBacks, hpc]
  congr 1
  refine Finset.sum_congr rfl fun u hu => ?_
  rw [Function.update_of_ne (Finset.ne_of_mem_erase hu)]

/-- What a drain has to itself stays so when only references change that it does not hold. -/
theorem Inv.own_keep (h : s.Inv) {k : Kernel} {backs : Multiset Task} {w : Fin n}
    (ht : (s.pc w).own = some t) (hp : t.ref p ≠ 0)
    (hsame : frontRefs s.kernel s.fronts p = 0 → refs s.backs p = refs (s.pc w).back p →
      backRefs k backs p = backRefs s.kernel s.backs p) :
    backRefs k backs p = refs (s.pc w).back p := by
  have hown := h.own w t ht p hp
  have hpos := own_pos ht hp
  have hle : refs (s.pc w).back p ≤ refs s.backs p := by
    rw [backs_eq s w, refs_add]
    exact Nat.le_add_right _ _
  have hback : backRefs s.kernel s.backs p = refs s.kernel.sched.readyTasks p + refs s.backs p :=
    refs_add ..
  refine (hsame ?_ (by omega)).trans hown
  rcases h.owned.stage p with ⟨hfront, -⟩ | ⟨-, hzero⟩ <;> omega

/-- A step of thread `v`. -/
theorem Inv.move (h : s.Inv) {l : ChanPc} (hpc : s'.pc = Function.update s.pc v l)
    (hrunning : s'.running = s.running)
    (hown : Owned s'.kernel (l.front + s'.otherFronts v) (l.back + s.otherBacks v))
    (hn : s'.kernel.chan.nChannels = s.kernel.chan.nChannels) (hwf : l.Wf s'.kernel.chan)
    (hself : ∀ t, l.own = some t → ∀ p, t.ref p ≠ 0 →
      backRefs s'.kernel (l.back + s.otherBacks v) p = refs l.back p)
    (hother : ∀ p, frontRefs s.kernel s.fronts p = 0 → refs (s.pc v).back p = 0 →
      backRefs s'.kernel (l.back + s.otherBacks v) p = backRefs s.kernel s.backs p) : s'.Inv := by
  have hpcv : s'.pc v = l := by rw [hpc, Function.update_self]
  have hpcu (u : Fin n) (hu : u ≠ v) : s'.pc u = s.pc u := by rw [hpc, Function.update_of_ne hu]
  have hbacks : s'.backs = l.back + s.otherBacks v := by
    rw [backs_eq s' v, hpcv, otherBacks_of hpc, hrunning]
    rfl
  refine ⟨?_, fun u => ?_, fun u t ht p hp => ?_⟩
  · rw [hbacks, fronts_eq s' v, hpcv]
    exact hown
  · by_cases hu : u = v
    · rw [hu, hpcv]
      exact hwf
    · rw [hpcu u hu]
      exact wf_congr hn (h.wf u)
  · rw [hbacks]
    by_cases hu : u = v
    · subst hu
      rw [hpcv] at ht ⊢
      exact hself t ht p hp
    · rw [hpcu u hu] at ht ⊢
      refine h.own_keep ht hp fun hfront hback => hother p hfront ?_
      have hle := refs_mono (back_le_otherBacks (s := s) hu) p
      rw [backs_eq s v, refs_add] at hback
      omega

/-- A step outside of the calls. -/
theorem Inv.keep (h : s.Inv) (hpc : s'.pc = s.pc) (hown : Owned s'.kernel s'.fronts s'.backs)
    (hn : s'.kernel.chan.nChannels = s.kernel.chan.nChannels)
    (hother : ∀ p, frontRefs s.kernel s.fronts p = 0 → refs s.running p = 0 →
      backRefs s'.kernel s'.backs p = backRefs s.kernel s.backs p) : s'.Inv := by
  refine ⟨hown, fun u => ?_, fun u t ht p hp => ?_⟩
  · rw [hpc]
    exact wf_congr hn (h.wf u)
  · rw [hpc] at ht ⊢
    refine h.own_keep ht hp fun hfront hback => hother p hfront ?_
    have hle : refs (s.pc u).back p ≤ refs (∑ u, (s.pc u).back) p :=
      refs_mono (Finset.single_le_sum (f := fun u => (s.pc u).back)
        (fun _ _ => Multiset.zero_le _) (Finset.mem_univ u)) p
    rw [backs, refs_add] at hback
    omega

/-! ## The calls -/

section Calls
variable {k : Kernel} {l : ChanPc} {c : ℕ} {d : Drain}

theorem Inv.goto (h : s.Inv)
    (hown : Owned k (l.front + s.otherFronts v) (l.back + s.otherBacks v))
    (hn : k.chan.nChannels = s.kernel.chan.nChannels) (hwf : l.Wf k.chan)
    (hself : ∀ t, l.own = some t → ∀ p, t.ref p ≠ 0 →
      backRefs k (l.back + s.otherBacks v) p = refs l.back p)
    (hother : ∀ p, frontRefs s.kernel s.fronts p = 0 → refs (s.pc v).back p = 0 →
      backRefs k (l.back + s.otherBacks v) p = backRefs s.kernel s.backs p) :
    (s.goto v k l).Inv :=
  h.move rfl rfl (by rw [otherFronts_of rfl]; exact hown) hn hwf hself hother

theorem Inv.answered (h : s.Inv) (answer : Fin n → ℤ) : Inv { s with answer := answer } :=
  ⟨h.owned, h.wf, h.own⟩

/-- A step that moves no reference. -/
theorem Inv.frame (h : s.Inv) (hheap : k.heap = s.kernel.heap)
    (hready : k.sched.readyTasks = s.kernel.sched.readyTasks)
    (hchan : SameChans s.kernel.chan k.chan)
    (hfront : ∀ p, refs l.front p = refs (s.pc v).front p)
    (hback : ∀ p, refs l.back p = refs (s.pc v).back p) (hwf : l.Wf k.chan)
    (hself : ∀ t, l.own = some t → ∃ u, (s.pc v).own = some u ∧ t.SameRef u) :
    (s.goto v k l).Inv := by
  have hsame (p : ℕ) : backRefs k (l.back + s.otherBacks v) p = backRefs s.kernel s.backs p := by
    rw [backRefs, backRefs, hready, backs_eq s v, refs_add, refs_add, refs_add, refs_add, hback]
  refine h.goto ?_ hchan.1 hwf (fun t ht p hp => ?_) fun p _ _ => hsame p
  · have hown := h.owned.frame hheap hready hchan
    rw [fronts_eq s v, backs_eq s v] at hown
    refine hown.relabel (fun p => ?_) fun p => ?_
    · rw [refs_add, refs_add, hfront]
    · rw [refs_add, refs_add, hback]
  · obtain ⟨u, hu, href⟩ := hself t ht
    rw [hsame, h.own v u hu p (by rwa [← href.ref_eq]), hback]

theorem Inv.at_front (h : s.Inv) (hf : (s.pc v).front = {t}) (hb : (s.pc v).back = 0) :
    Owned s.kernel (t ::ₘ s.otherFronts v) (s.otherBacks v) := by
  have hown := h.owned
  rwa [fronts_eq s v, backs_eq s v, hf, hb, Multiset.singleton_add, zero_add] at hown

theorem Inv.at_back (h : s.Inv) {m : Multiset Task} (hf : (s.pc v).front = 0)
    (hb : (s.pc v).back = t ::ₘ m) :
    Owned s.kernel (s.otherFronts v) (t ::ₘ (m + s.otherBacks v)) := by
  have hown := h.owned
  rwa [fronts_eq s v, backs_eq s v, hf, hb, Multiset.cons_add, zero_add] at hown

/-- An emit gives its task back. -/
theorem Inv.refuse (h : s.Inv) {rc : ℤ} (hheap : k.heap = s.kernel.heap)
    (hready : k.sched.readyTasks = s.kernel.sched.readyTasks)
    (hchan : SameChans s.kernel.chan k.chan) (hf : (s.pc v).front = {t})
    (hb : (s.pc v).back = 0) : (s.refuse v k t rc).Inv := by
  have hmove : Inv { s.goto v k .idle with held := t ::ₘ s.held } := by
    refine h.move rfl rfl ?_ hchan.1 trivial (fun t ht => by cases ht) fun p _ _ => ?_
    · have hown := (h.at_front hf hb).frame hheap hready hchan
      have hothers : otherFronts { s.goto v k .idle with held := t ::ₘ s.held } v =
          t ::ₘ s.otherFronts v := by
        rw [otherFronts_of rfl, otherFronts, ← Multiset.cons_add]
      rw [hothers]
      show Owned k (0 + (t ::ₘ s.otherFronts v)) (0 + s.otherBacks v)
      rwa [zero_add, zero_add]
    · show refs (k.sched.readyTasks + (0 + s.otherBacks v)) p = _
      rw [hready, backRefs, backs_eq s v, hb]
  exact hmove.answered _

theorem Inv.check (h : s.Inv) (hpc : s.pc v = .check c t) : (s.step v).Inv := by
  have hfront : (s.pc v).front = {t} := by rw [hpc]; rfl
  have hback : (s.pc v).back = 0 := by rw [hpc]; rfl
  simp only [step, hpc]
  split
  · exact h.refuse rfl rfl (.refl _) hfront hback
  · split
    · exact h.refuse rfl rfl (.refl _) hfront hback
    next hid hopen =>
      refine h.frame rfl rfl (.refl _) (fun p => ?_) (fun p => by rw [hback]; rfl)
        ⟨not_le.mp hid, ?_⟩ fun t ht => by cases ht
      · have href : (markEmit c t).SameRef t := ⟨markEmit_hasRc c t, rfl⟩
        rw [hfront, ChanPc.front, refs_singleton, refs_singleton, href.ref_eq]
      · rintro rfl
        exact hopen h.owned.reg.reserved.1

/-- A call that holds nothing returns. -/
theorem Inv.returns (h : s.Inv) {rc : ℤ} (hheap : k.heap = s.kernel.heap)
    (hready : k.sched.readyTasks = s.kernel.sched.readyTasks)
    (hchan : SameChans s.kernel.chan k.chan) (hf : ∀ p, refs (s.pc v).front p = 0)
    (hb : ∀ p, refs (s.pc v).back p = 0) : (s.ret v k rc).Inv :=
  (h.frame (l := .idle) hheap hready hchan (fun p => (hf p).symm) (fun p => (hb p).symm) trivial
    fun _ ht => by cases ht).answered _

theorem Inv.count (h : s.Inv) (hpc : s.pc v = .count c t) : (s.step v).Inv := by
  have hwf := h.wf v
  simp only [step, hpc] at hwf ⊢
  split
  all_goals
    refine h.frame rfl rfl (.refl _) (fun p => ?_) (fun p => ?_) hwf fun t ht => by cases ht
    all_goals rw [hpc]; rfl

theorem Inv.full (h : s.Inv) (hpc : s.pc v = .full c t) : (s.step v).Inv := by
  simp only [step, hpc]
  exact h.refuse rfl rfl (.refl _) (by rw [hpc]; rfl) (by rw [hpc]; rfl)

theorem Inv.fast (h : s.Inv) (hpc : s.pc v = .fast c t) : (s.step v).Inv := by
  have hwf := h.wf v
  simp only [step, hpc] at hwf ⊢
  split
  all_goals
    refine h.frame rfl rfl (.refl _) (fun p => ?_) (fun p => ?_) hwf fun t ht => by cases ht
    all_goals rw [hpc]; rfl

/-- What an enqueue does with the ready tasks. -/
theorem enqueue_or (q : Sched) (t : Task) (w : ℤ) :
    (∃ q', gmkEnqueue q t w = (true, q.stamp t, q') ∧
      ∀ p, refs q'.readyTasks p = refs q.readyTasks p + t.ref p) ∨
    ∃ q', gmkEnqueue q t w = (false, q.stamp t, q') ∧ q'.readyTasks = q.readyTasks ∧
      q.NoLq w ∧ q.rq.Refuses t.prio := by
  have htask := gmkEnqueue_task q t w
  have hready := gmkEnqueue_readyTasks q t w
  have hfalse := gmkEnqueue_eq_false_iff q t w
  generalize gmkEnqueue q t w = e at htask hready hfalse
  obtain ⟨ok, u, q'⟩ := e
  obtain rfl : u = _ := htask
  cases ok with
  | true =>
    refine .inl ⟨q', rfl, fun p => ?_⟩
    rw [show q'.readyTasks = q.stamp t ::ₘ q.readyTasks from hready, refs_cons,
      (Owned.sameRef_stamp q t).ref_eq]
  | false => exact .inr ⟨q', rfl, hready, hfalse.mp rfl⟩

theorem Inv.direct (h : s.Inv) {sub : ChanSub} (hpc : s.pc v = .direct c t sub) :
    (s.step v).Inv := by
  have hwf := h.wf v
  have hfront : (s.pc v).front = {t} := by rw [hpc]; rfl
  have hback : (s.pc v).back = 0 := by rw [hpc]; rfl
  simp only [step, hpc] at hwf ⊢
  rcases enqueue_or s.kernel.sched t sub.workerId with
    ⟨q, henq, hrefs⟩ | ⟨q, henq, hready, -, -⟩
  · simp only [henq, if_true]
    have hown := (h.at_front hfront hback).enqueue_held ⟨rfl, rfl⟩ henq
    have hnone : (ChanPc.emitted c (s.kernel.sched.stamp t) false).front = 0 := rfl
    refine h.goto ?_ rfl trivial (fun t ht => by cases ht) fun p hp _ => ?_
    · show Owned _ (0 + s.otherFronts v) (0 + s.otherBacks v)
      rwa [zero_add, zero_add]
    · rw [frontRefs, fronts_eq s v, hfront] at hp
      simp only [refs_add, refs_singleton] at hp
      show refs (q.readyTasks + (0 + s.otherBacks v)) p = _
      rw [backRefs, backs_eq s v, hback]
      simp only [refs_add, hrefs]
      omega
  · simp only [henq, Bool.false_eq_true, if_false]
    refine h.frame rfl hready (.refl _) (fun p => ?_) (fun p => by rw [hback]; rfl) hwf
      fun t ht => by cases ht
    rw [hfront, ChanPc.front, refs_singleton, refs_singleton,
      (Owned.sameRef_stamp s.kernel.sched t).ref_eq]

theorem Inv.push (h : s.Inv) (hpc : s.pc v = .push c t)
    (hsafe : 2 ≤ (s.kernel.chan.channels c).ring.cap ∨
      gmkRingMpmcCount (s.kernel.chan.channels c).ring = 0) : (s.step v).Inv := by
  have hwf := h.wf v
  have hfront : (s.pc v).front = {t} := by rw [hpc]; rfl
  have hback : (s.pc v).back = 0 := by rw [hpc]; rfl
  simp only [step, hpc] at hwf ⊢
  have hring := h.owned.ring_holds hwf.1 hwf.2
  cases hpush : gmkRingMpmcPush (s.kernel.chan.channels c).ring t with
  | spin => exact h
  | full =>
    refine h.frame rfl rfl (.refl _) (fun p => ?_) (fun p => by rw [hback]; rfl) hwf
      fun t ht => by cases ht
    rw [hfront]
    rfl
  | ok r =>
    have hpos := hring.cap_pos
    rw [hring.count_eq] at hsafe
    obtain ⟨hr, hcap⟩ := hring.of_push hpush (by omega)
    have hown := (h.at_front hfront hback).push_held ⟨rfl, rfl⟩ hwf.1 hwf.2 hr hcap
    refine h.goto ?_ rfl trivial (fun t ht => by cases ht) fun p _ _ => ?_
    · show Owned _ (0 + s.otherFronts v) (0 + s.otherBacks v)
      rwa [zero_add, zero_add]
    · show refs (s.kernel.sched.readyTasks + (0 + s.otherBacks v)) p = _
      rw [backRefs, backs_eq s v, hback]

theorem Inv.emitted (h : s.Inv) {buffered : Bool} (hpc : s.pc v = .emitted c t buffered) :
    (s.step v).Inv := by
  have hchan : SameChans s.kernel.chan (emitDone s.kernel c t).chan := sameChans_countEmit _ _
  simp only [step, hpc]
  split
  · refine h.frame rfl rfl hchan (fun p => ?_) (fun p => ?_) trivial fun t ht => by cases ht
    all_goals rw [hpc]; rfl
  · exact h.returns rfl rfl hchan (fun p => by rw [hpc]; rfl) fun p => by rw [hpc]; rfl

theorem Inv.bound (h : s.Inv) (hpc : s.pc v = .bound c) : (s.step v).Inv := by
  simp only [step, hpc]
  split
  · refine h.frame rfl rfl (.refl _) (fun p => ?_) (fun p => ?_) trivial fun t ht => by cases ht
    all_goals rw [hpc]; rfl
  · exact h.returns rfl rfl (.refl _) (fun p => by rw [hpc]; rfl) fun p => by rw [hpc]; rfl

/-- The snapshot of the subscribers of a channel. -/
theorem Inv.snap_wf (h : s.Inv) {limit : ℕ} {nested : Bool} (hid : c < s.kernel.chan.nChannels)
    (hne : subsSnap (s.kernel.chan.channels c) ≠ []) :
    Drain.Wf ⟨c, subsSnap (s.kernel.chan.channels c), limit, 0, nested⟩ s.kernel.chan := by
  have h0 : c ≠ 0 := by
    rintro rfl
    exact hne (by simp [subsSnap, h.owned.reg.reserved.2])
  have hchan := h.owned.reg.chan c hid h0
  refine ⟨hid, h0, fun sub hsub => ?_, hne, ?_⟩
  · obtain ⟨i, hi, rfl⟩ := List.mem_map.mp hsub
    exact hchan.active i (List.mem_range.mp hi)
  · simpa [subsSnap] using hchan.subs_le

theorem Inv.snap (h : s.Inv) {limit : ℕ} {nested : Bool} (hpc : s.pc v = .snap c limit nested) :
    (s.step v).Inv := by
  have hnone : (s.ret v s.kernel (if nested then gmkOk else 0)).Inv :=
    h.returns rfl rfl (.refl _) (fun p => by rw [hpc]; rfl) fun p => by rw [hpc]; rfl
  simp only [step, hpc]
  split
  · exact hnone
  next hid =>
    split
    · exact hnone
    next hne =>
      refine h.frame rfl rfl (.refl _) (fun p => ?_) (fun p => ?_) (h.snap_wf (not_le.mp hid) hne)
        fun t ht => by cases ht
      all_goals rw [hpc]; rfl

theorem Inv.drained (h : s.Inv) (hpc : s.pc v = .drained d) : (s.step v).Inv := by
  simp only [step, hpc]
  split
  all_goals exact h.returns rfl rfl (.refl _) (fun p => by rw [hpc]; rfl) fun p => by rw [hpc]; rfl

/-- The copies of a message that nobody else has. -/
theorem Inv.ref_eq (h : s.Inv) (ht : (s.pc v).own = some t) (hb : (s.pc v).back = {t}) :
    Owned.Alone s.kernel (s.otherBacks v) t := by
  intro p hp
  have hown := h.own v t ht p hp
  have hle := t.ref_le p
  rw [hb, refs_singleton, backs_eq s v, hb, Multiset.singleton_add] at hown
  omega

/-- A drain has the message that it takes out of the ring to itself. -/
theorem Inv.popped (h : s.Inv) (hpc : s.pc v = .pop d) {r : RingMpmc Task}
    (hpop : gmkRingMpmcPop (s.kernel.chan.channels d.chan).ring = .ok t r) :
    (s.goto v (s.kernel.setRing d.chan r) (route s.kernel d t)).Inv := by
  have hwf := h.wf v
  have hfront : (s.pc v).front = 0 := by rw [hpc]; rfl
  have hback : (s.pc v).back = 0 := by rw [hpc]; rfl
  simp only [hpc, ChanPc.Wf] at hwf
  have hown := h.owned
  rw [fronts_eq s v, backs_eq s v, hfront, hback, zero_add, zero_add] at hown
  obtain ⟨hnew, halone⟩ := hown.pop_ring hwf.chan_lt hwf.chan_ne hpop
  obtain ⟨q, hq, hr, -⟩ := (hown.ring_holds hwf.chan_lt hwf.chan_ne).of_pop hpop
  have hring (p : ℕ) : t.ref p ≤ refs s.kernel.ringTasks p := by
    have hset := refs_setRing (k := s.kernel) (r := r) hwf.chan_lt p
    rw [hq, hr.items_eq, ← Multiset.cons_coe, refs_cons] at hset
    omega
  have hactive : nActive d.subs = d.subs.length := List.countP_eq_length.mpr hwf.active
  have hpos := List.length_pos_iff.mpr hwf.ne_nil
  have hroute : (route s.kernel d t).front = 0 ∧ (route s.kernel d t).back = {t} ∧
      (route s.kernel d t).own = some t ∧ (route s.kernel d t).Wf s.kernel.chan := by
    unfold route
    split
    · exact ⟨rfl, rfl, rfl, hwf⟩
    · exact ⟨rfl, rfl, rfl, hwf, by omega, fun _ => rfl⟩
  obtain ⟨hrfront, hrback, hrown, hrwf⟩ := hroute
  refine h.goto ?_ rfl (wf_congr (Kernel.setRing_nChannels ..) hrwf) (fun u hu p hp => ?_) fun p hp _ => ?_
  · rw [hrfront, hrback, zero_add, Multiset.singleton_add]
    exact hnew
  · obtain rfl := Option.some.inj (hrown.symm.trans hu)
    have hle := t.ref_le p
    rw [hrback, Multiset.singleton_add, halone p hp, refs_singleton]
    omega
  · have hle := hring p
    rw [frontRefs, refs_add] at hp
    rw [hrback, Multiset.singleton_add, Owned.backRefs_cons, backs_eq s v, hback, zero_add]
    show backRefs s.kernel _ p + _ = _
    omega

theorem Inv.pop (h : s.Inv) (hpc : s.pc v = .pop d) : (s.step v).Inv := by
  have hend : (s.goto v s.kernel (.drained d)).Inv := by
    refine h.frame rfl rfl (.refl _) (fun p => ?_) (fun p => ?_) trivial fun t ht => by cases ht
    all_goals rw [hpc]; rfl
  simp only [step, hpc]
  split
  · split
    · exact h
    · exact hend
    next t r hpop => exact h.popped hpc hpop
  · exact hend

/-- A copy goes into a queue of the scheduler, and its reference with it. -/
theorem Inv.enqueued (h : s.Inv) {q : Sched} {m : Multiset Task}
    (hrefs : ∀ p, refs q.readyTasks p = refs s.kernel.sched.readyTasks p + t.ref p)
    (hf : (s.pc v).front = 0) (hb : (s.pc v).back = t ::ₘ m) (hlf : l.front = 0) (hlb : l.back = m)
    (hlo : l.own = none) (hwf : l.Wf s.kernel.chan) :
    (s.goto v { s.kernel with sched := q } l).Inv := by
  have hcons := h.at_back hf hb
  have hown : Owned { s.kernel with sched := q } (s.otherFronts v) (m + s.otherBacks v) := by
    refine hcons.same rfl hcons.reg (fun _ => rfl) fun p => ?_
    simp only [backRefs, refs_add, refs_cons, hrefs]
    omega
  refine h.goto ?_ rfl hwf (fun u hu => by rw [hlo] at hu; cases hu) fun p _ _ => ?_
  · rw [hlf, hlb, zero_add]
    exact hown
  · rw [hlb, backs_eq s v, hb]
    simp only [backRefs, refs_add, refs_cons, hrefs]
    omega

theorem Inv.p2p (h : s.Inv) (hpc : s.pc v = .p2p d t) : (s.step v).Inv := by
  have hwf := h.wf v
  simp only [step, hpc, ChanPc.Wf] at hwf ⊢
  obtain ⟨sub, subs, hsubs⟩ := List.exists_cons_of_ne_nil hwf.ne_nil
  have hact : sub.active := hwf.active sub (by rw [hsubs]; exact List.mem_cons_self)
  simp only [hsubs, hact, if_true]
  have hfront : (s.pc v).front = 0 := by rw [hpc]; rfl
  have hback : (s.pc v).back = t ::ₘ 0 := by rw [hpc]; rfl
  rcases enqueue_or s.kernel.sched t sub.workerId with
    ⟨q, henq, hrefs⟩ | ⟨q, henq, hready, -, -⟩
  · simp only [henq, if_true]
    exact h.enqueued hrefs hfront hback rfl rfl rfl ⟨hwf.1, hwf.2, hwf.3, hwf.4, hwf.5⟩
  · simp only [henq, Bool.false_eq_true, if_false]
    refine h.frame rfl hready (.refl _) (fun p => by rw [hfront]; rfl) (fun p => ?_) hwf
      fun u hu => ⟨t, by rw [hpc]; rfl, ?_⟩
    · rw [hback, ChanPc.back, refs_singleton, refs_cons, refs_zero, zero_add,
        (Owned.sameRef_stamp s.kernel.sched t).ref_eq]
    · rw [← Option.some.inj hu]
      exact Owned.sameRef_stamp _ _

theorem Inv.p2pDead (h : s.Inv) (hpc : s.pc v = .p2pDead d t)
    (hsafe : t.hasRc = true → ¬ DeadFull s.kernel) : (s.step v).Inv := by
  have hwf := h.wf v
  simp only [step, hpc, ChanPc.Wf] at hwf ⊢
  have hfront : (s.pc v).front = 0 := by rw [hpc]; rfl
  have hback : (s.pc v).back = {t} := by rw [hpc]; rfl
  have halone := h.ref_eq (by rw [hpc]; rfl) hback
  have hdead := (h.at_back hfront hback).deadLetter (by rwa [zero_add]) hsafe ⟨rfl, rfl⟩
  rw [zero_add] at hdead
  refine h.goto ?_ (routeToDeadLetter_nChannels _ _)
    (wf_congr (routeToDeadLetter_nChannels _ _) (l := .p2pDrop d) hwf) (fun u hu => by cases hu)
    fun p _ hp => ?_
  · show Owned _ (0 + s.otherFronts v) (0 + s.otherBacks v)
    rwa [zero_add, zero_add]
  · show refs ((routeToDeadLetter s.kernel t).sched.readyTasks + (0 + s.otherBacks v)) p = _
    rw [routeToDeadLetter_sched, backRefs, backs_eq s v]
    simp only [refs_add, hp, refs_zero]

theorem Inv.p2pDrop (h : s.Inv) (hpc : s.pc v = .p2pDrop d) : (s.step v).Inv := by
  have hwf := h.wf v
  simp only [step, hpc, ChanPc.Wf] at hwf ⊢
  refine h.frame rfl rfl (sameChans_countDrop _ _) (fun p => ?_) (fun p => ?_)
    ⟨hwf.1, hwf.2, hwf.3, hwf.4, hwf.5⟩ fun t ht => by cases ht
  all_goals rw [hpc]; rfl

theorem Inv.retain (h : s.Inv) {retained : ℕ} (hpc : s.pc v = .retain d t retained) :
    (s.step v).Inv := by
  have hwf := h.wf v
  have hfront : (s.pc v).front = 0 := by rw [hpc]; rfl
  have hback : (s.pc v).back = t ::ₘ Multiset.replicate retained t := by
    rw [hpc]
    exact Multiset.replicate_succ t retained
  have hown : (s.pc v).own = some t := by rw [hpc]; rfl
  simp only [step, hpc, ChanPc.Wf] at hwf ⊢
  obtain ⟨hd, hle, hzero⟩ := hwf
  have hactive : nActive d.subs = d.subs.length := List.countP_eq_length.mpr hd.active
  have hrefs (p : ℕ) : refs (s.pc v).back p = (retained + 1) * t.ref p := by
    rw [hpc, ChanPc.back, Owned.refs_replicate]
  split
  next hmore =>
    have hall := h.own v t hown t.payloadPtr.toNat (by rw [Task.ref_self hmore.1]; decide)
    rw [hrefs, Task.ref_self hmore.1, Nat.mul_one] at hall
    have hmax := hd.length_le
    have hlt : backRefs s.kernel (t ::ₘ (Multiset.replicate retained t + s.otherBacks v))
        t.payloadPtr.toNat < gmkMaxChanSubs := by
      rw [← Multiset.cons_add, ← hback, ← backs_eq s v]
      omega
    have hretain := (h.at_back hfront hback).retainOne hmore.1 hlt
    have hnew (p : ℕ) : refs (ChanPc.retain d t (retained + 1)).back p =
        (retained + 1 + 1) * t.ref p := by
      rw [ChanPc.back, Owned.refs_replicate]
    have hnone : t.hasRc = false → retained + 1 = 0 := fun hrc => absurd (hrc ▸ hmore.1) (by decide)
    refine h.goto ?_ rfl ⟨hd, hmore.2, hnone⟩ (fun u hu p hp => ?_) fun p _ hp => ?_
    · show Owned _ (0 + s.otherFronts v) (Multiset.replicate (retained + 1 + 1) t + s.otherBacks v)
      rw [zero_add, Multiset.replicate_succ, Multiset.replicate_succ, Multiset.cons_add,
        Multiset.cons_add]
      exact hretain
    · obtain rfl : t = u := Option.some.inj hu
      have hall := h.own v t hown p hp
      rw [hrefs, backs_eq s v] at hall
      simp only [backRefs, refs_add, hrefs] at hall
      simp only [backRefs, refs_add, hnew, Nat.succ_mul] at hall ⊢
      omega
    · rw [hrefs, Nat.mul_eq_zero] at hp
      have hzero : t.ref p = 0 := hp.resolve_left (Nat.succ_ne_zero _)
      rw [backs_eq s v]
      simp only [backRefs, refs_add, hnew, hrefs, hzero, Nat.mul_zero]
  next hdone =>
    refine h.frame rfl rfl (.refl _) (fun p => by rw [hfront]; rfl) (fun p => ?_) hd
      fun u hu => by cases hu
    rw [hrefs, ChanPc.back, List.drop_zero, Owned.refs_replicate]
    cases hrc : t.hasRc with
    | false => rw [Task.ref_of_not hrc, Nat.mul_zero, Nat.mul_zero]
    | true =>
      have hnot : ¬ retained + 1 < nActive d.subs := fun hlt => hdone ⟨hrc, hlt⟩
      rw [show nActive d.subs = retained + 1 by omega]

theorem nActive_drop {subs : List ChanSub} {i : ℕ} {sub : ChanSub} (h : subs[i]? = some sub)
    (hact : sub.active = true) : nActive (subs.drop i) = nActive (subs.drop (i + 1)) + 1 := by
  obtain ⟨hi, rfl⟩ := List.getElem?_eq_some_iff.mp h
  rw [List.drop_eq_getElem_cons hi, nActive, List.countP_cons_of_pos hact]
  rfl

theorem Inv.copy (h : s.Inv) {i : ℕ} (hpc : s.pc v = .copy d t i) : (s.step v).Inv := by
  have hwf := h.wf v
  simp only [step, hpc, ChanPc.Wf] at hwf ⊢
  have hfront : (s.pc v).front = 0 := by rw [hpc]; rfl
  split
  next hend =>
    have hdrop : d.subs.drop i = [] := List.drop_eq_nil_of_le (List.getElem?_eq_none_iff.mp hend)
    refine h.frame rfl rfl (.refl _) (fun p => by rw [hfront]; rfl) (fun p => ?_)
      ⟨hwf.1, hwf.2, hwf.3, hwf.4, hwf.5⟩ fun u hu => by cases hu
    rw [hpc, ChanPc.back, hdrop]
    rfl
  next sub hsub =>
    have hact : sub.active = true := hwf.active sub (List.mem_of_getElem? hsub)
    have hback : (s.pc v).back =
        t ::ₘ Multiset.replicate (nActive (d.subs.drop (i + 1))) t := by
      rw [hpc, ChanPc.back, nActive_drop hsub hact, Multiset.replicate_succ]
    simp only [hact, if_true]
    rcases enqueue_or s.kernel.sched t sub.workerId with
      ⟨q, henq, hrefs⟩ | ⟨q, henq, hready, -, -⟩
    · simp only [henq, if_true]
      exact h.enqueued hrefs hfront hback rfl rfl rfl hwf
    · simp only [henq, Bool.false_eq_true, if_false]
      exact h.frame rfl hready (.refl _) (fun p => by rw [hfront]; rfl)
        (fun p => by rw [hback]; rfl) ⟨hwf, Owned.sameRef_stamp _ _⟩ fun u hu => by cases hu

theorem Inv.copyFailed (h : s.Inv) {i : ℕ} (hpc : s.pc v = .copyFailed d t u i)
    (hsafe : t.hasRc = true → (s.kernel.chan.channels d.chan).guarantee ≠ gmkChanLossy →
      DeadFull s.kernel) : (s.step v).Inv := by
  have hwf := h.wf v
  simp only [step, hpc, ChanPc.Wf] at hwf ⊢
  have hfront : (s.pc v).front = 0 := by rw [hpc]; rfl
  have hback : (s.pc v).back = t ::ₘ Multiset.replicate (nActive (d.subs.drop (i + 1))) t := by
    rw [hpc]
    rfl
  have hfail := (h.at_back hfront hback).failCopy (i := i) hwf.2 hsafe
  refine h.goto ?_ (failCopy_nChannels ..) (wf_congr (failCopy_nChannels ..) (l := .copyRelease d t u i) hwf)
    (fun u hu => by cases hu) fun p _ _ => ?_
  · have hleft : (ChanPc.copyRelease d t u i).back = (s.pc v).back := by rw [hpc]; rfl
    rw [hleft, hback, Multiset.cons_add]
    show Owned _ (0 + s.otherFronts v) _
    rwa [zero_add]
  · rw [backRefs, failCopy_sched, backRefs, backs_eq s v, hback]
    rfl

theorem Inv.copyRelease (h : s.Inv) {i : ℕ} (hpc : s.pc v = .copyRelease d t u i) :
    (s.step v).Inv := by
  have hwf := h.wf v
  simp only [step, hpc, ChanPc.Wf] at hwf ⊢
  have hfront : (s.pc v).front = 0 := by rw [hpc]; rfl
  have hback : (s.pc v).back = t ::ₘ Multiset.replicate (nActive (d.subs.drop (i + 1))) t := by
    rw [hpc]
    rfl
  have hgive := (h.at_back hfront hback).giveUp
  rw [hwf.2.2]
  have hn : (if t.hasRc then s.kernel.release t.payloadPtr.toNat else s.kernel).chan = s.kernel.chan := by
    split <;> rfl
  have hsched : (if t.hasRc then s.kernel.release t.payloadPtr.toNat else s.kernel).sched =
      s.kernel.sched := by
    split <;> rfl
  refine h.goto ?_ (by rw [hn]) (wf_congr (by rw [hn]) (l := .copy d t (i + 1)) hwf.1)
    (fun u hu => by cases hu) fun p _ hp => ?_
  · show Owned _ (0 + s.otherFronts v) (_ + s.otherBacks v)
    rw [zero_add]
    exact hgive
  · rw [hback, refs_cons, Nat.add_eq_zero_iff] at hp
    rw [backRefs, hsched, backRefs, backs_eq s v, hback]
    simp only [refs_add, refs_cons, hp.1, hp.2]
    simp only [ChanPc.back, hp.1]

/-- Every step of a call passes its references on. -/
theorem Inv.step (h : s.Inv) (hsafe : CallSafe s.kernel (s.pc v)) : (s.step v).Inv := by
  cases hpc : s.pc v <;> rw [hpc] at hsafe
  case idle =>
    simp only [ChanThreads.step, hpc]
    exact h
  case check => exact h.check hpc
  case count => exact h.count hpc
  case full => exact h.full hpc
  case fast => exact h.fast hpc
  case direct => exact h.direct hpc
  case push => exact h.push hpc hsafe
  case emitted => exact h.emitted hpc
  case bound => exact h.bound hpc
  case snap => exact h.snap hpc
  case pop => exact h.pop hpc
  case p2p => exact h.p2p hpc
  case p2pDead => exact h.p2pDead hpc hsafe
  case p2pDrop => exact h.p2pDrop hpc
  case retain => exact h.retain hpc
  case copy => exact h.copy hpc
  case copyFailed => exact h.copyFailed hpc hsafe
  case copyRelease => exact h.copyRelease hpc
  case drained => exact h.drained hpc

end Calls

/-! ## Around the calls -/

section Around
variable {k : Kernel} {c : ℕ}

theorem Inv.emit (h : s.Inv) (hpc : s.pc v = .idle) (ht : t ∈ s.held) :
    Inv { s.goto v s.kernel (.check c t) with held := s.held.erase t } := by
  have hfront : (s.pc v).front = 0 := by rw [hpc]; rfl
  have hback : (s.pc v).back = 0 := by rw [hpc]; rfl
  have hothers : t ::ₘ otherFronts { s.goto v s.kernel (.check c t) with held := s.held.erase t } v =
      s.otherFronts v := by
    rw [otherFronts_of rfl, ← Multiset.cons_add]
    show (t ::ₘ s.held.erase t) + _ = _
    rw [Multiset.cons_erase ht]
    rfl
  have hown := h.owned
  rw [fronts_eq s v, backs_eq s v, hfront, hback, zero_add, zero_add] at hown
  refine h.move rfl rfl ?_ rfl trivial (fun u hu => by cases hu) fun p _ _ => ?_
  · show Owned s.kernel ({t} + _) (0 + _)
    rw [Multiset.singleton_add, hothers, zero_add]
    exact hown
  · rw [backs_eq s v, hback]
    rfl

theorem Inv.drain (h : s.Inv) {limit : ℕ} (hpc : s.pc v = .idle) :
    (s.goto v s.kernel (.snap c limit false)).Inv := by
  refine h.frame rfl rfl (.refl _) (fun p => ?_) (fun p => ?_) trivial fun t ht => by cases ht
  all_goals rw [hpc]; rfl

theorem Inv.sub (h : s.Inv) {m : UInt32} {w : ℤ} :
    Inv { s with kernel := (gmkChanSub s.kernel c m w).2 } := by
  have hsame : (gmkChanSub s.kernel c m w).2.sched = s.kernel.sched ∧
      (gmkChanSub s.kernel c m w).2.chan.nChannels = s.kernel.chan.nChannels := by
    rcases ChanWorld.gmkChanSub_cases s.kernel c m w with hsame | ⟨-, -, -, -, hset⟩
    · rw [hsame]
      exact ⟨rfl, rfl⟩
    · rw [hset]
      exact ⟨rfl, rfl⟩
  refine h.keep rfl (h.owned.sub m w) hsame.2 fun p _ _ => ?_
  show backRefs (gmkChanSub s.kernel c m w).2 s.backs p = _
  rw [backRefs, hsame.1]
  rfl

theorem Inv.close (h : s.Inv) : Inv { s with kernel := (gmkChanClose s.kernel c).2 } := by
  have hsame : (gmkChanClose s.kernel c).2.sched = s.kernel.sched ∧
      (gmkChanClose s.kernel c).2.chan.nChannels = s.kernel.chan.nChannels := by
    unfold gmkChanClose
    split
    · exact ⟨rfl, rfl⟩
    · split <;> exact ⟨rfl, rfl⟩
  refine h.keep rfl h.owned.close hsame.2 fun p _ _ => ?_
  show backRefs (gmkChanClose s.kernel c).2 s.backs p = _
  rw [backRefs, hsame.1]
  rfl

theorem Inv.alloc (h : s.Inv) {size : UInt32} {hp : Heap} (ht : t.hasRc = true)
    (ha : gmkPayloadAlloc s.kernel.heap size = (some t.payloadPtr.toNat, hp)) :
    Inv { s with kernel := { s.kernel with heap := hp }, held := t ::ₘ s.held } := by
  refine h.keep rfl ?_ rfl fun p _ _ => rfl
  have hown := h.owned.alloc ha ht
  rwa [fronts, ← Multiset.cons_add] at hown

theorem Inv.plain (h : s.Inv) (ht : t.hasRc = false) : Inv { s with held := t ::ₘ s.held } := by
  refine h.keep rfl ?_ rfl fun p _ _ => rfl
  have hown := h.owned.plain ht
  rwa [fronts, ← Multiset.cons_add] at hown

/-- A worker takes one of the ready tasks. -/
theorem Take.ready {q q' : Sched} (h : Take q t q') : q.readyTasks = t ::ₘ q'.readyTasks := by
  cases h with
  | lq hw hl =>
    simp only [Sched.readyTasks]
    rw [Sched.lqTasks_pop hw (gmkLqPop_some hl).1]
    simp only [Multiset.cons_add]
  | overflow hq =>
    simp only [Sched.readyTasks, (MpmcQueue.pop_some hq).1]
    rw [← Multiset.cons_coe, Multiset.add_cons]
    rfl
  | rq hq =>
    have htasks := gmkRqPop_tasks hq
    simp only [Sched.readyTasks, htasks, Multiset.add_cons, Multiset.cons_add]
    rfl

theorem Inv.take (h : s.Inv) {q : Sched} (ht : Take s.kernel.sched t q) :
    Inv { s with kernel := { s.kernel with sched := q }, running := t ::ₘ s.running } := by
  have hready := ht.ready
  have hback (p : ℕ) : backRefs { s.kernel with sched := q } (t ::ₘ s.backs) p =
      backRefs s.kernel s.backs p := by
    simp only [backRefs, hready, refs_add, refs_cons]
    omega
  have hbacks : backs { s with
      kernel := { s.kernel with sched := q }, running := t ::ₘ s.running } = t ::ₘ s.backs :=
    Multiset.cons_add ..
  refine h.keep rfl ?_ rfl fun p _ _ => ?_
  · rw [hbacks]
    exact h.owned.same rfl h.owned.reg (fun _ => rfl) hback
  · rw [hbacks]
    exact hback p

theorem cons_backs_erase (ht : t ∈ s.running) :
    s.backs = t ::ₘ (s.running.erase t + ∑ v, (s.pc v).back) := by
  rw [← Multiset.cons_add, Multiset.cons_erase ht]
  rfl

theorem Inv.release (h : s.Inv) (ht : t ∈ s.running) (hu : u.SameRef t) :
    Inv { s with
      kernel := if u.hasRc then s.kernel.release u.payloadPtr.toNat else s.kernel
      running := s.running.erase t } := by
  have hown := h.owned
  rw [cons_backs_erase ht] at hown
  have hn : (if u.hasRc then s.kernel.release u.payloadPtr.toNat else s.kernel).chan =
      s.kernel.chan := by
    split <;> rfl
  have hsched : (if u.hasRc then s.kernel.release u.payloadPtr.toNat else s.kernel).sched =
      s.kernel.sched := by
    split <;> rfl
  refine h.keep rfl (hown.swap_loc hu).giveUp (congrArg ChanReg.nChannels hn) fun p _ hp => ?_
  have hzero : t.ref p = 0 := by
    rw [← Multiset.cons_erase ht, refs_cons] at hp
    omega
  simp only [backRefs, hsched, cons_backs_erase ht, refs_add, refs_cons, hzero, Nat.add_zero]
  exact congrArg (_ + ·) (refs_add ..)

theorem Inv.retry (h : s.Inv) (ht : t ∈ s.running) (hu : u.SameRef t)
    (hsafe : u.hasRc = true → ¬ s.kernel.sched.rq.Refuses u.prio) :
    Inv { s with
      kernel := { s.kernel with sched := (gmkEnqueue s.kernel.sched u (-1)).2.2 }
      running := s.running.erase t } := by
  have hown := h.owned
  rw [cons_backs_erase ht] at hown
  refine h.keep rfl ?_ rfl fun p _ hp => ?_
  · rcases (hown.swap_loc hu).enqueue_loc (-1) with ⟨-, hnext⟩ | ⟨-, href, -, -, hnext⟩
    · exact hnext
    · exact hnext.drop (Bool.eq_false_of_not_eq_true fun hrc => hsafe hrc href.2)
  · have hzero : t.ref p = 0 := by
      rw [← Multiset.cons_erase ht, refs_cons] at hp
      omega
    have hready : refs (gmkEnqueue s.kernel.sched u (-1)).2.2.readyTasks p =
        refs s.kernel.sched.readyTasks p := by
      rcases enqueue_or s.kernel.sched u (-1) with ⟨q, henq, hrefs⟩ | ⟨q, henq, hready, -, -⟩
      · rw [henq, hrefs, hu.ref_eq, hzero, Nat.add_zero]
      · rw [henq, hready]
    simp only [backRefs, hready, cons_backs_erase ht, refs_add, refs_cons, hzero, Nat.add_zero]
    exact congrArg (_ + ·) (refs_add ..)

end Around

theorem Inv.next (h : s.Inv) {act : ChanAct n} (hsafe : s.Safe act) (hstep : Step s act s') :
    s'.Inv := by
  cases hstep with
  | emit hpc ht => exact h.emit hpc ht
  | drain hpc => exact h.drain hpc
  | step => exact h.step hsafe
  | sub => exact h.sub
  | close => exact h.close
  | alloc ht ha => exact h.alloc ht ha
  | plain ht => exact h.plain ht
  | take ht => exact h.take ht
  | release ht hu => exact h.release ht hu
  | retry ht hu => exact h.retry ht hu hsafe
  | other hheap hsched hchan =>
    refine h.keep rfl (h.owned.frame hheap (by rw [hsched]) ?_) (by rw [hchan]) fun p _ _ => ?_
    · exact hchan ▸ SameChans.refl _
    · show refs (_ + s.backs) p = _
      rw [hsched]
      rfl

theorem start_inv {k : Kernel} (hk : RcRun.Fresh k) : (start k : ChanThreads n).Inv := by
  have hnone : (∑ v : Fin n, ((start k : ChanThreads n).pc v).front) = 0 ∧
      (∑ v : Fin n, ((start k : ChanThreads n).pc v).back) = 0 :=
    ⟨Finset.sum_eq_zero fun _ _ => rfl, Finset.sum_eq_zero fun _ _ => rfl⟩
  refine ⟨?_, fun _ => trivial, fun _ _ ht => by cases ht⟩
  rw [fronts, backs, hnone.1, hnone.2]
  exact hk.owned

theorem Inv.sound (h : s.Inv) : s.Sound := by
  have hrefs (p : ℕ) : refs s.places p =
      frontRefs s.kernel s.fronts p + backRefs s.kernel s.backs p := by
    simp only [places, calls, frontRefs, backRefs, fronts, backs, Finset.sum_add_distrib, refs_add]
    omega
  refine ⟨fun p hp => ?_, fun t ht hrc => ?_⟩
  · rw [hrefs]
    exact (h.owned.live p hp).1
  · by_contra hdead
    have hzero := h.owned.dead _ hdead
    rw [← hrefs, refs, Multiset.countP_eq_zero] at hzero
    exact hzero t ht ⟨hrc, rfl⟩

/-- However the steps of any number of threads are interleaved, every payload that is not freed
counts its copies, and no copy refers to a freed payload, as long as every step is safe when its
turn comes. -/
theorem payloads_counted {k : Kernel} (hk : RcRun.Fresh k)
    (hrun : Reach Step Safe (start k) s) : s.Sound := by
  have hinv := hrun.inv (I := Inv) (start_inv hk) fun _ _ _ h hg hs => h.next hg hs
  exact hinv.sound

theorem step_check {v : Fin n} {c : ℕ} {t : Task} (hpc : s.pc v = .check c t)
    (hc : c < s.kernel.chan.nChannels) (hopen : (s.kernel.chan.channels c).isOpen = true) :
    s.step v = s.goto v s.kernel (.count c (markEmit c t)) := by
  have hclosed : ¬ (s.kernel.chan.channels c).isOpen = false := by simp [hopen]
  simp only [step, hpc, if_neg (not_le_of_gt hc), if_neg hclosed]

/-- One thread is in the middle of an emit, and another has begun to drain the same channel. -/
theorem payloads_counted_emit : ∃ s : ChanThreads 2,
    s.pc 0 = .count 2 (markEmit 2 RcRun.rcTask) ∧ s.pc 1 = .snap 2 1 false ∧ s.Sound := by
  have hready : ∀ t ∈ (gmkSchedInit 1).readyTasks, t.hasRc = false := by
    simp [gmkSchedInit_readyTasks]
  have hfresh : RcRun.Fresh (RcRun.chanKernel (gmkSchedInit 1) RcRun.p2pChan) :=
    RcRun.chanKernel_fresh (RcRun.oneSub_wf _ _ _)
      (RcRun.oneSub_ring gmkChanP2p gmkChanLossless 0).items_eq hready
  have hadmits : Admits (RcRun.rcKernel (gmkSchedInit 1) RcRun.p2pChan) 2 RcRun.rcTask :=
    RcRun.rcKernel_admits _ _ _ _ _
  have halloc : Step (start (RcRun.chanKernel (gmkSchedInit 1) RcRun.p2pChan) : ChanThreads 2)
      (.alloc 40 RcRun.rcTask) _ :=
    .alloc (by decide) (Prod.ext tinyKernel_alloc rfl)
  have hown : Reach Step Safe (start (RcRun.chanKernel (gmkSchedInit 1) RcRun.p2pChan)) _ :=
    .next (ChanAct.alloc 40 RcRun.rcTask : ChanAct 2) .start trivial halloc
  have hemit := hown.next (ChanAct.emit 0 2 RcRun.rcTask) trivial (.emit rfl (by simp))
  have hdrain := hemit.next (ChanAct.drain 1 2 1) trivial (.drain rfl)
  have hcheck := hdrain.next (ChanAct.step 0) trivial .step
  refine ⟨_, ?_, ?_, payloads_counted hfresh hcheck⟩
  · rw [step_check (c := 2) (t := RcRun.rcTask) rfl]
    · rfl
    · exact hadmits.id
    · exact hadmits.isOpen
  · rw [step_check (c := 2) (t := RcRun.rcTask) rfl]
    · rfl
    · exact hadmits.id
    · exact hadmits.isOpen

end ChanThreads
end Ggmk

import Ggmk.Drivers.VirtioBlk
import Ggmk.Lib.FreeList

/-! The free descriptors of the request queue. They are listed through the `next` fields, which
the chains in flight use as well. Nothing is assumed of the device: it may complete, fail or
forget any request, and it may report completions that nobody asked for. -/
namespace Ggmk
open Word Guarded FreeList

/-- The descriptors that a call has taken and not given back. -/
def BlkPc.held : BlkPc → List ℕ
  | .fill k | .offer k | .publish k | .notify k | .poll k _ | .polled k | .give k =>
      [k.d0, k.d1, k.d2]
  | _ => []

/-- The call has found three free descriptors and has not taken them. -/
def BlkPc.preparing : BlkPc → Bool
  | .header _ | .copyIn _ _ _ | .status _ | .take _ => true
  | _ => false

/-- The points at which the next step may take descriptors, write them or give them up. -/
def BlkPc.moves : BlkPc → Bool
  | .take _ | .fill _ | .polled _ | .give _ => true
  | _ => false

namespace Blk

/-- A `next` field as a link: `0xFFFF` ends the chain. -/
def toLink (next : ℕ) : ℤ := if next = 0xFFFF then -1 else next

def links (desc : ℕ → VringDesc) (d : ℕ) : ℤ := toLink (desc d).next

/-- Following `next` from the free head visits the `numFree` descriptors of `free` and then
ends. -/
structure FreeChain (num : ℕ) (s : Blk) (free : List ℕ) : Prop where
  lists : Lists (links s.desc) (toLink s.freeHead) free
  length : free.length = s.numFree
  below : ∀ d ∈ free, d < num

/-- The device writes neither the descriptors nor what the driver keeps for itself. -/
structure DeviceStep (s t : Blk) : Prop where
  desc : t.desc = s.desc
  freeHead : t.freeHead = s.freeHead
  numFree : t.numFree = s.numFree
  lastUsedIdx : t.lastUsedIdx = s.lastUsedIdx
  pc : t.pc = s.pc

/-- Calls of the driver against any device. -/
inductive AnyStep (num : ℕ) : Blk → Unit → Blk → Prop
  | call {s : Blk} {type : BlkType} {sector : UInt64} {buf : Option SectorData}
      (hpc : s.pc = .idle) : AnyStep num s () (s.begin type sector buf)
  | drive {s : Blk} : AnyStep num s () (s.drive num)
  | device {s t : Blk} (h : DeviceStep s t) : AnyStep num s () t

/-- The states that a device of any behaviour leads to. -/
abbrev AnyRun (num : ℕ) : Blk → Blk → Prop := Reach (AnyStep num) fun _ _ => True

/-- The device that serves the requests in order is one of them. -/
theorem AnyStep.of_step {num : ℕ} {s t : Blk} {act : BlkAct} (h : Step num s act t) :
    AnyStep num s () t := by
  cases h with
  | call hpc => exact .call hpc
  | drive => exact .drive
  | fetch _ _ _ => exact .device ⟨rfl, rfl, rfl, rfl, rfl⟩
  | produce _ _ => exact .device ⟨rfl, rfl, rfl, rfl, rfl⟩
  | report _ _ => exact .device ⟨rfl, rfl, rfl, rfl, rfl⟩
  | complete _ _ => exact .device ⟨rfl, rfl, rfl, rfl, rfl⟩

theorem AnyRun.of_reach {num : ℕ} {guard : Blk → BlkAct → Prop} {s t : Blk}
    (h : Reach (Step num) guard s t) : AnyRun num s t := by
  induction h with
  | start => exact .start
  | next i _ _ hs ih => exact ih.next () trivial (.of_step hs)

/-- `free` is the free chain, apart from the descriptors that the call holds and from those in
`lost`. -/
structure Chained (num : ℕ) (lost : List ℕ) (s : Blk) (free : List ℕ) : Prop where
  chain : Chain (links s.desc) (toLink s.freeHead) free
  length : free.length = s.numFree
  nodup : (s.pc.held ++ free).Nodup
  below : ∀ d ∈ s.pc.held ++ free, d < num
  kept : ∀ d ∈ s.pc.held ++ free, d ∉ lost
  enough : s.pc.preparing = true → 3 ≤ s.numFree

theorem toLink_eq {n i : ℕ} (h : toLink n = i) : n = i := by
  unfold toLink at h
  split at h <;> omega

section Steps
variable {num : ℕ} {lost : List ℕ} {s t : Blk} {free : List ℕ}

theorem Chained.freeChain (h : s.Chained num lost free) : s.FreeChain num free :=
  ⟨⟨h.chain, (List.nodup_append.mp h.nodup).2.1⟩, h.length,
    fun d hd => h.below d (List.mem_append_right _ hd)⟩

/-- Steps that change neither the chain nor what the call holds. -/
structure Keeps (s t : Blk) : Prop where
  desc : t.desc = s.desc
  freeHead : t.freeHead = s.freeHead
  numFree : t.numFree = s.numFree
  held : t.pc.held = s.pc.held
  preparing : t.pc.preparing = true → s.pc.preparing = true

theorem Chained.keep (h : s.Chained num lost free) (hk : Keeps s t) :
    t.Chained num lost free := by
  refine ⟨?_, ?_, ?_, ?_, ?_, ?_⟩
  · rw [hk.desc, hk.freeHead]
    exact h.chain
  · rw [hk.numFree]
    exact h.length
  · rw [hk.held]
    exact h.nodup
  · rw [hk.held]
    exact h.below
  · rw [hk.held]
    exact h.kept
  · rw [hk.numFree]
    exact h.enough ∘ hk.preparing

/-- The call takes the first three descriptors of the chain. -/
theorem Chained.take (h : s.Chained num lost free) {c : BlkCall} (hpc : s.pc = .take c) :
    ∃ d0 d1 d2 rest, free = d0 :: d1 :: d2 :: rest ∧ (s.drive num).pc = .fill ⟨c, d0, d1, d2⟩ ∧
      (s.drive num).Chained num lost rest := by
  have henough := h.enough (by rw [hpc]; rfl)
  obtain ⟨hchain, hlength, hnodup, hbelow, hkept, -⟩ := h
  rw [hpc] at hnodup hbelow hkept
  rw [← hlength] at henough
  obtain ⟨d0, d1, d2, rest, rfl⟩ : ∃ d0 d1 d2 rest, free = d0 :: d1 :: d2 :: rest := by
    match free, henough with
    | d0 :: d1 :: d2 :: rest, _ => exact ⟨d0, d1, d2, rest, rfl⟩
  obtain ⟨h0, h1, h2, hrest⟩ := hchain
  have hd0 := toLink_eq h0
  have hd1 := toLink_eq h1
  have hd2 := toLink_eq h2
  have hdrive : s.drive num = { s with
      freeHead := (s.desc d2).next, numFree := s.numFree - 3, pc := .fill ⟨c, d0, d1, d2⟩ } := by
    simp only [Blk.drive, hpc, hd0, hd1, hd2]
  rw [hdrive]
  refine ⟨d0, d1, d2, rest, rfl, rfl, hrest, ?_, hnodup, hbelow, hkept, ?_⟩
  · simp only [List.length_cons] at hlength
    show rest.length = s.numFree - 3
    omega
  · intro hprep
    exact absurd hprep Bool.false_ne_true

/-- The three descriptors are written; the chain does not pass through them. -/
theorem Chained.fill (h : s.Chained num lost free) {k : BlkChain} (hpc : s.pc = .fill k) :
    Chained num lost { s with desc := fillDesc s.desc k, pc := .offer k } free := by
  have hnodup := h.nodup
  obtain ⟨hchain, hlength, -, hbelow, hkept, -⟩ := h
  rw [hpc] at hnodup hbelow hkept
  refine ⟨?_, hlength, hnodup, hbelow, hkept, fun hprep => absurd hprep Bool.false_ne_true⟩
  refine chain_congr (fun d hd => ?_) hchain
  have hne : ∀ e ∈ [k.d0, k.d1, k.d2], d ≠ e := fun e he =>
    ((List.nodup_append.mp hnodup).2.2 e he d hd).symm
  have h0 : d ≠ k.d0 := hne _ (by simp)
  have h1 : d ≠ k.d1 := hne _ (by simp)
  have h2 : d ≠ k.d2 := hne _ (by simp)
  simp only [links, fillDesc, Function.update_of_ne h0, Function.update_of_ne h1,
    Function.update_of_ne h2]

theorem links_setNext (desc : ℕ → VringDesc) (d next : ℕ) :
    links (setNext desc d next) = Function.update (links desc) d (toLink next) := by
  funext e
  rcases eq_or_ne e d with rfl | hne
  · simp [links, setNext]
  · simp [links, setNext, Function.update_of_ne hne]

theorem toLink_of_lt {d : ℕ} (hnum : num < 2 ^ 16) (hd : d < num) : toLink d = d := by
  rw [toLink, if_neg (by omega)]

theorem Chained.room (h : s.Chained num lost free) : s.pc.held.length + s.numFree ≤ num := by
  have hsub : s.pc.held ++ free ⊆ List.range num := fun d hd => List.mem_range.mpr (h.below d hd)
  have hle := (List.subperm_of_subset h.nodup hsub).length_le
  rwa [List.length_append, h.length, List.length_range] at hle

/-- The call puts its descriptors back, before the chain. -/
theorem Chained.give (h : s.Chained num lost free) (hnum : num < 2 ^ 16) {k : BlkChain}
    (hpc : s.pc = .give k) :
    (s.drive num).Chained num lost (k.d0 :: k.d1 :: k.d2 :: free) := by
  have hroom := h.room
  have hlists := h.freeChain.lists
  obtain ⟨-, hlength, hnodup, hbelow, hkept, -⟩ := h
  rw [hpc] at hnodup hbelow hkept hroom
  have hdrive : s.drive num = { s with
      lastUsedIdx := u16 (s.lastUsedIdx + 1)
      desc := setNext (setNext (setNext s.desc k.d2 s.freeHead) k.d1 k.d2) k.d0 k.d1
      freeHead := k.d0
      numFree := u16 (s.numFree + 3)
      pc := .check k.call } := by
    simp only [Blk.drive, hpc]
  have hcount : u16 (s.numFree + 3) = s.numFree + 3 := by
    simp only [BlkPc.held, List.length_cons, List.length_nil] at hroom
    exact u16_of_lt (by omega)
  obtain ⟨h0, hnodup1⟩ := List.nodup_cons.mp hnodup
  obtain ⟨h1, hnodup2⟩ := List.nodup_cons.mp hnodup1
  obtain ⟨h2, -⟩ := List.nodup_cons.mp hnodup2
  have hlink : ∀ d ∈ [k.d0, k.d1, k.d2], toLink d = d := fun d hd =>
    toLink_of_lt hnum (hbelow d (List.mem_append_left _ hd))
  have hpush := ((hlists.push h2).push h1).push h0
  rw [← hlink k.d0 (by simp), ← hlink k.d1 (by simp), ← hlink k.d2 (by simp), ← links_setNext,
    ← links_setNext, ← links_setNext] at hpush
  rw [hdrive, hcount]
  refine ⟨hpush.1, ?_, hnodup, hbelow, hkept, fun hprep => absurd hprep Bool.false_ne_true⟩
  simp [hlength]

/-- A call that gives up keeps its descriptors for good. -/
theorem Chained.giveUp (h : s.Chained num lost free) {k : BlkChain} (hpc : s.pc = .polled k)
    (hidx : s.usedIdx = s.lastUsedIdx) :
    (s.drive num).Chained num ([k.d0, k.d1, k.d2] ++ lost) free := by
  have hdrive : s.drive num = s.ret k.call (-1) := by simp only [Blk.drive, hpc, hidx, if_true]
  obtain ⟨hchain, hlength, hnodup, hbelow, hkept, -⟩ := h
  rw [hpc] at hnodup hbelow hkept
  rw [hdrive]
  refine ⟨hchain, hlength, (List.nodup_append.mp hnodup).2.1, ?_, ?_,
    fun hprep => absurd hprep Bool.false_ne_true⟩
  · intro d hd
    exact hbelow d (List.mem_append_right _ hd)
  · intro d hd hlost
    rcases List.mem_append.mp hlost with hheld | hlost
    · exact (List.nodup_append.mp hnodup).2.2 d hheld d hd rfl
    · exact hkept d (List.mem_append_right _ hd) hlost

theorem Chained.weaken {more : List ℕ} (h : s.Chained num (more ++ lost) free) :
    s.Chained num lost free :=
  ⟨h.chain, h.length, h.nodup, h.below,
    fun d hd hlost => h.kept d hd (List.mem_append_right _ hlost), h.enough⟩

theorem Keeps.of_pc {p q : BlkPc} (hs : s.pc = p) (ht : t.pc = q) (hdesc : t.desc = s.desc)
    (hhead : t.freeHead = s.freeHead) (hfree : t.numFree = s.numFree) (hheld : q.held = p.held)
    (hprep : q.preparing = true → p.preparing = true) : Keeps s t :=
  ⟨hdesc, hhead, hfree, by rw [hs, ht, hheld], by rw [hs, ht]; exact hprep⟩

theorem drive_keeps (num : ℕ) (hmoves : s.pc.moves = false) : Keeps s (s.drive num) := by
  unfold Blk.drive
  split <;> rename_i hpc <;> rw [hpc] at hmoves
  case h_1 => exact ⟨rfl, rfl, rfl, rfl, id⟩
  case h_2 c =>
    split
    · exact .of_pc hpc rfl rfl rfl rfl rfl id
    · exact .of_pc hpc rfl rfl rfl rfl rfl id
  case h_3 c src i =>
    split
    · exact .of_pc hpc rfl rfl rfl rfl rfl id
    · exact .of_pc hpc rfl rfl rfl rfl rfl id
  case h_4 c => exact .of_pc hpc rfl rfl rfl rfl rfl id
  case h_5 c => exact Bool.noConfusion hmoves
  case h_6 k => exact Bool.noConfusion hmoves
  case h_7 k => exact .of_pc hpc rfl rfl rfl rfl rfl id
  case h_8 k => exact .of_pc hpc rfl rfl rfl rfl rfl id
  case h_9 k => exact .of_pc hpc rfl rfl rfl rfl rfl id
  case h_10 k t =>
    split
    · split
      · exact .of_pc hpc rfl rfl rfl rfl rfl id
      · exact .of_pc hpc rfl rfl rfl rfl rfl id
    · exact .of_pc hpc rfl rfl rfl rfl rfl id
  case h_11 k => exact Bool.noConfusion hmoves
  case h_12 k => exact Bool.noConfusion hmoves
  case h_13 c =>
    split
    · exact .of_pc hpc rfl rfl rfl rfl rfl id
    · split
      · exact .of_pc hpc rfl rfl rfl rfl rfl id
      · exact .of_pc hpc rfl rfl rfl rfl rfl id
  case h_14 c dst i =>
    split
    · exact .of_pc hpc rfl rfl rfl rfl rfl id
    · exact .of_pc hpc rfl rfl rfl rfl rfl id

theorem Chained.drive (h : s.Chained num lost free) (hnum : num < 2 ^ 16) :
    ∃ free, (s.drive num).Chained num lost free := by
  cases hpc : s.pc with
  | take c =>
    obtain ⟨_, _, _, rest, -, -, hrest⟩ := h.take hpc
    exact ⟨rest, hrest⟩
  | fill k =>
    have hdrive : s.drive num = { s with desc := fillDesc s.desc k, pc := .offer k } := by
      simp only [Blk.drive, hpc]
    exact ⟨free, hdrive ▸ h.fill hpc⟩
  | give k => exact ⟨_, h.give hnum hpc⟩
  | polled k =>
    by_cases hidx : s.usedIdx = s.lastUsedIdx
    · exact ⟨free, (h.giveUp hpc hidx).weaken⟩
    · have hdrive : s.drive num = { s with pc := .give k } := by
        simp only [Blk.drive, hpc, hidx, if_false]
      exact ⟨free, h.keep (hdrive ▸ ⟨rfl, rfl, rfl, by rw [hpc]; rfl, by simp [BlkPc.preparing]⟩)⟩
  | idle => exact ⟨free, h.keep (drive_keeps num (by rw [hpc]; rfl))⟩
  | header c => exact ⟨free, h.keep (drive_keeps num (by rw [hpc]; rfl))⟩
  | copyIn c src i => exact ⟨free, h.keep (drive_keeps num (by rw [hpc]; rfl))⟩
  | status c => exact ⟨free, h.keep (drive_keeps num (by rw [hpc]; rfl))⟩
  | offer k => exact ⟨free, h.keep (drive_keeps num (by rw [hpc]; rfl))⟩
  | publish k => exact ⟨free, h.keep (drive_keeps num (by rw [hpc]; rfl))⟩
  | notify k => exact ⟨free, h.keep (drive_keeps num (by rw [hpc]; rfl))⟩
  | poll k t => exact ⟨free, h.keep (drive_keeps num (by rw [hpc]; rfl))⟩
  | check c => exact ⟨free, h.keep (drive_keeps num (by rw [hpc]; rfl))⟩
  | copyOut c dst i => exact ⟨free, h.keep (drive_keeps num (by rw [hpc]; rfl))⟩

theorem Chained.begin (h : s.Chained num lost free) (hpc : s.pc = .idle) (type : BlkType)
    (sector : UInt64) (buf : Option SectorData) :
    (s.begin type sector buf).Chained num lost free := by
  unfold Blk.begin
  split
  next => exact h.keep (.of_pc hpc rfl rfl rfl rfl rfl id)
  next hfree =>
    obtain ⟨hchain, hlength, hnodup, hbelow, hkept, -⟩ := h
    rw [hpc] at hnodup hbelow hkept
    exact ⟨hchain, hlength, hnodup, hbelow, hkept, fun _ => not_lt.mp hfree⟩

theorem Chained.step (h : s.Chained num lost free) (hnum : num < 2 ^ 16)
    (hstep : AnyStep num s () t) : ∃ free, t.Chained num lost free := by
  cases hstep with
  | call hpc => exact ⟨free, h.begin hpc _ _ _⟩
  | drive => exact h.drive hnum
  | device hd =>
    exact ⟨free, h.keep (.of_pc rfl hd.pc hd.desc hd.freeHead hd.numFree rfl id)⟩

theorem Chained.run (h : s.Chained num lost free) (hnum : num < 2 ^ 16) (hrun : AnyRun num s t) :
    ∃ free, t.Chained num lost free :=
  hrun.inv (I := fun t : Blk => ∃ free, t.Chained num lost free) ⟨free, h⟩
    fun _ _ _ ⟨_, h⟩ _ hstep => h.step hnum hstep

end Steps

/-- The queue as it is set up lists all descriptors in order. -/
theorem setupQueue_chained {num : ℕ} (hpos : 1 ≤ num) (hnum : num < 2 ^ 16) :
    (setupQueue num).Chained num [] (List.range num) := by
  have hend : links (setupQueue num).desc (num - 1) < 0 := by
    have hnext : ((setupQueue num).desc (num - 1)).next = 0xFFFF := by
      simp only [setupQueue]
      rw [if_neg (by omega), if_pos (by omega)]
    rw [links, hnext]
    decide
  have hlink : ∀ j, 0 ≤ j → j < num - 1 → links (setupQueue num).desc j = (j : ℤ) + 1 := by
    intro j _ hj
    have hnext : ((setupQueue num).desc j).next = j + 1 := by
      simp only [setupQueue]
      rw [if_pos (by omega)]
    rw [links, hnext, toLink_of_lt hnum (by omega), Nat.cast_succ]
  have hlists := lists_range' hend (m := num - 1) (i := 0) (by omega) hlink
  rw [Nat.sub_add_cancel hpos, ← List.range_eq_range'] at hlists
  refine ⟨hlists.1, List.length_range, hlists.2, ?_, ?_, ?_⟩
  · intro d hd
    exact List.mem_range.mp hd
  · intro d _
    exact List.not_mem_nil
  · intro hprep
    exact absurd hprep Bool.false_ne_true

/-- The queue is the same, the device's part included. -/
structure SameQueue (s t : Blk) : Prop where
  desc : t.desc = s.desc
  ring : t.ring = s.ring
  availIdx : t.availIdx = s.availIdx
  usedIdx : t.usedIdx = s.usedIdx
  freeHead : t.freeHead = s.freeHead
  numFree : t.numFree = s.numFree
  lastUsedIdx : t.lastUsedIdx = s.lastUsedIdx

/-- What the calls do with the free chain in state `s`: it lists `numFree` descriptors, a call
takes its first three, a call that finds fewer returns with the queue as it was, and what a call
holds that gives up is on the chain in no later state. -/
structure ChainKept (num : ℕ) (s : Blk) : Prop where
  chain : ∃ free, s.FreeChain num free
  takes : ∀ c, s.pc = .take c → ∃ d0 d1 d2 rest, s.FreeChain num (d0 :: d1 :: d2 :: rest) ∧
    (s.drive num).pc = .fill ⟨c, d0, d1, d2⟩ ∧ (s.drive num).FreeChain num rest
  refuses : s.pc = .idle → s.numFree < 3 → ∀ type sector buf,
    let t := s.begin type sector buf
    t.pc = .idle ∧ t.results = s.results ++ [⟨⟨s.calls, type, sector, buf⟩, -1⟩] ∧ SameQueue s t
  lost : ∀ k, s.pc = .polled k → s.usedIdx = s.lastUsedIdx → ∀ t, AnyRun num (s.drive num) t →
    ∃ free, t.FreeChain num free ∧ k.d0 ∉ free ∧ k.d1 ∉ free ∧ k.d2 ∉ free

theorem Chained.kept_all {num : ℕ} {s : Blk} {free : List ℕ} (h : s.Chained num [] free)
    (hnum : num < 2 ^ 16) : ChainKept num s where
  chain := ⟨free, h.freeChain⟩
  takes := by
    intro c hpc
    obtain ⟨d0, d1, d2, rest, rfl, hfill, hrest⟩ := h.take hpc
    exact ⟨d0, d1, d2, rest, h.freeChain, hfill, hrest.freeChain⟩
  refuses := by
    intro _ hfew type sector buf
    simp only [Blk.begin, if_pos hfew]
    exact ⟨rfl, rfl, rfl, rfl, rfl, rfl, rfl, rfl, rfl⟩
  lost := by
    intro k hpc hidx t hrun
    obtain ⟨free', h'⟩ := (h.giveUp hpc hidx).run hnum hrun
    have hout : ∀ d ∈ [k.d0, k.d1, k.d2], d ∉ free' := fun d hd hmem =>
      h'.kept d (List.mem_append_right _ hmem) (List.mem_append_left _ hd)
    exact ⟨free', h'.freeChain, hout _ (by simp), hout _ (by simp), hout _ (by simp)⟩

/-- In every state of every run the free chain is kept, whatever the device does. -/
theorem free_chain_kept {num : ℕ} (hpos : 1 ≤ num) (hnum : num < 2 ^ 16) {s : Blk}
    (hrun : AnyRun num (setupQueue num) s) : ChainKept num s := by
  obtain ⟨free, h⟩ := (setupQueue_chained hpos hnum).run hnum hrun
  exact h.kept_all hnum

/-- The first read on a queue of eight descriptors, which the device never begins. -/
theorem free_chain_kept_timeout : ∃ s : Blk, s.pc = .idle ∧ s.numFree = 5 ∧ ChainKept 8 s := by
  have h1 : Reach (Step 8) (fun _ _ => True) (setupQueue 8) _ :=
    .next (.call .tIn 1 none) .start trivial (.call rfl)
  have h2 := reach_drive (fun _ => trivial) 7 h1
  have h3 := reach_poll (fun _ => trivial) pollLimit h2 rfl rfl (by rw [Nat.zero_add])
  have h4 := reach_drive (fun _ => trivial) 2 h3
  exact ⟨_, rfl, rfl, free_chain_kept (by decide) (by decide) (AnyRun.of_reach h4)⟩

end Blk
end Ggmk

import Ggmk.Lib.Word
import Ggmk.Types

/-! How the processors that the boot loader lists become workers: the contexts of `smp.c`, the
LAPIC ids that `kmain` writes into the workers and the search of `ap_worker_entry`. -/
namespace Ggmk
open Word

/-- The answer of the boot loader, with the LAPIC id of each processor. -/
structure SmpResponse where
  bspLapicId : UInt32
  cpus : List UInt32

/-- The static variables of `smp.c`. -/
structure Smp where
  resp : Option SmpResponse
  cpuCount : ℕ
  bspLapic : UInt32

def smpInit : Option SmpResponse → ℕ × Smp
  | none => (1, ⟨none, 0, 0⟩)
  | some r => (u32 r.cpus.length, ⟨some r, u32 r.cpus.length, r.bspLapicId⟩)

/-- The inner loop of `smp_start_aps` from position `j` on: the rank of the processor at position
`i` among those that are not the BSP. -/
def apCpuIdx (bsp : UInt32) (i : ℕ) : ℕ → ℕ → List UInt32 → ℕ
  | _, _, [] => 0
  | j, idx, id :: ids =>
      if id = bsp then apCpuIdx bsp i (j + 1) idx ids
      else if j = i then idx + 1
      else apCpuIdx bsp i (j + 1) (idx + 1) ids

/-- An AP that has been woken, with the context it was given. -/
structure ApStart where
  lapicId : UInt32
  cpuIdx : ℕ
  deriving DecidableEq

def smpStartAps (s : Smp) : List ApStart :=
  match s.resp with
  | none => []
  | some r => r.cpus.zipIdx.filterMap fun p =>
      if p.1 = s.bspLapic then none else some ⟨p.1, apCpuIdx s.bspLapic p.2 0 0 r.cpus⟩

def smpLapicId (s : Smp) (cpuIdx : ℕ) : UInt32 :=
  match s.resp with
  | none => 0
  | some r => if s.cpuCount ≤ cpuIdx then 0 else r.cpus.getD cpuIdx 0

/-- The id register of an xAPIC has the id in its highest byte. -/
def lapicIdRegister (id : UInt32) : UInt32 := id <<< 24

/-- What `lapic_id` reads on the processor with LAPIC id `id`. -/
def lapicId (id : UInt32) : UInt32 := lapicIdRegister id >>> 24

/-- The workers that `kmain` boots. -/
def kmainWorkers (cpuCount : ℕ) : ℕ :=
  if gmkMaxWorkers < cpuCount then gmkMaxWorkers else cpuCount

/-- The `park.cpu_id` of the workers after `kmain` has assigned the LAPIC ids. -/
def kmainCpuIds (s : Smp) (nWorkers : ℕ) (cpuId : ℕ → UInt32) : ℕ → UInt32 :=
  (List.range' 1 (nWorkers - 1)).foldl (fun ids i => Function.update ids i (smpLapicId s i))
    (Function.update cpuId 0 s.bspLapic)

/-- `kmain` wakes the APs if there are any. -/
def kmainStartAps (s : Smp) (cpuCount : ℕ) : List ApStart :=
  if 1 < cpuCount then smpStartAps s else []

/-- The worker that `ap_worker_entry` finds on the processor with LAPIC id `id`. -/
def apWorkerEntry (cpuId : ℕ → UInt32) (nWorkers : ℕ) (id : UInt32) : Option ℕ :=
  (List.range nWorkers).find? fun i => cpuId i == lapicId id

/-! ## The contexts of the APs -/

/-- The processors before position `i` that are not the BSP, and that position. -/
theorem apCpuIdx_eq {bsp : UInt32} {ids : List UInt32} {i j : ℕ} (hj : j ≤ i) {id : UInt32}
    (hid : ids[i - j]? = some id) (hne : id ≠ bsp) (idx : ℕ) :
    apCpuIdx bsp i j idx ids = idx + (ids.take (i - j)).countP (· ≠ bsp) + 1 := by
  induction ids generalizing j idx with
  | nil => simp at hid
  | cons x ids ih =>
    rw [apCpuIdx]
    rcases hj.eq_or_lt with rfl | hlt
    · obtain rfl : x = id := by simpa using hid
      simp [hne]
    · have hsucc : i - j = (i - (j + 1)) + 1 := by omega
      rw [hsucc, List.getElem?_cons_succ] at hid
      rw [hsucc, List.take_succ_cons, if_neg hlt.ne]
      by_cases hx : x = bsp
      · rw [if_pos hx, ih (j := j + 1) hlt hid, List.countP_cons_of_neg (by simpa using hx)]
      · rw [if_neg hx, ih (j := j + 1) hlt hid, List.countP_cons_of_pos (by simpa using hx)]
        omega

theorem mem_smpStartAps {r : SmpResponse} {a : ApStart} : a ∈ smpStartAps (smpInit (some r)).2 ↔
    ∃ i, r.cpus[i]? = some a.lapicId ∧ a.lapicId ≠ r.bspLapicId ∧
      a.cpuIdx = (r.cpus.take i).countP (· ≠ r.bspLapicId) + 1 := by
  show a ∈ r.cpus.zipIdx.filterMap (fun p => if p.1 = r.bspLapicId then none
    else some ⟨p.1, apCpuIdx r.bspLapicId p.2 0 0 r.cpus⟩) ↔ _
  simp only [List.mem_filterMap, Prod.exists, List.mem_zipIdx_iff_getElem?]
  constructor
  · rintro ⟨id, i, hid, ha⟩
    split at ha
    next => simp at ha
    next hne =>
      obtain rfl := Option.some.inj ha
      refine ⟨i, hid, hne, ?_⟩
      simp only [apCpuIdx_eq (Nat.zero_le i) hid hne, Nat.sub_zero, Nat.zero_add]
  · rintro ⟨i, hid, hne, hidx⟩
    refine ⟨a.lapicId, i, hid, ?_⟩
    rw [if_neg hne, apCpuIdx_eq (Nat.zero_le i) hid hne, Nat.sub_zero, Nat.zero_add, ← hidx]

/-- The APs are numbered in the order of the list. -/
theorem apCpuIdx_ranks {bsp : UInt32} {all before ids : List UInt32} (hall : all = before ++ ids) :
    (ids.zipIdx before.length).filterMap
        (fun p => if p.1 = bsp then none else some (apCpuIdx bsp p.2 0 0 all)) =
      List.range' (before.countP (· ≠ bsp) + 1) (ids.countP (· ≠ bsp)) := by
  induction ids generalizing before with
  | nil => rfl
  | cons id ids ih =>
    have hnext := @ih (before ++ [id]) (by simpa using hall)
    rw [List.length_append, List.length_singleton] at hnext
    rw [List.zipIdx_cons, List.filterMap_cons]
    by_cases hid : id = bsp
    · rw [if_pos hid, hnext, List.countP_append, List.countP_cons_of_neg (by simpa using hid),
        List.countP_cons_of_neg (by simpa using hid), List.countP_nil, Nat.add_zero]
    · have hget : all[before.length - 0]? = some id := by simp [hall]
      rw [if_neg hid, hnext, apCpuIdx_eq (Nat.zero_le _) hget hid, List.countP_append,
        List.countP_cons_of_pos (by simpa using hid),
        List.countP_cons_of_pos (by simpa using hid), List.countP_nil, List.range'_succ]
      simp [hall]

theorem smpStartAps_cpuIdx (r : SmpResponse) :
    (smpStartAps (smpInit (some r)).2).map ApStart.cpuIdx =
      List.range' 1 (r.cpus.countP (· ≠ r.bspLapicId)) := by
  have h := @apCpuIdx_ranks r.bspLapicId _ _ _ (List.nil_append r.cpus).symm
  rw [List.countP_nil, Nat.zero_add] at h
  rw [← h]
  show (r.cpus.zipIdx.filterMap _).map _ = r.cpus.zipIdx.filterMap _
  rw [List.map_filterMap]
  congr 1
  funext p
  rw [apply_ite (Option.map ApStart.cpuIdx)]
  rfl

/-- Every AP has an entry of `ap_contexts` to itself, which is not entry 0. -/
structure OwnContexts (r : SmpResponse) : Prop where
  apart : ((smpStartAps (smpInit (some r)).2).map ApStart.cpuIdx).Nodup
  inTable : ∀ a ∈ smpStartAps (smpInit (some r)).2, 1 ≤ a.cpuIdx ∧ a.cpuIdx < gmkMaxWorkers

theorem ownContexts_iff_lt (r : SmpResponse) :
    OwnContexts r ↔ r.cpus.countP (· ≠ r.bspLapicId) < gmkMaxWorkers := by
  have hidx := smpStartAps_cpuIdx r
  constructor
  · intro h
    rcases Nat.eq_zero_or_pos (r.cpus.countP (· ≠ r.bspLapicId)) with hzero | hpos
    · rw [hzero]
      decide
    · -- the last AP has the number of APs as its index
      have hlast : r.cpus.countP (· ≠ r.bspLapicId) ∈
          (smpStartAps (smpInit (some r)).2).map ApStart.cpuIdx := by
        rw [hidx, List.mem_range'_1]
        omega
      obtain ⟨a, ha, heq⟩ := List.mem_map.mp hlast
      exact heq ▸ (h.inTable a ha).2
  · intro hlt
    refine ⟨hidx ▸ List.nodup_range', fun a ha => ?_⟩
    have hmem := List.mem_map_of_mem (f := ApStart.cpuIdx) ha
    rw [hidx, List.mem_range'_1] at hmem
    omega

/-- With the ids distinct and the BSP among them, the contexts suffice for as many processors as
there are workers. -/
theorem ownContexts_iff {r : SmpResponse} (hd : r.cpus.Nodup) (hb : r.bspLapicId ∈ r.cpus) :
    OwnContexts r ↔ r.cpus.length ≤ gmkMaxWorkers := by
  have hone : r.cpus.count r.bspLapicId = 1 := List.count_eq_one_of_mem hd hb
  have hsplit : r.cpus.length =
      r.cpus.count r.bspLapicId + r.cpus.countP (· ≠ r.bspLapicId) := by
    simpa [List.count] using List.length_eq_countP_add_countP (· == r.bspLapicId) (l := r.cpus)
  rw [ownContexts_iff_lt]
  omega

/-- The BSP second of three. -/
theorem ownContexts_three : OwnContexts ⟨0, [4, 0, 7]⟩ :=
  (ownContexts_iff (by decide) (by decide)).mpr (by decide)

/-- The last AP of 33 processors gets index 32. -/
theorem contexts_overrun : ¬ ∀ r : SmpResponse, r.cpus.Nodup → r.bspLapicId ∈ r.cpus →
    OwnContexts r := by
  intro hall
  have h := hall ⟨0, (List.range 33).map UInt32.ofNat⟩ (by decide) (by decide)
  rw [ownContexts_iff_lt] at h
  exact absurd h (by decide)

/-! ## The workers' processors -/

/-- A loop that writes `f i` at each position `i` from `a` on. -/
theorem foldl_update_range' {α : Type*} (f : ℕ → α) (m a i : ℕ) (g : ℕ → α) :
    (List.range' a m).foldl (fun ids i => Function.update ids i (f i)) g i =
      if a ≤ i ∧ i < a + m then f i else g i := by
  induction m generalizing a g with
  | zero =>
    rw [if_neg (by omega)]
    rfl
  | succ m ih =>
    rw [List.range'_succ, List.foldl_cons, ih]
    by_cases hi : i = a
    · subst hi
      rw [if_neg (by omega), if_pos (by omega), Function.update_self]
    · rw [Function.update_of_ne hi]
      congr 1
      apply propext
      omega

theorem lapicId_toNat (id : UInt32) : (lapicId id).toNat = id.toNat % 256 := by
  have hlt := id.toNat_lt
  simp only [lapicId, lapicIdRegister, UInt32.toNat_shiftRight, UInt32.toNat_shiftLeft,
    Nat.shiftLeft_eq, Nat.shiftRight_eq_div_pow, show (24 : UInt32).toNat % 32 = 24 from rfl]
  omega

theorem lapicId_eq_self_iff {id : UInt32} : lapicId id = id ↔ id.toNat < 256 := by
  rw [← UInt32.toNat_inj, lapicId_toNat]
  omega

theorem lapicId_lapicId (id : UInt32) : lapicId (lapicId id) = lapicId id := by
  rw [lapicId_eq_self_iff, lapicId_toNat]
  omega

section Assigned
variable {r : SmpResponse} {park : ℕ → UInt32}

/-- The worker that the AP with LAPIC id `id` finds after `kmain` has assigned the ids. -/
def kmainFinds (r : SmpResponse) (park : ℕ → UInt32) (id : UInt32) : Option ℕ :=
  let (cpuCount, s) := smpInit (some r)
  apWorkerEntry (kmainCpuIds s (kmainWorkers cpuCount) park) (kmainWorkers cpuCount) id

/-- The APs that `kmain` wakes. -/
def kmainAps (r : SmpResponse) : List ApStart :=
  let (cpuCount, s) := smpInit (some r)
  kmainStartAps s cpuCount

/-- Worker 0 belongs to the BSP and worker `i` to the processor at position `i`. -/
def workerLapic (r : SmpResponse) (i : ℕ) : UInt32 :=
  if i = 0 then r.bspLapicId else r.cpus.getD i 0

theorem kmainCpuIds_eq {s : Smp} (hs : s = ⟨some r, r.cpus.length, r.bspLapicId⟩) {i : ℕ}
    (hi : i < r.cpus.length) : kmainCpuIds s r.cpus.length park i = workerLapic r i := by
  rw [kmainCpuIds, foldl_update_range', workerLapic, hs]
  rcases Nat.eq_zero_or_pos i with rfl | hpos
  · rw [if_neg (by omega), if_pos rfl, Function.update_self]
  · rw [if_pos (by omega), if_neg (by omega), smpLapicId]
    exact if_neg (not_le.mpr hi)

theorem kmainFinds_eq_some (hn : r.cpus.length ≤ gmkMaxWorkers) {id : UInt32} {w : ℕ} :
    kmainFinds r park id = some w ↔ w < r.cpus.length ∧ workerLapic r w = lapicId id ∧
      ∀ j < w, workerLapic r j ≠ lapicId id := by
  have hcount : u32 r.cpus.length = r.cpus.length := by
    rw [u32_of_lt]
    simp only [gmkMaxWorkers] at hn
    omega
  have hworkers : kmainWorkers r.cpus.length = r.cpus.length := if_neg (not_lt.mpr hn)
  simp only [kmainFinds, smpInit, hcount, hworkers, apWorkerEntry, List.find?_range_eq_some,
    List.mem_range, beq_iff_eq, Bool.not_eq_true', beq_eq_false_iff_ne]
  constructor
  · rintro ⟨heq, hw, hfirst⟩
    refine ⟨hw, by rw [← heq, kmainCpuIds_eq rfl hw], ?_⟩
    intro j hj
    have hid : kmainCpuIds ⟨some r, r.cpus.length, r.bspLapicId⟩ r.cpus.length park j =
        workerLapic r j := kmainCpuIds_eq rfl (hj.trans hw)
    rw [← hid]
    exact hfirst j hj
  · rintro ⟨hw, heq, hfirst⟩
    refine ⟨by rw [kmainCpuIds_eq rfl hw, heq], hw, ?_⟩
    intro j hj
    rw [kmainCpuIds_eq rfl (hj.trans hw)]
    exact hfirst j hj

theorem mem_kmainAps (hn : r.cpus.length ≤ gmkMaxWorkers) (hb : r.bspLapicId ∈ r.cpus)
    {a : ApStart} : a ∈ kmainAps r ↔ ∃ i, r.cpus[i]? = some a.lapicId ∧
      a.lapicId ≠ r.bspLapicId ∧ a.cpuIdx = (r.cpus.take i).countP (· ≠ r.bspLapicId) + 1 := by
  rw [← mem_smpStartAps]
  show a ∈ (if 1 < u32 r.cpus.length then smpStartAps (smpInit (some r)).2 else []) ↔ _
  simp only [gmkMaxWorkers] at hn
  rw [u32_of_lt (by omega)]
  split
  next => rfl
  next hone =>
    -- a single processor is the BSP
    simp only [List.not_mem_nil, false_iff, mem_smpStartAps, not_exists]
    rintro i ⟨hi, hne, -⟩
    obtain ⟨x, hx⟩ := List.length_eq_one_iff.mp
      (le_antisymm (not_lt.mp hone) (List.length_pos_of_mem hb))
    rw [hx] at hi hb
    exact hne (List.mem_singleton.mp (List.mem_of_getElem? hi) ▸ (List.mem_singleton.mp hb).symm)

/-- With the BSP first, the rank of an AP among the APs is its position in the list. -/
theorem cpuIdx_eq_position (hd : r.cpus.Nodup) (hhead : r.cpus.head? = some r.bspLapicId) {i : ℕ}
    {id : UInt32} (hi : r.cpus[i]? = some id) (hne : id ≠ r.bspLapicId) :
    (r.cpus.take i).countP (· ≠ r.bspLapicId) + 1 = i := by
  obtain ⟨rest, hcpus⟩ := List.head?_eq_some_iff.mp hhead
  rw [hcpus] at hi hd ⊢
  cases i with
  | zero =>
    rw [List.getElem?_cons_zero] at hi
    exact absurd (Option.some.inj hi).symm hne
  | succ i =>
    rw [List.getElem?_cons_succ] at hi
    have hall : ∀ x ∈ rest.take i, decide (x ≠ r.bspLapicId) = true := by
      intro x hx
      have hx := List.mem_of_mem_take hx
      exact decide_eq_true (ne_of_mem_of_not_mem hx (List.nodup_cons.mp hd).1)
    rw [List.take_succ_cons, List.countP_cons_of_neg (by simp), List.countP_eq_length.mpr hall,
      List.length_take, min_eq_left (List.getElem?_eq_some_iff.mp hi).1.le]

/-- Every AP finds a worker of its own, which is not that of the BSP. -/
structure OneToOne (r : SmpResponse) (park : ℕ → UInt32) : Prop where
  finds : ∀ a ∈ kmainAps r, ∃ w, 1 ≤ w ∧ kmainFinds r park a.lapicId = some w
  apart : ∀ a ∈ kmainAps r, ∀ b ∈ kmainAps r,
    kmainFinds r park a.lapicId = kmainFinds r park b.lapicId → a = b

/-- With the BSP first and ids of one byte, an AP finds the worker of its context. -/
theorem kmainFinds_eq_cpuIdx (hn : r.cpus.length ≤ gmkMaxWorkers) (hd : r.cpus.Nodup)
    (hhead : r.cpus.head? = some r.bspLapicId) {a : ApStart} (ha : a ∈ kmainAps r)
    (hbyte : a.lapicId.toNat < 256) : kmainFinds r park a.lapicId = some a.cpuIdx ∧
      r.cpus[a.cpuIdx]? = some a.lapicId := by
  obtain ⟨i, hi, hne, hidx⟩ := (mem_kmainAps hn (List.mem_of_mem_head? hhead)).mp ha
  have hpos := cpuIdx_eq_position hd hhead hi hne
  rw [hidx, hpos]
  refine ⟨(kmainFinds_eq_some hn).mpr ⟨(List.getElem?_eq_some_iff.mp hi).1, ?_, ?_⟩, hi⟩
  · rw [workerLapic, if_neg (by omega), lapicId_eq_self_iff.mpr hbyte, List.getD_eq_getElem?_getD,
      hi, Option.getD_some]
  · intro j hj
    rw [lapicId_eq_self_iff.mpr hbyte, workerLapic]
    split
    next => exact hne.symm
    next =>
      obtain ⟨hlt, hget⟩ := List.getElem?_eq_some_iff.mp hi
      rw [List.getD_eq_getElem _ _ (hj.trans hlt), ← hget]
      exact fun heq => hj.ne ((List.Nodup.getElem_inj_iff hd).mp heq)

/-- A processor that the search takes for an AP is that AP. -/
theorem OneToOne.position (h : OneToOne r park) (hn : r.cpus.length ≤ gmkMaxWorkers)
    (hd : r.cpus.Nodup) (hb : r.bspLapicId ∈ r.cpus) {i : ℕ} {id : UInt32}
    (hi : r.cpus[i]? = some id) (hne : id ≠ r.bspLapicId) : 1 ≤ i ∧ id.toNat < 256 := by
  have ha := (mem_kmainAps hn hb (a := ⟨id, _⟩)).mpr ⟨i, hi, hne, rfl⟩
  obtain ⟨w, hw, hfound⟩ := h.finds _ ha
  obtain ⟨hlt, heq, hfirst⟩ := (kmainFinds_eq_some hn).mp hfound
  -- the worker found belongs to an AP, since that of the BSP comes first
  have hother : workerLapic r w ≠ r.bspLapicId := by
    rw [heq]
    exact (hfirst 0 hw).symm
  rw [workerLapic, if_neg (by omega), List.getD_eq_getElem _ _ hlt] at heq hother
  have hw' : r.cpus[w]? = some r.cpus[w] := List.getElem?_eq_getElem hlt
  have hb' := (mem_kmainAps hn hb (a := ⟨r.cpus[w], _⟩)).mpr ⟨w, hw', hother, rfl⟩
  -- that AP reads the same id and finds the same worker
  have hsame : kmainFinds r park r.cpus[w] = some w := by
    rw [kmainFinds_eq_some hn] at hfound ⊢
    rwa [heq, lapicId_lapicId]
  have hab := h.apart _ ha _ hb' (hfound.trans hsame.symm)
  have hid : id = r.cpus[w] := congrArg ApStart.lapicId hab
  obtain ⟨hilt, hget⟩ := List.getElem?_eq_some_iff.mp hi
  have hiw : i = w := (List.Nodup.getElem_inj_iff hd).mp (hget.trans hid)
  exact ⟨hiw ▸ hw, lapicId_eq_self_iff.mp (heq.symm.trans hid.symm)⟩

/-- The assignment is one-to-one exactly when the boot loader lists the BSP first and the APs
have the ids of an xAPIC. -/
theorem oneToOne_iff_bsp_first (hn : r.cpus.length ≤ gmkMaxWorkers) (hd : r.cpus.Nodup)
    (hb : r.bspLapicId ∈ r.cpus) : OneToOne r park ↔ r.cpus.head? = some r.bspLapicId ∧
      ∀ id ∈ r.cpus, id ≠ r.bspLapicId → id.toNat < 256 := by
  constructor
  · intro h
    constructor
    · rw [List.head?_eq_getElem?, List.getElem?_eq_getElem (List.length_pos_of_mem hb)]
      by_contra hne
      have hpos := h.position hn hd hb (List.getElem?_eq_getElem (List.length_pos_of_mem hb))
        fun heq => hne (congrArg some heq)
      exact absurd hpos.1 (by decide)
    · intro id hid hne
      obtain ⟨i, hi⟩ := List.getElem?_of_mem hid
      exact (h.position hn hd hb hi hne).2
  · rintro ⟨hhead, hbyte⟩
    have hmem {a : ApStart} (ha : a ∈ kmainAps r) : kmainFinds r park a.lapicId = some a.cpuIdx ∧
        r.cpus[a.cpuIdx]? = some a.lapicId := by
      obtain ⟨i, hi, hne, -⟩ := (mem_kmainAps hn hb).mp ha
      exact kmainFinds_eq_cpuIdx hn hd hhead ha (hbyte _ (List.mem_of_getElem? hi) hne)
    constructor
    · intro a ha
      obtain ⟨i, -, -, hidx⟩ := (mem_kmainAps hn hb).mp ha
      exact ⟨a.cpuIdx, by omega, (hmem ha).1⟩
    · intro a ha b hb' heq
      rw [(hmem ha).1, (hmem hb').1] at heq
      have hidx : a.cpuIdx = b.cpuIdx := Option.some.inj heq
      have hid : a.lapicId = b.lapicId := by
        have h1 := (hmem ha).2
        rw [hidx, (hmem hb').2] at h1
        exact (Option.some.inj h1).symm
      cases a
      cases b
      simp only [ApStart.mk.injEq]
      exact ⟨hid, hidx⟩

end Assigned

/-- Three processors with the BSP first. -/
theorem oneToOne_three : OneToOne ⟨4, [4, 0, 7]⟩ (fun _ => 0) :=
  (oneToOne_iff_bsp_first (by decide) (by decide) (by decide)).mpr (by simp)

/-- With the BSP second, the AP at the first position finds no worker. -/
theorem bsp_second_not_oneToOne : ¬ ∀ (r : SmpResponse) (park : ℕ → UInt32),
    r.cpus.length ≤ gmkMaxWorkers → r.cpus.Nodup → r.bspLapicId ∈ r.cpus → OneToOne r park := by
  intro hall
  have h := hall ⟨1, [0, 1]⟩ (fun _ => 0) (by decide) (by decide) (by decide)
  obtain ⟨w, -, hw⟩ := h.finds ⟨0, 1⟩ (by decide)
  have hnone : kmainFinds ⟨1, [0, 1]⟩ (fun _ => 0) 0 = none := by decide +kernel
  rw [hnone] at hw
  simp at hw

end Ggmk

import Ggmk.Lib.Reach
import Ggmk.Lib.Word

/-! The virtio block driver of `virtio_blk.c` against a device that works at its own pace.
Every request goes through one header, one data and one status buffer, and the driver knows a
completion only by the index of the used ring. -/
namespace Ggmk
open Word Guarded

/-- The 512 bytes of a sector. -/
abbrev SectorData := Fin 512 → UInt8

/-- `VIRTIO_BLK_T_IN` and `VIRTIO_BLK_T_OUT`. -/
inductive BlkType where
  | tIn
  | tOut
  deriving DecidableEq

/-- `struct virtio_blk_req`. -/
structure VirtioBlkReq where
  type : BlkType
  sector : UInt64
  deriving DecidableEq

/-- The three buffers of the DMA page, in place of their physical addresses. -/
inductive DmaBuffer where
  | reqHeader
  | reqData
  | reqStatus
  deriving DecidableEq

def vringDescFNext : UInt16 := 1
def vringDescFWrite : UInt16 := 2

/-- `struct vring_desc`. -/
structure VringDesc where
  addr : Option DmaBuffer
  len : ℕ
  flags : UInt16
  next : ℕ
  deriving DecidableEq

/-- A call of `virtio_blk_do_io`; a buffer that is not given is the null pointer. -/
structure BlkCall where
  id : ℕ
  type : BlkType
  sector : UInt64
  buf : Option SectorData

def BlkCall.req (c : BlkCall) : VirtioBlkReq := ⟨c.type, c.sector⟩

/-- A call with the three descriptors it has taken. -/
structure BlkChain where
  call : BlkCall
  d0 : ℕ
  d1 : ℕ
  d2 : ℕ

/-- Where the driver is, named by what it does next. -/
inductive BlkPc where
  | idle
  | header (c : BlkCall)
  | copyIn (c : BlkCall) (src : SectorData) (i : ℕ)
  | status (c : BlkCall)
  | take (c : BlkCall)
  | fill (k : BlkChain)
  | offer (k : BlkChain)
  | publish (k : BlkChain)
  | notify (k : BlkChain)
  | poll (k : BlkChain) (timeout : ℕ)
  | polled (k : BlkChain)
  | give (k : BlkChain)
  | check (c : BlkCall)
  | copyOut (c : BlkCall) (dst : SectorData) (i : ℕ)

inductive DevStage where
  | fetched
  | produced
  | reported
  deriving DecidableEq

/-- The chain the device works on, with the call that offered it. -/
structure DevReq where
  call : ℕ
  header : VirtioBlkReq
  /-- The data descriptor of the chain is writable for the device. -/
  writable : Bool
  /-- What the device has written to the data buffer. -/
  data : Option SectorData
  stage : DevStage

/-- A chain that the device has completed. -/
structure BlkCompletion where
  call : ℕ
  header : VirtioBlkReq
  data : Option SectorData

/-- A call that has returned `rc`, with its buffer as it is then. -/
structure BlkResult where
  call : BlkCall
  rc : ℤ

/-- The driver, the memory it shares with the device, and the device. `published`, `completed`
and `results` are the history of the chains and of the calls. -/
structure Blk where
  header : VirtioBlkReq
  data : SectorData
  status : UInt8
  desc : ℕ → VringDesc
  ring : ℕ → ℕ
  availIdx : ℕ
  usedIdx : ℕ
  freeHead : ℕ
  numFree : ℕ
  lastUsedIdx : ℕ
  pc : BlkPc
  dev : Option DevReq
  /-- How many chains the device has begun. -/
  fetched : ℕ
  calls : ℕ
  published : List ℕ
  completed : List BlkCompletion
  results : List BlkResult

inductive BlkAct where
  | call (type : BlkType) (sector : UInt64) (buf : Option SectorData)
  | drive
  | fetch
  | produce (d : SectorData)
  | report (st : UInt8)
  | complete

namespace Blk

/-- The queue that `virtio_pci_setup_queue` leaves for a device with `num` descriptors, with a
zeroed DMA page. -/
def setupQueue (num : ℕ) : Blk where
  header := ⟨.tIn, 0⟩
  data := fun _ => 0
  status := 0
  desc := fun i => ⟨none, 0, 0, if i + 1 < num then i + 1 else if i + 1 = num then 0xFFFF else 0⟩
  ring := fun _ => 0
  availIdx := 0
  usedIdx := 0
  freeHead := 0
  numFree := num
  lastUsedIdx := 0
  pc := .idle
  dev := none
  fetched := 0
  calls := 0
  published := []
  completed := []
  results := []

def setNext (desc : ℕ → VringDesc) (d next : ℕ) : ℕ → VringDesc :=
  Function.update desc d { desc d with next := next }

/-- The driver returns `rc` from the call. -/
def ret (s : Blk) (c : BlkCall) (rc : ℤ) : Blk :=
  { s with pc := .idle, results := s.results ++ [⟨c, rc⟩] }

/-- A call begins: with fewer than three free descriptors it fails. -/
def begin (s : Blk) (type : BlkType) (sector : UInt64) (buf : Option SectorData) : Blk :=
  let c : BlkCall := ⟨s.calls, type, sector, buf⟩
  if s.numFree < 3 then { s.ret c (-1) with calls := s.calls + 1 }
  else { s with pc := .header c, calls := s.calls + 1 }

/-- The three descriptors of a request. -/
def fillDesc (desc : ℕ → VringDesc) (k : BlkChain) : ℕ → VringDesc :=
  let flags := if k.call.type = .tIn then vringDescFNext ||| vringDescFWrite else vringDescFNext
  let desc := Function.update desc k.d0 ⟨some .reqHeader, 16, vringDescFNext, k.d1⟩
  let desc := Function.update desc k.d1 ⟨some .reqData, 512, flags, k.d2⟩
  Function.update desc k.d2 ⟨some .reqStatus, 1, vringDescFWrite, 0⟩

/-- `VIRTIO_BLK_S_OK`. -/
def virtioBlkSOk : UInt8 := 0

def pollLimit : ℕ := 10000000

/-- One step of the driver in `virtio_blk_do_io`. -/
def drive (num : ℕ) (s : Blk) : Blk :=
  match s.pc with
  | .idle => s
  | .header c =>
    { s with
      header := c.req
      pc := match c.type, c.buf with
        | .tOut, some src => .copyIn c src 0
        | _, _ => .status c }
  | .copyIn c src i =>
    if h : i < 512 then
      { s with data := Function.update s.data ⟨i, h⟩ (src ⟨i, h⟩), pc := .copyIn c src (i + 1) }
    else { s with pc := .status c }
  | .status c => { s with status := 0xFF, pc := .take c }
  | .take c =>
    let d0 := s.freeHead
    let d1 := (s.desc d0).next
    let d2 := (s.desc d1).next
    { s with
      freeHead := (s.desc d2).next
      numFree := s.numFree - 3
      pc := .fill ⟨c, d0, d1, d2⟩ }
  | .fill k => { s with desc := fillDesc s.desc k, pc := .offer k }
  | .offer k =>
    { s with ring := Function.update s.ring (s.availIdx % num) k.d0, pc := .publish k }
  | .publish k =>
    { s with
      availIdx := u16 (s.availIdx + 1)
      published := s.published ++ [k.call.id]
      pc := .notify k }
  | .notify k => { s with pc := .poll k 0 }
  | .poll k timeout =>
    if timeout < pollLimit then
      if s.usedIdx ≠ s.lastUsedIdx then { s with pc := .polled k }
      else { s with pc := .poll k (timeout + 1) }
    else { s with pc := .polled k }
  | .polled k =>
    -- the chain of a call that gives up stays with the device, and its descriptors with it
    if s.usedIdx = s.lastUsedIdx then s.ret k.call (-1)
    else { s with pc := .give k }
  | .give k =>
    { s with
      lastUsedIdx := u16 (s.lastUsedIdx + 1)
      desc := setNext (setNext (setNext s.desc k.d2 s.freeHead) k.d1 k.d2) k.d0 k.d1
      freeHead := k.d0
      numFree := u16 (s.numFree + 3)
      pc := .check k.call }
  | .check c =>
    if s.status ≠ virtioBlkSOk then s.ret c (-1)
    else match c.type, c.buf with
      | .tIn, some dst => { s with pc := .copyOut c dst 0 }
      | _, _ => s.ret c 0
  | .copyOut c dst i =>
    if h : i < 512 then
      { s with pc := .copyOut c (Function.update dst ⟨i, h⟩ (s.data ⟨i, h⟩)) (i + 1) }
    else s.ret { c with buf := some dst } 0

/-- What the flags of the data descriptor say to the device. -/
def dataFlags (w : Bool) : UInt16 :=
  if w then vringDescFNext ||| vringDescFWrite else vringDescFNext

/-- The descriptors are those of a request whose data buffer the device may write if `w`. -/
structure IsChain (desc : ℕ → VringDesc) (d0 d1 d2 : ℕ) (w : Bool) : Prop where
  header : desc d0 = ⟨some .reqHeader, 16, vringDescFNext, d1⟩
  data : desc d1 = ⟨some .reqData, 512, dataFlags w, d2⟩
  status : desc d2 = ⟨some .reqStatus, 1, vringDescFWrite, 0⟩

/-- The steps of the driver and of the device. The device begins the chains in the order in
which they were offered, one at a time; it may find a chain before it is notified. -/
inductive Step (num : ℕ) : Blk → BlkAct → Blk → Prop
  | call {s : Blk} {type : BlkType} {sector : UInt64} {buf : Option SectorData}
      (hpc : s.pc = .idle) : Step num s (.call type sector buf) (s.begin type sector buf)
  | drive {s : Blk} : Step num s .drive (s.drive num)
  | fetch {s : Blk} {id d1 d2 : ℕ} {w : Bool} (hdev : s.dev = none)
      (hid : s.published[s.fetched]? = some id)
      (hchain : IsChain s.desc (s.ring (u16 s.fetched % num)) d1 d2 w) :
      Step num s .fetch
        { s with dev := some ⟨id, s.header, w, none, .fetched⟩, fetched := s.fetched + 1 }
  | produce {s : Blk} {q : DevReq} {d : SectorData} (hdev : s.dev = some q)
      (hq : q.stage = .fetched) :
      Step num s (.produce d)
        { s with
          data := if q.writable then d else s.data
          dev := some { q with data := if q.writable then some d else none, stage := .produced } }
  | report {s : Blk} {q : DevReq} {st : UInt8} (hdev : s.dev = some q)
      (hq : q.stage = .produced) :
      Step num s (.report st) { s with status := st, dev := some { q with stage := .reported } }
  | complete {s : Blk} {q : DevReq} (hdev : s.dev = some q) (hq : q.stage = .reported) :
      Step num s .complete
        { s with
          usedIdx := u16 (s.usedIdx + 1)
          completed := s.completed ++ [⟨q.call, q.header, q.data⟩]
          dev := none }

/-- A call that returns zero was answered: the device has completed its chain, and a read has
the data of that chain in its buffer. -/
def Answered (s : Blk) : Prop :=
  ∀ r ∈ s.results, r.rc = 0 → ∃ k ∈ s.completed, k.call = r.call.id ∧
    (r.call.type = .tIn → r.call.buf.isSome → r.call.buf = k.data)

/-- A call is made when the completion of every offered chain has been taken, or when it fails
for want of descriptors. -/
def Caught (s : Blk) : BlkAct → Prop
  | .call _ _ _ => s.numFree < 3 ∨ s.availIdx = s.lastUsedIdx
  | _ => True

/-! ## The invariant -/

/-- The device has nothing to do. -/
def Settled (s : Blk) : Prop :=
  s.dev = none ∧ s.fetched = s.published.length ∧ s.completed.length = s.published.length

/-- All chains have been taken back. They were in use one at a time, so that the free chain
begins as it was set up. -/
def Level (num : ℕ) (s : Blk) : Prop :=
  s.lastUsedIdx = u16 s.published.length ∧ s.numFree = num ∧
    (3 ≤ num → s.freeHead = 0 ∧ (s.desc 0).next = 1 ∧ (s.desc 1).next = 2)

/-- The first three descriptors are those of the call. -/
def Taken (num : ℕ) (s : Blk) (k : BlkChain) : Prop :=
  (k.d0 = 0 ∧ k.d1 = 1 ∧ k.d2 = 2) ∧ s.numFree + 3 = num

/-- The device has completed the chain of the call, and its data is still there. -/
def Served (s : Blk) (c : BlkCall) : Prop :=
  ∃ k ∈ s.completed, k.call = c.id ∧ (c.type = .tIn → k.data = some s.data)

/-- The descriptors and the entry of the available ring are those of the request. -/
def Offered (num : ℕ) (s : Blk) (k : BlkChain) : Prop :=
  s.header = k.call.req ∧ IsChain s.desc k.d0 k.d1 k.d2 (decide (k.call.type = .tIn)) ∧
    s.ring (u16 s.fetched % num) = k.d0

/-- How far the device is with the one chain it may have. -/
inductive Serving (num : ℕ) (s : Blk) (k : BlkChain) : Prop
  | waiting (hdev : s.dev = none) (hfetched : s.fetched + 1 = s.published.length)
      (hcompleted : s.completed.length + 1 = s.published.length) (hoffered : s.Offered num k)
  | working (q : DevReq) (hdev : s.dev = some q) (hfetched : s.fetched = s.published.length)
      (hcompleted : s.completed.length + 1 = s.published.length) (hcall : q.call = k.call.id)
      (hwritable : q.writable = decide (k.call.type = .tIn))
      (hdata : q.stage ≠ .fetched → q.writable → q.data = some s.data)
  | done (hsettled : s.Settled) (hserved : s.Served k.call)

/-- The completion of the last chain has not been taken. -/
def Behind (num : ℕ) (s : Blk) (k : BlkChain) : Prop :=
  s.Taken num k ∧ ∃ l, s.published = l ++ [k.call.id] ∧ s.lastUsedIdx = u16 l.length

/-- The driver prepares a request: the device is at rest. -/
def Preparing (num : ℕ) (s : Blk) : Prop := 3 ≤ num ∧ s.Settled ∧ s.Level num

/-- The request is written and its descriptors are taken. -/
def Submitting (num : ℕ) (s : Blk) (k : BlkChain) : Prop :=
  s.Settled ∧ s.lastUsedIdx = u16 s.published.length ∧ s.Taken num k ∧ s.header = k.call.req

/-- What holds while the driver is at a point of a call. -/
def Phase (num : ℕ) (s : Blk) : BlkPc → Prop
  | .idle => (s.Settled ∧ s.Level num) ∨ s.availIdx ≠ s.lastUsedIdx
  | .header _ => s.Preparing num
  | .copyIn c _ _ | .status c | .take c => s.Preparing num ∧ s.header = c.req
  | .fill k => s.Submitting num k
  | .offer k => s.Submitting num k ∧ IsChain s.desc k.d0 k.d1 k.d2 (decide (k.call.type = .tIn))
  | .publish k => s.Submitting num k ∧ s.Offered num k
  | .notify k | .poll k _ | .polled k => s.Behind num k ∧ s.Serving num k
  | .give k => s.Behind num k ∧ s.Settled ∧ s.Served k.call
  | .check c => s.Settled ∧ s.Level num ∧ s.Served c
  | .copyOut c dst i => s.Settled ∧ s.Level num ∧ s.Served c ∧ c.type = .tIn ∧
      ∀ j : Fin 512, j < i → dst j = s.data j

structure Inv (num : ℕ) (s : Blk) : Prop where
  avail : s.availIdx = u16 s.published.length
  used : s.usedIdx = u16 s.completed.length
  answered : s.Answered
  phase : s.Phase num s.pc

section Steps
variable {num : ℕ} {s : Blk}

theorem Answered.ret (h : s.Answered) {c : BlkCall} {rc : ℤ}
    (hc : rc = 0 → ∃ k ∈ s.completed, k.call = c.id ∧
      (c.type = .tIn → c.buf.isSome → c.buf = k.data)) : (s.ret c rc).Answered := by
  intro r hr hrc
  rcases List.mem_append.mp hr with hr | hr
  · exact h r hr hrc
  · rw [List.mem_singleton.mp hr] at hrc ⊢
    exact hc hrc

/-- A call that fails returns to where it was called from. -/
theorem Inv.fail (h : s.Inv num) (c : BlkCall)
    (hp : (s.Settled ∧ s.Level num) ∨ s.availIdx ≠ s.lastUsedIdx) : (s.ret c (-1)).Inv num := by
  refine ⟨h.avail, h.used, h.answered.ret ?_, hp⟩
  intro hrc
  exact absurd hrc (by decide)

theorem Inv.call (h : s.Inv num) (hpc : s.pc = .idle) {type : BlkType} {sector : UInt64}
    {buf : Option SectorData} (hg : s.Caught (.call type sector buf)) :
    (s.begin type sector buf).Inv num := by
  have hp := h.phase
  rw [hpc] at hp
  unfold begin
  split
  · have hfail := h.fail ⟨s.calls, type, sector, buf⟩ hp
    exact ⟨hfail.avail, hfail.used, hfail.answered, hfail.phase⟩
  · rename_i hfree
    have heq : s.availIdx = s.lastUsedIdx := hg.resolve_left hfree
    obtain ⟨hset, hlev⟩ := hp.resolve_right (not_not.mpr heq)
    have henough : 3 ≤ num := by
      rw [← hlev.2.1]
      omega
    exact ⟨h.avail, h.used, h.answered, henough, hset, hlev⟩

theorem Inv.header (h : s.Inv num) {c : BlkCall} (hp : s.Phase num (.header c)) {pc : BlkPc}
    (hpc : pc = .status c ∨ ∃ src, pc = .copyIn c src 0) :
    Inv num { s with header := c.req, pc := pc } := by
  refine ⟨h.avail, h.used, h.answered, ?_⟩
  rcases hpc with rfl | ⟨src, rfl⟩
  · exact ⟨hp, rfl⟩
  · exact ⟨hp, rfl⟩

theorem Inv.take (h : s.Inv num) {c : BlkCall} (hp : s.Phase num (.take c)) :
    Inv num { s with
      freeHead := (s.desc (s.desc (s.desc s.freeHead).next).next).next
      numFree := s.numFree - 3
      pc := .fill ⟨c, s.freeHead, (s.desc s.freeHead).next,
        (s.desc (s.desc s.freeHead).next).next⟩ } := by
  obtain ⟨⟨henough, hset, hlast, hfree, hhead⟩, hheader⟩ := hp
  obtain ⟨h0, h1, h2⟩ := hhead henough
  have hnum : s.numFree - 3 + 3 = num := by omega
  rw [h0, h1, h2]
  exact ⟨h.avail, h.used, h.answered, hset, hlast, ⟨⟨rfl, rfl, rfl⟩, hnum⟩, hheader⟩

/-- The descriptors of a request that has the first three are those of its chain. -/
theorem isChain_fillDesc (desc : ℕ → VringDesc) {k : BlkChain} (h : s.Taken num k) :
    IsChain (fillDesc desc k) k.d0 k.d1 k.d2 (decide (k.call.type = .tIn)) := by
  obtain ⟨⟨h0, h1, h2⟩, -⟩ := h
  constructor <;> simp [fillDesc, dataFlags, h0, h1, h2]

theorem Inv.offer (h : s.Inv num) {k : BlkChain} (hp : s.Phase num (.offer k)) :
    Inv num { s with
      ring := Function.update s.ring (s.availIdx % num) k.d0
      pc := .publish k } := by
  obtain ⟨hsub, hchain⟩ := hp
  have hslot : u16 s.fetched % num = s.availIdx % num := by rw [hsub.1.2.1, h.avail]
  refine ⟨h.avail, h.used, h.answered, hsub, hsub.2.2.2, hchain, ?_⟩
  dsimp only
  rw [hslot, Function.update_self]

theorem Inv.publish (h : s.Inv num) {k : BlkChain} (hp : s.Phase num (.publish k)) :
    Inv num { s with
      availIdx := u16 (s.availIdx + 1)
      published := s.published ++ [k.call.id]
      pc := .notify k } := by
  obtain ⟨⟨⟨hdev, hfetched, hcompleted⟩, hlast, htaken, -⟩, hoffered⟩ := hp
  have hlen : (s.published ++ [k.call.id]).length = s.published.length + 1 := by simp
  refine ⟨?_, h.used, h.answered, ⟨htaken, s.published, rfl, hlast⟩, .waiting hdev ?_ ?_ hoffered⟩
  · dsimp only
    rw [h.avail, hlen, u16_u16_add]
  · dsimp only
    rw [hfetched, hlen]
  · dsimp only
    rw [hcompleted, hlen]

/-- The driver waits: what it does until it sees a completion does not matter to the device. -/
theorem Inv.wait (h : s.Inv num) {k : BlkChain} (hp : s.Phase num (.notify k)) {pc : BlkPc}
    (hpc : pc = .polled k ∨ ∃ t, pc = .poll k t) : Inv num { s with pc := pc } := by
  obtain ⟨hbehind, hserving⟩ := hp
  have hserving' : Serving num { s with pc := pc } k := by
    cases hserving with
    | waiting hdev hf hc ho => exact .waiting hdev hf hc ho
    | working q hdev hf hc hcall hw hd => exact .working q hdev hf hc hcall hw hd
    | done hset hserved => exact .done hset hserved
  refine ⟨h.avail, h.used, h.answered, ?_⟩
  rcases hpc with rfl | ⟨t, rfl⟩
  · exact ⟨hbehind, hserving'⟩
  · exact ⟨hbehind, hserving'⟩

/-- The used index moves when the device completes the chain. -/
theorem Inv.served_of_ne (h : s.Inv num) {k : BlkChain} (hb : s.Behind num k)
    (hs : s.Serving num k) (hne : s.usedIdx ≠ s.lastUsedIdx) : s.Settled ∧ s.Served k.call := by
  obtain ⟨-, l, hpub, hlast⟩ := hb
  have hstill : s.completed.length + 1 = s.published.length → False := by
    intro hc
    apply hne
    rw [h.used, hlast]
    congr 1
    simpa [hpub] using hc
  cases hs with
  | waiting _ _ hc => exact (hstill hc).elim
  | working _ _ _ hc => exact (hstill hc).elim
  | done hset hserved => exact ⟨hset, hserved⟩

theorem Inv.polled (h : s.Inv num) {k : BlkChain} (hp : s.Phase num (.polled k)) :
    Inv num (if s.usedIdx = s.lastUsedIdx then s.ret k.call (-1) else { s with pc := .give k }) := by
  obtain ⟨hbehind, hserving⟩ := hp
  split
  · -- the driver gives up: from now on the used index is late
    obtain ⟨-, l, hpub, hlast⟩ := hbehind
    refine h.fail k.call (.inr ?_)
    rw [h.avail, hlast, hpub, List.length_append]
    exact u16_succ_ne l.length
  · rename_i hne
    exact ⟨h.avail, h.used, h.answered, hbehind, h.served_of_ne hbehind hserving hne⟩

theorem Inv.give (h : s.Inv num) (hnum : num < 2 ^ 16) {k : BlkChain}
    (hp : s.Phase num (.give k)) :
    Inv num { s with
      lastUsedIdx := u16 (s.lastUsedIdx + 1)
      desc := setNext (setNext (setNext s.desc k.d2 s.freeHead) k.d1 k.d2) k.d0 k.d1
      freeHead := k.d0
      numFree := u16 (s.numFree + 3)
      pc := .check k.call } := by
  obtain ⟨⟨⟨⟨h0, h1, h2⟩, hfree⟩, l, hpub, hlast⟩, hset, hserved⟩ := hp
  refine ⟨h.avail, h.used, h.answered, hset, ⟨?_, ?_, ?_⟩, hserved⟩
  · simp [hlast, hpub]
  · dsimp only
    rw [hfree, u16_of_lt hnum]
  · intro _
    simp [setNext, h0, h1, h2]

theorem Inv.check (h : s.Inv num) {c : BlkCall} (hp : s.Phase num (.check c)) :
    Inv num (if s.status ≠ virtioBlkSOk then s.ret c (-1)
      else match c.type, c.buf with
        | .tIn, some dst => { s with pc := .copyOut c dst 0 }
        | _, _ => s.ret c 0) := by
  obtain ⟨hset, hlev, k, hk, hid, hdata⟩ := hp
  split
  · exact h.fail c (.inl ⟨hset, hlev⟩)
  · split
    · rename_i dst htype hbuf
      exact ⟨h.avail, h.used, h.answered, hset, hlev, ⟨k, hk, hid, hdata⟩, htype, by simp⟩
    · rename_i hnot
      refine ⟨h.avail, h.used, h.answered.ret ?_, .inl ⟨hset, hlev⟩⟩
      intro _
      refine ⟨k, hk, hid, ?_⟩
      intro htype hsome
      obtain ⟨dst, hbuf⟩ := Option.isSome_iff_exists.mp hsome
      exact (hnot dst htype hbuf).elim

theorem Inv.copyOut (h : s.Inv num) {c : BlkCall} {dst : SectorData} {i : ℕ}
    (hp : s.Phase num (.copyOut c dst i)) :
    Inv num (if h : i < 512 then
        { s with pc := .copyOut c (Function.update dst ⟨i, h⟩ (s.data ⟨i, h⟩)) (i + 1) }
      else s.ret { c with buf := some dst } 0) := by
  obtain ⟨hset, hlev, hserved, htype, hcopied⟩ := hp
  split
  · rename_i hi
    refine ⟨h.avail, h.used, h.answered, hset, hlev, hserved, htype, ?_⟩
    intro j hj
    by_cases hji : j = ⟨i, hi⟩
    · rw [hji, Function.update_self]
    · rw [Function.update_of_ne hji]
      have hne : (j : ℕ) ≠ i := fun he => hji (Fin.ext he)
      exact hcopied j (by omega)
  · rename_i hi
    refine ⟨h.avail, h.used, h.answered.ret ?_, .inl ⟨hset, hlev⟩⟩
    intro _
    obtain ⟨k, hk, hid, hdata⟩ := hserved
    have hdst : dst = s.data := funext fun j => hcopied j (by omega)
    refine ⟨k, hk, hid, ?_⟩
    intro _ _
    rw [hdata htype, hdst]

theorem Inv.drive (h : s.Inv num) (hnum : num < 2 ^ 16) : (s.drive num).Inv num := by
  have hp := h.phase
  unfold Blk.drive
  split <;> rename_i hpc <;> rw [hpc] at hp
  case h_1 => exact h
  case h_2 c =>
    apply h.header hp
    split
    · exact .inr ⟨_, rfl⟩
    · exact .inl rfl
  case h_3 c src i =>
    split
    · exact ⟨h.avail, h.used, h.answered, hp⟩
    · exact ⟨h.avail, h.used, h.answered, hp⟩
  case h_4 c => exact ⟨h.avail, h.used, h.answered, hp⟩
  case h_5 c => exact h.take hp
  case h_6 k => exact ⟨h.avail, h.used, h.answered, hp, isChain_fillDesc s.desc hp.2.2.1⟩
  case h_7 k => exact h.offer hp
  case h_8 k => exact h.publish hp
  case h_9 k => exact h.wait hp (.inr ⟨0, rfl⟩)
  case h_10 k t =>
    split
    · split
      · exact h.wait hp (.inl rfl)
      · exact h.wait hp (.inr ⟨t + 1, rfl⟩)
    · exact h.wait hp (.inl rfl)
  case h_11 k => exact h.polled hp
  case h_12 k => exact h.give hnum hp
  case h_13 c => exact h.check hp
  case h_14 c dst i => exact h.copyOut hp

/-- A step of the device, which has a chain to work on: the driver waits for it or has given
up on it. -/
theorem Inv.of_device (h : s.Inv num) (hbusy : ¬ s.Settled) {t : Blk} (hpc : t.pc = s.pc)
    (havail : t.availIdx = s.availIdx) (hlast : t.lastUsedIdx = s.lastUsedIdx)
    (hpub : t.published = s.published) (hfree : t.numFree = s.numFree)
    (hused : t.usedIdx = u16 t.completed.length) (hmem : s.completed ⊆ t.completed)
    (hresults : t.results = s.results)
    (hserving : ∀ k, s.Behind num k → s.Serving num k → t.Serving num k) : t.Inv num := by
  have hbehind : ∀ k, s.Behind num k → t.Behind num k := by
    intro k hb
    unfold Behind Taken
    rw [hpub, hlast, hfree]
    exact hb
  refine ⟨by rw [havail, hpub, h.avail], hused, ?_, ?_⟩
  · intro r hr hrc
    rw [hresults] at hr
    obtain ⟨k, hk, hanswer⟩ := h.answered r hr hrc
    exact ⟨k, hmem hk, hanswer⟩
  · rw [hpc]
    have hp := h.phase
    cases hs : s.pc with
    | idle =>
      rw [hs] at hp
      refine .inr ?_
      rw [havail, hlast]
      exact hp.resolve_left fun hq => hbusy hq.1
    | notify k => rw [hs] at hp; exact ⟨hbehind k hp.1, hserving k hp.1 hp.2⟩
    | poll k t => rw [hs] at hp; exact ⟨hbehind k hp.1, hserving k hp.1 hp.2⟩
    | polled k => rw [hs] at hp; exact ⟨hbehind k hp.1, hserving k hp.1 hp.2⟩
    -- at every other point the device is at rest
    | header c => rw [hs] at hp; exact (hbusy hp.2.1).elim
    | copyIn c src i => rw [hs] at hp; exact (hbusy hp.1.2.1).elim
    | status c => rw [hs] at hp; exact (hbusy hp.1.2.1).elim
    | take c => rw [hs] at hp; exact (hbusy hp.1.2.1).elim
    | fill k => rw [hs] at hp; exact (hbusy hp.1).elim
    | offer k => rw [hs] at hp; exact (hbusy hp.1.1).elim
    | publish k => rw [hs] at hp; exact (hbusy hp.1.1).elim
    | give k => rw [hs] at hp; exact (hbusy hp.2.1).elim
    | check c => rw [hs] at hp; exact (hbusy hp.1).elim
    | copyOut c dst i => rw [hs] at hp; exact (hbusy hp.1).elim

theorem not_settled_of_dev {q : DevReq} (hdev : s.dev = some q) : ¬ s.Settled := by
  rintro ⟨hnone, -⟩
  rw [hdev] at hnone
  exact absurd hnone (by simp)

/-- The device works on the chain that the driver waits for. -/
theorem Serving.of_dev {k : BlkChain} (h : s.Serving num k) {q : DevReq} (hdev : s.dev = some q) :
    s.fetched = s.published.length ∧ s.completed.length + 1 = s.published.length ∧
      q.call = k.call.id ∧ q.writable = decide (k.call.type = .tIn) ∧
      (q.stage ≠ .fetched → q.writable → q.data = some s.data) := by
  cases h with
  | waiting hnone => rw [hdev] at hnone; exact absurd hnone (by simp)
  | working q' hdev' hf hc hcall hw hd =>
    rw [hdev] at hdev'
    obtain rfl := Option.some.inj hdev'
    exact ⟨hf, hc, hcall, hw, hd⟩
  | done hset => exact absurd hset (not_settled_of_dev hdev)

theorem dataFlags_injective : Function.Injective dataFlags := by
  intro v w
  cases v <;> cases w <;> decide

theorem Inv.fetch (h : s.Inv num) {id d1 d2 : ℕ} {w : Bool} (hdev : s.dev = none)
    (hid : s.published[s.fetched]? = some id)
    (hchain : IsChain s.desc (s.ring (u16 s.fetched % num)) d1 d2 w) :
    Inv num { s with
      dev := some ⟨id, s.header, w, none, .fetched⟩
      fetched := s.fetched + 1 } := by
  have hlt : s.fetched < s.published.length := (List.getElem?_eq_some_iff.mp hid).1
  have hbusy : ¬ s.Settled := fun hset => by have := hset.2.1; omega
  refine h.of_device hbusy rfl rfl rfl rfl rfl h.used (List.Subset.refl _) rfl ?_
  intro k hb hs
  cases hs with
  | waiting _ hf hc ho =>
    obtain ⟨-, l, hpub, -⟩ := hb
    obtain ⟨-, hreq, hring⟩ := ho
    have hfl : s.fetched = l.length := by simpa [hpub] using hf
    have hcall : id = k.call.id := by
      rw [hpub, hfl] at hid
      simpa using hid.symm
    have hwritable : w = decide (k.call.type = .tIn) := by
      have hdata := hchain.data
      rw [hring] at hchain
      have h1 : d1 = k.d1 := by
        have := hchain.header
        rw [hreq.header] at this
        exact (VringDesc.mk.inj this).2.2.2.symm
      rw [h1, hreq.data] at hdata
      have hflags := (VringDesc.mk.inj hdata).2.2.1
      exact dataFlags_injective hflags.symm
    exact .working _ rfl hf hc hcall hwritable (fun hne => absurd rfl hne)
  | working q hdev' => rw [hdev] at hdev'; exact absurd hdev' (by simp)
  | done hset => exact (hbusy hset).elim

theorem Inv.produce (h : s.Inv num) {q : DevReq} {d : SectorData} (hdev : s.dev = some q) :
    Inv num { s with
      data := if q.writable then d else s.data
      dev := some { q with data := if q.writable then some d else none, stage := .produced } } := by
  refine h.of_device (not_settled_of_dev hdev) rfl rfl rfl rfl rfl h.used (List.Subset.refl _) rfl ?_
  intro k _ hs
  obtain ⟨hf, hc, hcall, hw, -⟩ := hs.of_dev hdev
  refine .working _ rfl hf hc hcall hw ?_
  intro _ hwritable
  dsimp only at hwritable ⊢
  rw [if_pos hwritable, if_pos hwritable]

theorem Inv.report (h : s.Inv num) {q : DevReq} {st : UInt8} (hdev : s.dev = some q)
    (hq : q.stage = .produced) :
    Inv num { s with status := st, dev := some { q with stage := .reported } } := by
  refine h.of_device (not_settled_of_dev hdev) rfl rfl rfl rfl rfl h.used (List.Subset.refl _) rfl ?_
  intro k _ hs
  obtain ⟨hf, hc, hcall, hw, hd⟩ := hs.of_dev hdev
  refine .working _ rfl hf hc hcall hw ?_
  intro _ hwritable
  exact hd (by rw [hq]; decide) hwritable

theorem Inv.complete (h : s.Inv num) {q : DevReq} (hdev : s.dev = some q)
    (hq : q.stage = .reported) :
    Inv num { s with
      usedIdx := u16 (s.usedIdx + 1)
      completed := s.completed ++ [⟨q.call, q.header, q.data⟩]
      dev := none } := by
  have hused : u16 (s.usedIdx + 1) =
      u16 (s.completed ++ [(⟨q.call, q.header, q.data⟩ : BlkCompletion)]).length := by
    rw [h.used, u16_u16_add, List.length_append, List.length_singleton]
  refine h.of_device (not_settled_of_dev hdev) rfl rfl rfl rfl rfl hused
    (List.subset_append_left _ _) rfl ?_
  intro k _ hs
  obtain ⟨hf, hc, hcall, hw, hd⟩ := hs.of_dev hdev
  refine .done ⟨rfl, hf, by simpa using hc⟩ ⟨_, List.mem_append_right _ (List.mem_singleton_self _),
    hcall, ?_⟩
  intro htype
  exact hd (by rw [hq]; decide) (by rw [hw, htype]; rfl)

theorem Inv.step (h : s.Inv num) (hnum : num < 2 ^ 16) {act : BlkAct} {t : Blk}
    (hg : s.Caught act) (hstep : Step num s act t) : t.Inv num := by
  cases hstep with
  | call hpc => exact h.call hpc hg
  | drive => exact h.drive hnum
  | fetch hdev hid hchain => exact h.fetch hdev hid hchain
  | produce hdev hq => exact h.produce hdev
  | report hdev hq => exact h.report hdev hq
  | complete hdev hq => exact h.complete hdev hq

end Steps

theorem setupQueue_inv (num : ℕ) : (setupQueue num).Inv num := by
  refine ⟨rfl, rfl, ?_, .inl ⟨⟨rfl, rfl, rfl⟩, rfl, rfl, ?_⟩⟩
  · intro r hr
    exact absurd hr (by simp [setupQueue])
  · intro h3
    simp [setupQueue, show 1 < num by omega, show 2 < num by omega]

/-- While the driver waits, the device can read the chain that it has not begun. -/
theorem waiting_chain_readable {num : ℕ} (hnum : num < 2 ^ 16) {s : Blk}
    (hrun : Reach (Step num) Caught (setupQueue num) s) {k : BlkChain} {t : ℕ}
    (hpc : s.pc = .poll k t) (hlt : s.fetched < s.published.length) :
    s.dev = none ∧ IsChain s.desc (s.ring (u16 s.fetched % num)) k.d1 k.d2
      (decide (k.call.type = .tIn)) := by
  have hinv : s.Inv num :=
    hrun.inv (setupQueue_inv num) fun _ _ _ h hg hs => h.step hnum hg hs
  have hp := hinv.phase
  rw [hpc] at hp
  obtain ⟨-, hserving⟩ := hp
  cases hserving with
  | waiting hdev _ _ ho =>
    obtain ⟨-, hchain, hring⟩ := ho
    rw [hring]
    exact ⟨hdev, hchain⟩
  | working _ _ hf => omega
  | done hset => have := hset.2.1; omega

/-- In every run in which a call is made only when the completions of all earlier chains have
been taken, the calls that return zero have their own answers. -/
theorem io_answered {num : ℕ} (hnum : num < 2 ^ 16) {s : Blk}
    (hrun : Reach (Step num) Caught (setupQueue num) s) : s.Answered := by
  have hinv : s.Inv num :=
    hrun.inv (setupQueue_inv num) fun _ _ _ h hg hs => h.step hnum hg hs
  exact hinv.answered

section Runs
variable {num : ℕ} {guard : Blk → BlkAct → Prop} {s₀ s : Blk}

theorem reach_drive (hg : ∀ s, guard s .drive) (n : ℕ)
    (h : Reach (Step num) guard s₀ s) : Reach (Step num) guard s₀ ((drive num)^[n] s) := by
  induction n generalizing s with
  | zero => exact h
  | succ n ih => exact ih (h.next .drive (hg s) .drive)

/-- The driver polls while the used index does not move. -/
theorem reach_poll (hg : ∀ s, guard s .drive) {k : BlkChain} {t : ℕ} (n : ℕ)
    (h : Reach (Step num) guard s₀ s) (hused : s.usedIdx = s.lastUsedIdx) (hpc : s.pc = .poll k t)
    (hn : t + n ≤ pollLimit) :
    Reach (Step num) guard s₀ { s with pc := .poll k (t + n) } := by
  induction n with
  | zero =>
    rw [Nat.add_zero, ← hpc]
    exact h
  | succ n ih =>
    have hnext := (ih (by omega)).next .drive (hg _) .drive
    have hlt : t + n < pollLimit := by omega
    simpa only [drive, hlt, hused, if_true, ne_eq, not_true, if_false, Nat.add_assoc] using hnext

/-- The driver copies the rest of the data buffer. -/
theorem reach_copyOut (hg : ∀ s, guard s .drive) {c : BlkCall} {dst : SectorData} {i : ℕ}
    (h : Reach (Step num) guard s₀ s) (hpc : s.pc = .copyOut c dst i) (hi : i ≤ 512)
    (hcopied : ∀ j : Fin 512, j < i → dst j = s.data j) :
    Reach (Step num) guard s₀ { s with pc := .copyOut c s.data 512 } := by
  have hstart : Reach (Step num) guard s₀ { s with pc := .copyOut c dst i } := by
    rw [← hpc]
    exact h
  clear h hpc
  induction hn : 512 - i generalizing dst i with
  | zero =>
    have h512 : i = 512 := by omega
    have hdst : dst = s.data := funext fun j => hcopied j (by omega)
    rw [hdst, h512] at hstart
    exact hstart
  | succ n ih =>
    have hlt : i < 512 := by omega
    have hnext := hstart.next .drive (hg _) .drive
    simp only [drive, hlt, dif_pos] at hnext
    refine ih hlt ?_ hnext (by omega)
    intro j hj
    by_cases hji : j = ⟨i, hlt⟩
    · rw [hji, Function.update_self]
    · rw [Function.update_of_ne hji]
      have hne : (j : ℕ) ≠ i := fun he => hji (Fin.ext he)
      exact hcopied j (by omega)

end Runs

/-- One read, which the device answers. -/
theorem io_answered_read : ∃ s : Blk, Reach (Step 4) Caught (setupQueue 4) s ∧
    (∃ r ∈ s.results, r.rc = 0 ∧ r.call.buf = some fun _ => 7) ∧ s.Answered := by
  have h1 : Reach (Step 4) Caught (setupQueue 4) _ :=
    .next (.call .tIn 1 (some fun _ => 0)) .start (.inr rfl) (.call rfl)
  have h2 := reach_drive (fun _ => trivial) 7 h1
  have hchain : IsChain ((drive 4)^[7] ((setupQueue 4).begin .tIn 1 (some fun _ => 0))).desc
      0 1 2 true := ⟨rfl, rfl, rfl⟩
  have h3 := h2.next BlkAct.fetch trivial (.fetch rfl rfl hchain)
  have h4 := h3.next (BlkAct.produce fun _ => 7) trivial (.produce rfl rfl)
  have h5 := h4.next (BlkAct.report 0) trivial (.report rfl rfl)
  have h6 := h5.next BlkAct.complete trivial (.complete rfl rfl)
  have h7 := reach_drive (fun _ => trivial) 4 h6
  have h8 := reach_copyOut (fun _ => trivial) h7 rfl (by decide) (by simp)
  have h9 := h8.next BlkAct.drive trivial .drive
  exact ⟨_, h9, ⟨_, List.mem_singleton_self _, rfl, rfl⟩, io_answered (by decide) h9⟩

/-- A read gives up on its chain; the device completes that chain while the next read waits,
which takes the other sector for its own. -/
theorem io_misanswered : ∃ s : Blk, Reach (Step 8) (fun _ _ => True) (setupQueue 8) s ∧
    ¬ s.Answered := by
  have h1 : Reach (Step 8) (fun _ _ => True) (setupQueue 8) _ :=
    .next (.call .tIn 1 (some fun _ => 0)) .start trivial (.call rfl)
  have h2 := reach_drive (fun _ => trivial) 7 h1
  have hchain : IsChain ((drive 8)^[7] ((setupQueue 8).begin .tIn 1 (some fun _ => 0))).desc
      0 1 2 true := ⟨rfl, rfl, rfl⟩
  have h3 := h2.next BlkAct.fetch trivial (.fetch rfl rfl hchain)
  have h4 := reach_poll (fun _ => trivial) pollLimit h3 rfl rfl (by rw [Nat.zero_add])
  have h5 := reach_drive (fun _ => trivial) 2 h4
  have h6 := h5.next (BlkAct.call .tIn 2 (some fun _ => 0)) trivial (.call rfl)
  have h7 := reach_drive (fun _ => trivial) 7 h6
  have h8 := h7.next (BlkAct.produce fun _ => 7) trivial (.produce rfl rfl)
  have h9 := h8.next (BlkAct.report 0) trivial (.report rfl rfl)
  have h10 := h9.next BlkAct.complete trivial (.complete rfl rfl)
  have h11 := reach_drive (fun _ => trivial) 4 h10
  have h12 := reach_copyOut (fun _ => trivial) h11 rfl (by decide) (by simp)
  have h13 := h12.next BlkAct.drive trivial .drive
  refine ⟨_, h13, ?_⟩
  intro hanswered
  -- the only completion is that of the first call
  obtain ⟨k, hk, hid, -⟩ := hanswered _ (List.mem_cons_of_mem _ (List.mem_singleton_self _)) rfl
  rw [List.mem_singleton.mp hk] at hid
  exact absurd hid (by decide)

end Blk
end Ggmk

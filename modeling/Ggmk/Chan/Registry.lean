import Ggmk.Boot
import Ggmk.Chan.Frame
import Ggmk.Chan.Names

/-! The channel registry as a state machine: open, subscribe, emit, drain and close in any
order and with any arguments, and which rings they reach. -/
namespace Ggmk
open Kernel

/-! ## Open and close -/

/-- `gmk_ring_mpmc_init` in the memory of `r`; `granted` is the host's answer to the request for
the cells. -/
def ringMpmcInitIn (r : RingMpmc Task) (cap : ℕ) (granted : Bool) : Bool × RingMpmc Task :=
  if !Lifecycle.gmkIsPowerOfTwo cap then (false, r)
  else if granted then (true, gmkRingMpmcInit cap)
  else (false, { r with cap := cap, mask := cap - 1 })

/-- The ring has been initialised, with a capacity of 32 bits, and used as a ring since. -/
def RingMpmc.Initialised (r : RingMpmc Task) : Prop :=
  ∃ j ≤ 31, (gmkRingMpmcInit (2 ^ j)).Moves r

/-- The kernel with the names of its channels, which rings have been initialised, the channels
that opens have returned, and whether a call has not returned. -/
structure ChanWorld where
  kernel : Kernel
  names : ℕ → List UInt8
  live : ℕ → Bool
  opened : List ℕ
  hung : Bool

namespace ChanWorld

abbrev nChannels (s : ChanWorld) : ℕ := s.kernel.chan.nChannels
abbrev entry (s : ChanWorld) (c : ℕ) : ChanEntry := s.kernel.chan.channels c

/-- The name is that of an open channel. -/
def nameTaken (s : ChanWorld) (name : List UInt8) : Bool :=
  (List.range s.nChannels).any fun i => (s.entry i).isOpen &&
    (s.names i).take gmkMaxChanName == name.take gmkMaxChanName

/-- The entry that an open writes before it knows whether there is a ring. -/
def newEntry (s : ChanWorld) (mode guarantee slots : ℕ) (ring : RingMpmc Task) : ChanEntry :=
  { s.entry s.nChannels with
    mode := mode
    guarantee := guarantee
    ring := ring
    ringCap := Lifecycle.roundSlots slots
    nSubs := 0
    isOpen := true
    emitCount := 0
    dropCount := 0 }

def gmkChanOpen (s : ChanWorld) (name : List UInt8) (mode guarantee slots : ℕ) (granted : Bool) :
    ℤ × ChanWorld :=
  if gmkMaxChannels ≤ s.nChannels then (gmkFail gmkErrFull, s)
  else if s.nameTaken name then (gmkFail gmkErrExists, s)
  else
    let id := s.nChannels
    let (ok, ring) := ringMpmcInitIn (s.entry id).ring (Lifecycle.roundSlots slots) granted
    let k := s.kernel.setChan id (s.newEntry mode guarantee slots ring)
    let s := { s with names := Function.update s.names id (name.take (gmkMaxChanName - 1)) }
    if ok then
      let k := { k with chan := { k.chan with nChannels := id + 1 } }
      (id, { s with
        kernel := k.traceWrite 0 gmkEvChanOpen 0 (UInt32.ofNat id) (UInt32.ofNat mode)
        live := Function.update s.live id true
        opened := s.opened ++ [id] })
    else (gmkFail gmkErrNomem, { s with kernel := k })

end ChanWorld

/-- The system channels stay open. -/
def gmkChanClose (k : Kernel) (c : ℕ) : ℤ × Kernel :=
  if k.chan.nChannels ≤ c then (gmkFail gmkErrInvalid, k)
  else if c ≤ gmkChanSysDropped then (gmkFail gmkErrInvalid, k)
  else
    (gmkOk, (k.setChan c { k.chan.channels c with isOpen := false }).traceWrite 0 gmkEvChanClose 0
      (UInt32.ofNat c) 0)

inductive ChanOp where
  | openAs (name : Lifecycle.CName) (mode guarantee : ℕ) (slots : UInt32) (granted : Bool)
  | sub (c : ℕ) (moduleId : UInt32) (workerId : ℤ)
  | emit (c : ℕ) (t : Task)
  | drain (c limit : ℕ)
  | close (c : ℕ)

namespace ChanWorld

def step (s : ChanWorld) (op : ChanOp) : ChanWorld :=
  if s.hung then s
  else
    match op with
    | .openAs name mode guarantee slots granted =>
        (s.gmkChanOpen name mode guarantee slots.toNat granted).2
    | .sub c moduleId workerId =>
        { s with kernel := (gmkChanSub s.kernel c moduleId workerId).2 }
    | .emit c t =>
        match gmkChanEmit s.kernel c t with
        | some (_, _, k) => { s with kernel := k }
        | none => { s with hung := true }
    | .drain c limit =>
        match gmkChanDrain s.kernel c limit with
        | some (_, k) => { s with kernel := k }
        | none => { s with hung := true }
    | .close c => { s with kernel := (gmkChanClose s.kernel c).2 }

/-- After `gmk_chan_reg_init`, whatever the rest of the kernel is. -/
def start (k : Kernel) : ChanWorld where
  kernel := { k with chan := gmkChanRegInit }
  names i :=
    if i = 0 then Lifecycle.sysDirect
    else if i = gmkChanSysDropped then Lifecycle.sysDropped
    else []
  live i := i == gmkChanSysDropped
  opened := []
  hung := false

def setRing (s : ChanWorld) (i : ℕ) (r : RingMpmc Task) : ChanWorld :=
  { s with kernel := s.kernel.setRing i r }

/-- An open initialises the ring of the next entry. -/
def Initialises (s : ChanWorld) (i : ℕ) : ChanOp → Prop
  | .openAs _ _ _ _ _ => i = s.nChannels
  | _ => False

/-- The operation neither reads nor writes the ring of channel `i`: with any other ring there it
does the same and leaves that ring. -/
def Untouched (s : ChanWorld) (op : ChanOp) (i : ℕ) : Prop :=
  ∀ r, (s.setRing i r).step op = (s.step op).setRing i r

/-- What holds of the registry in every state. -/
structure Sound (s : ChanWorld) : Prop where
  channels_le : s.nChannels ≤ gmkMaxChannels
  ids : s.opened.Nodup
  p2p : ∀ c < s.nChannels, (s.entry c).mode = gmkChanP2p → (s.entry c).nSubs ≤ 1
  subs : ∀ c < s.nChannels, (s.entry c).nSubs ≤ gmkMaxChanSubs
  direct : (s.entry 0).isOpen = false ∧ s.live 0 = false
  dropped : (s.entry gmkChanSysDropped).isOpen = true
  rings : ∀ op i, s.live i = false → ¬ s.Initialises i op → s.Untouched op i

/-- What holds of the registry in every later state: no channel goes, and a closed one stays
closed and gains neither a subscriber nor a message. -/
structure Later (s s' : ChanWorld) : Prop where
  nChannels : s.nChannels ≤ s'.nChannels
  opened : s.opened <+: s'.opened
  closed : ∀ c < s.nChannels, (s.entry c).isOpen = false → (s'.entry c).isOpen = false ∧
    (s'.entry c).subs = (s.entry c).subs ∧ (s'.entry c).nSubs = (s.entry c).nSubs ∧
    (s.entry c).ring.PopsTo (s'.entry c).ring

structure Inv (s : ChanWorld) : Prop where
  channels_le : s.nChannels ≤ gmkMaxChannels
  two_le : 2 ≤ s.nChannels
  direct : (s.entry 0).isOpen = false ∧ (s.entry 0).nSubs = 0 ∧ s.live 0 = false
  dropped : (s.entry gmkChanSysDropped).isOpen = true ∧
    (gmkRingMpmcInit gmkChanDefaultSlots).Moves (s.entry gmkChanSysDropped).ring
  initialised : ∀ c, 0 < c → c < s.nChannels → s.live c = true
  rings : ∀ c, 0 < c → c < s.nChannels → (s.entry c).ring.Initialised
  p2p : ∀ c < s.nChannels, (s.entry c).mode = gmkChanP2p → (s.entry c).nSubs ≤ 1
  subs : ∀ c < s.nChannels, (s.entry c).nSubs ≤ gmkMaxChanSubs
  ids : s.opened.Nodup
  below : ∀ id ∈ s.opened, id < s.nChannels

section Steps
variable {s s' : ChanWorld} {i c : ℕ}

theorem start_inv (k : Kernel) : (start k).Inv := by
  constructor
  · exact (by decide : 2 ≤ gmkMaxChannels)
  · exact le_rfl
  · exact ⟨rfl, rfl, rfl⟩
  · exact ⟨rfl, .refl⟩
  · intro c hpos hlt
    simp only [start, gmkChanRegInit, nChannels] at hlt
    obtain rfl : c = 1 := by omega
    rfl
  · intro c hpos hlt
    simp only [start, gmkChanRegInit, nChannels] at hlt
    obtain rfl : c = 1 := by omega
    exact ⟨10, by norm_num, .refl⟩
  · intro c hlt hmode
    simp only [start, gmkChanRegInit, nChannels] at hlt
    interval_cases c <;> exact Nat.zero_le _
  · intro c hlt
    simp only [start, gmkChanRegInit, nChannels] at hlt
    interval_cases c <;> exact Nat.zero_le _
  · exact List.nodup_nil
  · exact fun id hid => absurd hid List.not_mem_nil

theorem Inv.dropped_lt (h : s.Inv) : gmkChanSysDropped < s.nChannels := h.two_le

/-- Emits and drains keep the registry as it is. -/
theorem Inv.keeps (h : s.Inv) {k : Kernel} (hk : s.kernel.Keeps k) :
    Inv { s with kernel := k } := by
  constructor
  · simp only [nChannels, hk.nChannels]
    exact h.channels_le
  · simp only [nChannels, hk.nChannels]
    exact h.two_le
  · simp only [entry, (hk.entries 0).isOpen, (hk.entries 0).nSubs]
    exact h.direct
  · simp only [entry, (hk.entries gmkChanSysDropped).isOpen]
    exact ⟨h.dropped.1, h.dropped.2.trans (hk.entries gmkChanSysDropped).moves⟩
  · simp only [nChannels, hk.nChannels]
    exact h.initialised
  · intro c hpos hc
    simp only [nChannels, hk.nChannels] at hc
    obtain ⟨j, hj, hmoves⟩ := h.rings c hpos hc
    exact ⟨j, hj, hmoves.trans (hk.entries c).moves⟩
  · intro c hc
    simp only [nChannels, hk.nChannels] at hc
    simp only [entry, (hk.entries c).mode, (hk.entries c).nSubs]
    exact h.p2p c hc
  · intro c hc
    simp only [nChannels, hk.nChannels] at hc
    simp only [entry, (hk.entries c).nSubs]
    exact h.subs c hc
  · exact h.ids
  · simp only [nChannels, hk.nChannels]
    exact h.below

theorem Later.refl (s : ChanWorld) : s.Later s :=
  ⟨le_rfl, List.prefix_refl _, fun _ _ hclosed => ⟨hclosed, rfl, rfl, .refl⟩⟩

theorem Later.trans {a b c : ChanWorld} (h : a.Later b) (h' : b.Later c) : a.Later c := by
  refine ⟨h.nChannels.trans h'.nChannels, h.opened.trans h'.opened, ?_⟩
  intro d hd hclosed
  obtain ⟨hb, hsubs, hn, hring⟩ := h.closed d hd hclosed
  obtain ⟨hc, hsubs', hn', hring'⟩ := h'.closed d (hd.trans_le h.nChannels) hb
  exact ⟨hc, hsubs'.trans hsubs, hn'.trans hn, hring.trans hring'⟩

theorem Later.keeps {k : Kernel} (hk : s.kernel.Keeps k) : s.Later { s with kernel := k } := by
  refine ⟨hk.nChannels.ge, List.prefix_refl _, ?_⟩
  intro d hd hclosed
  have he := hk.entries d
  exact ⟨he.isOpen.trans hclosed, he.subs, he.nSubs, he.ring hclosed⟩

/-- The entry of one channel is written anew. -/
theorem Later.setChan {k : Kernel} {ch : ChanEntry} (hk : k.chan = (s.kernel.setChan c ch).chan)
    (hch : (s.entry c).isOpen = false → ch.isOpen = false ∧ ch.subs = (s.entry c).subs ∧
      ch.nSubs = (s.entry c).nSubs ∧ (s.entry c).ring.PopsTo ch.ring) :
    s.Later { s with kernel := k } := by
  have hn : k.chan.nChannels = s.nChannels := by rw [hk, Kernel.setChan_nChannels]
  refine ⟨hn.ge, List.prefix_refl _, ?_⟩
  intro d _ hclosed
  simp only [entry, hk]
  by_cases hdc : d = c
  · subst hdc
    rw [Kernel.setChan_self]
    exact hch hclosed
  · rw [Kernel.setChan_of_ne _ c ch hdc]
    exact ⟨hclosed, rfl, rfl, .refl⟩

theorem Inv.setChan (h : s.Inv) {k : Kernel} {ch : ChanEntry}
    (hk : k.chan = (s.kernel.setChan c ch).chan) (hc : c ≠ 0)
    (hdead : c = gmkChanSysDropped → ch.isOpen = true)
    (hring : ch.ring = (s.entry c).ring)
    (hp2p : ch.mode = gmkChanP2p → ch.nSubs ≤ 1) (hsubs : ch.nSubs ≤ gmkMaxChanSubs) :
    Inv { s with kernel := k } := by
  have hn : k.chan.nChannels = s.nChannels := by rw [hk, Kernel.setChan_nChannels]
  have hself : k.chan.channels c = ch := by rw [hk, Kernel.setChan_self]
  have hother {d : ℕ} (hd : d ≠ c) : k.chan.channels d = s.entry d := by
    rw [hk, Kernel.setChan_of_ne _ c ch hd]
  have hevery {P : ChanEntry → Prop} {d : ℕ} (hold : P (s.entry d)) (hch : d = c → P ch) :
      P (k.chan.channels d) := by
    by_cases hdc : d = c
    · rw [hdc, hself]
      exact hch hdc
    · rw [hother hdc]
      exact hold
  constructor
  · simp only [nChannels, hn]
    exact h.channels_le
  · simp only [nChannels, hn]
    exact h.two_le
  · simp only [entry, hother hc.symm]
    exact h.direct
  · by_cases hd : gmkChanSysDropped = c
    · have hmoves := h.dropped.2
      rw [hd] at hmoves
      simp only [entry, hd, hself, hring]
      exact ⟨hdead hd.symm, hmoves⟩
    · simp only [entry, hother hd]
      exact h.dropped
  · simp only [nChannels, hn]
    exact h.initialised
  · intro d hpos hd
    simp only [nChannels, hn] at hd
    refine hevery (P := fun ch => ch.ring.Initialised) (h.rings d hpos hd) ?_
    rintro rfl
    rw [hring]
    exact h.rings d hpos hd
  · intro d hd
    simp only [nChannels, hn] at hd
    exact hevery (P := fun ch => ch.mode = gmkChanP2p → ch.nSubs ≤ 1) (h.p2p d hd) fun _ => hp2p
  · intro d hd
    simp only [nChannels, hn] at hd
    exact hevery (P := fun ch => ch.nSubs ≤ gmkMaxChanSubs) (h.subs d hd) fun _ => hsubs
  · exact h.ids
  · simp only [nChannels, hn]
    exact h.below

/-! ## Subscribe and close -/

theorem gmkChanSub_cases (k : Kernel) (c : ℕ) (m : UInt32) (w : ℤ) :
    (gmkChanSub k c m w).2 = k ∨
    (c < k.chan.nChannels ∧ (k.chan.channels c).isOpen = true ∧
      ¬ ((k.chan.channels c).mode = gmkChanP2p ∧ 1 ≤ (k.chan.channels c).nSubs) ∧
      (k.chan.channels c).nSubs < gmkMaxChanSubs ∧
      (gmkChanSub k c m w).2 = k.setChan c { k.chan.channels c with
        subs := Function.update (k.chan.channels c).subs (k.chan.channels c).nSubs ⟨m, w, true⟩
        nSubs := (k.chan.channels c).nSubs + 1 }) := by
  unfold gmkChanSub
  split
  · exact .inl rfl
  next hid =>
    simp only
    split
    · exact .inl rfl
    next hopen =>
      split
      · exact .inl rfl
      next hp2p =>
        split
        · exact .inl rfl
        next hfull =>
          exact .inr ⟨not_le.mp hid, Bool.eq_true_of_not_eq_false hopen, hp2p, not_le.mp hfull, rfl⟩

theorem gmkChanClose_cases (k : Kernel) (c : ℕ) :
    (gmkChanClose k c).2 = k ∨
    (c < k.chan.nChannels ∧ gmkChanSysDropped < c ∧
      (gmkChanClose k c).2.chan =
        (k.setChan c { k.chan.channels c with isOpen := false }).chan) := by
  unfold gmkChanClose
  split
  · exact .inl rfl
  next hid =>
    split
    · exact .inl rfl
    next hsys => exact .inr ⟨not_le.mp hid, not_le.mp hsys, rfl⟩

theorem Inv.sub (h : s.Inv) (c : ℕ) (m : UInt32) (w : ℤ) :
    Inv { s with kernel := (gmkChanSub s.kernel c m w).2 } ∧
      s.Later { s with kernel := (gmkChanSub s.kernel c m w).2 } := by
  rcases gmkChanSub_cases s.kernel c m w with hsame | ⟨-, hopen, hp2p, hfull, hset⟩
  · rw [hsame]
    exact ⟨h, .refl s⟩
  · rw [hset]
    refine ⟨h.setChan rfl ?_ ?_ rfl ?_ hfull, .setChan rfl ?_⟩
    · rintro rfl
      exact absurd hopen (by simp [h.direct.1])
    · exact fun _ => hopen
    · intro hmode
      have hnone : (s.entry c).nSubs = 0 := by
        by_contra hne
        exact hp2p ⟨hmode, Nat.one_le_iff_ne_zero.mpr hne⟩
      exact (by omega : (s.entry c).nSubs + 1 ≤ 1)
    · exact fun hclosed => absurd hopen (by simp [hclosed])

theorem Inv.close (h : s.Inv) (c : ℕ) :
    Inv { s with kernel := (gmkChanClose s.kernel c).2 } ∧
      s.Later { s with kernel := (gmkChanClose s.kernel c).2 } := by
  rcases gmkChanClose_cases s.kernel c with hsame | ⟨hid, hsys, hchan⟩
  · rw [hsame]
    exact ⟨h, .refl s⟩
  · simp only [gmkChanSysDropped] at hsys
    refine ⟨h.setChan hchan (by omega) ?_ rfl (h.p2p c hid) (h.subs c hid), .setChan hchan ?_⟩
    · exact fun hc => absurd hc hsys.ne'
    · exact fun _ => ⟨rfl, rfl, rfl, .refl⟩

/-! ## Open -/

/-- What an open does: nothing, write the entry behind the last one, or add a channel. -/
inductive OpenCase (s : ChanWorld) : ChanWorld → Prop
  | refused : OpenCase s s
  | failed (ch : ChanEntry) (names : ℕ → List UInt8) :
      OpenCase s { s with kernel := s.kernel.setChan s.nChannels ch, names := names }
  | opened (k : Kernel) (ch : ChanEntry) (names : ℕ → List UInt8)
      (hroom : s.nChannels < gmkMaxChannels) (hn : k.chan.nChannels = s.nChannels + 1)
      (hentries : k.chan.channels = (s.kernel.setChan s.nChannels ch).chan.channels)
      (hsubs : ch.nSubs = 0) (hring : ch.ring.Initialised) :
      OpenCase s { s with
        kernel := k
        names := names
        live := Function.update s.live s.nChannels true
        opened := s.opened ++ [s.nChannels] }

theorem ringMpmcInitIn_ok {r r' : RingMpmc Task} {cap : ℕ} {granted : Bool}
    (h : ringMpmcInitIn r cap granted = (true, r')) :
    Lifecycle.gmkIsPowerOfTwo cap = true ∧ r' = gmkRingMpmcInit cap := by
  unfold ringMpmcInitIn at h
  split at h
  · simp at h
  next hpow =>
    split at h
    · simp only [Prod.mk.injEq, true_and] at h
      exact ⟨by simpa using hpow, h.symm⟩
    · simp at h

theorem gmkChanOpen_cases (s : ChanWorld) (name : List UInt8) (mode guarantee : ℕ) {slots : ℕ}
    (hslots : slots < 2 ^ 32) (granted : Bool) :
    s.OpenCase (s.gmkChanOpen name mode guarantee slots granted).2 := by
  unfold gmkChanOpen
  split
  · exact .refused
  next hroom =>
    split
    · exact .refused
    next =>
      rcases hinit : ringMpmcInitIn (s.entry s.nChannels).ring (Lifecycle.roundSlots slots)
        granted with ⟨ok, ring⟩
      simp only [hinit]
      cases ok with
      | false => exact .failed _ _
      | true =>
        obtain ⟨hpow, rfl⟩ := ringMpmcInitIn_ok hinit
        obtain ⟨j, hj, hcap⟩ := Lifecycle.pow_of_isPowerOfTwo (Lifecycle.roundSlots_lt hslots) hpow
        have hring : (gmkRingMpmcInit (Lifecycle.roundSlots slots) : RingMpmc Task).Initialised :=
          ⟨j, hj, by rw [hcap]; exact .refl⟩
        exact .opened _ (s.newEntry mode guarantee slots _) _ (not_le.mp hroom) rfl rfl rfl hring

/-- An open that returns a channel has written its entry with a new ring. -/
theorem gmkChanOpen_ok {name : List UInt8} {mode guarantee slots c : ℕ} {granted : Bool}
    (h : s.gmkChanOpen name mode guarantee slots granted = ((c : ℤ), s')) :
    c = s.nChannels ∧ Lifecycle.gmkIsPowerOfTwo (Lifecycle.roundSlots slots) = true ∧
      s'.kernel.chan.nChannels = s.nChannels + 1 ∧
      s'.kernel.chan.channels = (s.kernel.setChan s.nChannels (s.newEntry mode guarantee slots
        (gmkRingMpmcInit (Lifecycle.roundSlots slots)))).chan.channels := by
  have hneg {code : ℕ} (hcode : 0 < code) : ¬ gmkFail code = (c : ℤ) := by
    unfold gmkFail
    omega
  unfold gmkChanOpen at h
  split at h
  · exact absurd (Prod.mk.inj h).1 (hneg (by decide))
  · split at h
    · exact absurd (Prod.mk.inj h).1 (hneg (by decide))
    · rcases hinit : ringMpmcInitIn (s.entry s.nChannels).ring (Lifecycle.roundSlots slots)
        granted with ⟨ok, ring⟩
      simp only [hinit] at h
      cases ok with
      | false => exact absurd (Prod.mk.inj h).1 (hneg (by decide))
      | true =>
        obtain ⟨hpow, rfl⟩ := ringMpmcInitIn_ok hinit
        obtain ⟨hc, rfl⟩ := Prod.mk.inj h
        exact ⟨(Int.ofNat.inj hc).symm, hpow, rfl, rfl⟩

theorem OpenCase.later (h : s.OpenCase s') : s.Later s' := by
  have hbelow {d : ℕ} (hd : d < s.nChannels) (ch : ChanEntry) :
      (s.kernel.setChan s.nChannels ch).chan.channels d = s.entry d :=
    Kernel.setChan_of_ne _ _ ch hd.ne
  cases h with
  | refused => exact .refl s
  | failed ch names =>
    refine ⟨le_rfl, List.prefix_refl _, ?_⟩
    intro d hd hclosed
    simp only [entry, hbelow hd]
    exact ⟨hclosed, trivial, trivial, .refl⟩
  | opened k ch names hroom hn hentries hsubs hring =>
    refine ⟨by simp only [nChannels, hn]; omega, List.prefix_append _ _, ?_⟩
    intro d hd hclosed
    simp only [entry, hentries, hbelow hd]
    exact ⟨hclosed, trivial, trivial, .refl⟩

/-- An open that fails has written behind the last channel. -/
theorem Inv.failed (h : s.Inv) (ch : ChanEntry) (names : ℕ → List UInt8) :
    Inv { s with kernel := s.kernel.setChan s.nChannels ch, names := names } := by
  have htwo := h.two_le
  have hbelow {d : ℕ} (hd : d < s.nChannels) :
      (s.kernel.setChan s.nChannels ch).chan.channels d = s.entry d :=
    Kernel.setChan_of_ne _ _ ch hd.ne
  constructor
  · exact h.channels_le
  · exact h.two_le
  · simp only [entry, hbelow (show 0 < s.nChannels by omega)]
    exact h.direct
  · simp only [entry, hbelow h.dropped_lt]
    exact h.dropped
  · exact h.initialised
  · intro d hpos hd
    simp only [entry, hbelow (show d < s.nChannels from hd)]
    exact h.rings d hpos hd
  · intro d hd
    simp only [entry, hbelow (show d < s.nChannels from hd)]
    exact h.p2p d hd
  · intro d hd
    simp only [entry, hbelow (show d < s.nChannels from hd)]
    exact h.subs d hd
  · exact h.ids
  · exact h.below

/-- An open that succeeds has added the channel behind the last one. -/
theorem Inv.added (h : s.Inv) {k : Kernel} {ch : ChanEntry} {names : ℕ → List UInt8}
    (hroom : s.nChannels < gmkMaxChannels) (hn : k.chan.nChannels = s.nChannels + 1)
    (hentries : k.chan.channels = (s.kernel.setChan s.nChannels ch).chan.channels)
    (hsubs : ch.nSubs = 0) (hring : ch.ring.Initialised) :
    Inv { s with
      kernel := k
      names := names
      live := Function.update s.live s.nChannels true
      opened := s.opened ++ [s.nChannels] } := by
  have htwo := h.two_le
  have hnew : k.chan.channels s.nChannels = ch := by rw [hentries, Kernel.setChan_self]
  have hbelow {d : ℕ} (hd : d < s.nChannels) : k.chan.channels d = s.entry d := by
    rw [hentries]
    exact Kernel.setChan_of_ne _ _ ch hd.ne
  -- an entry is the new one or one of before
  have hevery {P : ChanEntry → Prop} {d : ℕ} (hd : d < k.chan.nChannels)
      (hold : d < s.nChannels → P (s.entry d)) (hch : P ch) : P (k.chan.channels d) := by
    rw [hn] at hd
    rcases Nat.lt_succ_iff_lt_or_eq.mp hd with hlt | rfl
    · rw [hbelow hlt]
      exact hold hlt
    · rw [hnew]
      exact hch
  constructor
  · simp only [nChannels, hn]
    exact hroom
  · simp only [nChannels, hn]
    exact Nat.le_succ_of_le htwo
  · simp only [entry, hbelow (show 0 < s.nChannels by omega)]
    rw [Function.update_of_ne (show 0 ≠ s.nChannels by omega)]
    exact h.direct
  · simp only [entry, hbelow h.dropped_lt]
    exact h.dropped
  · intro d hpos hd
    simp only [nChannels, hn] at hd
    rcases Nat.lt_succ_iff_lt_or_eq.mp hd with hlt | rfl
    · show Function.update s.live s.nChannels true d = true
      rw [Function.update_of_ne hlt.ne]
      exact h.initialised d hpos hlt
    · exact Function.update_self _ _ _
  · intro d hpos hd
    exact hevery (P := fun ch => ch.ring.Initialised) hd (h.rings d hpos) hring
  · intro d hd
    refine hevery (P := fun ch => ch.mode = gmkChanP2p → ch.nSubs ≤ 1) hd (h.p2p d) ?_
    rw [hsubs]
    exact fun _ => Nat.zero_le _
  · intro d hd
    refine hevery (P := fun ch => ch.nSubs ≤ gmkMaxChanSubs) hd (h.subs d) ?_
    rw [hsubs]
    exact Nat.zero_le _
  · refine List.nodup_append.mpr ⟨h.ids, List.nodup_singleton _, ?_⟩
    intro a ha b hb
    rw [List.mem_singleton.mp hb]
    exact (h.below a ha).ne
  · intro id hid
    simp only [nChannels, hn]
    rcases List.mem_append.mp hid with hold | hlast
    · exact (h.below id hold).trans (Nat.lt_succ_self _)
    · rw [List.mem_singleton.mp hlast]
      exact Nat.lt_succ_self _

theorem Inv.opened (h : s.Inv) (hcase : s.OpenCase s') : s'.Inv := by
  cases hcase with
  | refused => exact h
  | failed ch names => exact h.failed ch names
  | opened k ch names hroom hn hentries hsubs hring => exact h.added hroom hn hentries hsubs hring

theorem Inv.step (h : s.Inv) (op : ChanOp) : (s.step op).Inv ∧ s.Later (s.step op) := by
  unfold ChanWorld.step
  split
  · exact ⟨h, .refl s⟩
  cases op with
  | openAs name mode guarantee slots granted =>
    have hcase := s.gmkChanOpen_cases name mode guarantee slots.toNat_lt granted
    exact ⟨h.opened hcase, hcase.later⟩
  | sub c m w => exact h.sub c m w
  | emit c t =>
    simp only
    split
    next rc t' k hk => exact ⟨h.keeps (.emit hk), .keeps (.emit hk)⟩
    next =>
      exact ⟨⟨h.channels_le, h.two_le, h.direct, h.dropped, h.initialised, h.rings, h.p2p, h.subs,
        h.ids, h.below⟩, ⟨le_rfl, List.prefix_refl _, (Later.refl s).closed⟩⟩
  | drain c limit =>
    simp only
    split
    next n k hk => exact ⟨h.keeps (.drain hk), .keeps (.drain hk)⟩
    next =>
      exact ⟨⟨h.channels_le, h.two_le, h.direct, h.dropped, h.initialised, h.rings, h.p2p, h.subs,
        h.ids, h.below⟩, ⟨le_rfl, List.prefix_refl _, (Later.refl s).closed⟩⟩
  | close c => exact h.close c

/-! ## Rings that are not initialised -/

theorem setRing_isOpen (s : ChanWorld) (i : ℕ) (r : RingMpmc Task) (d : ℕ) :
    ((s.setRing i r).entry d).isOpen = (s.entry d).isOpen := by
  by_cases hd : d = i
  · subst hd
    simp only [entry, setRing, Kernel.setRing_self]
  · simp only [entry, setRing, Kernel.setRing_of_ne _ _ _ hd]

theorem open_setRing (s : ChanWorld) {i : ℕ} (hi : s.nChannels ≠ i) (r : RingMpmc Task)
    (name : List UInt8) (mode guarantee slots : ℕ) (granted : Bool) :
    ((s.setRing i r).gmkChanOpen name mode guarantee slots granted).2 =
      ((s.gmkChanOpen name mode guarantee slots granted).2).setRing i r := by
  have htaken : (s.setRing i r).nameTaken name = s.nameTaken name := by
    simp only [nameTaken, setRing_isOpen]
    rfl
  have hentry : (s.setRing i r).entry s.nChannels = s.entry s.nChannels :=
    Kernel.setRing_of_ne _ _ _ hi
  have hn : (s.setRing i r).nChannels = s.nChannels := rfl
  simp only [gmkChanOpen, hn, htaken, hentry, newEntry]
  split
  · rfl
  · split
    · rfl
    · simp only [setRing, Kernel.setChan_setRing _ _ _ hi]
      split <;> rfl

theorem sub_setRing (k : Kernel) (hc : c ≠ i) (r : RingMpmc Task) (m : UInt32) (w : ℤ) :
    (gmkChanSub (k.setRing i r) c m w).2 = (gmkChanSub k c m w).2.setRing i r := by
  simp only [gmkChanSub, Kernel.setRing_nChannels, Kernel.setRing_of_ne _ _ _ hc,
    Kernel.setChan_setRing _ _ _ hc]
  split
  · rfl
  · split
    · rfl
    · split
      · rfl
      · split <;> rfl

theorem close_setRing (k : Kernel) (hc : c ≠ i) (r : RingMpmc Task) :
    (gmkChanClose (k.setRing i r) c).2 = (gmkChanClose k c).2.setRing i r := by
  simp only [gmkChanClose, Kernel.setRing_nChannels, Kernel.setRing_of_ne _ _ _ hc,
    Kernel.setChan_setRing _ _ _ hc]
  split
  · rfl
  · split <;> rfl

/-- There is no such channel, or it is the direct one, which is closed and unbound. -/
def Vacant (k : Kernel) (i : ℕ) : Prop :=
  k.chan.nChannels ≤ i ∨
    (i = 0 ∧ (k.chan.channels i).isOpen = false ∧ (k.chan.channels i).nSubs = 0)

namespace Vacant
variable {k : Kernel}

theorem setRing (h : Vacant k i) (r : RingMpmc Task) : Vacant (k.setRing i r) i := by
  unfold Vacant
  rw [Kernel.setRing_self]
  exact h

theorem emit (h : Vacant k i) (t : Task) : ∃ rc, gmkChanEmit k i t = some (rc, t, k) := by
  unfold gmkChanEmit
  split
  · exact ⟨_, rfl⟩
  next hid =>
    obtain ⟨-, hclosed, -⟩ := h.resolve_left hid
    exact ⟨_, if_pos hclosed⟩

theorem drain (h : Vacant k i) (limit : ℕ) : gmkChanDrain k i limit = some (0, k) := by
  rcases h with hid | ⟨-, -, hsubs⟩
  · exact if_pos hid
  · exact gmkChanDrain_unbound hsubs limit

theorem sub (h : Vacant k i) (m : UInt32) (w : ℤ) : (gmkChanSub k i m w).2 = k := by
  unfold gmkChanSub
  split
  · rfl
  next hid =>
    obtain ⟨-, hclosed, -⟩ := h.resolve_left hid
    simp only [if_pos hclosed]

theorem close (h : Vacant k i) : (gmkChanClose k i).2 = k := by
  unfold gmkChanClose
  split
  · rfl
  next hid =>
    obtain ⟨rfl, -, -⟩ := h.resolve_left hid
    rfl

end Vacant

theorem Inv.vacant (h : s.Inv) (hi : s.live i = false) : Vacant s.kernel i := by
  rcases Nat.lt_or_ge i s.nChannels with hlt | hge
  · have hzero : i = 0 := by
      by_contra hne
      exact absurd (h.initialised i (Nat.pos_of_ne_zero hne) hlt) (by simp [hi])
    subst hzero
    exact .inr ⟨rfl, h.direct.1, h.direct.2.1⟩
  · exact .inl hge

theorem Inv.untouched (h : s.Inv) {op : ChanOp} (hi : s.live i = false)
    (hinit : ¬ s.Initialises i op) : s.Untouched op i := by
  intro r
  have hv := h.vacant hi
  have htwo := h.two_le
  have hdead : gmkChanSysDropped ≠ i := by
    rintro rfl
    exact absurd (h.initialised gmkChanSysDropped (by decide) htwo) (by simp [hi])
  have hhung : (s.setRing i r).hung = s.hung := rfl
  have hkernel : (s.setRing i r).kernel = s.kernel.setRing i r := rfl
  simp only [ChanWorld.step, hhung, hkernel]
  split
  · rfl
  cases op with
  | openAs name mode guarantee slots granted =>
    exact s.open_setRing (fun he => hinit he.symm) r name mode guarantee slots.toNat granted
  | sub c m w =>
    by_cases hc : c = i
    · subst hc
      simp only [(hv.setRing r).sub, hv.sub]
      rfl
    · simp only [sub_setRing s.kernel hc]
      rfl
  | emit c t =>
    by_cases hc : c = i
    · subst hc
      obtain ⟨rc, hrc⟩ := hv.emit t
      obtain ⟨rc', hrc'⟩ := (hv.setRing r).emit t
      simp only [hrc, hrc']
      rfl
    · simp only [gmkChanEmit_setRing hdead hc]
      cases gmkChanEmit s.kernel c t with
      | none => rfl
      | some p => rfl
  | drain c limit =>
    by_cases hc : c = i
    · subst hc
      simp only [(hv.setRing r).drain, hv.drain]
      rfl
    · simp only [gmkChanDrain_setRing hdead hc]
      cases gmkChanDrain s.kernel c limit with
      | none => rfl
      | some p => rfl
  | close c =>
    by_cases hc : c = i
    · subst hc
      simp only [(hv.setRing r).close, hv.close]
      rfl
    · simp only [close_setRing s.kernel hc]
      rfl

theorem Inv.sound (h : s.Inv) : s.Sound where
  channels_le := h.channels_le
  ids := h.ids
  p2p := h.p2p
  subs := h.subs
  direct := ⟨h.direct.1, h.direct.2.2⟩
  dropped := h.dropped.1
  rings _ _ hi hinit := h.untouched hi hinit

theorem Inv.run (h : s.Inv) (l : List ChanOp) :
    (l.foldl ChanWorld.step s).Inv ∧ s.Later (l.foldl ChanWorld.step s) := by
  induction l generalizing s with
  | nil => exact ⟨h, .refl s⟩
  | cons op l ih =>
    obtain ⟨hinv, hlater⟩ := h.step op
    obtain ⟨hrun, hrest⟩ := ih hinv
    exact ⟨hrun, hlater.trans hrest⟩

end Steps

/-- After every sequence of operations the registry is sound, and it stays so, with every channel
that is closed by then closed, through every further one. -/
theorem registry_sound (k : Kernel) (l l' : List ChanOp) :
    (l.foldl step (start k)).Sound ∧
      (l.foldl step (start k)).Later ((l ++ l').foldl step (start k)) := by
  obtain ⟨hinv, -⟩ := (start_inv k).run l
  rw [List.foldl_append]
  exact ⟨hinv.sound, (hinv.run l').2⟩

end ChanWorld
end Ggmk

import Ggmk.Ring.MpmcThreads

/-! Every step of the threads keeps the invariant of the ring, so that each element is
delivered once and in the order of the claims. -/
namespace Ggmk
open Word Guarded

namespace MpmcThreads
variable {α : Type*}

section Steps
variable {s s' : MpmcThreads α} {t : ℕ}

theorem Inv.claimPush (h : s.Inv) {x : α} {first tail : ℕ} (hpc : s.pc t = .pushCas x first tail)
    (htime : s.claims < first + 2 ^ 31) (hcas : s.ring.tail = tail) :
    Inv ({ s with
      ring := { s.ring with tail := u32 (tail + 1) }
      pushed := s.pushed ++ [x] }.setPc t (.pushCopy x tail s.pushed.length)) := by
  have ht := h.thread t
  rw [hpc] at ht
  obtain ⟨hs, hlt⟩ := h.pushCas_turn ht htime hcas
  have htail : tail = u32 s.pushed.length := hcas ▸ h.represents.tail_eq
  have hlen : (s.pushed ++ [x]).length = s.pushed.length + 1 := by simp
  have hpre : s.pushed <+: s.pushed ++ [x] := List.prefix_append _ _
  have hget : ∀ (n : ℕ) (y : α), s.pushed[n]? = some y → (s.pushed ++ [x])[n]? = some y := by
    intro n y hy
    exact List.getElem?_append_left (List.getElem?_eq_some_iff.mp hy).1 ▸ hy
  refine ⟨⟨h.represents.pow, h.represents.mask_eq, ?_, h.represents.head_eq, h.represents.seq_eq⟩,
    ?_, ?_, ?_, ?_, ⟨?_, ?_, h.delivery.passed, ?_, h.delivery.returned, h.delivery.nodup⟩⟩
  · simp only [setPc]
    rw [htail, u32_u32_add, hlen]
  · have htickets := h.tickets.takeWriter hs hlt
    simpa only [setPc, MpmcThreads.tickets, TicketRing.takeWriter, hlen] using htickets
  · refine h.thread_update rfl ⟨htail, ?_, hs⟩ ?_
    · simp [setPc]
    · intro u _ hu
      exact hu.mono rfl hpre le_rfl (fun _ => le_rfl) (Finset.Subset.refl _)
        (fun _ _ => ⟨rfl, rfl⟩) (fun _ _ => ⟨rfl, rfl⟩)
  · -- the number of the claim is new
    apply h.pushAlone.update
    intro n hn u _ hu
    obtain rfl := Option.some.inj hn
    exact absurd (h.pushClaim_lt hu).1 (lt_irrefl _)
  · exact h.popAlone.keep fun n hn => absurd hn (by simp [MpmcPc.popClaim])
  · intro n hn hsn
    simp only [setPc] at hn hsn ⊢
    by_cases hnew : n = s.pushed.length
    · exact ⟨t, by rw [Function.update_self, hnew]; rfl⟩
    · exact h.writer_update (by omega) hsn (by rw [hpc]; simp [MpmcPc.pushClaim])
  · intro n hsn
    obtain ⟨hw, hx⟩ := h.delivery.content n hsn
    exact ⟨hw, hget n _ hx⟩
  · intro n y hy
    exact hget n y (h.delivery.fifo n y hy)

theorem Inv.claimPop (h : s.Inv) {first head : ℕ} (hpc : s.pc t = .popCas first head)
    (htime : s.claims < first + 2 ^ 31) (hcas : s.ring.head = head) :
    Inv ({ s with
      ring := { s.ring with head := u32 (head + 1) }
      popClaims := s.popClaims + 1 }.setPc t (.popCopy head s.popClaims)) := by
  have ht := h.thread t
  rw [hpc] at ht
  obtain ⟨hs, hlt⟩ := h.popCas_turn ht htime hcas
  have hhead : head = u32 s.popClaims := hcas ▸ h.represents.head_eq
  refine ⟨⟨h.represents.pow, h.represents.mask_eq, h.represents.tail_eq, ?_, h.represents.seq_eq⟩,
    h.tickets.takeReader hs hlt, ?_, ?_, ?_, ⟨?_, h.delivery.content, h.delivery.passed,
    h.delivery.fifo, h.delivery.returned, h.delivery.nodup⟩⟩
  · simp only [setPc]
    rw [hhead, u32_u32_add]
  · refine h.thread_update rfl ⟨hhead, Nat.lt_succ_self _, hs⟩ ?_
    intro u _ hu
    exact hu.mono rfl (List.prefix_refl _) (Nat.le_succ _) (fun _ => le_rfl)
      (Finset.Subset.refl _) (fun _ _ => ⟨rfl, rfl⟩) (fun _ _ => ⟨rfl, rfl⟩)
  · exact h.pushAlone.keep fun n hn => absurd hn (by simp [MpmcPc.pushClaim])
  · apply h.popAlone.update
    intro n hn u _ hu
    obtain rfl := Option.some.inj hn
    exact absurd (h.popClaim_lt hu).1 (lt_irrefl _)
  · intro n hn hsn
    exact h.writer_update hn hsn (by rw [hpc]; simp [MpmcPc.pushClaim])

theorem Inv.copyIn (h : s.Inv) {x : α} {tail n : ℕ} (hpc : s.pc t = .pushCopy x tail n) :
    Inv ({ s with
      ring := { s.ring with data := Function.update s.ring.data (tail &&& s.ring.mask) x }
      written := insert n s.written }.setPc t (.pushStore x tail n)) := by
  have ht := h.thread t
  rw [hpc] at ht
  obtain ⟨rfl, hx, hs⟩ := ht
  rw [h.represents.and_mask]
  have hdata : ∀ m, m ≠ n → (s.stamp (m % s.ring.cap) = m ∨ s.stamp (m % s.ring.cap) = m + 1) →
      Function.update s.ring.data (n % s.ring.cap) x (m % s.ring.cap) =
        s.ring.data (m % s.ring.cap) :=
    fun m hne hm => Function.update_of_ne (h.cell_ne hne hm (.inl hs)) _ _
  refine ⟨⟨h.represents.pow, h.represents.mask_eq, h.represents.tail_eq, h.represents.head_eq,
    h.represents.seq_eq⟩, h.tickets, ?_, ?_, ?_, ⟨?_, ?_, h.delivery.passed, h.delivery.fifo,
    h.delivery.returned, h.delivery.nodup⟩⟩
  · refine h.thread_update rfl ⟨rfl, hx, hs, Finset.mem_insert_self _ _,
      Function.update_self _ _ _⟩ ?_
    intro u hut hu
    refine hu.mono rfl (List.prefix_refl _) le_rfl (fun _ => le_rfl) (Finset.subset_insert _ _) ?_
      (fun _ _ => ⟨rfl, rfl⟩)
    intro m hm
    have hne : m ≠ n := by
      rintro rfl
      exact hut (h.pushAlone u t m hm (by rw [hpc]; rfl))
    exact ⟨rfl, hdata m hne (.inl (h.pushClaim_lt hm).2)⟩
  · exact h.pushAlone.keep fun m hm => by rw [hpc]; exact hm
  · exact h.popAlone.keep fun m hm => absurd hm (by simp [MpmcPc.popClaim])
  · intro m hm hsm
    by_cases hmn : m = n
    · exact ⟨t, by simp only [setPc, Function.update_self, hmn]; rfl⟩
    · exact h.writer_update hm hsm (by rw [hpc]; simpa [MpmcPc.pushClaim] using Ne.symm hmn)
  · intro m hsm
    obtain ⟨hw, hc⟩ := h.delivery.content m hsm
    have hne : m ≠ n := by
      rintro rfl
      exact absurd (hs.symm.trans hsm) (by omega)
    refine ⟨Finset.mem_insert_of_mem hw, ?_⟩
    simp only [setPc]
    rw [hdata m hne (.inr hsm), hc]

theorem Inv.copyOut (h : s.Inv) {head n : ℕ} (hpc : s.pc t = .popCopy head n) :
    Inv ({ s with
      read := Function.update s.read n (some (s.ring.data (head &&& s.ring.mask))) }.setPc t
        (.popStore head n (s.ring.data (head &&& s.ring.mask)))) := by
  have ht := h.thread t
  rw [hpc] at ht
  obtain ⟨rfl, hlt, hs⟩ := ht
  have hcap : 2 ≤ s.ring.cap := h.tickets.two_le
  rw [h.represents.and_mask]
  obtain ⟨-, hc⟩ := h.delivery.content n hs
  refine ⟨⟨h.represents.pow, h.represents.mask_eq, h.represents.tail_eq, h.represents.head_eq,
    h.represents.seq_eq⟩, h.tickets, ?_, ?_, ?_, ⟨?_, h.delivery.content, ?_, ?_, ?_,
    h.delivery.nodup⟩⟩
  · refine h.thread_update rfl ⟨rfl, hlt, hs, Function.update_self _ _ _⟩ ?_
    intro u hut hu
    refine hu.mono rfl (List.prefix_refl _) le_rfl (fun _ => le_rfl) (Finset.Subset.refl _)
      (fun _ _ => ⟨rfl, rfl⟩) ?_
    intro m hm
    have hne : m ≠ n := by
      rintro rfl
      exact hut (h.popAlone u t m hm (by rw [hpc]; rfl))
    exact ⟨rfl, Function.update_of_ne hne _ _⟩
  · exact h.pushAlone.keep fun m hm => absurd hm (by simp [MpmcPc.pushClaim])
  · exact h.popAlone.keep fun m hm => by rw [hpc]; exact hm
  · intro m hm hsm
    exact h.writer_update hm hsm (by rw [hpc]; simp [MpmcPc.pushClaim])
  · intro m hm
    simp only [setPc]
    by_cases hmn : m = n
    · rw [hmn, Function.update_self]
      rfl
    · rw [Function.update_of_ne hmn]
      exact h.delivery.passed m hm
  · intro m y hy
    simp only [setPc] at hy ⊢
    by_cases hmn : m = n
    · rw [hmn, Function.update_self] at hy
      rw [hmn, hc, hy]
    · rw [Function.update_of_ne hmn] at hy
      exact h.delivery.fifo m y hy
  · intro e he
    obtain ⟨hr, hpassed⟩ := h.delivery.returned e he
    have hne : e.1 ≠ n := by
      intro heq
      rw [heq, hs] at hpassed
      omega
    refine ⟨?_, hpassed⟩
    simp only [setPc]
    rw [Function.update_of_ne hne, hr]

/-- The stamps after a store to the cell of `n`. -/
theorem stamp_store {stamp : ℕ → ℕ} {n v : ℕ} (c : ℕ) (hle : stamp (n % c) ≤ v) (j : ℕ) :
    stamp j ≤ Function.update stamp (n % c) v j := by
  by_cases hj : j = n % c
  · rw [hj, Function.update_self]
    exact hle
  · rw [Function.update_of_ne hj]

theorem Represents.seq_store (h : s.Represents) (n v m : ℕ) :
    Function.update s.ring.seq (n % s.ring.cap) (u32 v) (m % s.ring.cap) =
      u32 (Function.update s.stamp (n % s.ring.cap) v (m % s.ring.cap)) := by
  by_cases hm : m % s.ring.cap = n % s.ring.cap
  · rw [hm, Function.update_self, Function.update_self]
  · rw [Function.update_of_ne hm, Function.update_of_ne hm, h.seq_eq]

theorem Inv.publish (h : s.Inv) {x : α} {tail n : ℕ} (hpc : s.pc t = .pushStore x tail n) :
    Inv ({ s with
      ring := { s.ring with
        seq := Function.update s.ring.seq (tail &&& s.ring.mask) (u32 (tail + 1)) }
      stamp := Function.update s.stamp (n % s.ring.cap) (n + 1) }.setPc t .idle) := by
  have ht := h.thread t
  rw [hpc] at ht
  obtain ⟨rfl, hx, hs, hw, hd⟩ := ht
  have hcap : 2 ≤ s.ring.cap := h.tickets.two_le
  have hlt : n < s.pushed.length := (List.getElem?_eq_some_iff.mp hx).1
  have hmono := stamp_store s.ring.cap (show s.stamp (n % s.ring.cap) ≤ n + 1 by omega)
  have hclaim : (s.pc t).pushClaim = some n := by rw [hpc]; rfl
  rw [h.represents.and_mask, u32_u32_add]
  refine ⟨⟨h.represents.pow, h.represents.mask_eq, h.represents.tail_eq, h.represents.head_eq,
    h.represents.seq_store n (n + 1)⟩, h.tickets.publish hs hlt, ?_, ?_, ?_, ⟨?_, ?_, ?_,
    h.delivery.fifo, ?_, h.delivery.nodup⟩⟩
  · refine h.thread_update rfl trivial ?_
    intro u hut hu
    refine hu.mono rfl (List.prefix_refl _) le_rfl hmono (Finset.Subset.refl _) ?_ ?_
    · intro m hm
      have hne : m ≠ n := by
        rintro rfl
        exact hut (h.pushAlone u t m hm hclaim)
      have hcell := h.cell_ne hne (.inl (h.pushClaim_lt hm).2) (.inl hs)
      exact ⟨Function.update_of_ne hcell _ _, rfl⟩
    · intro m hm
      have hsm := (h.popClaim_lt hm).2
      have hne : m ≠ n := by
        rintro rfl
        omega
      have hcell := h.cell_ne hne (.inr hsm) (.inl hs)
      exact ⟨Function.update_of_ne hcell _ _, rfl⟩
  · exact h.pushAlone.keep fun m hm => absurd hm (by simp [MpmcPc.pushClaim])
  · exact h.popAlone.keep fun m hm => absurd hm (by simp [MpmcPc.popClaim])
  · intro m hm hsm
    simp only [setPc] at hm hsm
    by_cases hmod : m % s.ring.cap = n % s.ring.cap
    · rw [hmod, Function.update_self] at hsm
      rw [← hsm] at hmod
      exact absurd hmod (TicketRing.succ_mod_ne hcap)
    · rw [Function.update_of_ne hmod] at hsm
      refine h.writer_update hm hsm ?_
      rw [hclaim]
      rintro ⟨⟩
      exact hmod rfl
  · intro m hsm
    simp only [setPc] at hsm ⊢
    by_cases hmod : m % s.ring.cap = n % s.ring.cap
    · rw [hmod, Function.update_self] at hsm
      rw [show m = n by omega, hd]
      exact ⟨hw, hx⟩
    · rw [Function.update_of_ne hmod] at hsm
      exact h.delivery.content m hsm
  · intro m hm
    simp only [setPc] at hm ⊢
    by_cases hmod : m % s.ring.cap = n % s.ring.cap
    · rw [hmod, Function.update_self] at hm
      apply h.delivery.passed
      rw [hmod, hs]
      -- the next round of the position before is not one past this position
      have hne : m + s.ring.cap ≠ n + 1 := by
        intro he
        have hsucc := congrArg (· % s.ring.cap) he
        simp only [Nat.add_mod_right, hmod] at hsucc
        exact TicketRing.succ_mod_ne hcap hsucc.symm
      omega
    · rw [Function.update_of_ne hmod] at hm
      exact h.delivery.passed m hm
  · intro e he
    obtain ⟨hr, hpassed⟩ := h.delivery.returned e he
    exact ⟨hr, hpassed.trans (hmono _)⟩

theorem Inv.release (h : s.Inv) {x : α} {head n : ℕ} (hpc : s.pc t = .popStore head n x) :
    Inv ({ s with
      ring := { s.ring with
        seq := Function.update s.ring.seq (head &&& s.ring.mask) (u32 (head + s.ring.cap)) }
      stamp := Function.update s.stamp (n % s.ring.cap) (n + s.ring.cap)
      returned := s.returned ++ [(n, x)] }.setPc t .idle) := by
  have ht := h.thread t
  rw [hpc] at ht
  obtain ⟨rfl, hlt, hs, hread⟩ := ht
  have hcap : 2 ≤ s.ring.cap := h.tickets.two_le
  have hmono := stamp_store s.ring.cap (show s.stamp (n % s.ring.cap) ≤ n + s.ring.cap by omega)
  have hclaim : (s.pc t).popClaim = some n := by rw [hpc]; rfl
  have hwriters : s.pushed.length ≤ n + s.ring.cap := h.tickets.reader_turn hs hlt
  rw [h.represents.and_mask, u32_u32_add]
  refine ⟨⟨h.represents.pow, h.represents.mask_eq, h.represents.tail_eq, h.represents.head_eq,
    h.represents.seq_store n (n + s.ring.cap)⟩, h.tickets.release hs hlt, ?_, ?_, ?_, ⟨?_, ?_, ?_,
    h.delivery.fifo, ?_, ?_⟩⟩
  · refine h.thread_update rfl trivial ?_
    intro u hut hu
    refine hu.mono rfl (List.prefix_refl _) le_rfl hmono (Finset.Subset.refl _) ?_ ?_
    · intro m hm
      have hsm := (h.pushClaim_lt hm).2
      have hne : m ≠ n := by
        rintro rfl
        omega
      have hcell := h.cell_ne hne (.inl hsm) (.inr hs)
      exact ⟨Function.update_of_ne hcell _ _, rfl⟩
    · intro m hm
      have hne : m ≠ n := by
        rintro rfl
        exact hut (h.popAlone u t m hm hclaim)
      have hcell := h.cell_ne hne (.inr (h.popClaim_lt hm).2) (.inr hs)
      exact ⟨Function.update_of_ne hcell _ _, rfl⟩
  · exact h.pushAlone.keep fun m hm => absurd hm (by simp [MpmcPc.pushClaim])
  · exact h.popAlone.keep fun m hm => absurd hm (by simp [MpmcPc.popClaim])
  · intro m hm hsm
    simp only [setPc] at hm hsm
    by_cases hmod : m % s.ring.cap = n % s.ring.cap
    · rw [hmod, Function.update_self] at hsm
      omega
    · rw [Function.update_of_ne hmod] at hsm
      exact h.writer_update hm hsm (by rw [hpc]; simp [MpmcPc.pushClaim])
  · intro m hsm
    simp only [setPc] at hsm ⊢
    by_cases hmod : m % s.ring.cap = n % s.ring.cap
    · rw [hmod, Function.update_self] at hsm
      have hsucc := congrArg (· % s.ring.cap) hsm
      simp only [Nat.add_mod_right, ← hmod] at hsucc
      exact absurd hsucc.symm (TicketRing.succ_mod_ne hcap)
    · rw [Function.update_of_ne hmod] at hsm
      exact h.delivery.content m hsm
  · intro m hm
    simp only [setPc] at hm ⊢
    by_cases hmn : m = n
    · rw [hmn, hread]
      rfl
    · apply h.delivery.passed
      by_cases hmod : m % s.ring.cap = n % s.ring.cap
      · rw [hmod, Function.update_self] at hm
        rw [hmod, hs]
        -- an earlier position of the cell is a whole round before this one
        by_contra hround
        exact hmn (TicketRing.eq_of_mod_eq hmod.symm (by omega) (by omega)).symm
      · rw [Function.update_of_ne hmod] at hm
        exact hm
  · intro e he
    rcases List.mem_append.mp he with he | he
    · obtain ⟨hr, hpassed⟩ := h.delivery.returned e he
      exact ⟨hr, hpassed.trans (hmono _)⟩
    · rw [List.mem_singleton.mp he]
      exact ⟨hread, by simp only [setPc, Function.update_self, le_refl]⟩
  · simp only [setPc, List.map_append, List.map_singleton]
    refine List.nodup_append.mpr ⟨h.delivery.nodup, List.nodup_singleton n, ?_⟩
    intro a ha b hb hab
    obtain ⟨e, he, rfl⟩ := List.mem_map.mp ha
    obtain ⟨-, hpassed⟩ := h.delivery.returned e he
    rw [hab, List.mem_singleton.mp hb, hs] at hpassed
    omega

theorem Inv.run (h : s.Inv) (htime : s.Timely (.run t)) : (s.run t).Inv := by
  have ht := h.thread t
  simp only [Timely] at htime
  unfold MpmcThreads.run
  split <;> rename_i hpc <;> rw [hpc] at ht htime
  case h_1 => exact h
  case h_2 x => exact h.goto (by rw [hpc]; rfl) (h.tail_thread x le_rfl) rfl rfl
  case h_3 x first tail =>
    dsimp only
    split
    · rename_i hdiff
      exact h.goto (by rw [hpc]; rfl) (h.pushSeq ht hdiff) rfl rfl
    · split
      · exact h.goto (by rw [hpc]; rfl) trivial rfl rfl
      · exact h.goto (by rw [hpc]; rfl) ht.pushReload rfl rfl
  case h_4 x first => exact h.goto (by rw [hpc]; rfl) (h.tail_thread x ht) rfl rfl
  case h_5 x first tail =>
    split
    · rename_i hcas
      exact h.claimPush hpc htime hcas
    · exact h.goto (by rw [hpc]; rfl) (h.tail_thread x ht.pushUnseen.pushReload) rfl rfl
  case h_6 x tail n => exact h.copyIn hpc
  case h_7 x tail n => exact h.publish hpc
  case h_8 => exact h.goto (by rw [hpc]; rfl) (h.head_thread le_rfl) rfl rfl
  case h_9 first head =>
    dsimp only
    split
    · rename_i hdiff
      exact h.goto (by rw [hpc]; rfl) (h.popSeq ht hdiff) rfl rfl
    · split
      · exact h.goto (by rw [hpc]; rfl) trivial rfl rfl
      · exact h.goto (by rw [hpc]; rfl) ht.popReload rfl rfl
  case h_10 first => exact h.goto (by rw [hpc]; rfl) (h.head_thread ht) rfl rfl
  case h_11 first head =>
    split
    · rename_i hcas
      exact h.claimPop hpc htime hcas
    · exact h.goto (by rw [hpc]; rfl) (h.head_thread ht.popUnseen.popReload) rfl rfl
  case h_12 head n => exact h.copyOut hpc
  case h_13 head n x => exact h.release hpc

theorem Inv.casFail (h : s.Inv) : (s.casFail t).Inv := by
  have ht := h.thread t
  unfold MpmcThreads.casFail
  split <;> (try rename_i hpc; rw [hpc] at ht)
  case h_1 x first tail =>
    exact h.goto (by rw [hpc]; rfl) (h.tail_thread x ht.pushUnseen.pushReload) rfl rfl
  case h_2 first head =>
    exact h.goto (by rw [hpc]; rfl) (h.head_thread ht.popUnseen.popReload) rfl rfl
  case h_3 => exact h

theorem Inv.step (h : s.Inv) {act : MpmcAct α} (htime : s.Timely act) : (s.step act).Inv := by
  cases act with
  | push t x =>
    simp only [MpmcThreads.step]
    split
    · rename_i hpc
      exact h.goto (by rw [hpc]; rfl) trivial rfl rfl
    · exact h
  | pop t =>
    simp only [MpmcThreads.step]
    split
    · rename_i hpc
      exact h.goto (by rw [hpc]; rfl) trivial rfl rfl
    · exact h
  | run t => exact h.run htime
  | casFail t => exact h.casFail

theorem Inv.exact (h : s.Inv) : s.Exact := by
  have hcap : 2 ≤ s.ring.cap := h.tickets.two_le
  refine ⟨h.delivery.fifo, ⟨fun e he => (h.delivery.returned e he).1, h.delivery.nodup⟩,
    fun t u n => ⟨h.pushAlone t u n, h.popAlone t u n⟩, ?_, ?_, ?_⟩
  · intro i x hx hread
    have hlt : i < s.pushed.length := (List.getElem?_eq_some_iff.mp hx).1
    have hnot : s.stamp (i % s.ring.cap) < i + s.ring.cap := by
      by_contra hpassed
      have hsome := h.delivery.passed i (by omega)
      rw [hread] at hsome
      exact absurd hsome (by simp)
    rcases h.tickets.current hlt hnot with hs | hs
    · exact .inr (h.delivery.writer i hlt hs)
    · obtain ⟨hw, hc⟩ := h.delivery.content i hs
      rw [hx] at hc
      exact .inl ⟨hw, (Option.some.inj hc).symm⟩
  · intro t head n hpc
    have ht := h.thread t
    rw [hpc] at ht
    obtain ⟨rfl, -, hs⟩ := ht
    rw [h.represents.and_mask]
    exact h.delivery.content n hs
  · intro t x tail n hpc
    have ht := h.thread t
    rw [hpc] at ht
    obtain ⟨-, -, hs⟩ := ht
    rw [Nat.add_mod_right] at hs
    exact h.delivery.passed n hs.ge

end Steps

theorem start_inv [Inhabited α] {k : ℕ} (hk1 : 1 ≤ k) (hk : k ≤ 31) :
    (start k : MpmcThreads α).Inv := by
  have htwo : 2 ≤ 2 ^ k := Nat.pow_le_pow_right (n := 2) (by norm_num) hk1
  have hle : 2 ^ k ≤ 2 ^ 31 := Nat.pow_le_pow_right (by norm_num) hk
  have hmod (n : ℕ) : n % 2 ^ k < 2 ^ k := Nat.mod_lt _ (by omega)
  refine ⟨⟨⟨k, hk, rfl⟩, rfl, rfl, rfl, ?_⟩, TicketRing.start_inv htwo, fun _ => trivial, ?_, ?_,
    ⟨?_, ?_, ?_, ?_, ?_, List.nodup_nil⟩⟩
  · intro n
    have := hmod n
    exact (u32_of_lt (by simp only [start, gmkRingMpmcInit]; omega)).symm
  · intro t u n ht
    exact absurd ht (by simp [start, MpmcPc.pushClaim])
  · intro t u n ht
    exact absurd ht (by simp [start, MpmcPc.popClaim])
  · intro n hn
    exact absurd hn (by simp [start])
  · intro n hs
    have := Nat.mod_le n (2 ^ k)
    simp only [start, gmkRingMpmcInit, id] at hs
    omega
  · intro n hs
    have := hmod n
    simp only [start, gmkRingMpmcInit, id] at hs
    omega
  · intro n x hx
    exact absurd hx (by simp [start])
  · intro e he
    exact absurd he (by simp [start])

/-- In every interleaving in which no call sees `2 ^ 31` claims between its first load and its
compare-and-swap, the ring delivers every element exactly once and in order. -/
theorem mpmc_exact [Inhabited α] {k : ℕ} (hk1 : 1 ≤ k) (hk : k ≤ 31) {s : MpmcThreads α}
    (hrun : Reach (fun s act s' => s' = s.step act) Timely (start k) s) : s.Exact := by
  have hinv : s.Inv := by
    refine hrun.inv (start_inv hk1 hk) ?_
    intro s act s' h hg hs
    rw [hs]
    exact h.step hg
  exact hinv.exact

/-- Two threads push at the same time, and a third one pops. -/
def contending : List (MpmcAct ℕ) :=
  [.push 0 5, .push 2 6, .run 0, .run 2, .run 0, .run 2, .run 0, .run 2, .run 0, .run 0,
    .pop 1, .run 1, .run 1, .run 1, .run 1, .run 1]

theorem mpmc_exact_contending :
    ∃ s : MpmcThreads ℕ, Reach (fun s act s' => s' = s.step act) Timely (start 1) s ∧
      s.returned = [(0, 5)] ∧ s.Exact := by
  have hobeys : Obeys step Timely (start 1) contending := by
    refine ⟨trivial, trivial, trivial, trivial, trivial, trivial, ?_, ?_, trivial, trivial, trivial,
      trivial, trivial, ?_, trivial, trivial, trivial⟩
    · show 0 < 0 + 2 ^ 31
      norm_num
    · show 1 < 0 + 2 ^ 31
      norm_num
    · show 1 < 1 + 2 ^ 31
      norm_num
  have hrun := Reach.foldl hobeys .start
  exact ⟨_, hrun, by decide, mpmc_exact le_rfl (by norm_num) hrun⟩

end MpmcThreads
end Ggmk

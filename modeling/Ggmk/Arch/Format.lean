import Ggmk.Arch.Serial

/-! The format loops of `kprintf` and `panic` (`src/arch/x86_64/serial.c`), with every position of
the format string that they read. -/
namespace Ggmk
open Word

namespace Serial

/-- What `va_arg` gives at each position: a string there, of type `S`, or a word. -/
structure VaList (S : Type) where
  str : ℕ → S
  word : ℕ → UInt64

/-- The bytes behind a format pointer up to the first NUL at `len`, and whatever follows. -/
structure FormatString where
  mem : ℕ → UInt8
  len : ℕ
  nul : mem len = 0
  body : ∀ i, i < len → mem i ≠ 0

def serialPuts (s : List UInt8) : List UInt8 :=
  s.flatMap fun c => if c = '\n'.toUInt8 then ['\r'.toUInt8, c] else [c]

/-- `va_arg(ap, int)` as the argument of `print_int64`. -/
def intArg (w : UInt64) : ℕ :=
  if u32 w.toNat < 2 ^ 31 then u32 w.toNat else u32 w.toNat + (2 ^ 64 - 2 ^ 32)

/-- The switch of `kprintf` on `c`; a string is `none` for the null pointer. The result is what is
emitted and the position in the argument list. -/
def kprintfConv (va : VaList (Option (List UInt8))) (isLong : Bool) (c : UInt8) (ap : ℕ) :
    List UInt8 × ℕ :=
  if c = 's'.toUInt8 then (serialPuts ((va.str ap).getD (ascii "(null)")), ap + 1)
  else if c = 'd'.toUInt8 then
    (printInt64 (if isLong then (va.word ap).toNat else intArg (va.word ap)), ap + 1)
  else if c = 'u'.toUInt8 then
    (printUint64 (if isLong then (va.word ap).toNat else u32 (va.word ap).toNat), ap + 1)
  else if c = 'x'.toUInt8 then
    (printHex64 (if isLong then (va.word ap).toNat else u32 (va.word ap).toNat), ap + 1)
  else if c = 'p'.toUInt8 then
    (serialPuts (ascii "0x") ++ printHex64 (va.word ap).toNat, ap + 1)
  else if c = '%'.toUInt8 then (['%'.toUInt8], ap)
  else (['%'.toUInt8] ++ (if isLong then ['l'.toUInt8] else []) ++ [c], ap)

/-- The switch of `panic`: no check of a null string, no case for the percent sign, and the
default prints the character alone. -/
def panicConv (va : VaList (List UInt8)) (isLong : Bool) (c : UInt8) (ap : ℕ) :
    List UInt8 × ℕ :=
  if c = 's'.toUInt8 then (serialPuts (va.str ap), ap + 1)
  else if c = 'd'.toUInt8 then
    (printInt64 (if isLong then (va.word ap).toNat else intArg (va.word ap)), ap + 1)
  else if c = 'u'.toUInt8 then
    (printUint64 (if isLong then (va.word ap).toNat else u32 (va.word ap).toNat), ap + 1)
  else if c = 'x'.toUInt8 then
    (printHex64 (if isLong then (va.word ap).toNat else u32 (va.word ap).toNat), ap + 1)
  else if c = 'p'.toUInt8 then
    (serialPuts (ascii "0x") ++ printHex64 (va.word ap).toNat, ap + 1)
  else ([c], ap)

/-- A loop at the position `fmt` of the format and `ap` of the arguments. `reads` are the
positions at which the format was looked at. -/
structure Scan where
  fmt : ℕ
  ap : ℕ
  out : List UInt8
  reads : List ℕ
  ended : Bool

def Scan.start : Scan := ⟨0, 0, [], [], false⟩

def Scan.look (s : Scan) : Scan := { s with reads := s.reads ++ [s.fmt] }

/-- The switch at the current character and the `fmt++` behind it. -/
def convStep (m : ℕ → UInt8) (conv : Bool → UInt8 → ℕ → List UInt8 × ℕ) (isLong : Bool)
    (s : Scan) : Scan :=
  let s := s.look
  let r := conv isLong (m s.fmt) s.ap
  { s with out := s.out ++ r.1, ap := r.2, fmt := s.fmt + 1 }

/-- The test of the loop and, where it holds, one iteration. -/
def scanStep (m : ℕ → UInt8) (conv : Bool → UInt8 → ℕ → List UInt8 × ℕ) (s : Scan) : Scan :=
  if s.ended then s
  else
    let s := s.look
    if m s.fmt = 0 then { s with ended := true }
    else if m s.fmt ≠ '%'.toUInt8 then
      { s with out := s.out ++ serialPuts [m s.fmt], fmt := s.fmt + 1 }
    else
      let s := { s with fmt := s.fmt + 1 }.look
      if m s.fmt = 'l'.toUInt8 then convStep m conv true { s with fmt := s.fmt + 1 }
      else convStep m conv false s

def kprintfStep (m : ℕ → UInt8) (va : VaList (Option (List UInt8))) : Scan → Scan :=
  scanStep m (kprintfConv va)

def panicStep (m : ℕ → UInt8) (va : VaList (List UInt8)) : Scan → Scan :=
  scanStep m (panicConv va)

/-- What `kprintf` emits, its loop run to the test behind as many iterations as the format has
characters. -/
def kprintf (f : FormatString) (va : VaList (Option (List UInt8))) : List UInt8 :=
  ((kprintfStep f.mem va)^[f.len + 1] .start).out

/-- What `panic` emits before it halts. -/
def panic (file : List UInt8) (line : UInt64) (f : FormatString) (va : VaList (List UInt8)) :
    List UInt8 :=
  serialPuts (ascii "\r\n!!! KERNEL PANIC !!!\r\n") ++ serialPuts (ascii "  at ") ++
    serialPuts file ++ [':'.toUInt8] ++ printUint64 (intArg line) ++ serialPuts (ascii "\r\n  ") ++
    ((panicStep f.mem va)^[f.len + 1] .start).out ++
    serialPuts (ascii "\r\n  SYSTEM HALTED.\r\n")

/-- The loop reads nothing behind the terminator, and the test after at most one iteration for
each character ends it. -/
def Stops (step : Scan → Scan) (len : ℕ) : Prop :=
  (∀ k, ∀ a ∈ (step^[k] .start).reads, a ≤ len) ∧ (step^[len + 1] .start).ended = true

/-- A part of a format string: a character that stands for itself, or a conversion. -/
inductive Piece
  | plain (c : UInt8) (h : c ≠ '%'.toUInt8)
  | short (c : UInt8) (h : c ≠ 'l'.toUInt8)
  | long (c : UInt8)

def Piece.bytes : Piece → List UInt8
  | .plain c _ => [c]
  | .short c _ => ['%'.toUInt8, c]
  | .long c => ['%'.toUInt8, 'l'.toUInt8, c]

/-- The format from a position on up to its terminator. -/
def FormatString.rest (f : FormatString) (p : ℕ) : List UInt8 :=
  (List.range' p (f.len - p)).map f.mem

/-- From `p` on every conversion of the format has its character. -/
def FormatString.Whole (f : FormatString) (p : ℕ) : Prop :=
  ∃ ps : List Piece, f.rest p = ps.flatMap Piece.bytes

def FormatString.Complete (f : FormatString) : Prop := f.Whole 0

variable {m : ℕ → UInt8} {conv : Bool → UInt8 → ℕ → List UInt8 × ℕ} {s : Scan}
  {f : FormatString} {p : ℕ}

theorem scanStep_ended (h : s.ended = true) : scanStep m conv s = s := by
  rw [scanStep, if_pos h]

theorem scanStep_nul (h : s.ended = false) (h0 : m s.fmt = 0) :
    scanStep m conv s = { s.look with ended := true } := by
  rw [scanStep, if_neg (by simp [h])]
  exact if_pos h0

theorem scanStep_plain (h : s.ended = false) (h0 : m s.fmt ≠ 0) (h1 : m s.fmt ≠ '%'.toUInt8) :
    scanStep m conv s =
      { s.look with out := s.out ++ serialPuts [m s.fmt], fmt := s.fmt + 1 } := by
  rw [scanStep, if_neg (by simp [h])]
  exact (if_neg h0).trans (if_pos h1)

theorem scanStep_short (h : s.ended = false) (h1 : m s.fmt = '%'.toUInt8)
    (h2 : m (s.fmt + 1) ≠ 'l'.toUInt8) :
    scanStep m conv s =
      ⟨s.fmt + 2, (conv false (m (s.fmt + 1)) s.ap).2,
        s.out ++ (conv false (m (s.fmt + 1)) s.ap).1,
        s.reads ++ [s.fmt] ++ [s.fmt + 1] ++ [s.fmt + 1], false⟩ := by
  have h0 : m s.fmt ≠ 0 := by rw [h1]; decide
  rw [scanStep, if_neg (by simp [h]), ← h]
  exact (if_neg h0).trans ((if_neg (not_not.mpr h1)).trans (if_neg h2))

theorem scanStep_long (h : s.ended = false) (h1 : m s.fmt = '%'.toUInt8)
    (h2 : m (s.fmt + 1) = 'l'.toUInt8) :
    scanStep m conv s =
      ⟨s.fmt + 3, (conv true (m (s.fmt + 2)) s.ap).2,
        s.out ++ (conv true (m (s.fmt + 2)) s.ap).1,
        s.reads ++ [s.fmt] ++ [s.fmt + 1] ++ [s.fmt + 2], false⟩ := by
  have h0 : m s.fmt ≠ 0 := by rw [h1]; decide
  rw [scanStep, if_neg (by simp [h]), ← h]
  exact (if_neg h0).trans ((if_neg (not_not.mpr h1)).trans (if_pos h2))

theorem FormatString.rest_of_lt (h : p < f.len) : f.rest p = f.mem p :: f.rest (p + 1) := by
  have hlen : f.len - p = f.len - (p + 1) + 1 := by omega
  rw [FormatString.rest, hlen, List.range'_succ, List.map_cons, FormatString.rest]

theorem FormatString.rest_of_le (h : f.len ≤ p) : f.rest p = [] := by
  rw [FormatString.rest, Nat.sub_eq_zero_of_le h, List.range'_zero, List.map_nil]

/-- A format that goes on with a character has it at the position. -/
theorem FormatString.rest_cons {c : UInt8} {t : List UInt8} (h : f.rest p = c :: t) :
    p < f.len ∧ f.mem p = c ∧ f.rest (p + 1) = t := by
  have hlt : p < f.len := by
    by_contra hge
    rw [f.rest_of_le (not_lt.mp hge)] at h
    cases h
  rw [f.rest_of_lt hlt, List.cons.injEq] at h
  exact ⟨hlt, h⟩

/-- What a piece emits and where it leaves the arguments. -/
def Piece.emit (conv : Bool → UInt8 → ℕ → List UInt8 × ℕ) (ap : ℕ) : Piece → List UInt8 × ℕ
  | .plain c _ => (serialPuts [c], ap)
  | .short c _ => conv false c ap
  | .long c => conv true c ap

def emitAll (conv : Bool → UInt8 → ℕ → List UInt8 × ℕ) : ℕ → List Piece → List UInt8
  | _, [] => []
  | ap, q :: ps => (q.emit conv ap).1 ++ emitAll conv (q.emit conv ap).2 ps

/-- Three more positions within the format. -/
theorem mem_or_le {l : List ℕ} {n x y z a : ℕ} (hx : x ≤ n) (hy : y ≤ n) (hz : z ≤ n)
    (ha : a ∈ l ++ [x] ++ [y] ++ [z]) : a ∈ l ∨ a ≤ n := by
  simp only [List.mem_append, List.mem_singleton] at ha
  rcases ha with ((ha | rfl) | rfl) | rfl
  · exact .inl ha
  · exact .inr hx
  · exact .inr hy
  · exact .inr hz

/-- A step over a piece that lies in the format emits it and stays within the format. -/
theorem scanStep_piece {q : Piece} {t : List UInt8} (h : s.ended = false)
    (hq : f.rest s.fmt = q.bytes ++ t) :
    (scanStep f.mem conv s).ended = false ∧
      s.fmt < (scanStep f.mem conv s).fmt ∧ (scanStep f.mem conv s).fmt ≤ f.len ∧
      f.rest (scanStep f.mem conv s).fmt = t ∧
      (scanStep f.mem conv s).out = s.out ++ (q.emit conv s.ap).1 ∧
      (scanStep f.mem conv s).ap = (q.emit conv s.ap).2 ∧
      ∀ a ∈ (scanStep f.mem conv s).reads, a ∈ s.reads ∨ a ≤ f.len := by
  cases q with
  | plain c hc =>
    obtain ⟨hlt, rfl, ht⟩ := f.rest_cons hq
    rw [scanStep_plain h (f.body _ hlt) hc]
    refine ⟨h, Nat.lt_succ_self _, hlt, ht, rfl, rfl, ?_⟩
    intro a ha
    rcases List.mem_append.mp ha with ha | ha
    · exact .inl ha
    · exact .inr (List.mem_singleton.mp ha ▸ hlt.le)
  | short c hc =>
    obtain ⟨-, h1, hq⟩ := f.rest_cons hq
    obtain ⟨hlt, rfl, ht⟩ := f.rest_cons hq
    rw [scanStep_short h h1 hc]
    refine ⟨rfl, by simp only; omega, hlt, ht, rfl, rfl, ?_⟩
    exact fun a ha => mem_or_le (by omega) (by omega) (by omega) ha
  | long c =>
    obtain ⟨-, h1, hq⟩ := f.rest_cons hq
    obtain ⟨-, h2, hq⟩ := f.rest_cons hq
    obtain ⟨hlt, rfl, ht⟩ := f.rest_cons hq
    rw [scanStep_long h h1 h2]
    refine ⟨rfl, by simp only; omega, hlt, ht, rfl, rfl, ?_⟩
    exact fun a ha => mem_or_le (by omega) (by omega) (by omega) ha

/-- What holds of a loop over a format of the pieces `ps` after `k` steps. -/
structure Scanning (f : FormatString) (conv : Bool → UInt8 → ℕ → List UInt8 × ℕ)
    (ps : List Piece) (k : ℕ) (s : Scan) : Prop where
  within : ∀ a ∈ s.reads, a ≤ f.len
  going : s.ended = false → k ≤ s.fmt ∧ s.fmt ≤ f.len ∧ ∃ qs : List Piece,
    f.rest s.fmt = qs.flatMap Piece.bytes ∧ s.out ++ emitAll conv s.ap qs = emitAll conv 0 ps
  done : s.ended = true → s.out = emitAll conv 0 ps

theorem Scanning.start {ps : List Piece} (h : f.rest 0 = ps.flatMap Piece.bytes) :
    Scanning f conv ps 0 .start where
  within := by
    intro a ha
    cases ha
  going := fun _ => ⟨le_rfl, Nat.zero_le _, ps, h, rfl⟩
  done := fun h => absurd h Bool.false_ne_true

theorem Scanning.step {ps : List Piece} {k : ℕ} (h : Scanning f conv ps k s) :
    Scanning f conv ps (k + 1) (scanStep f.mem conv s) := by
  cases hend : s.ended with
  | true =>
    rw [scanStep_ended hend]
    exact ⟨h.within, fun hf => absurd (hend.symm.trans hf).symm Bool.false_ne_true, h.done⟩
  | false =>
    obtain ⟨hk, hle, qs, hqs, hout⟩ := h.going hend
    cases qs with
    | nil =>
      have hlen : s.fmt = f.len := by
        by_contra hne
        rw [f.rest_of_lt (by omega)] at hqs
        cases hqs
      rw [scanStep_nul hend (hlen ▸ f.nul)]
      refine ⟨?_, fun hf => absurd hf.symm Bool.false_ne_true, fun _ => ?_⟩
      · intro a ha
        rcases List.mem_append.mp ha with ha | ha
        · exact h.within a ha
        · exact List.mem_singleton.mp ha ▸ hle
      · rw [← hout]
        exact (List.append_nil _).symm
    | cons q qs =>
      obtain ⟨hend', hlt, hle', hrest, hout', hap, hreads⟩ := @scanStep_piece conv _ _ _ _ hend hqs
      refine ⟨?_, fun _ => ⟨by omega, hle', qs, hrest, ?_⟩, fun hf => ?_⟩
      · intro a ha
        exact (hreads a ha).elim (h.within a) id
      · rw [← hout, hout', hap, List.append_assoc]
        rfl
      · rw [hend'] at hf
        cases hf

theorem Scanning.iterate {ps : List Piece} (h : f.rest 0 = ps.flatMap Piece.bytes) (k : ℕ) :
    Scanning f conv ps k ((scanStep f.mem conv)^[k] .start) := by
  induction k with
  | zero => exact .start h
  | succ k ih =>
    rw [Function.iterate_succ_apply']
    exact ih.step

/-- A loop over whole pieces stops at the terminator. -/
theorem stops_of_complete (h : f.Complete) : Stops (scanStep f.mem conv) f.len := by
  obtain ⟨ps, hps⟩ := h
  refine ⟨fun k => (Scanning.iterate hps k).within, ?_⟩
  by_contra hend
  obtain ⟨hk, hle, -⟩ := (Scanning.iterate hps (f.len + 1)).going (Bool.not_eq_true _ ▸ hend)
  omega

/-- The test of the loop looks at the current position. -/
theorem fmt_mem_reads (h : s.ended = false) : s.fmt ∈ (scanStep m conv s).reads := by
  by_cases h0 : m s.fmt = 0
  · rw [scanStep_nul h h0]
    exact List.mem_append_right _ List.mem_cons_self
  by_cases h1 : m s.fmt = '%'.toUInt8
  · by_cases h2 : m (s.fmt + 1) = 'l'.toUInt8
    · rw [scanStep_long h h1 h2]
      simp
    · rw [scanStep_short h h1 h2]
      simp
  · rw [scanStep_plain h h0 h1]
    exact List.mem_append_right _ List.mem_cons_self

/-- A piece in front of whole pieces. -/
theorem FormatString.Whole.cons {p' : ℕ} (q : Piece) (hq : f.rest p = q.bytes ++ f.rest p')
    (h : f.Whole p') : f.Whole p := by
  obtain ⟨ps, hps⟩ := h
  refine ⟨q :: ps, ?_⟩
  rw [hq, hps, List.flatMap_cons]

/-- A loop that reads nothing behind the terminator is over a format of whole pieces. -/
theorem whole_of_reads (hle : s.fmt ≤ f.len) (hend : s.ended = false)
    (h : ∀ k, ∀ a ∈ ((scanStep f.mem conv)^[k] s).reads, a ≤ f.len) : f.Whole s.fmt := by
  induction hd : f.len - s.fmt using Nat.strongRecOn generalizing s with
  | ind d ih =>
    by_cases hlen : s.fmt = f.len
    · exact ⟨[], f.rest_of_le hlen.ge⟩
    have hlt : s.fmt < f.len := by omega
    -- the next test reads the position that the step moves to
    have hnext : (scanStep f.mem conv s).ended = false →
        (scanStep f.mem conv s).fmt ≤ f.len := by
      intro hend'
      exact h 2 _ (fmt_mem_reads hend')
    have hgo : (scanStep f.mem conv s).ended = false → s.fmt < (scanStep f.mem conv s).fmt →
        f.Whole (scanStep f.mem conv s).fmt := by
      intro hend' hmove
      have hn := hnext hend'
      exact ih _ (by omega) hn hend' (fun k => h (k + 1)) rfl
    by_cases h1 : f.mem s.fmt = '%'.toUInt8
    · by_cases h2 : f.mem (s.fmt + 1) = 'l'.toUInt8
      · rw [scanStep_long hend h1 h2] at hnext hgo
        have hn : s.fmt + 3 ≤ f.len := hnext rfl
        refine .cons (.long (f.mem (s.fmt + 2))) ?_ (hgo rfl (by simp))
        rw [f.rest_of_lt hlt, f.rest_of_lt (by omega), f.rest_of_lt (by omega), h1, h2]
        rfl
      · rw [scanStep_short hend h1 h2] at hnext hgo
        have hn : s.fmt + 2 ≤ f.len := hnext rfl
        refine .cons (.short (f.mem (s.fmt + 1)) h2) ?_ (hgo rfl (by simp))
        rw [f.rest_of_lt hlt, f.rest_of_lt (by omega), h1]
        rfl
    · rw [scanStep_plain hend (f.body _ hlt) h1] at hgo
      refine .cons (.plain (f.mem s.fmt) h1) ?_ (hgo hend (by simp))
      rw [f.rest_of_lt hlt]
      rfl

/-- A complete format is printed piece by piece. -/
theorem scan_out {ps : List Piece} (h : f.rest 0 = ps.flatMap Piece.bytes) :
    ((scanStep f.mem conv)^[f.len + 1] .start).out = emitAll conv 0 ps :=
  (Scanning.iterate h (f.len + 1)).done (stops_of_complete ⟨ps, h⟩).2

theorem stops_iff : Stops (scanStep f.mem conv) f.len ↔ f.Complete := by
  constructor
  · rintro ⟨hreads, -⟩
    exact whole_of_reads (s := .start) (Nat.zero_le _) rfl hreads
  · exact stops_of_complete

/-- A character that stands for itself, or a conversion that both switches have or print alike. -/
def Piece.Known : Piece → Prop
  | .plain _ _ => True
  | .short c _ => c ∈ ascii "sduxp%"
  | .long c => c ∈ ascii "sduxp%"

theorem emitAll_congr {conv' : Bool → UInt8 → ℕ → List UInt8 × ℕ} {ps : List Piece}
    (h : ∀ q ∈ ps, ∀ ap, Piece.emit conv ap q = Piece.emit conv' ap q) (ap : ℕ) :
    emitAll conv ap ps = emitAll conv' ap ps := by
  induction ps generalizing ap with
  | nil => rfl
  | cons q ps ih =>
    rw [emitAll, emitAll, h q List.mem_cons_self ap,
      ih (fun r hr => h r (List.mem_cons_of_mem q hr))]

/-- The switches differ in null strings and in unknown conversions only. -/
theorem kprintfConv_eq_panicConv {va : VaList (Option (List UInt8))} {va' : VaList (List UInt8)}
    (hstr : ∀ i, va.str i = some (va'.str i)) (hword : va.word = va'.word) {c : UInt8}
    (hc : c ∈ ascii "sduxp%") (isLong : Bool) (ap : ℕ) :
    kprintfConv va isLong c ap = panicConv va' isLong c ap := by
  have hcases : c = 's'.toUInt8 ∨ c = 'd'.toUInt8 ∨ c = 'u'.toUInt8 ∨ c = 'x'.toUInt8 ∨
      c = 'p'.toUInt8 ∨ c = '%'.toUInt8 := by
    simpa [ascii] using hc
  unfold kprintfConv panicConv
  rw [hstr, hword]
  rcases hcases with rfl | rfl | rfl | rfl | rfl | rfl <;> rfl

/-- A panic prints its message as `kprintf` does, if the format is complete, its conversions are
known and no string is null. -/
theorem panic_eq_kprintf {va : VaList (Option (List UInt8))} {va' : VaList (List UInt8)}
    (hstr : ∀ i, va.str i = some (va'.str i)) (hword : va.word = va'.word) {ps : List Piece}
    (hps : f.rest 0 = ps.flatMap Piece.bytes) (hknown : ∀ q ∈ ps, q.Known) (file : List UInt8)
    (line : UInt64) : panic file line f va' =
      serialPuts (ascii "\r\n!!! KERNEL PANIC !!!\r\n") ++ serialPuts (ascii "  at ") ++
        serialPuts file ++ [':'.toUInt8] ++ printUint64 (intArg line) ++
        serialPuts (ascii "\r\n  ") ++ kprintf f va ++
        serialPuts (ascii "\r\n  SYSTEM HALTED.\r\n") := by
  have hemit : emitAll (kprintfConv va) 0 ps = emitAll (panicConv va') 0 ps := by
    apply emitAll_congr
    intro q hq ap
    have hk := hknown q hq
    cases q with
    | plain c h => rfl
    | short c h => exact kprintfConv_eq_panicConv hstr hword hk false ap
    | long c => exact kprintfConv_eq_panicConv hstr hword hk true ap
  have hout : kprintf f va = ((panicStep f.mem va')^[f.len + 1] .start).out := by
    rw [kprintf, kprintfStep, panicStep, scan_out hps, scan_out hps, hemit]
  rw [hout, panic]

/-- The loops of `kprintf` and `panic` stop at the terminator if the format does not end within a
conversion; a final percent sign, alone or with an `l`, leads both of them past it. -/
theorem format_stops_iff (f : FormatString) (va : VaList (Option (List UInt8)))
    (va' : VaList (List UInt8)) :
    Stops (kprintfStep f.mem va) f.len ∧ Stops (panicStep f.mem va') f.len ↔ f.Complete :=
  ⟨fun h => stops_iff.mp h.1, fun h => ⟨stops_iff.mpr h, stops_iff.mpr h⟩⟩

/-- A percent sign at the end of the string. -/
def percentSign : FormatString where
  mem := fun i => if i = 0 then '%'.toUInt8 else 0
  len := 1
  nul := rfl
  body := by
    intro i hi
    obtain rfl := Nat.lt_one_iff.mp hi
    decide

theorem format_past_terminator :
    ¬ Stops (kprintfStep percentSign.mem ⟨fun _ => none, fun _ => 0⟩) percentSign.len ∧
      ¬ Stops (panicStep percentSign.mem ⟨fun _ => [], fun _ => 0⟩) percentSign.len := by
  constructor
  · intro h
    exact absurd (h.1 2 2 (by decide)) (by decide)
  · intro h
    exact absurd (h.1 2 2 (by decide)) (by decide)

end Serial
end Ggmk

import Ggmk.Arch.Serial
import Ggmk.Lib.Words

/-! The monitor's input from the serial port to the lookup of a command (`cli_dispatch`, `cli_run`
in `src/arch/x86_64/cli.c`). What is echoed and what the commands print is left out. -/
namespace Ggmk
open Words Serial

namespace Cli

def cliLineMax : ℕ := 256
def cliArgcMax : ℕ := 8

def cr : UInt8 := '\r'.toUInt8
def lf : UInt8 := '\n'.toUInt8

/-- `while (cli_running)` goes on, has ended, or is never returned to. -/
inductive Mode
  | running
  | stopped
  | rebooting
  deriving DecidableEq

/-- The names of the commands and what their handlers do to the loop. -/
def commands : List (List UInt8 × Mode) :=
  [(ascii "help", .running), (ascii "cpu", .running), (ascii "mem", .running),
    (ascii "heap", .running), (ascii "map", .running), (ascii "pci", .running),
    (ascii "blkcap", .running), (ascii "blkread", .running), (ascii "blkwrite", .running),
    (ascii "tasks", .running), (ascii "mod", .running), (ascii "metrics", .running),
    (ascii "uptime", .running), (ascii "halt", .stopped), (ascii "reboot", .rebooting)]

/-- Two strings without their NUL. -/
def strEq : List UInt8 → List UInt8 → Bool
  | [], [] => true
  | a :: s, b :: t => if a ≠ b then false else strEq s t
  | _, _ => false

/-- `lookups` are the argument vectors with which a command was looked up so far. -/
structure Input where
  line : ℕ → UInt8
  pos : ℕ
  lastWasCr : Bool
  mode : Mode
  lookups : List (List (List UInt8))

def isBlank (c : UInt8) : Bool := c = ' '.toUInt8 ∨ c = '\t'.toUInt8

/-- The string at an index of the line buffer. -/
def cstr (line : ℕ → UInt8) (a : ℕ) : List UInt8 :=
  ((List.range' a (cliLineMax - a)).map line).takeWhile (· ≠ 0)

/-- The loop over the line from `i` on with `n` characters left before `cli_pos`. An argument is
the index at which it starts, and the blanks that are passed become NULs. -/
def tokenLoop (line : ℕ → UInt8) (argv : List ℕ) (inToken : Bool) (i : ℕ) :
    ℕ → (ℕ → UInt8) × List ℕ
  | 0 => (line, argv)
  | n + 1 =>
    if argv.length < cliArgcMax then
      if isBlank (line i) then tokenLoop (Function.update line i 0) argv false (i + 1) n
      else if !inToken then tokenLoop line (argv ++ [i]) true (i + 1) n
      else tokenLoop line argv inToken (i + 1) n
    else (line, argv)

def cliDispatch (s : Input) : Input :=
  let s := { s with line := Function.update s.line s.pos 0 }
  if s.pos = 0 then s
  else
    let r := tokenLoop s.line [] false 0 s.pos
    let s := { s with line := r.1 }
    match r.2.map (cstr r.1) with
    | [] => s
    | name :: args =>
      let s := { s with lookups := s.lookups ++ [name :: args] }
      match commands.find? fun c => strEq name c.1 with
      | some c => { s with mode := c.2 }
      | none => s

/-- One character from `serial_getc` in the loop of `cli_run`. -/
def cliStep (s : Input) (ch : UInt8) : Input :=
  if s.mode ≠ .running then s
  else if ch = lf ∧ s.lastWasCr = true then { s with lastWasCr := false }
  else
    let s := { s with lastWasCr := ch = cr }
    if ch = cr ∨ ch = lf then
      let s := cliDispatch s
      if s.mode = .rebooting then s else { s with pos := 0 }
    else if ch = 0x08 ∨ ch = 0x7F then
      if 0 < s.pos then { s with pos := s.pos - 1 } else s
    else if 0x20 ≤ ch.toNat ∧ ch.toNat < 0x7F then
      if s.pos < cliLineMax - 1 then
        { s with line := Function.update s.line s.pos ch, pos := s.pos + 1 }
      else s
    else s

def cliRun (line : ℕ → UInt8) (bs : List UInt8) : Input :=
  bs.foldl cliStep ⟨line, 0, false, .running, []⟩

/-- The lines that end in `bs`, at a CR, an LF or both together; `cur` has been read before. -/
def linesFrom (cur : List UInt8) : List UInt8 → List (List UInt8)
  | [] => []
  | [c] => if c = cr ∨ c = lf then [cur] else []
  | c :: d :: bs =>
    if c = cr ∧ d = lf then cur :: linesFrom [] bs
    else if c = cr ∨ c = lf then cur :: linesFrom [] (d :: bs)
    else linesFrom (cur ++ [c]) (d :: bs)

/-- A printable character is appended while there is room, a backspace or a delete takes the last
one away, and anything else is ignored. -/
def editChar (e : List UInt8) (c : UInt8) : List UInt8 :=
  if c = 0x08 ∨ c = 0x7F then e.dropLast
  else if 0x20 ≤ c.toNat ∧ c.toNat < 0x7F ∧ e.length < 255 then e ++ [c]
  else e

def edited (raw : List UInt8) : List UInt8 := raw.foldl editChar []

/-- The first word of the line is `halt` or `reboot`. -/
def Leaves (e : List UInt8) : Prop :=
  (words isBlank e).head? = some (ascii "halt") ∨ (words isBlank e).head? = some (ascii "reboot")

instance (e : List UInt8) : Decidable (Leaves e) := inferInstanceAs (Decidable (_ ∨ _))

/-- The lines up to the first one that leaves the loop. -/
def throughLeave : List (List UInt8) → List (List UInt8)
  | [] => []
  | e :: es => if Leaves e then [e] else e :: throughLeave es

/-- The edited lines of the stream that have a word, up to the first `halt` or `reboot`. -/
def executed (bs : List UInt8) : List (List UInt8) :=
  throughLeave (((linesFrom [] bs).map edited).filter fun e => words isBlank e ≠ [])

/-- The argument vectors as the stream is meant: of each line its first eight words. -/
def reference (bs : List UInt8) : List (List (List UInt8)) :=
  (executed bs).map fun e => (words isBlank e).take 8

variable {line line' : ℕ → UInt8} {a i n p : ℕ} {t e r : List UInt8} {c ch : UInt8}
  {s : Input} {argv : List ℕ} {inToken : Bool}

/-- The string `t` with its NUL lies in the buffer at `a`. -/
def StrAt (line : ℕ → UInt8) (a : ℕ) : List UInt8 → Prop
  | [] => a < cliLineMax ∧ line a = 0
  | c :: t => line a = c ∧ c ≠ 0 ∧ StrAt line (a + 1) t

theorem StrAt.lt (h : StrAt line a t) : a < cliLineMax := by
  induction t generalizing a with
  | nil => exact h.1
  | cons c t ih => exact (Nat.lt_succ_self a).trans (ih h.2.2)

theorem StrAt.congr (h : StrAt line a t) (heq : ∀ j, a ≤ j → line' j = line j) :
    StrAt line' a t := by
  induction t generalizing a with
  | nil => exact ⟨h.1, (heq a le_rfl).trans h.2⟩
  | cons c t ih =>
    exact ⟨(heq a le_rfl).trans h.1, h.2.1, ih h.2.2 (fun j hj => heq j (by omega))⟩

theorem cstr_of_strAt (h : StrAt line a t) : cstr line a = t := by
  induction t generalizing a with
  | nil =>
    have hlen : cliLineMax - a = cliLineMax - (a + 1) + 1 := by have := h.1; omega
    rw [cstr, hlen, List.range'_succ, List.map_cons, List.takeWhile_cons_of_neg (by simp [h.2])]
  | cons c t ih =>
    have hlen : cliLineMax - a = cliLineMax - (a + 1) + 1 := by have := h.lt; omega
    rw [cstr, hlen, List.range'_succ, List.map_cons, h.1,
      List.takeWhile_cons_of_pos (by simpa using h.2.1)]
    exact congrArg (c :: ·) (ih h.2.2)

theorem map_cstr {starts : List ℕ} {ts : List (List UInt8)}
    (h : List.Forall₂ (StrAt line) starts ts) : starts.map (cstr line) = ts := by
  induction h with
  | nil => rfl
  | cons hstr _ ih => rw [List.map_cons, cstr_of_strAt hstr, ih]

/-- Characters of the buffer followed by a NUL are a string. -/
theorem strAt_of_map (hmap : (List.range' a t.length).map line = t) (h0 : (0 : UInt8) ∉ t)
    (hnul : line (a + t.length) = 0) (hlt : a + t.length < cliLineMax) : StrAt line a t := by
  induction t generalizing a with
  | nil => exact ⟨hlt, hnul⟩
  | cons c t ih =>
    rw [List.length_cons, List.range'_succ, List.map_cons, List.cons.injEq] at hmap
    rw [List.mem_cons, not_or] at h0
    rw [List.length_cons] at hnul hlt
    refine ⟨hmap.1, Ne.symm h0.1, ih hmap.2 h0.2 ?_ (by omega)⟩
    rw [← hnul]
    congr 1
    omega

/-- What the token loop makes of the rest of a line after `k` arguments: how the argument that
has been begun goes on, and the arguments that begin later. With all arguments taken the loop
leaves the rest as it is. -/
def argsFrom (k : ℕ) (inToken : Bool) : List UInt8 → List UInt8 × List (List UInt8)
  | [] => ([], [])
  | c :: r =>
    if k < cliArgcMax then
      if isBlank c then ([], (argsFrom k false r).2)
      else if !inToken then
        ([], (c :: (argsFrom (k + 1) true r).1) :: (argsFrom (k + 1) true r).2)
      else (c :: (argsFrom k true r).1, (argsFrom k true r).2)
    else (c :: r, [])

/-- The token loop on the buffer. Nothing before `i` is written, the begun argument goes on at `i`
and each new one lies where it starts. -/
theorem tokenLoop_spec (h : StrAt line i r) :
    (∀ j, j < i → (tokenLoop line argv inToken i r.length).1 j = line j) ∧
      (inToken = true → StrAt (tokenLoop line argv inToken i r.length).1 i
        (argsFrom argv.length inToken r).1) ∧
      ∃ starts, (tokenLoop line argv inToken i r.length).2 = argv ++ starts ∧
        List.Forall₂ (StrAt (tokenLoop line argv inToken i r.length).1) starts
          (argsFrom argv.length inToken r).2 := by
  induction r generalizing line argv inToken i with
  | nil => exact ⟨fun _ _ => rfl, fun _ => h, [], (List.append_nil argv).symm, .nil⟩
  | cons c r ih =>
    obtain ⟨hc, hc0, hr⟩ := h
    simp only [List.length_cons, tokenLoop, argsFrom, hc]
    split_ifs with hfull hblank htok
    · have hr' : StrAt (Function.update line i 0) (i + 1) r :=
        hr.congr fun j hj => Function.update_of_ne (by omega) _ _
      obtain ⟨hframe, -, starts, hstarts, hargs⟩ := @ih _ _ argv false hr'
      refine ⟨fun j hj => ?_, fun _ => ⟨(Nat.lt_succ_self i).trans hr.lt, ?_⟩, starts, hstarts,
        hargs⟩
      · rw [hframe j (by omega), Function.update_of_ne (by omega)]
      · rw [hframe i (by omega), Function.update_self]
    · obtain ⟨hframe, hcont, starts, hstarts, hargs⟩ := @ih _ _ (argv ++ [i]) true hr
      rw [List.length_append, List.length_singleton] at hcont hargs
      refine ⟨fun j hj => hframe j (by omega), fun hin => ?_, i :: starts, ?_, .cons ?_ hargs⟩
      · rw [hin] at htok
        exact absurd htok (by decide)
      · rw [hstarts, List.append_assoc, List.singleton_append]
      · exact ⟨(hframe i (by omega)).trans hc, hc0, hcont rfl⟩
    · have hin : inToken = true := by simpa using htok
      subst hin
      obtain ⟨hframe, hcont, starts, hstarts, hargs⟩ := @ih _ _ argv true hr
      refine ⟨fun j hj => hframe j (by omega), fun _ => ?_, starts, hstarts, hargs⟩
      exact ⟨(hframe i (by omega)).trans hc, hc0, hcont rfl⟩
    · exact ⟨fun _ _ => rfl, fun _ => ⟨hc, hc0, hr⟩, [], (List.append_nil argv).symm, .nil⟩

/-- The argument vector of a line. -/
def argsOf (e : List UInt8) : List (List UInt8) := (argsFrom 0 false e).2

theorem tokenLoop_args (h : StrAt line 0 e) :
    (tokenLoop line [] false 0 e.length).2.map (cstr (tokenLoop line [] false 0 e.length).1) =
      argsOf e := by
  obtain ⟨-, -, starts, hstarts, hargs⟩ := @tokenLoop_spec line 0 e [] false h
  rw [hstarts, List.nil_append, map_cstr hargs]
  rfl

/-- A begun argument goes on to the next blank while another one may still be begun. -/
theorem argsFrom_true {k : ℕ} (hk : k < cliArgcMax) (r : List UInt8) :
    argsFrom k true r = (r.takeWhile fun x => !isBlank x,
      (argsFrom k false (r.dropWhile fun x => !isBlank x)).2) := by
  induction r with
  | nil => rfl
  | cons c r ih =>
    cases hc : isBlank c with
    | true =>
      rw [List.takeWhile_cons_of_neg (by simp [hc]), List.dropWhile_cons_of_neg (by simp [hc])]
      simp [argsFrom, hk, hc]
    | false =>
      rw [List.takeWhile_cons_of_pos (by simp [hc]), List.dropWhile_cons_of_pos (by simp [hc])]
      simp [argsFrom, hk, hc, ih]

/-- The last argument that may be begun goes on to the end of the line. -/
theorem argsFrom_full {k : ℕ} (hk : ¬ k < cliArgcMax) (r : List UInt8) :
    argsFrom k true r = (r, []) := by
  cases r with
  | nil => rfl
  | cons c r => simp [argsFrom, hk]

theorem argsFrom_blank {k : ℕ} (hk : k < cliArgcMax) (hc : isBlank c = true) (r : List UInt8) :
    (argsFrom k false (c :: r)).2 = (argsFrom k false r).2 := by
  simp [argsFrom, hk, hc]

theorem argsFrom_begin {k : ℕ} (hk : k < cliArgcMax) (hc : isBlank c = false) (r : List UInt8) :
    (argsFrom k false (c :: r)).2 =
      (c :: (argsFrom (k + 1) true r).1) :: (argsFrom (k + 1) true r).2 := by
  simp [argsFrom, hk, hc]

/-- The arguments are the first words of the line unless a blank stands behind the start of the
last word that there is room for. -/
theorem argsFrom_eq_words_iff {k : ℕ} (hk : k < cliArgcMax) (e : List UInt8) :
    (argsFrom k false e).2 = (words isBlank e).take (cliArgcMax - k) ↔
      ∀ c ∈ fromWord isBlank (cliArgcMax - 1 - k) e, isBlank c = false := by
  induction hn : e.length using Nat.strongRecOn generalizing e k with
  | ind n ih =>
    cases e with
    | nil => simp [argsFrom]
    | cons c e =>
      have hlen : cliArgcMax - k = cliArgcMax - 1 - k + 1 := by omega
      rw [List.length_cons] at hn
      cases hc : isBlank c with
      | true =>
        rw [argsFrom_blank hk hc, words_cons_sep _ hc, fromWord_cons_sep _ hc]
        exact ih e.length (by omega) hk e rfl
      | false =>
        rw [argsFrom_begin hk hc, words_cons _ hc, hlen, List.take_succ_cons, List.cons.injEq,
          List.cons.injEq]
        by_cases hlast : k + 1 < cliArgcMax
        · have hpos : cliArgcMax - 1 - k = cliArgcMax - 1 - (k + 1) + 1 := by omega
          have hpos' : cliArgcMax - 1 - (k + 1) + 1 = cliArgcMax - (k + 1) := by omega
          have hdrop : (e.dropWhile fun x => !isBlank x).length ≤ e.length :=
            List.length_dropWhile_le _ _
          rw [argsFrom_true hlast, hpos, fromWord_succ_cons _ hc, hpos',
            ← ih _ (by omega) hlast _ rfl]
          simp
        · have hzero : cliArgcMax - 1 - k = 0 := by omega
          rw [argsFrom_full hlast, hzero, fromWord_zero_cons _ hc, List.take_zero,
            List.forall_mem_cons, ← takeWhile_eq_self_iff isBlank]
          simp [hc, eq_comm]

/-- The first argument is the first word. -/
theorem argsOf_head (e : List UInt8) : (argsOf e).head? = (words isBlank e).head? := by
  unfold argsOf
  have hk : 0 < cliArgcMax := by decide
  have hk' : 0 + 1 < cliArgcMax := by decide
  induction e with
  | nil => rfl
  | cons c e ih =>
    cases hc : isBlank c with
    | true => rw [argsFrom_blank hk hc, words_cons_sep _ hc, ih]
    | false => rw [argsFrom_begin hk hc, words_cons _ hc, argsFrom_true hk']; rfl

theorem argsOf_eq_nil_iff (e : List UInt8) : argsOf e = [] ↔ words isBlank e = [] := by
  rw [← List.head?_eq_none_iff, argsOf_head, List.head?_eq_none_iff]

theorem strEq_iff {x y : List UInt8} : strEq x y = true ↔ x = y := by
  induction x generalizing y with
  | nil => cases y <;> simp [strEq]
  | cons a x ih =>
    cases y with
    | nil => simp [strEq]
    | cons b y =>
      by_cases hab : a = b <;> simp [strEq, hab, ih]

/-- The mode in which the handler of a command leaves the loop. -/
def modeOf (name : List UInt8) : Mode :=
  match commands.find? fun c => strEq name c.1 with
  | some c => c.2
  | none => .running

theorem modeOf_ne_running_iff (name : List UInt8) :
    modeOf name ≠ .running ↔ name = ascii "halt" ∨ name = ascii "reboot" := by
  have hall : ∀ c ∈ commands, c.2 ≠ .running → c.1 = ascii "halt" ∨ c.1 = ascii "reboot" := by
    decide
  constructor
  · intro h
    unfold modeOf at h
    cases hfind : commands.find? fun c => strEq name c.1 with
    | none =>
      rw [hfind] at h
      exact absurd rfl h
    | some c =>
      rw [hfind] at h
      have hname := List.find?_some hfind
      rw [strEq_iff.mp hname]
      exact hall c (List.mem_of_find?_eq_some hfind) h
  · rintro (rfl | rfl) <;> decide

/-- The line buffer holds the edited line `e`. -/
structure Holding (s : Input) (e : List UInt8) : Prop where
  pos : s.pos = e.length
  text : (List.range e.length).map s.line = e
  noNul : (0 : UInt8) ∉ e
  room : e.length ≤ 255

theorem Holding.strAt (h : Holding s e) : StrAt (Function.update s.line s.pos 0) 0 e := by
  have htext : (List.range' 0 e.length).map (Function.update s.line s.pos 0) = e := by
    conv_rhs => rw [← h.text]
    rw [List.range_eq_range']
    apply List.map_congr_left
    intro j hj
    have hlt := (List.mem_range'_1.mp hj).2
    exact Function.update_of_ne (by have := h.pos; omega) _ _
  refine strAt_of_map htext h.noNul ?_ ?_
  · rw [Nat.zero_add, ← h.pos, Function.update_self]
  · have hroom := h.room
    unfold cliLineMax
    omega

/-- A dispatched line is looked up if it has an argument. -/
theorem cliDispatch_eq (h : Holding s e) (hmode : s.mode = .running) :
    (cliDispatch s).lastWasCr = s.lastWasCr ∧
      (words isBlank e = [] → (cliDispatch s).lookups = s.lookups ∧
        (cliDispatch s).mode = .running) ∧
      (words isBlank e ≠ [] → (cliDispatch s).lookups = s.lookups ++ [argsOf e] ∧
        ((cliDispatch s).mode ≠ .running ↔ Leaves e)) := by
  have hargs := tokenLoop_args h.strAt
  rw [← h.pos] at hargs
  by_cases h0 : s.pos = 0
  · have he : e = [] := List.eq_nil_of_length_eq_zero (h.pos ▸ h0)
    have hs : cliDispatch s = { s with line := Function.update s.line s.pos 0 } := if_pos h0
    rw [hs, he]
    exact ⟨rfl, fun _ => ⟨rfl, hmode⟩, fun hne => absurd rfl hne⟩
  · cases hv : argsOf e with
    | nil =>
      rw [hv] at hargs
      have hw : words isBlank e = [] := (argsOf_eq_nil_iff e).mp hv
      simp only [cliDispatch, if_neg h0, hargs]
      exact ⟨trivial, fun _ => ⟨trivial, hmode⟩, fun hne => absurd hw hne⟩
    | cons name args =>
      rw [hv] at hargs
      have hhead := argsOf_head e
      rw [hv, List.head?_cons] at hhead
      have hne : words isBlank e ≠ [] := by
        intro hnil
        rw [(argsOf_eq_nil_iff e).mpr hnil] at hv
        cases hv
      have hleave : modeOf name ≠ .running ↔ Leaves e := by
        rw [modeOf_ne_running_iff, Leaves, ← hhead, Option.some_inj, Option.some_inj]
      simp only [cliDispatch, if_neg h0, hargs]
      rw [← hleave, modeOf]
      cases hfind : commands.find? fun c => strEq name c.1 with
      | none => exact ⟨rfl, fun hnil => absurd hnil hne, fun _ => ⟨rfl, by simp [hmode]⟩⟩
      | some c => exact ⟨rfl, fun hnil => absurd hnil hne, fun _ => ⟨rfl, Iff.rfl⟩⟩

theorem Holding.pop (h : Holding s e) :
    Holding { s with lastWasCr := false, pos := s.pos - 1 } e.dropLast where
  pos := by rw [List.length_dropLast, h.pos]
  text := by
    have hmin : min (e.length - 1) e.length = e.length - 1 := by omega
    rw [List.length_dropLast, List.dropLast_eq_take]
    conv_rhs => rw [← h.text]
    rw [List.length_map, List.length_range, ← List.map_take, List.take_range, hmin]
  noNul := fun hmem => h.noNul (List.mem_of_mem_dropLast hmem)
  room := by
    rw [List.length_dropLast]
    exact (Nat.sub_le _ _).trans h.room

theorem Holding.push (h : Holding s e) (hch : 0x20 ≤ ch.toNat) (hroom : e.length < 255) :
    Holding { s with
      lastWasCr := false, line := Function.update s.line s.pos ch, pos := s.pos + 1 }
      (e ++ [ch]) where
  pos := by rw [List.length_append, List.length_singleton, h.pos]
  text := by
    have hold : (List.range e.length).map (Function.update s.line s.pos ch) = e := by
      conv_rhs => rw [← h.text]
      apply List.map_congr_left
      intro j hj
      exact Function.update_of_ne (h.pos ▸ (List.mem_range.mp hj).ne) _ _
    have hnew : Function.update s.line s.pos ch e.length = ch := by
      rw [← h.pos, Function.update_self]
    simp only [List.length_append, List.length_singleton, List.range_succ, List.map_append,
      List.map_singleton, hold, hnew]
  noNul := by
    rw [List.mem_append, List.mem_singleton, not_or]
    refine ⟨h.noNul, ?_⟩
    rintro rfl
    exact absurd hch (by decide)
  room := by
    rw [List.length_append, List.length_singleton]
    exact hroom

/-- A character that does not end the line edits it. -/
theorem Holding.char (h : Holding s e) (hmode : s.mode = .running) (hcr : ch ≠ cr) (hlf : ch ≠ lf) :
    Holding (cliStep s ch) (editChar e ch) ∧ (cliStep s ch).lookups = s.lookups ∧
      (cliStep s ch).mode = .running ∧ (cliStep s ch).lastWasCr = false := by
  have hstep : cliStep s ch =
      if ch = 0x08 ∨ ch = 0x7F then
        if 0 < s.pos then { s with lastWasCr := false, pos := s.pos - 1 }
        else { s with lastWasCr := false }
      else if 0x20 ≤ ch.toNat ∧ ch.toNat < 0x7F then
        if s.pos < cliLineMax - 1 then
          { s with
            lastWasCr := false, line := Function.update s.line s.pos ch, pos := s.pos + 1 }
        else { s with lastWasCr := false }
      else { s with lastWasCr := false } := by
    simp [cliStep, hmode, hcr, hlf]
  have hkeep : Holding { s with lastWasCr := false } e := ⟨h.pos, h.text, h.noNul, h.room⟩
  have hpos := h.pos
  rw [hstep, editChar]
  by_cases hbs : ch = 0x08 ∨ ch = 0x7F
  · rw [if_pos hbs, if_pos hbs]
    by_cases h0 : 0 < s.pos
    · rw [if_pos h0]
      exact ⟨h.pop, rfl, hmode, rfl⟩
    · have he : e = [] := List.eq_nil_of_length_eq_zero (by omega)
      rw [if_neg h0]
      rw [he] at hkeep ⊢
      exact ⟨hkeep, rfl, hmode, rfl⟩
  · rw [if_neg hbs, if_neg hbs]
    by_cases hprint : 0x20 ≤ ch.toNat ∧ ch.toNat < 0x7F ∧ e.length < 255
    · have hroom : s.pos < cliLineMax - 1 := by unfold cliLineMax; omega
      rw [if_pos hprint, if_pos ⟨hprint.1, hprint.2.1⟩, if_pos hroom]
      exact ⟨h.push hprint.1 hprint.2.2, rfl, hmode, rfl⟩
    · rw [if_neg hprint]
      by_cases hp : 0x20 ≤ ch.toNat ∧ ch.toNat < 0x7F
      · have hfull : ¬ s.pos < cliLineMax - 1 := by unfold cliLineMax; omega
        rw [if_pos hp, if_neg hfull]
        exact ⟨hkeep, rfl, hmode, rfl⟩
      · rw [if_neg hp]
        exact ⟨hkeep, rfl, hmode, rfl⟩

/-- A character that ends the line dispatches it. -/
theorem cliStep_end (h : Holding s e) (hmode : s.mode = .running)
    (hend : ch = cr ∨ ch = lf ∧ s.lastWasCr = false) :
    ((words isBlank e = [] ∨ ¬ Leaves e) → Holding (cliStep s ch) (edited []) ∧
        (cliStep s ch).mode = .running ∧ (cliStep s ch).lastWasCr = decide (ch = cr)) ∧
      (words isBlank e = [] → (cliStep s ch).lookups = s.lookups) ∧
      (words isBlank e ≠ [] → (cliStep s ch).lookups = s.lookups ++ [argsOf e] ∧
        (Leaves e → (cliStep s ch).mode ≠ .running)) := by
  have hh : Holding { s with lastWasCr := decide (ch = cr) } e := ⟨h.pos, h.text, h.noNul, h.room⟩
  have hkeep : ¬ (ch = lf ∧ s.lastWasCr = true) := by
    rintro ⟨rfl, htrue⟩
    rcases hend with hcr | ⟨-, hfalse⟩
    · exact absurd hcr (by decide)
    · rw [htrue] at hfalse
      cases hfalse
  obtain ⟨hlast, hempty, hlooked⟩ := cliDispatch_eq hh hmode
  generalize hd : cliDispatch { s with lastWasCr := decide (ch = cr) } = d at *
  have hstep : cliStep s ch = if d.mode = .rebooting then d else { d with pos := 0 } := by
    rw [cliStep, if_neg (by simp [hmode]), if_neg hkeep]
    simp only [hd]
    exact if_pos (hend.imp id And.left)
  have hlook : (cliStep s ch).lookups = d.lookups := by rw [hstep]; split <;> rfl
  have hsame : (cliStep s ch).mode = d.mode := by rw [hstep]; split <;> rfl
  refine ⟨fun hgo => ?_, fun hw => ?_, fun hw => ?_⟩
  · have hrun : d.mode = .running := by
      by_cases hw : words isBlank e = []
      · exact (hempty hw).2
      · by_contra hne
        exact (hgo.resolve_left hw) ((hlooked hw).2.mp hne)
    rw [hstep, if_neg (by simp [hrun])]
    exact ⟨⟨rfl, rfl, List.not_mem_nil, Nat.zero_le _⟩, hrun, hlast⟩
  · rw [hlook, (hempty hw).1]
  · rw [hlook, (hlooked hw).1, hsame]
    exact ⟨rfl, (hlooked hw).2.mpr⟩

/-- Once the loop has been left nothing changes. -/
theorem foldl_of_left (h : s.mode ≠ .running) (bs : List UInt8) : bs.foldl cliStep s = s := by
  induction bs with
  | nil => rfl
  | cons c bs ih =>
    have hs : cliStep s c = s := if_pos h
    rw [List.foldl_cons, hs, ih]

/-- The stream without the LF of a CRLF whose CR has been read. -/
def afterCr : Bool → List UInt8 → List UInt8
  | true, c :: bs => if c = lf then bs else c :: bs
  | _, bs => bs

/-- The lines with a word among `raws`, up to the one that leaves the loop. -/
def executedOf (raws : List (List UInt8)) : List (List UInt8) :=
  throughLeave ((raws.map edited).filter fun e => words isBlank e ≠ [])

theorem executedOf_cons_empty {raw : List UInt8} (hw : words isBlank (edited raw) = [])
    (raws : List (List UInt8)) : executedOf (raw :: raws) = executedOf raws := by
  simp [executedOf, hw]

theorem executedOf_cons_leave {raw : List UInt8} (hw : words isBlank (edited raw) ≠ [])
    (h : Leaves (edited raw)) (raws : List (List UInt8)) :
    executedOf (raw :: raws) = [edited raw] := by
  simp [executedOf, hw, throughLeave, h]

theorem executedOf_cons {raw : List UInt8} (hw : words isBlank (edited raw) ≠ [])
    (h : ¬ Leaves (edited raw)) (raws : List (List UInt8)) :
    executedOf (raw :: raws) = edited raw :: executedOf raws := by
  simp [executedOf, hw, throughLeave, h]

theorem afterCr_lf (bs : List UInt8) : afterCr true (lf :: bs) = afterCr false bs := by
  rw [afterCr, if_pos rfl]
  cases bs <;> rfl

/-- Nothing is skipped but the LF of a CRLF. -/
theorem afterCr_cons {last : Bool} (h : ¬ (ch = lf ∧ last = true)) (bs : List UInt8) :
    afterCr last (ch :: bs) = ch :: bs := by
  cases last with
  | false => rfl
  | true => exact if_neg fun hlf => h ⟨hlf, rfl⟩

theorem linesFrom_char (hcr : ch ≠ cr) (hlf : ch ≠ lf) (cur bs : List UInt8) :
    linesFrom cur (ch :: bs) = linesFrom (cur ++ [ch]) bs := by
  cases bs with
  | nil => simp [linesFrom, hcr, hlf]
  | cons d bs => simp [linesFrom, hcr, hlf]

theorem linesFrom_end (hend : ch = cr ∨ ch = lf) (cur bs : List UInt8) :
    linesFrom cur (ch :: bs) = cur :: linesFrom [] (afterCr (decide (ch = cr)) bs) := by
  have hne : lf ≠ cr := by decide
  cases bs with
  | nil => rcases hend with rfl | rfl <;> simp [linesFrom, afterCr, hne]
  | cons d bs =>
    rcases hend with rfl | rfl
    · by_cases hd : d = lf <;> simp [linesFrom, afterCr, hd]
    · simp [linesFrom, afterCr, hne]

/-- The loop looks up the argument vectors of the lines of the stream, one after the other. -/
theorem foldl_cliStep {cur : List UInt8} (h : Holding s (edited cur)) (hmode : s.mode = .running)
    (bs : List UInt8) : (bs.foldl cliStep s).lookups =
      s.lookups ++ (executedOf (linesFrom cur (afterCr s.lastWasCr bs))).map argsOf := by
  induction bs generalizing s cur with
  | nil =>
    cases s.lastWasCr <;> exact (List.append_nil _).symm
  | cons ch bs ih =>
    rw [List.foldl_cons]
    by_cases hskip : ch = lf ∧ s.lastWasCr = true
    · -- the LF of a CRLF
      have hs : cliStep s ch = { s with lastWasCr := false } := by
        rw [cliStep, if_neg (by simp [hmode]), if_pos hskip]
      have hh : Holding { s with lastWasCr := false } (edited cur) :=
        ⟨h.pos, h.text, h.noNul, h.room⟩
      rw [hs, hskip.1, hskip.2, afterCr_lf]
      exact ih hh hmode
    rw [afterCr_cons hskip]
    by_cases hend : ch = cr ∨ ch = lf
    · have hend' : ch = cr ∨ ch = lf ∧ s.lastWasCr = false := by
        refine hend.imp id fun hlf => ⟨hlf, ?_⟩
        exact Bool.eq_false_iff.mpr fun htrue => hskip ⟨hlf, htrue⟩
      obtain ⟨hgo, hempty, hlooked⟩ := cliStep_end h hmode hend'
      rw [linesFrom_end hend]
      by_cases hw : words isBlank (edited cur) = []
      · obtain ⟨hh, hrun, hlast⟩ := hgo (.inl hw)
        rw [ih hh hrun, hempty hw, hlast, executedOf_cons_empty hw]
      · by_cases hleave : Leaves (edited cur)
        · rw [foldl_of_left ((hlooked hw).2 hleave), (hlooked hw).1,
            executedOf_cons_leave hw hleave, List.map_singleton]
        · obtain ⟨hh, hrun, hlast⟩ := hgo (.inr hleave)
          rw [ih hh hrun, (hlooked hw).1, hlast, executedOf_cons hw hleave, List.map_cons,
            List.append_assoc, List.singleton_append]
    · rw [not_or] at hend
      obtain ⟨hh, hlook, hrun, hlast⟩ := h.char hmode hend.1 hend.2
      have hedit : editChar (edited cur) ch = edited (cur ++ [ch]) := by simp [edited]
      rw [hedit] at hh
      rw [ih hh hrun, hlook, hlast, linesFrom_char hend.1 hend.2]
      cases bs <;> rfl

theorem cliRun_lookups (line : ℕ → UInt8) (bs : List UInt8) :
    (cliRun line bs).lookups = (executed bs).map argsOf := by
  have hstart : Holding ⟨line, 0, false, .running, []⟩ (edited []) :=
    ⟨rfl, rfl, List.not_mem_nil, Nat.zero_le _⟩
  have hrest : afterCr false bs = bs := by cases bs <;> rfl
  rw [cliRun, foldl_cliStep hstart rfl, List.nil_append, hrest]
  rfl

theorem cliDispatch_pos (s : Input) : (cliDispatch s).pos = s.pos := by
  unfold cliDispatch
  dsimp only
  split_ifs
  · rfl
  · split
    · rfl
    · split <;> rfl

theorem cliStep_pos (h : s.pos ≤ 255) (ch : UInt8) : (cliStep s ch).pos ≤ 255 := by
  have hd := cliDispatch_pos { s with lastWasCr := ch = cr }
  unfold cliStep cliLineMax
  dsimp only at hd ⊢
  split_ifs
  all_goals first | exact h | exact hd.trans_le h | skip
  · exact Nat.zero_le _
  · exact (Nat.sub_le _ _).trans h
  · simp only
    omega

/-- The index of the line never leaves the buffer. -/
theorem cliRun_pos (line : ℕ → UInt8) (bs : List UInt8) : (cliRun line bs).pos ≤ 255 := by
  induction bs using List.reverseRecOn with
  | nil => exact Nat.zero_le _
  | append_singleton bs ch ih =>
    rw [cliRun, List.foldl_append]
    exact cliStep_pos ih ch

/-- A stream is taken as it is meant exactly if no line that is looked up has a blank behind the
start of its eighth word: the loop stops there and leaves the rest of the line in one piece. -/
theorem cliRun_eq_reference_iff (line : ℕ → UInt8) (bs : List UInt8) :
    ((cliRun line bs).lookups = reference bs ∧
        ∀ pre, pre <+: bs → (cliRun line pre).pos ≤ 255) ↔
      ∀ e ∈ executed bs, ∀ c ∈ fromWord isBlank 7 e, isBlank c = false := by
  have hwords : ∀ e, argsOf e = (words isBlank e).take 8 ↔
      ∀ c ∈ fromWord isBlank 7 e, isBlank c = false := argsFrom_eq_words_iff (by decide)
  rw [and_iff_left fun pre _ => cliRun_pos line pre, cliRun_lookups, reference, List.map_inj_left]
  exact forall₂_congr fun e _ => hwords e

/-- The ninth word ends up in the eighth argument. -/
theorem cliRun_ne_reference :
    (cliRun (fun _ => 0) (ascii "a b c d e f g h i\r")).lookups ≠
      reference (ascii "a b c d e f g h i\r") := by
  rw [cliRun_lookups]
  decide

end Cli
end Ggmk

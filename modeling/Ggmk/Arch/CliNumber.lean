import Ggmk.Arch.Serial

/-! The numbers of the monitor's commands (`parse_u64` in `src/arch/x86_64/cli.c`). -/
namespace Ggmk
open Word Numeral Serial

namespace Cli

/-- The digit of the decimal loop, `none` where it gives up. -/
def decDigit (c : UInt8) : Option ℕ :=
  if c.toNat < '0'.toNat ∨ '9'.toNat < c.toNat then none else some (c.toNat - '0'.toNat)

/-- The digit of the hexadecimal loop. -/
def hexDigit (c : UInt8) : Option ℕ :=
  if '0'.toNat ≤ c.toNat ∧ c.toNat ≤ '9'.toNat then some (c.toNat - '0'.toNat)
  else if 'a'.toNat ≤ c.toNat ∧ c.toNat ≤ 'f'.toNat then some (c.toNat - 'a'.toNat + 10)
  else if 'A'.toNat ≤ c.toNat ∧ c.toNat ≤ 'F'.toNat then some (c.toNat - 'A'.toNat + 10)
  else none

/-- `while (*s)` with the digit and the accumulation of one base; the value and `*ok`. -/
def digitLoop (digit : UInt8 → Option ℕ) (accumulate : ℕ → ℕ → ℕ) (val : ℕ) :
    List UInt8 → ℕ × Bool
  | [] => (val, true)
  | c :: s =>
    match digit c with
    | none => (0, false)
    | some d => digitLoop digit accumulate (accumulate val d) s

/-- `val = (val << 4) | d` -/
def hexLoop : List UInt8 → ℕ × Bool :=
  digitLoop hexDigit (fun val d => uint64 (val <<< 4) ||| d) 0

/-- `val = val * 10 + (uint64_t)(c - '0')` -/
def decLoop : List UInt8 → ℕ × Bool :=
  digitLoop decDigit (fun val d => uint64 (val * 10 + d)) 0

/-- The result and `*ok`; `none` is the null pointer and `some s` the bytes before the NUL. -/
def parseU64 : Option (List UInt8) → ℕ × Bool
  | none => (0, false)
  | some [] => (0, false)
  | some [c] => decLoop [c]
  | some (c :: x :: s) =>
    if c = '0'.toUInt8 ∧ (x = 'x'.toUInt8 ∨ x = 'X'.toUInt8) then
      if s = [] then (0, false) else hexLoop s
    else decLoop (c :: x :: s)

/-- The string `s` is a number as the commands take it, and `n` is its numeric value. -/
def Denotes (s : List UInt8) (n : ℕ) : Prop :=
  Spells 10 s n ∨
    ∃ h, (s = '0'.toUInt8 :: 'x'.toUInt8 :: h ∨ s = '0'.toUInt8 :: 'X'.toUInt8 :: h) ∧
      Spells 16 h n

variable {digit : UInt8 → Option ℕ} {accumulate : ℕ → ℕ → ℕ} {s : List UInt8} {ds : List ℕ}
  {c : UInt8} {b d n m val : ℕ}

theorem decDigit_eq_some : decDigit c = some d ↔ IsDigit 10 c d := by
  have h0 : '0'.toNat = 48 := rfl
  have h9 : '9'.toNat = 57 := rfl
  unfold decDigit IsDigit
  rw [h0, h9]
  split_ifs with h
  · simp only [false_iff]
    omega
  · rw [Option.some_inj]
    omega

theorem hexDigit_eq_some : hexDigit c = some d ↔ IsDigit 16 c d := by
  have h0 : '0'.toNat = 48 := rfl
  have h9 : '9'.toNat = 57 := rfl
  have ha : 'a'.toNat = 97 := rfl
  have hf : 'f'.toNat = 102 := rfl
  have hA : 'A'.toNat = 65 := rfl
  have hF : 'F'.toNat = 70 := rfl
  unfold hexDigit IsDigit
  rw [h0, h9, ha, hf, hA, hF]
  split_ifs with h1 h2 h3
  · rw [Option.some_inj]
    omega
  · rw [Option.some_inj]
    omega
  · rw [Option.some_inj]
    omega
  · simp only [false_iff]
    omega

/-- Shifting in a hexadecimal digit is Horner's step modulo the word. -/
theorem shift_or (val : ℕ) (hd : d < 16) : uint64 (val <<< 4) ||| d = (val * 16 + d) % 2 ^ 64 := by
  have hword : uint64 (val <<< 4) = (val % 2 ^ 60) <<< 4 := by
    rw [uint64, Nat.shiftLeft_eq, Nat.shiftLeft_eq]
    omega
  rw [hword, ← Nat.shiftLeft_add_eq_or_of_lt (by omega), Nat.shiftLeft_eq]
  omega

/-- A loop over digits ends with their value modulo the word. -/
theorem digitLoop_of_digits (hdigit : ∀ c d, digit c = some d ↔ IsDigit b c d)
    (hacc : ∀ val d, d < b → accumulate val d = (val * b + d) % 2 ^ 64)
    (h : List.Forall₂ (IsDigit b) s ds) : digitLoop digit accumulate val s =
      (ds.foldl (fun v d => (v * b + d) % 2 ^ 64) val, true) := by
  induction h generalizing val with
  | nil => rfl
  | cons hd _ ih =>
    rw [digitLoop, (hdigit _ _).mpr hd]
    simp only
    rw [ih, List.foldl_cons, hacc _ _ hd.1]

/-- A loop that does not give up has seen digits only. -/
theorem digits_of_digitLoop (hdigit : ∀ c d, digit c = some d ↔ IsDigit b c d)
    (h : (digitLoop digit accumulate val s).2 = true) : ∃ ds, List.Forall₂ (IsDigit b) s ds := by
  induction s generalizing val with
  | nil => exact ⟨[], .nil⟩
  | cons c s ih =>
    rw [digitLoop] at h
    cases hc : digit c with
    | none =>
      rw [hc] at h
      exact absurd h Bool.false_ne_true
    | some d =>
      rw [hc] at h
      obtain ⟨ds, hds⟩ := ih h
      exact ⟨d :: ds, .cons ((hdigit c d).mp hc) hds⟩

theorem digitLoop_of_spells (hdigit : ∀ c d, digit c = some d ↔ IsDigit b c d)
    (hacc : ∀ val d, d < b → accumulate val d = (val * b + d) % 2 ^ 64) (h : Spells b s n) :
    digitLoop digit accumulate 0 s = (n % 2 ^ 64, true) := by
  obtain ⟨-, ds, hds, rfl⟩ := h
  rw [digitLoop_of_digits hdigit hacc hds, value, ← foldl_mod, Nat.zero_mod]

theorem decLoop_of_spells (h : Spells 10 s n) : decLoop s = (n % 2 ^ 64, true) :=
  digitLoop_of_spells (fun _ _ => decDigit_eq_some) (fun _ _ _ => rfl) h

theorem hexLoop_of_spells (h : Spells 16 s n) : hexLoop s = (n % 2 ^ 64, true) :=
  digitLoop_of_spells (fun _ _ => hexDigit_eq_some) (fun val _ hd => shift_or val hd) h

theorem spells_of_decLoop (hs : s ≠ []) (h : (decLoop s).2 = true) : ∃ n, Spells 10 s n := by
  obtain ⟨ds, hds⟩ := digits_of_digitLoop (fun _ _ => decDigit_eq_some) h
  exact ⟨value 10 ds, hs, ds, hds, rfl⟩

theorem spells_of_hexLoop (hs : s ≠ []) (h : (hexLoop s).2 = true) : ∃ n, Spells 16 s n := by
  obtain ⟨ds, hds⟩ := digits_of_digitLoop (fun _ _ => hexDigit_eq_some) h
  exact ⟨value 16 ds, hs, ds, hds, rfl⟩

/-- The letter of the hexadecimal prefix is no decimal digit. -/
theorem not_spells_hex {x : UInt8} (hx : x = 'x'.toUInt8 ∨ x = 'X'.toUInt8) :
    ¬ Spells 10 ('0'.toUInt8 :: x :: s) n := by
  rintro ⟨-, ds, hds, -⟩
  cases hds with
  | cons _ htail =>
    cases htail with
    | cons hd _ =>
      have hx1 : 'x'.toUInt8.toNat = 120 := rfl
      have hx2 : 'X'.toUInt8.toNat = 88 := rfl
      unfold IsDigit at hd
      rcases hx with rfl | rfl <;> omega

theorem Denotes.unique (hn : Denotes s n) (hm : Denotes s m) : n = m := by
  rcases hn with hn | ⟨h, hs, hn⟩
  · rcases hm with hm | ⟨h, rfl | rfl, -⟩
    · exact hn.unique (by norm_num) hm
    · exact absurd hn (not_spells_hex (.inl rfl))
    · exact absurd hn (not_spells_hex (.inr rfl))
  · rcases hm with hm | ⟨h', hs', hm⟩
    · rcases hs with rfl | rfl
      · exact absurd hm (not_spells_hex (.inl rfl))
      · exact absurd hm (not_spells_hex (.inr rfl))
    · obtain rfl : h = h' := by
        rcases hs with rfl | rfl <;> rcases hs' with hs' | hs' <;> simp_all
      exact hn.unique (by norm_num) hm

/-- A number is accepted with its value modulo the word. -/
theorem parseU64_of_denotes (h : Denotes s n) : parseU64 (some s) = (n % 2 ^ 64, true) := by
  rcases h with h | ⟨t, ht, h⟩
  · rcases s with _ | ⟨c, _ | ⟨x, t⟩⟩
    · exact absurd rfl h.1
    · exact decLoop_of_spells h
    · rw [parseU64, if_neg]
      · exact decLoop_of_spells h
      · rintro ⟨rfl, hx⟩
        exact not_spells_hex hx h
  · have hloop : parseU64 (some s) = hexLoop t := by
      rcases ht with rfl | rfl
      · rw [parseU64, if_pos ⟨rfl, .inl rfl⟩, if_neg h.1]
      · rw [parseU64, if_pos ⟨rfl, .inr rfl⟩, if_neg h.1]
    rw [hloop, hexLoop_of_spells h]

/-- What is accepted is a number. -/
theorem denotes_of_parseU64 (h : (parseU64 (some s)).2 = true) : ∃ n, Denotes s n := by
  rcases s with _ | ⟨c, _ | ⟨x, t⟩⟩
  · exact absurd h Bool.false_ne_true
  · obtain ⟨n, hn⟩ := spells_of_decLoop (List.cons_ne_nil c []) h
    exact ⟨n, .inl hn⟩
  · rw [parseU64] at h
    split_ifs at h with hx ht
    · obtain ⟨n, hn⟩ := spells_of_hexLoop ht h
      obtain ⟨rfl, rfl | rfl⟩ := hx
      · exact ⟨n, .inr ⟨t, .inl rfl, hn⟩⟩
      · exact ⟨n, .inr ⟨t, .inr rfl, hn⟩⟩
    · obtain ⟨n, hn⟩ := spells_of_decLoop (List.cons_ne_nil c (x :: t)) h
      exact ⟨n, .inl hn⟩

/-- The string is accepted exactly if it is a number that fits into 64 bits, and then the result
is that number. -/
def Exact (s : List UInt8) : Prop :=
  ((parseU64 (some s)).2 = true ↔ ∃ n, Denotes s n ∧ n < 2 ^ 64) ∧
    ((parseU64 (some s)).2 = true → Denotes s (parseU64 (some s)).1)

/-- Nothing checks the range: a number of more than 64 bits is accepted as its remainder. -/
theorem parseU64_exact_iff (s : List UInt8) : Exact s ↔ ∀ n, Denotes s n → n < 2 ^ 64 := by
  constructor
  · rintro ⟨hok, -⟩ n hn
    have htrue : (parseU64 (some s)).2 = true := by rw [parseU64_of_denotes hn]
    obtain ⟨m, hm, hlt⟩ := hok.mp htrue
    rwa [hn.unique hm]
  · intro hfits
    refine ⟨⟨fun h => ?_, ?_⟩, fun h => ?_⟩
    · obtain ⟨n, hn⟩ := denotes_of_parseU64 h
      exact ⟨n, hn, hfits n hn⟩
    · rintro ⟨n, hn, -⟩
      rw [parseU64_of_denotes hn]
    · obtain ⟨n, hn⟩ := denotes_of_parseU64 h
      rw [parseU64_of_denotes hn, Nat.mod_eq_of_lt (hfits n hn)]
      exact hn

/-- Two to the power of 64 is taken for zero. -/
theorem parseU64_not_exact : ¬ Exact (ascii "18446744073709551616") := by
  intro h
  have hdigits : List.Forall₂ (IsDigit 10) (ascii "18446744073709551616")
      [1, 8, 4, 4, 6, 7, 4, 4, 0, 7, 3, 7, 0, 9, 5, 5, 1, 6, 1, 6] := by
    simp [ascii, IsDigit]
    decide
  have hn : Denotes (ascii "18446744073709551616") (2 ^ 64) :=
    .inl ⟨by decide, _, hdigits, by decide⟩
  have hparse := parseU64_of_denotes hn
  obtain ⟨m, hm, hlt⟩ := h.1.mp (by rw [hparse])
  exact absurd (hn.unique hm ▸ hlt) (lt_irrefl _)

/-- What the printers write is read back: every decimal output and, behind a prefix, every
hexadecimal one. Neither has a leading zero to spare, and both fit into their buffers. -/
theorem parseU64_print (val : ℕ) (h : val < 2 ^ 64) :
    parseU64 (some (printUint64 val)) = (val, true) ∧
      parseU64 (some ('0'.toUInt8 :: 'x'.toUInt8 :: printHex64 val)) = (val, true) ∧
      ((printUint64 val).head? = some '0'.toUInt8 →
        printUint64 val = ['0'.toUInt8]) ∧
      ((printHex64 val).head? = some '0'.toUInt8 →
        printHex64 val = ['0'.toUInt8]) ∧
      (uint64Fill [] val).length ≤ 21 ∧ (hex64Fill [] val).length ≤ 17 := by
  have hdec : Denotes (printUint64 val) val := .inl (printUint64_spells val)
  have hhex : Denotes ('0'.toUInt8 :: 'x'.toUInt8 :: printHex64 val) val :=
    .inr ⟨_, .inl rfl, printHex64_spells val⟩
  refine ⟨?_, ?_, printUint64_head, printHex64_head, ?_, ?_⟩
  · rw [parseU64_of_denotes hdec, Nat.mod_eq_of_lt h]
  · rw [parseU64_of_denotes hhex, Nat.mod_eq_of_lt h]
  · exact (uint64Fill_length h).trans (by norm_num)
  · exact (hex64Fill_length h).trans (by norm_num)

theorem parseU64_print_max :
    parseU64 (some (printUint64 (2 ^ 64 - 1))) = (2 ^ 64 - 1, true) :=
  (parseU64_print (2 ^ 64 - 1) (by norm_num)).1

end Cli
end Ggmk

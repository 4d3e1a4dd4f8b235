import Ggmk.Lib.Numeral
import Ggmk.Lib.Word

/-! Number and format printing on the serial port (`src/arch/x86_64/serial.c`). What a function
emits is the list of the bytes that `serial_putc` receives. -/
namespace Ggmk
open Word Numeral

namespace Serial

/-- The bytes of a string literal. -/
def ascii (s : String) : List UInt8 := s.toList.map Char.toUInt8

/-- `while (val > 0) { buf[i++] = '0' + (val % 10); val /= 10; }`. The list is the written part
of `buf` and its length is `i`. -/
def uint64Fill (buf : List UInt8) (val : ℕ) : List UInt8 :=
  if 0 < val then uint64Fill (buf ++ [UInt8.ofNat ('0'.toNat + val % 10)]) (val / 10) else buf
termination_by val
decreasing_by omega

/-- The characters of `hex`. -/
def hexChars : List UInt8 := ascii "0123456789abcdef"

/-- `while (val > 0) { buf[i++] = hex[val & 0xF]; val >>= 4; }` -/
def hex64Fill (buf : List UInt8) (val : ℕ) : List UInt8 :=
  if 0 < val then hex64Fill (buf ++ [hexChars.getD (val &&& 0xF) 0]) (val >>> 4) else buf
termination_by val
decreasing_by
  rw [Nat.shiftRight_eq_div_pow]
  omega

/-- `buf` is read back from its end, `while (--i >= 0) serial_putc(buf[i])`. -/
def printUint64 (val : ℕ) : List UInt8 :=
  if val = 0 then ['0'.toUInt8] else (uint64Fill [] val).reverse

def printHex64 (val : ℕ) : List UInt8 :=
  if val = 0 then ['0'.toUInt8] else (hex64Fill [] val).reverse

/-- A `val` of at least `2 ^ 63` is a negative number. -/
def printInt64 (val : ℕ) : List UInt8 :=
  if 2 ^ 63 ≤ val then '-'.toUInt8 :: printUint64 (uint64 (2 ^ 64 - val)) else printUint64 val

variable {val : ℕ}

theorem uint64Fill_eq (buf : List UInt8) (val : ℕ) : uint64Fill buf val =
    buf ++ (Nat.digits 10 val).map fun d => UInt8.ofNat ('0'.toNat + d) := by
  fun_induction uint64Fill buf val with
  | case1 buf val h ih => rw [ih, Nat.digits_def' (by norm_num) h]; simp
  | case2 buf val h =>
    obtain rfl : val = 0 := by omega
    simp

theorem hex64Fill_eq (buf : List UInt8) (val : ℕ) : hex64Fill buf val =
    buf ++ (Nat.digits 16 val).map fun d => hexChars.getD d 0 := by
  fun_induction hex64Fill buf val with
  | case1 buf val h ih =>
    have hlow : val &&& 0xF = val % 16 := Nat.and_two_pow_sub_one_eq_mod val 4
    have hhigh : val >>> 4 = val / 16 := Nat.shiftRight_eq_div_pow val 4
    rw [ih, hlow, hhigh, Nat.digits_def' (by norm_num) h]
    simp
  | case2 buf val h =>
    obtain rfl : val = 0 := by omega
    simp

theorem printUint64_eq (val : ℕ) :
    printUint64 val = (digits 10 val).map fun d => UInt8.ofNat ('0'.toNat + d) := by
  unfold printUint64 digits
  split_ifs with h
  · rfl
  · rw [uint64Fill_eq, List.nil_append, List.map_reverse]

theorem printHex64_eq (val : ℕ) :
    printHex64 val = (digits 16 val).map fun d => hexChars.getD d 0 := by
  unfold printHex64 digits
  split_ifs with h
  · rfl
  · rw [hex64Fill_eq, List.nil_append, List.map_reverse]

theorem isDigit_dec (d : ℕ) (hd : d < 10) : IsDigit 10 (UInt8.ofNat ('0'.toNat + d)) d := by
  interval_cases d <;> unfold IsDigit <;> decide

theorem isDigit_hex (d : ℕ) (hd : d < 16) : IsDigit 16 (hexChars.getD d 0) d := by
  interval_cases d <;> unfold IsDigit <;> decide

theorem printUint64_spells (val : ℕ) : Spells 10 (printUint64 val) val := by
  rw [printUint64_eq]
  exact spells_digits (by norm_num) isDigit_dec val

theorem printHex64_spells (val : ℕ) : Spells 16 (printHex64 val) val := by
  rw [printHex64_eq]
  exact spells_digits (by norm_num) isDigit_hex val

theorem printUint64_head (h : (printUint64 val).head? = some '0'.toUInt8) :
    printUint64 val = ['0'.toUInt8] := by
  rw [printUint64_eq] at *
  exact eq_of_map_digits_head (by norm_num) isDigit_dec h

theorem printHex64_head (h : (printHex64 val).head? = some '0'.toUInt8) :
    printHex64 val = ['0'.toUInt8] := by
  rw [printHex64_eq] at *
  exact eq_of_map_digits_head (by norm_num) isDigit_hex h

/-- A 64-bit number has at most twenty decimal digits. -/
theorem uint64Fill_length (h : val < 2 ^ 64) : (uint64Fill [] val).length ≤ 20 := by
  rw [uint64Fill_eq, List.nil_append, List.length_map, Nat.digits_length_le_iff (by norm_num)]
  exact h.trans (by norm_num)

theorem hex64Fill_length (h : val < 2 ^ 64) : (hex64Fill [] val).length ≤ 16 := by
  rw [hex64Fill_eq, List.nil_append, List.length_map, Nat.digits_length_le_iff (by norm_num)]
  exact h.trans_eq (by norm_num)

end Serial
end Ggmk

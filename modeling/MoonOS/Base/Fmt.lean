import MoonOS.Lib.ByteString
import MoonOS.Lib.Numeral

/-!
# Base/Fmt — what the kernel formats with the vendored `libs/base/sources/fmt.c`

The formatter itself is not modelled: a call appears as the text its format and arguments come to.
What it does with that text is `vsnprintf`, and of its conversions the ones the modelled callers use
are spelled out.
-/

namespace MoonOS

open ByteMemory Numeral

/-- The bytes of a text of the source. -/
def ascii (s : String) : List (BitVec 8) := s.toList.map fun c => BitVec.ofNat 8 c.toNat

/-- What `vsnprintf(buffer, count, …)` writes of a text: as much as fits in front of a
terminator. -/
def vsnprintf (count : ℕ) (text : List (BitVec 8)) : List (BitVec 8) :=
  text.take (count - 1) ++ [0#8]

theorem length_vsnprintf (count : ℕ) (text : List (BitVec 8)) :
    (vsnprintf count text).length = min (count - 1) text.length + 1 := by
  rw [vsnprintf, List.length_append, List.length_take, List.length_singleton]

/-- A text that fits is written whole. -/
theorem vsnprintf_of_lt {count : ℕ} {text : List (BitVec 8)} (h : text.length < count) :
    vsnprintf count text = text ++ [0#8] := by
  rw [vsnprintf, List.take_of_length_le (by omega)]

/-- What `%s` prints of a string: up to its terminator. -/
def formatString (s : List (BitVec 8)) : List (BitVec 8) := s.takeWhile (· ≠ 0#8)

/-- A number of at most `w` digits without the zeros in front. -/
def formatNumber (b w n : ℕ) : List (BitVec 8) :=
  match (numeral b w n).dropWhile (· = 0) with
  | [] => [48#8]
  | ds => ds.map fun d => BitVec.ofNat 8 (if d < 10 then 48 + d else 87 + d)

/-- `%d`. -/
def formatInt (n : BitVec 32) : List (BitVec 8) :=
  if n.msb then 45#8 :: formatNumber 10 10 (-n).toNat else formatNumber 10 10 n.toNat

/-- `%x`, or `%llx` of 64 bits. -/
def formatHex {w : ℕ} (n : BitVec w) : List (BitVec 8) := formatNumber 16 (w / 4) n.toNat

/-- `%#lx`: without the `0x` for zero. -/
def formatAltHex (n : BitVec 64) : List (BitVec 8) :=
  if n = 0#64 then formatHex n else ascii "0x" ++ formatHex n

theorem length_formatNumber_le (b w n : ℕ) : (formatNumber b w n).length ≤ max 1 w := by
  have hlen : ((numeral b w n).dropWhile (· = 0)).length ≤ w :=
    (List.dropWhile_suffix _).length_le.trans_eq (length_numeral b w n)
  rw [formatNumber]
  split
  case h_1 => exact le_max_left ..
  case h_2 => exact (List.length_map _).trans_le (hlen.trans (le_max_right ..))

theorem length_formatInt_le (n : BitVec 32) : (formatInt n).length ≤ 11 := by
  rw [formatInt]
  split
  · exact Nat.succ_le_succ (length_formatNumber_le 10 10 _)
  · exact (length_formatNumber_le 10 10 _).trans (by decide)

/-- A hexadecimal digit of `%p`: upper case. -/
def pointerDigit (d : ℕ) : BitVec 8 := BitVec.ofNat 8 (if d < 10 then 48 + d else 55 + d)

/-- `%p`: sixteen digits, padded with zeros. -/
def formatPointer (p : BitVec 64) : List (BitVec 8) := (numeral 16 16 p.toNat).map pointerDigit

theorem length_formatPointer (p : BitVec 64) : (formatPointer p).length = 16 := by
  rw [formatPointer, List.length_map, length_numeral]

end MoonOS

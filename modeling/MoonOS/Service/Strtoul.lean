import MoonOS.Base.Fmt

/-!
# Service/Strtoul — the ramdisk's address, from `kern_main` to init

    kern_main:  "0x%p", pa(ramdisk)  ──argv[1]──▸  strtoul  :init

The kernel writes the address as text and `strtoul` of `service/libc/generic/string.c` reads it.

* `strtoul_eq` — `strtoul` reads the longest row of digits, in base 16 behind `0x` and in base 10
  otherwise, modulo `2⁶⁴`.
* `strtoul_ramdiskArgument` — so it reads back the address, and the buffer has all of its text.
-/

namespace MoonOS

open ByteMemory Numeral

variable {m : Mem} {str ptr : BitVec 64} {s : List (BitVec 8)} {b : ℕ}

/-! ## `strtoul` -/

/-- The value of a character, a signed `char`, if it is a digit or one of the six letters. -/
def digitValue (c : BitVec 8) : Option (BitVec 64) :=
  if (48#8).sle c ∧ c.sle 57#8 then some (c.signExtend 64 - 48#64)
  else if (97#8).sle c ∧ c.sle 102#8 then some (c.signExtend 64 - 97#64 + 10#64)
  else if (65#8).sle c ∧ c.sle 70#8 then some (c.signExtend 64 - 65#64 + 10#64)
  else none

/-- The loop of `strtoul`; fuel that runs out is a loop that does not end. -/
def strtoulLoop (m : Mem) (base : BitVec 64) : ℕ → BitVec 64 → BitVec 64 → Option (BitVec 64)
  | 0, _, _ => none
  | fuel + 1, ptr, result =>
    if m ptr = 0#8 then some result
    else
      match digitValue (m ptr) with
      | none => some result
      | some value =>
        if base ≤ value then some result
        else strtoulLoop m base fuel (ptr + 1) (result * base + value)

/-- `strtoul`. -/
def strtoul (m : Mem) (str : BitVec 64) : Option (BitVec 64) :=
  if m str = 48#8 ∧ (m (at' str 1) = 120#8 ∨ m (at' str 1) = 88#8) then
    strtoulLoop m 16#64 (2 ^ 64) (at' str 2) 0#64
  else strtoulLoop m 10#64 (2 ^ 64) str 0#64

/-! ## Numbers in a text -/

/-- The value of a character as a digit, in either case of letters. -/
def charDigit (c : BitVec 8) : Option ℕ :=
  ((ascii "0123456789abcdef").idxOf? c).or ((ascii "0123456789ABCDEF").idxOf? c)

/-- …and as a digit of a base. -/
def baseDigit (b : ℕ) (c : BitVec 8) : Option ℕ := (charDigit c).filter (· < b)

/-- The longest row of digits of a base that a text starts with. -/
def leadingDigits (b : ℕ) (s : List (BitVec 8)) : List ℕ :=
  (s.takeWhile fun c => (baseDigit b c).isSome).filterMap (baseDigit b)

/-- The number a text starts with. -/
def numeralValue (s : List (BitVec 8)) : ℕ :=
  if s.take 2 = ascii "0x" ∨ s.take 2 = ascii "0X" then
    Nat.ofDigits 16 (leadingDigits 16 (s.drop 2)).reverse
  else Nat.ofDigits 10 (leadingDigits 10 s).reverse

theorem leadingDigits_none {c : BitVec 8} (h : baseDigit b c = none) :
    leadingDigits b (c :: s) = [] := by
  rw [leadingDigits, List.takeWhile_cons_of_neg (by rw [h]; decide), List.filterMap_nil]

theorem leadingDigits_some {c : BitVec 8} {d : ℕ} (h : baseDigit b c = some d) :
    leadingDigits b (c :: s) = d :: leadingDigits b s := by
  rw [leadingDigits, List.takeWhile_cons_of_pos (by rw [h]; rfl), List.filterMap_cons_some h,
    leadingDigits]

/-- The code's digits are these. -/
theorem digitValue_eq : ∀ c : BitVec 8, digitValue c = (charDigit c).map (BitVec.ofNat 64) := by
  decide +kernel

theorem charDigit_lt {c : BitVec 8} {d : ℕ} (h : charDigit c = some d) : d < 16 := by
  rcases Option.or_eq_some_iff.mp h with h | ⟨-, h⟩
  · exact (List.idxOf?_eq_some_iff.mp h).1
  · exact (List.idxOf?_eq_some_iff.mp h).1

/-- **One round of the loop**: it goes on at a digit of the base. -/
theorem strtoulLoop_succ (hb : b ≤ 16) (hne : m ptr ≠ 0#8) (fuel : ℕ) (result : BitVec 64) :
    strtoulLoop m (BitVec.ofNat 64 b) (fuel + 1) ptr result
      = match baseDigit b (m ptr) with
        | none => some result
        | some d => strtoulLoop m (BitVec.ofNat 64 b) fuel (ptr + 1)
          (result * BitVec.ofNat 64 b + BitVec.ofNat 64 d) := by
  rw [strtoulLoop, if_neg hne, digitValue_eq, baseDigit]
  cases hd : charDigit (m ptr) with
  | none => rfl
  | some d =>
    have hlt := charDigit_lt hd
    have hle : BitVec.ofNat 64 b ≤ BitVec.ofNat 64 d ↔ ¬ d < b := by bv_omega
    by_cases h : d < b
    · simp [hle, h, Option.filter]
    · simp [hle, h, Option.filter]

/-- **A whole run**, from the digits `ds` on that have been read. -/
theorem strtoulLoop_eq (hb : b ≤ 16) : ∀ {s : List (BitVec 8)} {ptr : BitVec 64} {fuel : ℕ}
    (ds : List ℕ), CString m ptr s → s.length < fuel →
      strtoulLoop m (BitVec.ofNat 64 b) fuel ptr (BitVec.ofNat 64 (Nat.ofDigits b ds.reverse))
        = some (BitVec.ofNat 64 (Nat.ofDigits b (ds ++ leadingDigits b s).reverse))
  | [], ptr, fuel + 1, ds, h, _ => by
      rw [strtoulLoop, if_pos h.nil]
      simp [leadingDigits]
  | c :: s, ptr, fuel + 1, ds, h, hfuel => by
      obtain ⟨rfl, hne, htail⟩ := h.cons
      rw [strtoulLoop_succ hb hne]
      cases hd : baseDigit b (m ptr) with
      | none => rw [leadingDigits_none hd, List.append_nil]
      | some d =>
        dsimp only
        rw [← BitVec.ofNat_mul, ← BitVec.ofNat_add, ← ofDigits_reverse_concat,
          strtoulLoop_eq hb (ds ++ [d]) htail (Nat.lt_of_succ_lt_succ hfuel), leadingDigits_some hd,
          List.append_assoc, List.singleton_append]

/-- The mark of a hexadecimal number is in the string. -/
theorem hexMark_iff : ∀ {s : List (BitVec 8)}, CString m str s →
    (m str = 48#8 ∧ (m (at' str 1) = 120#8 ∨ m (at' str 1) = 88#8)
      ↔ s.take 2 = ascii "0x" ∨ s.take 2 = ascii "0X")
  | [], h => by simp [h.nil, ascii]
  | [c], h => by
      obtain ⟨rfl, -, hrest⟩ := h.cons
      have hend : m (at' str 1) = 0#8 := hrest.nil
      simp [hend, ascii]
  | c :: x :: s, h => by
      obtain ⟨rfl, -, hrest⟩ := h.cons
      have hsecond : m (at' str 1) = x := hrest.cons.1
      simp [hsecond, ascii, and_or_left]

/-- **What `strtoul` returns**: the number the string starts with, modulo `2⁶⁴`. -/
theorem strtoul_eq (h : CString m str s) :
    strtoul m str = some (BitVec.ofNat 64 (numeralValue s)) := by
  have hlen := h.length_lt
  rw [strtoul, numeralValue]
  by_cases hmark : s.take 2 = ascii "0x" ∨ s.take 2 = ascii "0X"
  · have htwo : (s.take 2).length = 2 := hmark.elim (fun heq => heq ▸ rfl) fun heq => heq ▸ rfl
    rw [List.length_take] at htwo
    rw [if_pos ((hexMark_iff h).mpr hmark), if_pos hmark]
    exact strtoulLoop_eq (b := 16) le_rfl [] (h.drop (by omega)) (by rw [List.length_drop]; omega)
  · rw [if_neg (mt (hexMark_iff h).mp hmark), if_neg hmark]
    exact strtoulLoop_eq (b := 10) (by decide) [] h hlen

/-! ## The argument of init -/

/-- The buffer of `kern_main` after `snprintf(buffer, sizeof(buffer), "0x%p", …)`. -/
def ramdiskArgument (address : BitVec 64) : List (BitVec 8) :=
  vsnprintf 20 (ascii "0x" ++ formatPointer address)

/-- A digit that was printed is read. -/
theorem baseDigit_pointerDigit : ∀ d < 16, baseDigit 16 (pointerDigit d) = some d := by
  decide

theorem leadingDigits_pointerDigit : ∀ {ds : List ℕ}, (∀ d ∈ ds, d < 16) →
    leadingDigits 16 (ds.map pointerDigit) = ds
  | [], _ => rfl
  | d :: ds, h => by
      rw [List.map_cons, leadingDigits_some (baseDigit_pointerDigit d (h d List.mem_cons_self)),
        leadingDigits_pointerDigit fun d' hd' => h d' (List.mem_cons_of_mem d hd')]

/-- **The number in the buffer is the address.** -/
theorem numeralValue_ramdiskArgument (address : BitVec 64) :
    numeralValue (ascii "0x" ++ formatPointer address) = address.toNat := by
  have hdigits := leadingDigits_pointerDigit fun d hd =>
    lt_of_mem_numeral (b := 16) (w := 16) (n := address.toNat) (by decide) hd
  have htwo : (ascii "0x").length = 2 := by decide
  rw [numeralValue, if_pos (.inl (List.take_left' htwo)), List.drop_left' htwo, formatPointer,
    hdigits, ofDigits_numeral (show address.toNat < 16 ^ 16 from address.isLt)]

/-- No digit is the terminator. -/
theorem zero_notMem_formatPointer (address : BitVec 64) : 0#8 ∉ formatPointer address := by
  have hne : ∀ d < 16, pointerDigit d ≠ 0#8 := by decide
  intro hmem
  obtain ⟨d, hd, hzero⟩ := List.mem_map.mp hmem
  exact hne d (lt_of_mem_numeral (by decide) hd) hzero

theorem ramdiskArgument_eq (address : BitVec 64) :
    ramdiskArgument address = ascii "0x" ++ formatPointer address ++ [0#8] :=
  vsnprintf_of_lt (by rw [List.length_append, length_formatPointer]; decide)

/-- What holds the buffer holds a string. -/
theorem cString_ramdiskArgument {address : BitVec 64} (h : Holds m str (ramdiskArgument address)) :
    CString m str (ascii "0x" ++ formatPointer address) := by
  refine ⟨ramdiskArgument_eq address ▸ h, fun hmem => ?_⟩
  rcases List.mem_append.mp hmem with hmem | hmem
  · exact absurd hmem (by decide)
  · exact zero_notMem_formatPointer address hmem

/-- **The ramdisk's address comes back**, out of a buffer that has the whole text and its terminator
in 19 bytes; and in general `strtoul` reads the number a string starts with. -/
theorem strtoul_ramdiskArgument :
    (∀ (address : BitVec 64) (m : Mem) (str : BitVec 64),
      Holds m str (ramdiskArgument address) → strtoul m str = some address)
    ∧ (∀ address : BitVec 64,
      ramdiskArgument address = ascii "0x" ++ formatPointer address ++ [0#8]
        ∧ (ramdiskArgument address).length = 19)
    ∧ ∀ (m : Mem) (str : BitVec 64) (s : List (BitVec 8)), CString m str s →
      strtoul m str = some (BitVec.ofNat 64 (numeralValue s)) := by
  refine ⟨fun address m str h => ?_, fun address => ⟨ramdiskArgument_eq address, ?_⟩,
    fun m str s h => strtoul_eq h⟩
  · rw [strtoul_eq (cString_ramdiskArgument h), numeralValue_ramdiskArgument, BitVec.ofNat_toNat,
      BitVec.setWidth_eq]
  · rw [ramdiskArgument_eq, List.length_append, List.length_append, length_formatPointer]
    decide

/-- A memory with an address' buffer in it, and one with a number in front of a letter. -/
theorem strtoul_twoMib :
    strtoul (fun b => (ramdiskArgument 0x200000#64).getD b.toNat 0#8) 0#64 = some 0x200000#64
      ∧ strtoul (fun b => (ascii "12z").getD b.toNat 0#8) 0#64
        = some (BitVec.ofNat 64 (numeralValue (ascii "12z")))
      ∧ numeralValue (ascii "12z") = 12 :=
  ⟨strtoul_ramdiskArgument.1 _ _ _ (by decide),
    strtoul_ramdiskArgument.2.2 _ _ (ascii "12z") ⟨by decide, by decide⟩, by decide⟩

end MoonOS

import Mathlib.Tactic
import Mathlib.Data.Nat.Log
import Mathlib.Data.Nat.Size
import Mathlib.Algebra.BigOperators.Intervals

/-!
# Mm/BuddyBits — the bits under the vendored buddy allocator

The last third of `kernel/mm/buddy.h`: powers of two found by halving, and a set of bits kept in
bytes, whose ranges are written through masks and counted through a table.  All of it comes to
arithmetic and to single bits:

* `highestBitPosition_eq`, `ceilingPowerOfTwo_eq` — the number of binary digits, and the next power
  of two;
* `bitsetTest_bitsetSetRange`, `bitsetTest_bitsetClearRange` — a range is written and no other bit;
* `bitsetCountRange_eq` — a range is counted.
-/

namespace MoonOS

/-! ## Powers of two -/

/-- `two_to_the_power_of`. -/
def twoToThePowerOf (order : ℕ) : ℕ := 1 <<< order

/-- `all_set` and `count` of `highest_bit_position`, side by side. -/
def highestBitSteps : List (ℕ × ℕ) :=
  [(4294967295, 32), (65535, 16), (255, 8), (15, 4), (7, 2), (3, 1), (1, 1)]

/-- One turn of the loop of `highest_bit_position`, on `result` and `value`. -/
def highestBitStep (s : ℕ × ℕ) (e : ℕ × ℕ) : ℕ × ℕ :=
  if e.1 ≤ s.2 then (s.1 + e.2, s.2 >>> e.2) else s

/-- `highest_bit_position`. -/
def highestBitPosition (value : ℕ) : ℕ :=
  let (result, value) := highestBitSteps.foldl highestBitStep (0, value)
  result + value

/-- `ceiling_power_of_two`; `value + value` may wrap. -/
def ceilingPowerOfTwo (value : ℕ) : ℕ :=
  let value := if value = 0 then 1 else value
  twoToThePowerOf (highestBitPosition ((value + value - 1) % 2 ^ 64) - 1)

theorem twoToThePowerOf_eq (order : ℕ) : twoToThePowerOf order = 2 ^ order :=
  Nat.one_shiftLeft order

/-- `c` digits can be cut off what is at least `c` ones. -/
theorem add_size_shiftRight {v c : ℕ} (h : 2 ^ c - 1 ≤ v) : c + (v >>> c).size = v.size := by
  rw [Nat.shiftRight_eq_div_pow]
  refine le_antisymm ?_ (Nat.size_le.mpr ?_)
  · rcases Nat.eq_zero_or_pos c with rfl | hc
    · simp
    cases hsize : (v / 2 ^ c).size with
    | zero =>
      obtain ⟨c, rfl⟩ := Nat.exists_eq_add_of_le' hc
      refine Nat.lt_size.mpr ?_
      have hpos := Nat.one_le_two_pow (n := c)
      rw [pow_succ] at h
      omega
    | succ m =>
      have hm : 2 ^ m ≤ v / 2 ^ c := Nat.lt_size.mp (by omega)
      rw [← Nat.add_assoc]
      refine Nat.lt_size.mpr ?_
      rw [pow_add, Nat.mul_comm]
      exact (Nat.le_div_iff_mul_le (Nat.two_pow_pos c)).mp hm
  · rw [pow_add, Nat.mul_comm]
    exact (Nat.div_lt_iff_lt_mul (Nat.two_pow_pos c)).mp (Nat.lt_size_self _)

/-- A turn takes from the value what it adds to the result… -/
theorem highestBitStep_size {s e : ℕ × ℕ} (he : 2 ^ e.2 - 1 ≤ e.1) :
    (highestBitStep s e).1 + (highestBitStep s e).2.size = s.1 + s.2.size := by
  rw [highestBitStep]
  split
  · next hle => rw [Nat.add_assoc, add_size_shiftRight (he.trans hle)]
  · rfl

/-- …and leaves a small one. -/
theorem highestBitStep_le {s e : ℕ × ℕ} {a b : ℕ} (hs : s.2 ≤ a) (hkeep : e.1 ≤ b + 1)
    (hcut : a / 2 ^ e.2 ≤ b) : (highestBitStep s e).2 ≤ b := by
  rw [highestBitStep]
  split
  · rw [Nat.shiftRight_eq_div_pow]
    exact (Nat.div_le_div_right hs).trans hcut
  · omega

/-- **`highest_bit_position` is the number of binary digits.** -/
theorem highestBitPosition_eq {v : ℕ} (hv : v < 2 ^ 64) : highestBitPosition v = v.size := by
  have hsize : ∀ (steps : List (ℕ × ℕ)) (s : ℕ × ℕ), (∀ e ∈ steps, 2 ^ e.2 - 1 ≤ e.1) →
      (steps.foldl highestBitStep s).1 + (steps.foldl highestBitStep s).2.size
        = s.1 + s.2.size := by
    intro steps
    induction steps with
    | nil => exact fun s _ => rfl
    | cons e steps ih =>
      intro s he
      rw [List.foldl_cons, ih _ fun e' he' => he e' (List.mem_cons_of_mem e he'),
        highestBitStep_size (he e List.mem_cons_self)]
  have hsmall : (highestBitSteps.foldl highestBitStep (0, v)).2 ≤ 1 := by
    have h₁ : (0, v).2 ≤ 2 ^ 64 - 1 := by
      show v ≤ 2 ^ 64 - 1
      omega
    have h₂ := highestBitStep_le (e := (4294967295, 32)) (b := 2 ^ 32 - 1) h₁
      (by decide) (by decide)
    have h₃ := highestBitStep_le (e := (65535, 16)) (b := 2 ^ 16 - 1) h₂
      (by decide) (by decide)
    have h₄ := highestBitStep_le (e := (255, 8)) (b := 255) h₃ (by decide) (by decide)
    have h₅ := highestBitStep_le (e := (15, 4)) (b := 15) h₄ (by decide) (by decide)
    have h₆ := highestBitStep_le (e := (7, 2)) (b := 6) h₅ (by decide) (by decide)
    have h₇ := highestBitStep_le (e := (3, 1)) (b := 3) h₆ (by decide) (by decide)
    have h₈ := highestBitStep_le (e := (1, 1)) (b := 1) h₇ (by decide) (by decide)
    simpa only [highestBitSteps, List.foldl_cons, List.foldl_nil] using h₈
  have htotal := hsize highestBitSteps (0, v) (by decide)
  rw [Nat.zero_add] at htotal
  rw [highestBitPosition, ← htotal]
  generalize highestBitSteps.foldl highestBitStep (0, v) = s at hsmall ⊢
  show s.1 + s.2 = s.1 + s.2.size
  obtain hzero | hone : s.2 = 0 ∨ s.2 = 1 := by omega
  · rw [hzero, Nat.size_zero]
  · rw [hone, Nat.size_one]

/-- **`ceiling_power_of_two` is the next power of two.** -/
theorem ceilingPowerOfTwo_eq {v : ℕ} (hpos : 0 < v) (hv : v ≤ 2 ^ 63) :
    ceilingPowerOfTwo v = 2 ^ Nat.clog 2 v := by
  rw [ceilingPowerOfTwo, twoToThePowerOf_eq, if_neg hpos.ne', Nat.mod_eq_of_lt (by omega),
    highestBitPosition_eq (by omega)]
  congr 1
  have hsize : (v + v - 1).size = Nat.clog 2 v + 1 := by
    refine le_antisymm (Nat.size_le.mpr ?_) (Nat.lt_size.mpr ?_)
    · have hle := Nat.le_pow_clog (b := 2) (by decide) v
      rw [pow_succ]
      omega
    · by_cases hone : v = 1
      · subst hone
        simp
      · obtain ⟨k, hk⟩ : ∃ k, Nat.clog 2 v = k + 1 :=
          Nat.exists_eq_succ_of_ne_zero (Nat.clog_pos (by decide) (by omega)).ne'
        have hlt : 2 ^ k < v := (Nat.lt_clog_iff_pow_lt (by decide)).mp (by omega)
        rw [hk, pow_succ]
        omega
  rw [hsize, Nat.add_sub_cancel]

/-! ## A set of bits in bytes -/

/-- The bytes of a bitset. -/
abbrev Bitset := ℕ → BitVec 8

/-- `bitset_index_mask`. -/
def bitsetIndexMask (index : ℕ) : BitVec 8 :=
  [1#8, 2#8, 4#8, 8#8, 16#8, 32#8, 64#8, 128#8].getD index 0#8

/-- `bitset_char_mask`. -/
def bitsetCharMask (fromIndex toIndex : ℕ) : BitVec 8 :=
  ([[1#8, 3#8, 7#8, 15#8, 31#8, 63#8, 127#8, 255#8],
    [0#8, 2#8, 6#8, 14#8, 30#8, 62#8, 126#8, 254#8],
    [0#8, 0#8, 4#8, 12#8, 28#8, 60#8, 124#8, 252#8],
    [0#8, 0#8, 0#8, 8#8, 24#8, 56#8, 120#8, 248#8],
    [0#8, 0#8, 0#8, 0#8, 16#8, 48#8, 112#8, 240#8],
    [0#8, 0#8, 0#8, 0#8, 0#8, 32#8, 96#8, 224#8],
    [0#8, 0#8, 0#8, 0#8, 0#8, 0#8, 64#8, 192#8],
    [0#8, 0#8, 0#8, 0#8, 0#8, 0#8, 0#8, 128#8]].getD fromIndex []).getD toIndex 0#8

/-- `bitset_test`. -/
def bitsetTest (bitset : Bitset) (pos : ℕ) : Bool :=
  bitset (pos / 8) &&& bitsetIndexMask (pos % 8) != 0#8

/-- `while (++from_bucket != to_bucket) bitset[from_bucket] = whole`, for the `n` bytes between. -/
def bitsetFill (whole : BitVec 8) : ℕ → ℕ → Bitset → Bitset
  | 0, _, bitset => bitset
  | n + 1, bucket, bitset =>
    bitsetFill whole n (bucket + 1) (Function.update bitset (bucket + 1) whole)

/-- The common body of `bitset_set_range` and `bitset_clear_range`: `apply` puts a mask on a byte,
and bytes between the two ends become `whole`. -/
def bitsetRange (apply : BitVec 8 → BitVec 8 → BitVec 8) (whole : BitVec 8) (bitset : Bitset)
    (fromPos toPos : ℕ) : Bitset :=
  let fromBucket := fromPos / 8
  let toBucket := toPos / 8
  let fromIndex := fromPos % 8
  let toIndex := toPos % 8
  if fromBucket = toBucket then
    Function.update bitset fromBucket
      (apply (bitset fromBucket) (bitsetCharMask fromIndex toIndex))
  else
    let bitset := Function.update bitset fromBucket
      (apply (bitset fromBucket) (bitsetCharMask fromIndex 7))
    let bitset := Function.update bitset toBucket
      (apply (bitset toBucket) (bitsetCharMask 0 toIndex))
    bitsetFill whole (toBucket - fromBucket - 1) fromBucket bitset

/-- `bitset_clear_range`. -/
def bitsetClearRange : Bitset → ℕ → ℕ → Bitset :=
  bitsetRange (fun byte mask => byte &&& ~~~mask) 0#8

/-- `bitset_set_range`. -/
def bitsetSetRange : Bitset → ℕ → ℕ → Bitset :=
  bitsetRange (fun byte mask => byte ||| mask) 255#8

/-- `popcount_lookup`. -/
def popcountLookup : List ℕ :=
  [0, 1, 1, 2, 1, 2, 2, 3, 1, 2, 2, 3, 2, 3, 3, 4, 1, 2, 2, 3, 2, 3, 3, 4,
    2, 3, 3, 4, 3, 4, 4, 5, 1, 2, 2, 3, 2, 3, 3, 4, 2, 3, 3, 4, 3, 4, 4, 5,
    2, 3, 3, 4, 3, 4, 4, 5, 3, 4, 4, 5, 4, 5, 5, 6, 1, 2, 2, 3, 2, 3, 3, 4,
    2, 3, 3, 4, 3, 4, 4, 5, 2, 3, 3, 4, 3, 4, 4, 5, 3, 4, 4, 5, 4, 5, 5, 6,
    2, 3, 3, 4, 3, 4, 4, 5, 3, 4, 4, 5, 4, 5, 5, 6, 3, 4, 4, 5, 4, 5, 5, 6,
    4, 5, 5, 6, 5, 6, 6, 7, 1, 2, 2, 3, 2, 3, 3, 4, 2, 3, 3, 4, 3, 4, 4, 5,
    2, 3, 3, 4, 3, 4, 4, 5, 3, 4, 4, 5, 4, 5, 5, 6, 2, 3, 3, 4, 3, 4, 4, 5,
    3, 4, 4, 5, 4, 5, 5, 6, 3, 4, 4, 5, 4, 5, 5, 6, 4, 5, 5, 6, 5, 6, 6, 7,
    2, 3, 3, 4, 3, 4, 4, 5, 3, 4, 4, 5, 4, 5, 5, 6, 3, 4, 4, 5, 4, 5, 5, 6,
    4, 5, 5, 6, 5, 6, 6, 7, 3, 4, 4, 5, 4, 5, 5, 6, 4, 5, 5, 6, 5, 6, 6, 7,
    4, 5, 5, 6, 5, 6, 6, 7, 5, 6, 6, 7, 6, 7, 7, 8]

/-- `popcount_byte`. -/
def popcountByte (b : BitVec 8) : ℕ := popcountLookup.getD b.toNat 0

/-- `while (++from_bucket != to_bucket) result += popcount_byte(bitset[from_bucket])`. -/
def bitsetCountLoop (bitset : Bitset) : ℕ → ℕ → ℕ → ℕ
  | 0, _, result => result
  | n + 1, bucket, result =>
    bitsetCountLoop bitset n (bucket + 1) (result + popcountByte (bitset (bucket + 1)))

/-- `bitset_count_range`. -/
def bitsetCountRange (bitset : Bitset) (fromPos toPos : ℕ) : ℕ :=
  let fromBucket := fromPos / 8
  let toBucket := toPos / 8
  let fromIndex := fromPos % 8
  let toIndex := toPos % 8
  if fromBucket = toBucket then
    popcountByte (bitset fromBucket &&& bitsetCharMask fromIndex toIndex)
  else
    bitsetCountLoop bitset (toBucket - fromBucket - 1) fromBucket
      (popcountByte (bitset fromBucket &&& bitsetCharMask fromIndex 7)
        + popcountByte (bitset toBucket &&& bitsetCharMask 0 toIndex))

/-! ## …is read and written bit by bit -/

section Bits

variable {bitset bitset' : Bitset} {fromPos toPos pos : ℕ}

/-- A bit is a bit of its byte. -/
theorem bitsetTest_eq (bitset : Bitset) (pos : ℕ) :
    bitsetTest bitset pos = (bitset (pos / 8)).getLsbD (pos % 8) := by
  have hmask : ∀ (byte : BitVec 8) (k : Fin 8),
      (byte &&& bitsetIndexMask k != 0#8) = byte.getLsbD k := by decide +kernel
  exact hmask _ ⟨pos % 8, Nat.mod_lt _ (by decide)⟩

/-- **Two bitsets with the same bits are the same bytes.** -/
theorem bitset_ext (h : ∀ pos, bitsetTest bitset pos = bitsetTest bitset' pos) :
    bitset = bitset' := by
  funext k
  refine BitVec.eq_of_getLsbD_eq fun i hi => ?_
  have hbit := h (8 * k + i)
  rwa [bitsetTest_eq, bitsetTest_eq, show (8 * k + i) / 8 = k by omega,
    show (8 * k + i) % 8 = i by omega] at hbit

theorem bitsetTest_update (bitset : Bitset) (k : ℕ) (byte : BitVec 8) (pos : ℕ) :
    bitsetTest (Function.update bitset k byte) pos
      = if pos / 8 = k then byte.getLsbD (pos % 8) else bitsetTest bitset pos := by
  rw [bitsetTest_eq, bitsetTest_eq, Function.update_apply]
  split <;> rfl

theorem getLsbD_bitsetCharMask {i j k : ℕ} (hi : i < 8) (hj : j < 8) (hk : k < 8) :
    (bitsetCharMask i j).getLsbD k = decide (i ≤ k ∧ k ≤ j) := by
  have hmask : ∀ i j k : Fin 8, (bitsetCharMask i j).getLsbD k
      = decide ((i : ℕ) ≤ k ∧ (k : ℕ) ≤ j) := by decide +kernel
  exact hmask ⟨i, hi⟩ ⟨j, hj⟩ ⟨k, hk⟩

theorem bitsetFill_apply (whole : BitVec 8) : ∀ (n bucket : ℕ) (bitset : Bitset) (k : ℕ),
    bitsetFill whole n bucket bitset k
      = if bucket < k ∧ k ≤ bucket + n then whole else bitset k
  | 0, bucket, bitset, k => by
    rw [bitsetFill, if_neg (by omega)]
  | n + 1, bucket, bitset, k => by
    rw [bitsetFill, bitsetFill_apply, Function.update_apply]
    by_cases hk : k = bucket + 1
    · rw [if_neg (by omega), if_pos hk, if_pos (by omega)]
    · rw [if_neg hk]
      refine if_congr ?_ rfl rfl
      omega

/-- **Writing a range writes its bits and no other**, where a mask puts the bit `v` in its
places. -/
theorem bitsetTest_bitsetRange {apply : BitVec 8 → BitVec 8 → BitVec 8} {whole : BitVec 8}
    {v : Bool}
    (happly : ∀ byte mask k, k < 8 →
      (apply byte mask).getLsbD k = if mask.getLsbD k then v else byte.getLsbD k)
    (hwhole : ∀ k < 8, whole.getLsbD k = v) (hle : fromPos ≤ toPos) (pos : ℕ) :
    bitsetTest (bitsetRange apply whole bitset fromPos toPos) pos
      = if fromPos ≤ pos ∧ pos ≤ toPos then v else bitsetTest bitset pos := by
  have hpos : pos % 8 < 8 := Nat.mod_lt _ (by decide)
  have hfrom : fromPos % 8 < 8 := Nat.mod_lt _ (by decide)
  have hto : toPos % 8 < 8 := Nat.mod_lt _ (by decide)
  rw [bitsetRange]
  by_cases hsame : fromPos / 8 = toPos / 8
  · -- both ends in one byte
    rw [if_pos hsame, bitsetTest_update]
    by_cases hbyte : pos / 8 = fromPos / 8
    · rw [if_pos hbyte, happly _ _ _ hpos, getLsbD_bitsetCharMask hfrom hto hpos, bitsetTest_eq,
        hbyte]
      refine if_congr ?_ rfl rfl
      rw [decide_eq_true_eq]
      omega
    · rw [if_neg hbyte, if_neg (by omega)]
  · rw [if_neg hsame, bitsetTest_eq, bitsetFill_apply]
    by_cases hbetween : fromPos / 8 < pos / 8
        ∧ pos / 8 ≤ fromPos / 8 + (toPos / 8 - fromPos / 8 - 1)
    · rw [if_pos hbetween, hwhole _ hpos, if_pos (by omega)]
    · rw [if_neg hbetween, ← bitsetTest_eq, bitsetTest_update, bitsetTest_update]
      by_cases hlast : pos / 8 = toPos / 8
      · rw [if_pos hlast, happly _ _ _ hpos, getLsbD_bitsetCharMask (by decide) hto hpos,
          Function.update_of_ne (Ne.symm hsame), bitsetTest_eq, hlast]
        refine if_congr ?_ rfl rfl
        rw [decide_eq_true_eq]
        omega
      · rw [if_neg hlast]
        by_cases hfirst : pos / 8 = fromPos / 8
        · rw [if_pos hfirst, happly _ _ _ hpos, getLsbD_bitsetCharMask hfrom (by decide) hpos,
            bitsetTest_eq, hfirst]
          refine if_congr ?_ rfl rfl
          rw [decide_eq_true_eq]
          omega
        · rw [if_neg hfirst, if_neg (by omega)]

/-- `bitset_clear_range` clears its range. -/
theorem bitsetTest_bitsetClearRange (hle : fromPos ≤ toPos) :
    bitsetTest (bitsetClearRange bitset fromPos toPos) pos
      = if fromPos ≤ pos ∧ pos ≤ toPos then false else bitsetTest bitset pos := by
  refine bitsetTest_bitsetRange (fun byte mask k hk => ?_) (fun k _ => BitVec.getLsbD_zero) hle pos
  rw [BitVec.getLsbD_and, BitVec.getLsbD_not]
  cases mask.getLsbD k <;> simp [hk]

/-- `bitset_set_range` sets its range. -/
theorem bitsetTest_bitsetSetRange (hle : fromPos ≤ toPos) :
    bitsetTest (bitsetSetRange bitset fromPos toPos) pos
      = if fromPos ≤ pos ∧ pos ≤ toPos then true else bitsetTest bitset pos := by
  have hones : ∀ k : Fin 8, (255#8).getLsbD k = true := by decide
  refine bitsetTest_bitsetRange (fun byte mask k _ => ?_) (fun k hk => hones ⟨k, hk⟩) hle pos
  rw [BitVec.getLsbD_or]
  cases mask.getLsbD k <;> simp

/-- Bytes behind the last one of a range are not written. -/
theorem bitsetRange_apply_of_lt {apply : BitVec 8 → BitVec 8 → BitVec 8} {whole : BitVec 8}
    (hle : fromPos ≤ toPos) {k : ℕ} (hk : toPos < 8 * k) :
    bitsetRange apply whole bitset fromPos toPos k = bitset k := by
  rw [bitsetRange]
  split
  · exact Function.update_of_ne (by omega) _ _
  · rw [bitsetFill_apply, if_neg (by omega), Function.update_of_ne (by omega),
      Function.update_of_ne (by omega)]

/-! ## …and counted -/

/-- How many bits there are in a stretch. -/
def countBits (bitset : Bitset) (lo hi : ℕ) : ℕ :=
  ∑ i ∈ Finset.Ico lo hi, (bitsetTest bitset i).toNat

theorem countBits_add {lo mid hi : ℕ} (h : lo ≤ mid) (h' : mid ≤ hi) :
    countBits bitset lo mid + countBits bitset mid hi = countBits bitset lo hi :=
  Finset.sum_Ico_consecutive _ h h'

/-- The table has the number of bits of every byte. -/
theorem popcountByte_eq (b : BitVec 8) :
    popcountByte b = ∑ k ∈ Finset.range 8, (b.getLsbD k).toNat := by
  have htable : ∀ b : BitVec 8, popcountByte b = (b.getLsbD 0).toNat + (b.getLsbD 1).toNat
      + (b.getLsbD 2).toNat + (b.getLsbD 3).toNat + (b.getLsbD 4).toNat + (b.getLsbD 5).toNat
      + (b.getLsbD 6).toNat + (b.getLsbD 7).toNat := by decide +kernel
  rw [htable]
  simp only [Finset.sum_range_succ, Finset.sum_range_zero, Nat.zero_add]

/-- A byte under a mask has the bits of the masked stretch. -/
theorem popcountByte_and (bitset : Bitset) (k : ℕ) {i j : ℕ} (hi : i ≤ j) (hj : j < 8) :
    popcountByte (bitset k &&& bitsetCharMask i j)
      = countBits bitset (8 * k + i) (8 * k + j + 1) := by
  have hbit : ∀ m ∈ Finset.range 8, ((bitset k &&& bitsetCharMask i j).getLsbD m).toNat
      = if i ≤ m ∧ m < j + 1 then (bitsetTest bitset (8 * k + m)).toNat else 0 := by
    intro m hm
    have hm : m < 8 := Finset.mem_range.mp hm
    rw [BitVec.getLsbD_and, getLsbD_bitsetCharMask (by omega) hj hm, bitsetTest_eq,
      show (8 * k + m) / 8 = k by omega, show (8 * k + m) % 8 = m by omega]
    by_cases hin : i ≤ m ∧ m < j + 1
    · rw [if_pos hin, decide_eq_true (by omega), Bool.and_true]
    · rw [if_neg hin, decide_eq_false (by omega), Bool.and_false, Bool.toNat_false]
  have hfilter : (Finset.range 8).filter (fun m => i ≤ m ∧ m < j + 1) = Finset.Ico i (j + 1) := by
    ext m
    simp only [Finset.mem_filter, Finset.mem_range, Finset.mem_Ico]
    omega
  rw [popcountByte_eq, Finset.sum_congr rfl hbit, ← Finset.sum_filter, hfilter, countBits,
    Nat.add_assoc, Nat.add_comm (8 * k) i, Nat.add_comm (8 * k) (j + 1), ← Finset.sum_Ico_add']
  exact Finset.sum_congr rfl fun m _ => by rw [Nat.add_comm]

theorem popcountByte_eq_countBits (bitset : Bitset) (k : ℕ) :
    popcountByte (bitset k) = countBits bitset (8 * k) (8 * k + 8) := by
  have hmask : bitset k &&& bitsetCharMask 0 7 = bitset k := by
    rw [show bitsetCharMask 0 7 = BitVec.allOnes 8 by decide, BitVec.and_allOnes]
  rw [← hmask]
  exact popcountByte_and bitset k (Nat.zero_le 7) (by decide)

theorem bitsetCountLoop_eq (bitset : Bitset) : ∀ n bucket result : ℕ,
    bitsetCountLoop bitset n bucket result
      = result + countBits bitset (8 * (bucket + 1)) (8 * (bucket + 1) + 8 * n)
  | 0, bucket, result => by simp [bitsetCountLoop, countBits]
  | n + 1, bucket, result => by
    rw [bitsetCountLoop, bitsetCountLoop_eq, popcountByte_eq_countBits, Nat.add_assoc,
      show 8 * (bucket + 1 + 1) = 8 * (bucket + 1) + 8 by omega,
      countBits_add (by omega) (by omega)]
    congr 2
    omega

/-- **`bitset_count_range` counts its range.** -/
theorem bitsetCountRange_eq (hle : fromPos ≤ toPos) :
    bitsetCountRange bitset fromPos toPos = countBits bitset fromPos (toPos + 1) := by
  have hfrom : 8 * (fromPos / 8) + fromPos % 8 = fromPos := Nat.div_add_mod fromPos 8
  have hto : 8 * (toPos / 8) + toPos % 8 = toPos := Nat.div_add_mod toPos 8
  rw [bitsetCountRange]
  by_cases hsame : fromPos / 8 = toPos / 8
  · rw [if_pos hsame, popcountByte_and _ _ (by omega) (by omega), hfrom, hsame, hto]
  · rw [if_neg hsame, bitsetCountLoop_eq, popcountByte_and _ _ (by omega) (by decide),
      popcountByte_and _ _ (by omega) (by omega), hfrom, hto, Nat.add_right_comm,
      show 8 * (fromPos / 8) + 7 + 1 = 8 * (fromPos / 8 + 1) by omega,
      countBits_add (by omega) (by omega),
      show 8 * (fromPos / 8 + 1) + 8 * (toPos / 8 - fromPos / 8 - 1) = 8 * (toPos / 8) + 0 by omega,
      countBits_add (by omega) (by omega)]

end Bits

end MoonOS

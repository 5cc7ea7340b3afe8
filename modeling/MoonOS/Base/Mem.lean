import MoonOS.Lib.ByteMemory

/-!
# Base/Mem — the byte loops of `libs/base/sources/mem.c`

`memset` and `memcpy` are the source's loops, one byte a step.  `memset_eq_fill` is the closed form
of the first; a byte the second copies is the one that was there if it was not overwritten before it
was read, `memcpy_at'`, and else one of the first bytes over again, `memcpy_at'_mod`.

`memmove` is the source's two loops.  The one for `dst ≤ src` starts its counter at `n` and runs
while the counter is *above* `n`, so it never runs: `memmove_of_le`.  The other copies upwards, and
returns the pointer it has advanced.

* `memmoveMoves_iff` — so `memmove` moves the block, leaves the rest and returns `dst` exactly when
  there was nothing to move.
-/

namespace MoonOS

open ByteMemory

variable {m : Mem} {a b dst src : BitVec 64} {n : ℕ}

/-! ## `memset` and `memcpy` -/

/-- `while (len--) *ptr++ = val;` -/
def memset (m : Mem) (ptr : BitVec 64) (val : BitVec 8) : ℕ → Mem
  | 0 => m
  | len + 1 => memset (Function.update m ptr val) (ptr + 1) val len

/-- `for (; len != 0; len--) *dest++ = *src++;` -/
def memcpy (m : Mem) (dest src : BitVec 64) : ℕ → Mem
  | 0 => m
  | len + 1 => memcpy (Function.update m dest (m src)) (dest + 1) (src + 1) len

/-- The offset of an address from `a + 1`, one less than from `a`. -/
theorem toNat_sub_succ (h : b ≠ a) : (b - a).toNat = (b - (a + 1)).toNat + 1 := by
  bv_omega

/-- **`memset` fills the block.** -/
theorem memset_eq_fill (m : Mem) (a : BitVec 64) (v : BitVec 8) :
    ∀ n, memset m a v n = fill m a n v
  | 0 => by funext b; simp [memset, fill]
  | n + 1 => by
      funext b
      rw [memset, memset_eq_fill _ _ v n]
      by_cases hb : b = a
      · subst hb
        simp [fill]
      · have hiff : (b - a).toNat < n + 1 ↔ (b - (a + 1)).toNat < n := by
          rw [toNat_sub_succ hb]
          omega
        simp only [fill, Function.update_of_ne hb, hiff]

/-- `memcpy` writes its `n` bytes and no other. -/
theorem sameOutside_memcpy (m : Mem) (dst src : BitVec 64) (n : ℕ) :
    SameOutside dst n m (memcpy m dst src n) := by
  intro b hb
  induction n generalizing m dst src with
  | zero => rfl
  | succ n ih =>
    have hne : b ≠ dst := by
      rintro rfl
      simp at hb
    rw [memcpy, ih _ _ _ (by rw [toNat_sub_succ hne] at hb; omega),
      Function.update_of_ne hne]

/-- `memcpy` out of an image that lies apart from the memory it writes. -/
def memcpyFrom (image m : Mem) (dest src : BitVec 64) : ℕ → Mem
  | 0 => m
  | len + 1 => memcpyFrom image (Function.update m dest (image src)) (dest + 1) (src + 1) len

/-- A byte it does not write is unchanged. -/
theorem memcpyFrom_of_outside {image : Mem} (h : n ≤ (b - dst).toNat) :
    memcpyFrom image m dst src n b = m b := by
  induction n generalizing m dst src with
  | zero => rfl
  | succ n ih =>
    have hb : b ≠ dst := by
      rintro rfl
      simp at h
    rw [memcpyFrom, ih (by rw [toNat_sub_succ hb] at h; omega), Function.update_of_ne hb]

/-- …and one it does is the image's. -/
theorem memcpyFrom_of_inside {image : Mem} {i : ℕ} (h : i < n) (hn : n < 2 ^ 64) :
    memcpyFrom image m dst src n (at' dst i) = image (at' src i) := by
  induction n generalizing m dst src i with
  | zero => omega
  | succ n ih =>
    rw [memcpyFrom]
    cases i with
    | zero =>
      rw [at'_zero, at'_zero, memcpyFrom_of_outside (by bv_omega), Function.update_self]
    | succ i => rw [← at'_succ, ← at'_succ, ih (by omega) (by omega)]

/-- The byte that goes to `dst + i` is the one round `i` reads, and the rest of the copy does not
come back to it. -/
theorem memcpy_at'_eq {i : ℕ} (hi : i < n) (hn : n < 2 ^ 64) :
    memcpy m dst src n (at' dst i) = memcpy m dst src i (at' src i) := by
  obtain ⟨n, rfl⟩ := Nat.exists_eq_add_one_of_ne_zero (Nat.ne_of_gt (Nat.zero_lt_of_lt hi))
  rw [memcpy]
  induction i generalizing m dst src n with
  | zero =>
    rw [at'_zero, at'_zero, sameOutside_memcpy _ _ _ _ _ (by bv_omega), Function.update_self,
      memcpy]
  | succ i ih =>
    obtain ⟨n, rfl⟩ := Nat.exists_eq_add_one_of_ne_zero (show n ≠ 0 by omega)
    rw [← at'_succ dst, ← at'_succ src, memcpy, ih n (by omega) (by omega), memcpy]

/-- **A byte that is not overwritten before it is read is moved.** -/
theorem memcpy_at' {i : ℕ} (hi : i < n) (hn : n < 2 ^ 64) (h : ∀ j < i, at' dst j ≠ at' src i) :
    memcpy m dst src n (at' dst i) = m (at' src i) := by
  rw [memcpy_at'_eq hi hn]
  refine sameOutside_memcpy m dst src i _ (Nat.le_of_not_lt fun hlt => h _ hlt ?_)
  rw [at'_toNat_sub]

/-- **A copy onto its own continuation repeats its first bytes**: with `dst` above `src`, the block
between them over and over. -/
theorem memcpy_at'_mod {i : ℕ} (hne : src ≠ dst) (hi : i < n) (hn : n < 2 ^ 64) :
    memcpy m dst src n (at' dst i) = m (at' src (i % (dst - src).toNat)) := by
  have hpos : 0 < (dst - src).toNat := by bv_omega
  induction i using Nat.strong_induction_on generalizing n with
  | _ i ih =>
    rw [memcpy_at'_eq hi hn]
    by_cases hlt : i < (dst - src).toNat
    · rw [Nat.mod_eq_of_lt hlt]
      refine sameOutside_memcpy m dst src i _ ?_
      bv_omega
    · -- a byte of the copy, which round `i - (dst - src)` wrote
      have hback : at' src i = at' dst (i - (dst - src).toNat) := by bv_omega
      rw [hback, ih _ (by omega) (by omega) (by omega), ← Nat.mod_eq_sub_mod (by omega)]

/-! ## `memmove` -/

/-- `for (int i = n; i > n; i--) *dst_ptr++ = *src_ptr--;` from the counter `i`, for `n < 2³¹`. -/
def memmoveDown (n : ℕ) : ℕ → Mem → BitVec 64 → BitVec 64 → Mem × BitVec 64
  | 0, m, dst, _ => (m, dst)
  | i + 1, m, dst, src =>
    if n < i + 1 then memmoveDown n i (Function.update m dst (m src)) (dst + 1) (src - 1)
    else (m, dst)

/-- `memmove`, with the pointer it returns.  The first loop is `memcpy`'s. -/
def memmove (m : Mem) (dst src : BitVec 64) (n : ℕ) : Mem × BitVec 64 :=
  if src < dst then (memcpy m dst src n, at' dst n) else memmoveDown n n m dst src

/-- **Moving down moves nothing.** -/
theorem memmove_of_le (h : ¬ src < dst) : memmove m dst src n = (m, dst) := by
  rw [memmove, if_neg h]
  cases n with
  | zero => rfl
  | succ n => rw [memmoveDown, if_neg (Nat.lt_irrefl _)]

/-- **What `memmove` is to do.** -/
structure MemmoveMoves (m : Mem) (dst src : BitVec 64) (n : ℕ) : Prop where
  moved : ∀ i < n, (memmove m dst src n).1 (at' dst i) = m (at' src i)
  outside : SameOutside dst n m (memmove m dst src n).1
  result : (memmove m dst src n).2 = dst

/-- It writes nothing outside the block, whichever loop runs. -/
theorem sameOutside_memmove (m : Mem) (dst src : BitVec 64) (n : ℕ) :
    SameOutside dst n m (memmove m dst src n).1 := by
  by_cases h : src < dst
  · rw [memmove, if_pos h]
    exact sameOutside_memcpy m dst src n
  · rw [memmove_of_le h]
    exact SameOutside.refl dst n m

/-- **Which bytes arrive**: moving up, those of a block that repeats with the distance it is moved
by; moving down, those that were there already. -/
theorem memmove_moved_iff (hn : n < 2 ^ 31) :
    (∀ i < n, (memmove m dst src n).1 (at' dst i) = m (at' src i))
      ↔ if src < dst then ∀ i < n, m (at' src (i % (dst - src).toNat)) = m (at' src i)
        else ∀ i < n, m (at' dst i) = m (at' src i) := by
  split
  case isTrue h =>
    have hne : src ≠ dst := by
      rintro rfl
      exact BitVec.lt_irrefl _ h
    refine forall₂_congr fun i hi => ?_
    rw [memmove, if_pos h]
    dsimp only
    rw [memcpy_at'_mod hne hi (by omega)]
  case isFalse h => rw [memmove_of_le h]

/-- The pointer `memmove` returns is `dst` when no byte was copied. -/
theorem memmove_result_iff (hn : n < 2 ^ 31) :
    (memmove m dst src n).2 = dst ↔ src < dst → n = 0 := by
  by_cases h : src < dst
  · rw [memmove, if_pos h, imp_iff_right h]
    constructor
    · intro heq
      bv_omega
    · rintro rfl
      exact at'_zero dst
  · rw [memmove_of_le h]
    exact iff_of_true rfl fun hlt => absurd hlt h

/-- **When `memmove` does what it is to do**: when there is nothing to move. -/
theorem memmoveMoves_iff (hn : n < 2 ^ 31) : MemmoveMoves m dst src n
    ↔ n = 0 ∨ ¬ src < dst ∧ ∀ i < n, m (at' dst i) = m (at' src i) := by
  constructor
  · rintro ⟨hmoved, -, hresult⟩
    rw [memmove_result_iff hn] at hresult
    rw [memmove_moved_iff hn] at hmoved
    by_cases h : src < dst
    · exact .inl (hresult h)
    · rw [if_neg h] at hmoved
      exact .inr ⟨h, hmoved⟩
  · rintro (rfl | ⟨h, hsame⟩)
    · exact ⟨fun i hi => absurd hi (Nat.not_lt_zero i), sameOutside_memmove _ _ _ _,
        (memmove_result_iff hn).mpr fun _ => rfl⟩
    · refine ⟨(memmove_moved_iff hn).mpr ?_, sameOutside_memmove _ _ _ _,
        (memmove_result_iff hn).mpr fun hlt => absurd hlt h⟩
      rw [if_neg h]
      exact hsame

/-- A block of zeros moved down onto zeros. -/
theorem memmoveMoves_zeros : MemmoveMoves (fun _ => 0#8) 0x1000#64 0x1008#64 16 :=
  (memmoveMoves_iff (by decide)).mpr (.inr ⟨by decide, fun _ _ => rfl⟩)

/-- **In a memory where each byte holds its address**, two bytes moved down by one stay where they
are, and of two moved up by one the first arrives twice; the pointer returned is the end. -/
theorem not_memmoveMoves_lowBytes :
    ¬ MemmoveMoves (BitVec.setWidth 8) 0x1000#64 0x1001#64 2
      ∧ ¬ MemmoveMoves (BitVec.setWidth 8) 0x1001#64 0x1000#64 2
      ∧ (memmove (BitVec.setWidth 8) 0x1000#64 0x1001#64 2).1 0x1000#64 = 0x00#8
      ∧ (memmove (BitVec.setWidth 8) 0x1001#64 0x1000#64 2).1 0x1002#64 = 0x00#8
      ∧ (memmove (BitVec.setWidth 8) 0x1001#64 0x1000#64 2).2 = 0x1003#64 := by
  refine ⟨fun h => ?_, fun h => ?_, by decide, by decide, by decide⟩
  · exact absurd (h.moved 0 (by decide)) (by decide)
  · exact absurd h.result (by decide)

end MoonOS

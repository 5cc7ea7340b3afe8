import MoonOS.Lib.ByteString

/-!
# Base/Str — the loops of `libs/base/sources/string.c`

`strlen` counts up to the terminator.  `strncmp` compares bytes only, does not stop at a terminator,
and takes a null pointer for a string that equals every other.
-/

namespace MoonOS

open ByteMemory

variable {m : Mem} {a b : BitVec 64} {n : ℕ}

/-- `strlen`'s loop.  Addresses repeat after `2⁶⁴` bytes, so fuel that runs out is a loop that does
not end. -/
def strlenLoop (m : Mem) : ℕ → BitVec 64 → Option ℕ
  | 0, _ => none
  | fuel + 1, s => if m s = 0#8 then some 0 else (strlenLoop m fuel (s + 1)).map (· + 1)

/-- `strlen`. -/
def strlen (m : Mem) (s : BitVec 64) : Option ℕ := strlenLoop m (2 ^ 64) s

theorem strlenLoop_eq : ∀ {s : List (BitVec 8)} {a : BitVec 64} {fuel : ℕ}, CString m a s →
    s.length < fuel → strlenLoop m fuel a = some s.length
  | [], a, fuel + 1, h, _ => by rw [strlenLoop, if_pos h.nil, List.length_nil]
  | c :: s, a, fuel + 1, h, hfuel => by
      obtain ⟨rfl, hne, htail⟩ := h.cons
      rw [strlenLoop, if_neg hne, strlenLoop_eq htail (Nat.lt_of_succ_lt_succ hfuel),
        Option.map_some, List.length_cons]

/-- The length of a string. -/
theorem strlen_eq {s : List (BitVec 8)} (h : CString m a s) : strlen m a = some s.length :=
  strlenLoop_eq h h.length_lt

/-- `strncmp`'s loop from index `i` on, with `n` more bytes to compare. -/
def strncmpLoop (m : Mem) (str1 str2 : BitVec 64) : ℕ → ℕ → BitVec 32
  | 0, _ => 0#32
  | n + 1, i => if m (at' str1 i) ≠ m (at' str2 i) then -1#32 else strncmpLoop m str1 str2 n (i + 1)

/-- `strncmp`.  The loop's condition has `str1` in it, so a null pointer is not read. -/
def strncmp (m : Mem) (str1 str2 : BitVec 64) (n : ℕ) : BitVec 32 :=
  if str1 = 0#64 then 0#32 else strncmpLoop m str1 str2 n 0

theorem strncmpLoop_eq_zero (m : Mem) (a b : BitVec 64) : ∀ n i,
    strncmpLoop m a b n i = 0#32 ↔ ∀ j < n, m (at' a (i + j)) = m (at' b (i + j))
  | 0, _ => iff_of_true rfl fun _ hj => absurd hj (Nat.not_lt_zero _)
  | n + 1, i => by
      have hnext : ∀ j, i + 1 + j = i + (j + 1) := fun j => by omega
      rw [strncmpLoop, Nat.forall_lt_succ_left]
      by_cases h : m (at' a i) = m (at' b i)
      · rw [if_neg (not_not_intro h), strncmpLoop_eq_zero m a b n]
        simp only [hnext]
        exact (and_iff_right h).symm
      · rw [if_pos h]
        exact iff_of_false (by decide) fun hall => h hall.1

/-- **What `strncmp` compares**: `n` bytes, unless the first string is the null pointer. -/
theorem strncmp_eq_zero :
    strncmp m a b n = 0#32 ↔ a = 0#64 ∨ ∀ i < n, m (at' a i) = m (at' b i) := by
  rw [strncmp]
  by_cases h : a = 0#64
  · simp [h]
  · simp [h, strncmpLoop_eq_zero]

end MoonOS

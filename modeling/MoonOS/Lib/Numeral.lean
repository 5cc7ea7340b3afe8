import Mathlib.Tactic
import Mathlib.Data.Nat.Digits.Defs

/-!
# Lib/Numeral — numbers written with a fixed count of digits

`numeral b w n` is `n` in base `b`, most significant digit first, padded with zeros to `w` digits.
The value of a list of digits is Mathlib's `Nat.ofDigits`, which takes the least significant one
first; `ofDigits_numeral` says that the two undo each other.
-/

namespace Numeral

variable {b w n : ℕ}

/-- `n` in base `b` with `w` digits, the most significant first. -/
def numeral (b : ℕ) : ℕ → ℕ → List ℕ
  | 0, _ => []
  | w + 1, n => numeral b w (n / b) ++ [n % b]

theorem length_numeral (b w n : ℕ) : (numeral b w n).length = w := by
  induction w generalizing n with
  | zero => rfl
  | succ w ih => rw [numeral, List.length_append, ih, List.length_singleton]

theorem lt_of_mem_numeral (hb : 0 < b) {d : ℕ} (hd : d ∈ numeral b w n) : d < b := by
  induction w generalizing n with
  | zero => cases hd
  | succ w ih =>
    rcases List.mem_append.mp hd with hd | hd
    · exact ih hd
    · rw [List.mem_singleton.mp hd]
      exact Nat.mod_lt n hb

/-- The digits from the last: the `k`-th is that of `bᵏ`. -/
theorem getElem?_numeral {k : ℕ} (hk : k < w) :
    (numeral b w n)[w - 1 - k]? = some (n / b ^ k % b) := by
  induction w generalizing n k with
  | zero => exact absurd hk (Nat.not_lt_zero k)
  | succ w ih =>
    rw [numeral]
    cases k with
    | zero => simp [length_numeral]
    | succ k =>
      rw [List.getElem?_append_left (by rw [length_numeral]; omega),
        show w + 1 - 1 - (k + 1) = w - 1 - k by omega, ih (by omega), Nat.div_div_eq_div_mul,
        Nat.pow_succ']

/-- A list of digits, one more behind it. -/
theorem ofDigits_reverse_concat (b : ℕ) (ds : List ℕ) (d : ℕ) :
    Nat.ofDigits b (ds ++ [d]).reverse = Nat.ofDigits b ds.reverse * b + d := by
  rw [List.reverse_append, List.reverse_singleton, List.singleton_append, Nat.ofDigits_cons,
    Nat.add_comm, Nat.mul_comm]

/-- **The value of the digits of a number is the number.** -/
theorem ofDigits_numeral (h : n < b ^ w) : Nat.ofDigits b (numeral b w n).reverse = n := by
  induction w generalizing n with
  | zero => simp_all [numeral]
  | succ w ih =>
    have hdiv : n / b < b ^ w := Nat.div_lt_of_lt_mul (by rwa [Nat.pow_succ, Nat.mul_comm] at h)
    rw [numeral, ofDigits_reverse_concat, ih hdiv, Nat.mul_comm, Nat.div_add_mod]

end Numeral

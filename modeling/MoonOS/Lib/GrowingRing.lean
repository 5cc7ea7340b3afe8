import Mathlib.Tactic

/-!
# Lib/GrowingRing — a pointer that goes round a ring while the ring grows

A ring of `n` places has a pointer `c`.  An `advance` moves the pointer to the next place,
cyclically, and a `grow` adds a place behind the last.  `visits` lists the places the pointer
comes to.

`visits_eq` says what one round looks like from a place `k` back to `k`: everything behind `k` up to
the size the ring has when the pointer wraps, and then everything before `k`.  So every other place
that was there at the start is visited once (`count_visits`).
-/

namespace GrowingRing

/-- What happens to the ring. -/
inductive Event
  | grow
  | advance
deriving DecidableEq

/-- The size and the pointer after some events. -/
def after : List Event → ℕ → ℕ → ℕ × ℕ
  | [], n, c => (n, c)
  | .grow :: es, n, c => after es (n + 1) c
  | .advance :: es, n, c => after es n ((c + 1) % n)

/-- The places the pointer comes to. -/
def visits : List Event → ℕ → ℕ → List ℕ
  | [], _, _ => []
  | .grow :: es, n, c => visits es (n + 1) c
  | .advance :: es, n, c => (c + 1) % n :: visits es n ((c + 1) % n)

section Round

variable {k : ℕ}

/-- **After the wrap**: up to `k`, one place after the other. -/
theorem visits_below : ∀ (es : List Event) {n c : ℕ}, c < k → k < n → k ∉ visits es n c →
    ((after es n c).2 + 1) % (after es n c).1 = k → visits es n c = List.range' (c + 1) (k - c - 1)
  | [], n, c, hc, hk, _, hend => by
      rw [after, Nat.mod_eq_of_lt (by omega)] at hend
      rw [visits, show k - c - 1 = 0 by omega, List.range'_zero]
  | .grow :: es, n, c, hc, hk, hne, hend => visits_below es hc (by omega) hne hend
  | .advance :: es, n, c, hc, hk, hne, hend => by
      have hmod : (c + 1) % n = c + 1 := Nat.mod_eq_of_lt (by omega)
      rw [visits, hmod, List.mem_cons, not_or] at hne
      rw [after, hmod] at hend
      rw [visits, hmod, visits_below es (by omega) hk hne.2 hend,
        show k - c - 1 = k - (c + 1) - 1 + 1 by omega, List.range'_succ]

/-- **Before the wrap**: to the end of the ring, as large as it is by then, and on from the
start. -/
theorem visits_above : ∀ (es : List Event) {n c : ℕ}, k ≤ c → c < n → k ∉ visits es n c →
    ((after es n c).2 + 1) % (after es n c).1 = k →
    ∃ N ≥ n, visits es n c = List.range' (c + 1) (N - c - 1) ++ List.range k
  | [], n, c, hk, hc, _, hend => by
      rw [after] at hend
      rcases Nat.lt_or_ge (c + 1) n with hlt | hge
      · rw [Nat.mod_eq_of_lt hlt] at hend
        omega
      · obtain rfl : n = c + 1 := by omega
        rw [Nat.mod_self] at hend
        subst hend
        exact ⟨c + 1, le_rfl, by simp [visits]⟩
  | .grow :: es, n, c, hk, hc, hne, hend => by
      obtain ⟨N, hN, hvis⟩ := visits_above es hk (Nat.lt_succ_of_lt hc) hne hend
      exact ⟨N, by omega, hvis⟩
  | .advance :: es, n, c, hk, hc, hne, hend => by
      rw [visits, List.mem_cons, not_or] at hne
      rw [after] at hend
      rcases Nat.lt_or_ge (c + 1) n with hlt | hge
      · rw [Nat.mod_eq_of_lt hlt] at hne hend
        obtain ⟨N, hN, hvis⟩ := visits_above es (by omega) hlt hne.2 hend
        refine ⟨N, hN, ?_⟩
        rw [visits, Nat.mod_eq_of_lt hlt, hvis, show N - c - 1 = N - (c + 1) - 1 + 1 by omega,
          List.range'_succ, List.cons_append]
      · obtain rfl : n = c + 1 := by omega
        rw [Nat.mod_self] at hne hend
        refine ⟨c + 1, le_rfl, ?_⟩
        rw [visits, Nat.mod_self, visits_below es (by omega) (by omega) hne.2 hend,
          List.range_eq_range', show k = k - 0 - 1 + 1 by omega, List.range'_succ]
        simp

/-- **One round from `k` to `k`.** -/
theorem visits_eq {es : List Event} {n : ℕ} (hk : k < n) (hne : k ∉ visits es n k)
    (hend : ((after es n k).2 + 1) % (after es n k).1 = k) :
    ∃ N ≥ n, visits es n k = List.range' (k + 1) (N - k - 1) ++ List.range k :=
  visits_above es le_rfl hk hne hend

/-- **Every other place that was there at the start is visited once.** -/
theorem count_visits {es : List Event} {n l : ℕ} (hk : k < n) (hne : k ∉ visits es n k)
    (hend : ((after es n k).2 + 1) % (after es n k).1 = k) (hl : l < n) (hlk : l ≠ k) :
    (visits es n k).count l = 1 := by
  obtain ⟨N, hN, hvis⟩ := visits_eq hk hne hend
  rw [hvis]
  refine List.count_eq_one_of_mem ?_ ?_
  · rw [List.nodup_append]
    refine ⟨List.nodup_range', List.nodup_range, ?_⟩
    intro a ha b hb
    rw [List.mem_range'_1] at ha
    rw [List.mem_range] at hb
    omega
  · rw [List.mem_append, List.mem_range'_1, List.mem_range]
    omega

end Round

end GrowingRing

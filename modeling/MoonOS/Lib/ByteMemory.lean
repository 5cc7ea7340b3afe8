import Mathlib.Tactic

/-!
# Lib/ByteMemory — byte-addressed memory over 64-bit pointers

A memory is a total map from 64-bit addresses to bytes; pointer arithmetic wraps.  Everything is
stated through the *offset* `(b - a).toNat` of one address from another, so a range of `n` bytes at
`a` is `{b | (b - a).toNat < n}` and no lemma needs a no-overflow side condition.

* `load` / `store` — little-endian words of `n` bytes, with `load_store_same` and
  `load_store_apart`;
* `fill` / `copy` — the closed forms of the byte loops that set and move memory;
* `Apart` — two ranges that share no byte, the one hypothesis the frame lemmas take.
-/

namespace ByteMemory

/-- A byte-addressed memory. -/
abbrev Mem := BitVec 64 → BitVec 8

variable {m m' : Mem} {a b : BitVec 64} {n k : ℕ}

/-! ## Ranges -/

/-- The address `i` bytes after `a`. -/
abbrev at' (a : BitVec 64) (i : ℕ) : BitVec 64 := a + BitVec.ofNat 64 i

/-- Two ranges of bytes that share no address. -/
def Apart (a : BitVec 64) (n : ℕ) (b : BitVec 64) (k : ℕ) : Prop :=
  ∀ i < n, k ≤ (at' a i - b).toNat

theorem toNat_at' {i : ℕ} (h : a.toNat + i < 2 ^ 64) : (at' a i).toNat = a.toNat + i := by
  rw [at', BitVec.toNat_add, BitVec.toNat_ofNat]
  omega

theorem toNat_at'_sub (a : BitVec 64) {i : ℕ} (hi : i < 2 ^ 64) : (at' a i - a).toNat = i := by
  rw [at', BitVec.add_comm a, BitVec.add_sub_cancel, BitVec.toNat_ofNat, Nat.mod_eq_of_lt hi]

/-- An address is its offset from any other. -/
theorem at'_toNat_sub (a b : BitVec 64) : at' a (b - a).toNat = b := by
  rw [at', BitVec.ofNat_toNat, BitVec.setWidth_eq, BitVec.add_comm a, BitVec.sub_add_cancel]

theorem at'_zero (a : BitVec 64) : at' a 0 = a := by
  simp [at']

theorem at'_at' (a : BitVec 64) (i j : ℕ) : at' (at' a i) j = at' a (i + j) := by
  simp only [at', BitVec.add_assoc, BitVec.ofNat_add]

theorem at'_succ (a : BitVec 64) (i : ℕ) : at' (a + 1) i = at' a (i + 1) := by
  rw [show a + 1 = at' a 1 from rfl, at'_at', Nat.add_comm]

theorem at'_add_one (a : BitVec 64) (i : ℕ) : at' a i + 1 = at' a (i + 1) :=
  at'_at' a i 1

/-- **Two windows of one block that follow each other are apart.** -/
theorem apart_at' (a : BitVec 64) {p q : ℕ} (h : p + n ≤ q ∨ q + k ≤ p)
    (hn : p + n ≤ 2 ^ 64) (hk : q + k ≤ 2 ^ 64) : Apart (at' a p) n (at' a q) k := by
  intro i hi
  rw [at'_at']
  rcases h with h | h
  · have hneg : at' a (p + i) - at' a q = BitVec.ofNat 64 (2 ^ 64 + (p + i) - q) := by
      refine BitVec.eq_of_toNat_eq ?_
      simp only [at', BitVec.toNat_sub, BitVec.toNat_add, BitVec.toNat_ofNat]
      omega
    rw [hneg, BitVec.toNat_ofNat, Nat.mod_eq_of_lt (by omega)]
    omega
  · have hpos : at' a (p + i) = at' (at' a q) (p + i - q) := by
      rw [at'_at', Nat.add_sub_cancel' (by omega)]
    rw [hpos, toNat_at'_sub _ (by omega)]
    omega

/-- What is apart from a block is apart from every window of it. -/
theorem Apart.window (h : Apart a n b k) {p j : ℕ} (hj : p + j ≤ k) (hk : k ≤ 2 ^ 64) :
    Apart a n (at' b p) j := by
  intro i hi
  have hfar := h i hi
  bv_omega

/-! ## Words -/

/-- The little-endian word of `n` bytes at `a`. -/
def load (m : Mem) (a : BitVec 64) : (n : ℕ) → BitVec (8 * n)
  | 0 => 0#0
  | n + 1 => (m (at' a n) ++ load m a n).cast (by omega)

/-- The memory after the `n` bytes at `a` have been set to the little-endian word `v`. -/
def store (m : Mem) (a : BitVec 64) (n : ℕ) (v : BitVec (8 * n)) : Mem := fun b =>
  if (b - a).toNat < n then v.extractLsb' (8 * (b - a).toNat) 8 else m b

/-- A byte outside a stored word is unchanged. -/
theorem store_of_outside {v : BitVec (8 * n)} (h : n ≤ (b - a).toNat) : store m a n v b = m b :=
  if_neg (by omega)

/-- **A loaded word, bit by bit** — bit `j` lives in byte `j / 8`. -/
theorem getLsbD_load (m : Mem) (a : BitVec 64) :
    ∀ (n j : ℕ), j < 8 * n → (load m a n).getLsbD j = (m (at' a (j / 8))).getLsbD (j % 8)
  | 0, j, h => absurd h (by omega)
  | n + 1, j, h => by
      rw [load, BitVec.getLsbD_cast, BitVec.getLsbD_append]
      by_cases hj : j < 8 * n
      · rw [if_pos hj, getLsbD_load m a n j hj]
      · have hq : j / 8 = n := by omega
        have hr : j - 8 * n = j % 8 := by omega
        rw [if_neg hj, hq, hr]

theorem load_congr (h : ∀ i < n, m (at' a i) = m' (at' a i)) : load m a n = load m' a n := by
  refine BitVec.eq_of_getLsbD_eq fun j hj => ?_
  rw [getLsbD_load m a n j hj, getLsbD_load m' a n j hj, h (j / 8) (by omega)]

/-- The bytes of a loaded word. -/
theorem extractLsb'_load (m : Mem) (a : BitVec 64) (hk : k < n) :
    (load m a n).extractLsb' (8 * k) 8 = m (at' a k) := by
  refine BitVec.eq_of_getLsbD_eq fun j hj => ?_
  rw [BitVec.getLsbD_extractLsb', getLsbD_load m a n _ (by omega),
    show (8 * k + j) / 8 = k by omega, show (8 * k + j) % 8 = j by omega]
  simp [hj]

/-- A window of a loaded word. -/
theorem extractLsb'_load_window (m : Mem) (a : BitVec 64) {p : ℕ} (h : p + k ≤ n) :
    (load m a n).extractLsb' (8 * p) (8 * k) = load m (at' a p) k := by
  refine BitVec.eq_of_getLsbD_eq fun j hj => ?_
  rw [BitVec.getLsbD_extractLsb', getLsbD_load m a n _ (by omega), getLsbD_load m _ k j hj, at'_at',
    show (8 * p + j) / 8 = p + j / 8 by omega, show (8 * p + j) % 8 = j % 8 by omega]
  simp [hj]

/-- The bytes of a loaded word say which word it is. -/
theorem load_eq_of_bytes {v : BitVec (8 * n)} (h : ∀ i < n, m (at' a i) = v.extractLsb' (8 * i) 8) :
    load m a n = v := by
  refine BitVec.eq_of_getLsbD_eq fun j hj => ?_
  rw [getLsbD_load m a n j hj, h (j / 8) (by omega), BitVec.getLsbD_extractLsb',
    show 8 * (j / 8) + j % 8 = j by omega]
  simp [show j % 8 < 8 by omega]

/-- **A stored word is loaded back.** -/
theorem load_store_same (m : Mem) (a : BitVec 64) (hn : n < 2 ^ 64) (v : BitVec (8 * n)) :
    load (store m a n v) a n = v := by
  refine BitVec.eq_of_getLsbD_eq fun j hj => ?_
  have hlt : j / 8 < n := by omega
  rw [getLsbD_load _ a n j hj, store, toNat_at'_sub a (by omega), if_pos hlt,
    BitVec.getLsbD_extractLsb', show 8 * (j / 8) + j % 8 = j by omega]
  simp [show j % 8 < 8 by omega]

/-- …and one stored elsewhere is not seen. -/
theorem load_store_apart (h : Apart b k a n) (v : BitVec (8 * n)) :
    load (store m a n v) b k = load m b k :=
  load_congr fun i hi => if_neg (by have := h i hi; omega)

/-- …as in two windows of one block. -/
theorem load_store_at' (a : BitVec 64) {p q : ℕ} (h : p + n ≤ q ∨ q + k ≤ p) (hn : p + n ≤ 2 ^ 64)
    (hk : q + k ≤ 2 ^ 64) (v : BitVec (8 * n)) :
    load (store m (at' a p) n v) (at' a q) k = load m (at' a q) k :=
  load_store_apart (apart_at' a (by omega) hk hn) v

/-! ## Blocks -/

/-- The memory after `n` bytes at `a` have been set to `v`. -/
def fill (m : Mem) (a : BitVec 64) (n : ℕ) (v : BitVec 8) : Mem := fun b =>
  if (b - a).toNat < n then v else m b

/-- The memory after the `n` bytes at `s` have been moved to `d`, all at once. -/
def copy (m : Mem) (d s : BitVec 64) (n : ℕ) : Mem := fun b =>
  if (b - d).toNat < n then m (s + (b - d)) else m b

/-- A word inside a moved block is the word at the same offset of the source. -/
theorem load_copy (d s : BitVec 64) {p : ℕ} (h : p + k ≤ n) (hn : n ≤ 2 ^ 64) :
    load (copy m d s n) (at' d p) k = load m (at' s p) k := by
  refine BitVec.eq_of_getLsbD_eq fun j hj => ?_
  have hoff : at' d (p + j / 8) - d = BitVec.ofNat 64 (p + j / 8) := by
    rw [at', BitVec.add_comm d, BitVec.add_sub_cancel]
  have hlt : (at' d (p + j / 8) - d).toNat < n := by
    rw [toNat_at'_sub _ (by omega)]
    omega
  rw [getLsbD_load _ _ _ _ hj, getLsbD_load _ _ _ _ hj, at'_at', at'_at', copy, if_pos hlt, hoff]

/-- A word inside a zeroed block is zero. -/
theorem load_fill_zero (h : ∀ i < k, (at' b i - a).toNat < n) :
    load (fill m a n 0#8) b k = 0 := by
  refine BitVec.eq_of_getLsbD_eq fun j hj => ?_
  rw [getLsbD_load _ b k j hj, fill, if_pos (h (j / 8) (by omega))]
  simp

/-! ## Frames -/

/-- `m'` is `m` outside the `n` bytes at `a`. -/
def SameOutside (a : BitVec 64) (n : ℕ) (m m' : Mem) : Prop := ∀ x, n ≤ (x - a).toNat → m' x = m x

theorem SameOutside.refl (a : BitVec 64) (n : ℕ) (m : Mem) : SameOutside a n m m := fun _ _ => rfl

theorem SameOutside.mono (h : SameOutside a n m m') (hk : n ≤ k) : SameOutside a k m m' :=
  fun x hx => h x (hk.trans hx)

theorem SameOutside.trans {m'' : Mem} (h : SameOutside a n m m') (h' : SameOutside a n m' m'') :
    SameOutside a n m m'' := fun x hx => (h' x hx).trans (h x hx)

/-- A word stored in a window of the block. -/
theorem SameOutside.store (h : SameOutside a n m m') {p : ℕ} (hp : p + k ≤ n) (v : BitVec (8 * k)) :
    SameOutside a n m (store m' (at' a p) k v) := by
  intro x hx
  have hfar : ¬ (x - at' a p).toNat < k := by
    have hn : n < 2 ^ 64 := lt_of_le_of_lt hx (x - a).isLt
    bv_omega
  rw [ByteMemory.store, if_neg hfar, h x hx]

/-- A block moved into it. -/
theorem SameOutside.copy (h : SameOutside a n m m') (hk : k ≤ n) (s : BitVec 64) :
    SameOutside a n m (copy m' a s k) := by
  intro x hx
  rw [ByteMemory.copy, if_neg (by omega), h x hx]

/-- What is apart from the block is loaded unchanged. -/
theorem SameOutside.load (h : SameOutside a n m m') (hb : Apart b k a n) :
    load m' b k = load m b k :=
  load_congr fun i hi => h _ (hb i hi)

/-- Blocks apart from each other are apart both ways. -/
theorem Apart.symm (h : Apart a n b k) (hk : k ≤ 2 ^ 64) : Apart b k a n := by
  intro j hj
  by_contra hlt
  have hcontra := h (at' b j - a).toNat (by omega)
  rw [at'_toNat_sub, toNat_at'_sub _ (by omega)] at hcontra
  omega

/-- What is apart from a block is apart from a shorter one. -/
theorem Apart.mono (h : Apart a n b k) {j : ℕ} (hj : j ≤ k) : Apart a n b j :=
  fun i hi => hj.trans (h i hi)

/-- A window of a block that is apart is apart. -/
theorem Apart.sub (h : Apart a n b k) {p j : ℕ} (hj : p + j ≤ n) : Apart (at' a p) j b k := by
  intro i hi
  rw [at'_at']
  exact h (p + i) (by omega)

end ByteMemory

import MoonOS.Lib.LinkedMemory
import MoonOS.Mm.Slab

/-!
# Mm/Bufctls — the free list `slab_cache_grow` threads through a page

`bufctls` is the loop over the objects in closed form, and `linkedPage` the page after it.  Each
round writes a header of 24 bytes, whatever the size of the objects, so the headers overlap each
other in smaller objects, and the last one may reach into the `struct slab` at the end of the page.

* `foldl_initBufctl` — the loop of `slab_cache_grow`;
* `load_linkedPage_last` — the last object's header is complete, for every size;
* `load_header` — what the words of the `struct slab` are then.
-/

namespace MoonOS

open ByteMemory

/-! ## The loop -/

section Loop

variable {buf slab x : BitVec 64} {size k : ℕ} {m : Mem}

/-- The first `n` objects of a page linked into a free list, in closed form. -/
def bufctls (buf slab : BitVec 64) (size : ℕ) (m : Mem) : ℕ → Mem
  | 0 => m
  | n + 1 =>
    let m := store (bufctls buf slab size m n) (at' buf (size * n + 16)) 8 slab
    let m := store m (at' buf (size * n + 8)) 8 (at' buf (size * n))
    store m (at' buf (size * (n - 1))) 8 (at' buf (size * n))

theorem signExtend_mul {i : ℕ} (h : size * i < 2 ^ 31) :
    (BitVec.ofNat 32 size * BitVec.ofNat 32 i).signExtend 64 = BitVec.ofNat 64 (size * i) := by
  have hmsb : (BitVec.ofNat 32 (size * i)).msb = false := by
    rw [BitVec.msb_eq_decide, BitVec.toNat_ofNat, Nat.mod_eq_of_lt (by omega)]
    simpa using h
  rw [← BitVec.ofNat_mul, BitVec.signExtend_eq_setWidth_of_msb_false hmsb,
    BitVec.setWidth_ofNat_of_le_of_lt (by decide) (by omega)]

/-- **The loop of `slab_cache_grow` links the objects in the order of their addresses.** -/
theorem foldl_initBufctl (hb : buf ≠ 0#64) (hbuf : buf.toNat + 4096 ≤ 2 ^ 64) :
    ∀ n, size * n ≤ 4072 →
      (List.range n).foldl (initBufctl slab (BitVec.ofNat 32 size)) (m, buf, buf)
        = (bufctls buf slab size m n, buf, at' buf (size * (n - 1)))
  | 0, _ => by simp [bufctls]
  | n + 1, h => by
      have hn : size * n ≤ size * (n + 1) := Nat.mul_le_mul_left _ (Nat.le_succ n)
      have hpred : size * (n - 1) ≤ size * n := Nat.mul_le_mul_left _ (Nat.sub_le n 1)
      have htail : at' buf (size * (n - 1)) ≠ 0#64 := by
        intro h0
        have hsum := congrArg BitVec.toNat h0
        rw [toNat_at' (by omega)] at hsum
        exact hb (BitVec.eq_of_toNat_eq (by simpa using (Nat.add_eq_zero_iff.mp hsum).1))
      rw [List.range_succ, List.foldl_append, foldl_initBufctl hb hbuf n (by omega)]
      simp only [List.foldl_cons, List.foldl_nil, initBufctl,
        signExtend_mul (show size * n < 2 ^ 31 by omega), at'_at', if_neg htail, bufctls,
        Nat.add_sub_cancel]

/-- Linking objects leaves what lies behind the last header alone. -/
theorem bufctls_of_le (hk : k ≤ (x - buf).toNat) :
    ∀ n, size * n + 24 ≤ k + size → bufctls buf slab size m n x = m x
  | 0, _ => rfl
  | n + 1, h => by
      rw [Nat.mul_succ] at h
      have hpred : size * (n - 1) ≤ size * n := Nat.mul_le_mul_left _ (Nat.sub_le n 1)
      have hout : ∀ p, p + 8 ≤ k → ¬ (x - at' buf p).toNat < 8 := by
        intro p hp
        bv_omega
      rw [bufctls, store, if_neg (hout _ (by omega)), store, if_neg (hout _ (by omega)), store,
        if_neg (hout _ (by omega)), bufctls_of_le hk n (by omega)]

/-- From the fourth object on, the first 16 bytes of the page stay as they are. -/
theorem load_bufctls_low {q : ℕ} (hq : q + 8 ≤ 16) (hsize : 8 ≤ size) :
    ∀ n, size * (n + 3) ≤ 4072 → load (bufctls buf slab size m (n + 3)) (at' buf q) 8
      = load (bufctls buf slab size m 3) (at' buf q) 8
  | 0, _ => rfl
  | n + 1, h => by
      have hlast : size * 2 ≤ size * (n + 2) := Nat.mul_le_mul_left _ (by omega)
      have hnext : size * (n + 2) ≤ size * (n + 3) := Nat.mul_le_mul_left _ (by omega)
      have hround : size * (n + 1 + 3) = size * (n + 3) + size := by ring
      rw [show n + 1 + 3 = (n + 3) + 1 from rfl, bufctls]
      simp (disch := omega) only [show n + 3 - 1 = n + 2 from rfl, load_store_at']
      exact load_bufctls_low hq hsize n (by omega)

/-- How many objects `slab_cache_grow` makes of a page. -/
theorem toNat_elements (h : size ≤ 512) :
    ((4072#32).sdiv (BitVec.ofNat 32 size)).toInt.toNat = 4072 / size := by
  have hmsb : (BitVec.ofNat 32 size).msb = false := by
    rw [BitVec.msb_eq_decide, BitVec.toNat_ofNat, Nat.mod_eq_of_lt (by omega)]
    exact decide_eq_false (by omega)
  rw [BitVec.sdiv_eq, hmsb, show (4072#32).msb = false by decide]
  have hle := Nat.div_le_self 4072 size
  have hdiv : (4072#32 / BitVec.ofNat 32 size).toNat = 4072 / size := by
    rw [BitVec.toNat_udiv, BitVec.toNat_ofNat, BitVec.toNat_ofNat,
      Nat.mod_eq_of_lt (show size < 2 ^ 32 by omega)]
  have hsmall : 2 * (4072#32 / BitVec.ofNat 32 size).toNat < 2 ^ 32 := by omega
  show (4072#32 / BitVec.ofNat 32 size).toInt.toNat = 4072 / size
  rw [BitVec.toInt_eq_toNat_of_lt hsmall, Int.toNat_natCast, hdiv]

/-- The last object of a page ends where the rounded number of objects says. -/
theorem mul_pred_elements (hpos : 1 ≤ size) (hsmall : size ≤ 512) :
    size * (4072 / size - 1) + size = size * (4072 / size) := by
  rw [← Nat.mul_succ, Nat.succ_eq_add_one,
    Nat.sub_add_cancel (Nat.div_pos (by omega) (by omega))]

end Loop

/-! ## The page -/

/-- A page with its objects linked, and the link of the last one null. -/
def linkedPage (n : ℕ) (p : BitVec 64) (m : Mem) : Mem :=
  store (bufctls p (at' p 4064) n m (4072 / n)) (at' p (n * (4072 / n - 1))) 8 0#64

section Page

variable {p : BitVec 64} {n i j k : ℕ} {m : Mem}

/-- Behind the last header a page is as it was. -/
theorem linkedPage_of_le (hn : 1 ≤ n) (hn' : n ≤ 512) {j : ℕ} (hj : n * (4072 / n - 1) + 24 ≤ j)
    (hj' : j < 4096) : linkedPage n p m (at' p j) = m (at' p j) := by
  have hmul := mul_pred_elements hn hn'
  rw [linkedPage, store_at'_of_not_mem _ _ (.inr (by omega)) (by omega) (by omega)]
  exact bufctls_of_le (k := j) (by rw [toNat_at'_sub _ (by omega)]) _ (by omega)

theorem load_linkedPage_of_le (hn : 1 ≤ n) (hn' : n ≤ 512) {j k : ℕ}
    (hj : n * (4072 / n - 1) + 24 ≤ j) (hk : j + k ≤ 4096) :
    load (linkedPage n p m) (at' p j) k = load m (at' p j) k := by
  refine load_congr fun x hx => ?_
  rw [at'_at']
  exact linkedPage_of_le hn hn' (by omega) (by omega)

theorem mul_pred_pred_elements (hn : 1 ≤ n) (hn' : n ≤ 512) :
    n * (4072 / n - 2) + n = n * (4072 / n - 1) := by
  have hseven : 7 ≤ 4072 / n := (Nat.le_div_iff_mul_le (by omega)).mpr (by omega)
  rw [← Nat.mul_succ]
  congr 1
  omega

/-- The last round of the loop over the objects, and the null link after it. -/
theorem linkedPage_eq (hn : 1 ≤ n) (hn' : n ≤ 512) :
    linkedPage n p m = store (store (store (store (bufctls p (at' p 4064) n m (4072 / n - 1))
      (at' p (n * (4072 / n - 1) + 16)) 8 (at' p 4064))
      (at' p (n * (4072 / n - 1) + 8)) 8 (at' p (n * (4072 / n - 1))))
      (at' p (n * (4072 / n - 2))) 8 (at' p (n * (4072 / n - 1))))
      (at' p (n * (4072 / n - 1))) 8 0#64 := by
  have hseven : 7 ≤ 4072 / n := (Nat.le_div_iff_mul_le (by omega)).mpr (by omega)
  obtain ⟨l, hl⟩ : ∃ l, 4072 / n = l + 2 := ⟨4072 / n - 2, by omega⟩
  rw [linkedPage, hl]
  rfl

/-- The bytes of the null link of the last object. -/
theorem linkedPage_null (hj : n * (4072 / n - 1) ≤ j) (hj' : j < n * (4072 / n - 1) + 8)
    (hlt : j < 4096) : linkedPage n p m (at' p j) = 0#8 := by
  rw [linkedPage, store_at'_of_mem _ _ hj hj' (by omega)]
  simp

/-- The last object keeps its address and its slab, also where they reach into the slab. -/
theorem load_linkedPage_last (hn : 1 ≤ n) (hn' : n ≤ 512) :
    load (linkedPage n p m) (at' p (n * (4072 / n - 1) + 8)) 8 = at' p (n * (4072 / n - 1))
      ∧ load (linkedPage n p m) (at' p (n * (4072 / n - 1) + 16)) 8 = at' p 4064 := by
  have hmul := mul_pred_elements hn hn'
  have hprev := mul_pred_pred_elements hn hn'
  have hle := Nat.mul_div_le 4072 n
  rw [linkedPage_eq hn hn']
  constructor
  · simp (disch := omega) only [load_store_at', load_store_same]
  · simp (disch := omega) only [load_store_at', load_store_same]

end Page

/-! ## The header of the slab -/

/-- A page from the link of its last object on: that object's address and slab, and behind them the
slab's link, free list and count. -/
def headerMem (p : BitVec 64) (n : ℕ) : Mem := fun a =>
  let last := n * (4072 / n - 1)
  let j := (a - p).toNat
  if j < last + 8 then 0#8
  else if j < last + 16 then (at' p last).extractLsb' (8 * (j - (last + 8))) 8
  else if j < last + 24 then (at' p 4064).extractLsb' (8 * (j - (last + 16))) 8
  else if 4080 ≤ j ∧ j < 4088 then p.extractLsb' (8 * (j - 4080)) 8
  else 0#8

section Header

variable {p : BitVec 64} {n i k : ℕ} {m : Mem}

/-- **The words of the slab's header.** -/
theorem load_header (hn : 1 ≤ n) (hn' : n ≤ 512) (hlink : load m (at' p 4064) 8 = 0#64)
    (hfree : load m (at' p 4080) 8 = p) (hcount : load m (at' p 4088) 4 = 0#32)
    (hlast : n * (4072 / n - 1) ≤ i)
    (hi : 4064 ≤ i ∧ i + k ≤ 4072 ∨ 4080 ≤ i ∧ i + k ≤ 4092) :
    load (linkedPage n p m) (at' p i) k = load (headerMem p n) (at' p i) k := by
  refine load_congr fun x hx => ?_
  obtain ⟨hself, hslab⟩ := load_linkedPage_last (p := p) (m := m) hn hn'
  rw [at'_at', headerMem, toNat_at'_sub _ (by omega)]
  generalize hj : i + x = j
  split_ifs with h₁ h₂ h₃ h₄
  · exact linkedPage_null (by omega) h₁ (by omega)
  · have hbyte := byte_of_load hself (k := j - (n * (4072 / n - 1) + 8)) (by omega)
    rwa [Nat.add_sub_cancel' (by omega)] at hbyte
  · have hbyte := byte_of_load hslab (k := j - (n * (4072 / n - 1) + 16)) (by omega)
    rwa [Nat.add_sub_cancel' (by omega)] at hbyte
  · have hbyte := byte_of_load hfree (k := j - 4080) (by omega)
    rw [Nat.add_sub_cancel' h₄.1] at hbyte
    rw [linkedPage_of_le hn hn' (by omega) (by omega), hbyte]
  · rw [linkedPage_of_le hn hn' (by omega) (by omega)]
    rcases Nat.lt_or_ge j 4080 with h | h
    · rw [show j = 4064 + (j - 4064) by omega, byte_of_load hlink (by omega)]
      simp
    · rw [show j = 4088 + (j - 4088) by omega, byte_of_load hcount (by omega)]
      simp

end Header

end MoonOS

import MoonOS.Lib.SlotTree
import MoonOS.Mm.BuddyBits
import Mathlib.Data.Nat.Bitwise

/-!
# Mm/BuddyTree — the allocation tree of the vendored buddy allocator

`kernel/mm/buddy.h` keeps a binary tree over the slots of an arena, as a row of bits.  A node `d`
levels down has `order - d` bits, which hold a number in unary: how far down the nearest free slot
is.  The tree is written at one node and repaired on the way up, up to the first parent that has
nothing to repair.

    levels   order | order - 1, order - 1 | order - 2, …            bits per node, row by row

Here are the functions, and where the bits of a node are: a position is a path from the root
(`posOf`), two nodes share no bit (`location_apart`), and a node is read and written as a number
(`Tallies.read`, `Tallies.write`).  What the numbers say is in `Mm/BuddyReads`.
-/

namespace MoonOS

open SlotTree

/-! ## Positions -/

/-- `struct buddy_tree_pos`. -/
structure BuddyTreePos where
  index : ℕ
  depth : ℕ
deriving DecidableEq, Repr

/-- `INVALID_POS`. -/
def invalidPos : BuddyTreePos := ⟨0, 0⟩

/-- `buddy_tree_root`. -/
def buddyTreeRoot : BuddyTreePos := ⟨1, 1⟩

/-- `buddy_tree_left_child`. -/
def buddyTreeLeftChild (pos : BuddyTreePos) : BuddyTreePos := ⟨pos.index * 2, pos.depth + 1⟩

/-- `buddy_tree_right_child`. -/
def buddyTreeRightChild (pos : BuddyTreePos) : BuddyTreePos := ⟨pos.index * 2 + 1, pos.depth + 1⟩

/-- `buddy_tree_sibling`. -/
def buddyTreeSibling (pos : BuddyTreePos) : BuddyTreePos := ⟨pos.index ^^^ 1, pos.depth⟩

/-- `buddy_tree_parent`. -/
def buddyTreeParent (pos : BuddyTreePos) : BuddyTreePos := ⟨pos.index / 2, pos.depth - 1⟩

/-- `buddy_tree_index`: the index with its highest bit cleared. -/
def buddyTreeIndex (pos : BuddyTreePos) : ℕ :=
  pos.index &&& (2 ^ 64 - 1 - twoToThePowerOf (pos.depth - 1))

/-! ## The tree -/

/-- The loop of `size_for_order`. -/
def sizeForOrderLoop (upTo : ℕ) : ℕ → ℕ → ℕ → ℕ
  | 0, _, result => result
  | order + 1, multi, result =>
    if order + 1 = upTo then result
    else sizeForOrderLoop upTo order (multi * 2) (result + (order + 1) * multi)

/-- `size_for_order`: the bits of the levels with more than `upTo` bits a node. -/
def sizeForOrder (order upTo : ℕ) : ℕ := sizeForOrderLoop upTo order 1 0

/-- `bitset_sizeof`. -/
def bitsetSizeof (elements : ℕ) : ℕ := (elements + 8 - 1) / 8

/-- The bytes a tree puts aside for its bits, as `buddy_tree_sizeof` and
`buddy_tree_populate_size_for_order` both pad them. -/
def paddedBitsetSize (order : ℕ) : ℕ :=
  let size := bitsetSizeof (sizeForOrder order 0)
  if size % 8 ≠ 0 then size + size % 8 else size

/-- `buddy_tree_sizeof`; `sizeof(struct buddy_tree)` is 24. -/
def buddyTreeSizeof (order : ℕ) : ℕ := 24 + paddedBitsetSize order + (order + 2) * 8

/-- `struct buddy_tree`, and the bytes that follow it: the bits, and the table of
`size_for_order`. -/
@[ext]
structure BuddyTree where
  upperPosBound : ℕ
  sizeForOrderOffset : ℕ
  order : ℕ
  bytes : Bitset

/-- A `size_t` in memory, by its number. -/
def loadWord (bytes : ℕ → BitVec 8) (w : ℕ) : ℕ :=
  ∑ j ∈ Finset.range 8, (bytes (8 * w + j)).toNat * 256 ^ j

/-- A `size_t` written to memory. -/
def storeWord (bytes : ℕ → BitVec 8) (w v : ℕ) : ℕ → BitVec 8 := fun i =>
  if i / 8 = w then BitVec.ofNat 8 (v / 256 ^ (i % 8)) else bytes i

/-- `buddy_tree_populate_size_for_order`. -/
def buddyTreePopulateSizeForOrder (t : BuddyTree) : BuddyTree :=
  let offset := paddedBitsetSize t.order / 8 + 1
  { t with
    sizeForOrderOffset := offset
    bytes := (List.range (t.order + 1)).foldl
      (fun bytes i => storeWord bytes (offset + i) (sizeForOrder t.order i)) t.bytes }

/-- `buddy_tree_init`, over memory that held `raw`. -/
def buddyTreeInit (raw : Bitset) (order : ℕ) : BuddyTree :=
  buddyTreePopulateSizeForOrder
    { upperPosBound := twoToThePowerOf order
      sizeForOrderOffset := 0
      order
      bytes := fun i => if i < buddyTreeSizeof order - 24 then 0#8 else raw i }

/-- `buddy_tree_size_for_order`. -/
def buddyTreeSizeForOrder (t : BuddyTree) (upTo : ℕ) : ℕ :=
  loadWord t.bytes (t.sizeForOrderOffset + upTo)

/-- `buddy_tree_valid`. -/
def buddyTreeValid (t : BuddyTree) (pos : BuddyTreePos) : Bool :=
  pos.index != 0 && decide (pos.index < t.upperPosBound)

/-- `buddy_tree_leftmost_child`. -/
def buddyTreeLeftmostChild (t : BuddyTree) : BuddyTreePos :=
  ⟨twoToThePowerOf (t.order - 1), t.order⟩

/-! ## A node's bits -/

/-- `struct internal_position`. -/
structure InternalPosition where
  localOffset : ℕ
  bitsetLocation : ℕ

/-- `buddy_tree_internal_position_tree`. -/
def buddyTreeInternalPosition (t : BuddyTree) (pos : BuddyTreePos) : InternalPosition :=
  let localOffset := t.order - pos.depth + 1
  let totalOffset := buddyTreeSizeForOrder t (localOffset % 256)
  ⟨localOffset, totalOffset + localOffset * buddyTreeIndex pos⟩

/-- `write_to_internal_position`. -/
def writeToInternalPosition (bitset : Bitset) (pos : InternalPosition) (value : ℕ) : Bitset :=
  let bitset := bitsetClearRange bitset pos.bitsetLocation
    (pos.bitsetLocation + pos.localOffset - 1)
  if value ≠ 0 then bitsetSetRange bitset pos.bitsetLocation (pos.bitsetLocation + value - 1)
  else bitset

/-- `read_from_internal_position`. -/
def readFromInternalPosition (bitset : Bitset) (pos : InternalPosition) : ℕ :=
  if !bitsetTest bitset pos.bitsetLocation then 0
  else bitsetCountRange bitset pos.bitsetLocation (pos.bitsetLocation + pos.localOffset - 1)

/-- `compare_with_internal_position`. -/
def compareWithInternalPosition (bitset : Bitset) (pos : InternalPosition) (value : ℕ) : Bool :=
  bitsetTest bitset (pos.bitsetLocation + value - 1)

/-! ## Operations -/

/-- `buddy_tree_status`. -/
def buddyTreeStatus (t : BuddyTree) (pos : BuddyTreePos) : ℕ :=
  readFromInternalPosition t.bytes (buddyTreeInternalPosition t pos)

/-- The loop of `update_parent_chain`, for at most as many turns as there are levels. -/
def updateParentChainLoop : ℕ → BuddyTree → BuddyTreePos → InternalPosition → ℕ → BuddyTree
  | 0, t, _, _, _ => t
  | n + 1, t, pos, posInternal, sizeCurrent =>
    if pos.index = 1 then t
    else
      let sibling := { posInternal with
        bitsetLocation := posInternal.bitsetLocation + posInternal.localOffset
          - 2 * posInternal.localOffset * (pos.index % 2) }
      let sizeSibling := readFromInternalPosition t.bytes sibling
      let pos := buddyTreeParent pos
      let posInternal := buddyTreeInternalPosition t pos
      let sizeParent := readFromInternalPosition t.bytes posInternal
      let targetParent := (if sizeCurrent ≠ 0 ∨ sizeSibling ≠ 0 then 1 else 0)
        * ((if sizeCurrent ≤ sizeSibling then sizeCurrent else sizeSibling) + 1)
      if targetParent = sizeParent then t
      else updateParentChainLoop n
        { t with bytes := writeToInternalPosition t.bytes posInternal targetParent }
        pos posInternal targetParent

/-- `update_parent_chain`. -/
def updateParentChain (t : BuddyTree) (pos : BuddyTreePos) (posInternal : InternalPosition)
    (sizeCurrent : ℕ) : BuddyTree :=
  updateParentChainLoop pos.depth t pos posInternal sizeCurrent

/-- `buddy_tree_mark`. -/
def buddyTreeMark (t : BuddyTree) (pos : BuddyTreePos) : BuddyTree :=
  let internal := buddyTreeInternalPosition t pos
  let t := { t with bytes := writeToInternalPosition t.bytes internal internal.localOffset }
  updateParentChain t pos internal internal.localOffset

/-- `buddy_tree_release`. -/
def buddyTreeRelease (t : BuddyTree) (pos : BuddyTreePos) : BuddyTree :=
  let internal := buddyTreeInternalPosition t pos
  if readFromInternalPosition t.bytes internal ≠ internal.localOffset then t
  else
    let t := { t with bytes := writeToInternalPosition t.bytes internal 0 }
    updateParentChain t pos internal 0

/-- The loop of `buddy_tree_find_free`: `target_status` levels are left to go down. -/
def findFreeLoop (t : BuddyTree) : ℕ → BuddyTreePos → BuddyTreePos
  | 0, currentPos => currentPos
  | targetStatus + 1, currentPos =>
    let leftPos := buddyTreeLeftChild currentPos
    let rightPos := buddyTreeSibling leftPos
    let leftInternal := buddyTreeInternalPosition t leftPos
    let rightInternal := { leftInternal with
      bitsetLocation := leftInternal.bitsetLocation + leftInternal.localOffset }
    if compareWithInternalPosition t.bytes leftInternal (targetStatus + 1) then
      findFreeLoop t targetStatus rightPos
    else if compareWithInternalPosition t.bytes rightInternal (targetStatus + 1) then
      findFreeLoop t targetStatus leftPos
    else
      let rightStatus := readFromInternalPosition t.bytes rightInternal
      if rightStatus ≠ 0 then
        if compareWithInternalPosition t.bytes leftInternal rightStatus then
          findFreeLoop t targetStatus leftPos
        else findFreeLoop t targetStatus rightPos
      else findFreeLoop t targetStatus leftPos

/-- `buddy_tree_find_free`. -/
def buddyTreeFindFree (t : BuddyTree) (targetDepth : ℕ) : BuddyTreePos :=
  let targetStatus := targetDepth - 1
  if targetStatus < buddyTreeStatus t buddyTreeRoot then invalidPos
  else findFreeLoop t targetStatus buddyTreeRoot

/-! ## Positions are paths -/

/-- The place of a path in its row. -/
def rowIndex (p : List Bool) : ℕ := p.foldl (fun i b => 2 * i + b.toNat) 0

/-- The position at the end of a path. -/
def posOf (p : List Bool) : BuddyTreePos := ⟨2 ^ p.length + rowIndex p, p.length + 1⟩

section Paths

variable {p q : List Bool} {b : Bool}

theorem rowIndex_concat (p : List Bool) (b : Bool) :
    rowIndex (p ++ [b]) = 2 * rowIndex p + b.toNat := by
  rw [rowIndex, List.foldl_append]
  rfl

theorem rowIndex_lt (p : List Bool) : rowIndex p < 2 ^ p.length := by
  induction p using List.reverseRecOn with
  | nil => decide
  | append_singleton p b ih =>
    rw [rowIndex_concat, List.length_append, List.length_singleton, pow_succ]
    have hb := b.toNat_le
    omega

theorem leftChild_posOf (p : List Bool) : buddyTreeLeftChild (posOf p) = posOf (p ++ [false]) := by
  rw [buddyTreeLeftChild, posOf, posOf, rowIndex_concat, List.length_append, List.length_singleton,
    pow_succ]
  simp only [BuddyTreePos.mk.injEq, Bool.toNat_false, and_true]
  ring

theorem rightChild_posOf (p : List Bool) : buddyTreeRightChild (posOf p) = posOf (p ++ [true]) := by
  rw [buddyTreeRightChild, posOf, posOf, rowIndex_concat, List.length_append,
    List.length_singleton, pow_succ]
  simp only [BuddyTreePos.mk.injEq, Bool.toNat_true, and_true]
  ring

/-- The index of a child has its side as the last bit. -/
theorem index_concat (p : List Bool) (b : Bool) :
    (posOf (p ++ [b])).index = 2 * (posOf p).index + b.toNat := by
  rw [posOf, posOf, rowIndex_concat, List.length_append, List.length_singleton, pow_succ]
  dsimp only
  ring

theorem parent_posOf (p : List Bool) (b : Bool) : buddyTreeParent (posOf (p ++ [b])) = posOf p := by
  have hb := b.toNat_le
  rw [buddyTreeParent, index_concat, show (2 * (posOf p).index + b.toNat) / 2 = (posOf p).index by
    omega]
  simp [posOf]

theorem sibling_posOf (p : List Bool) (b : Bool) :
    buddyTreeSibling (posOf (p ++ [b])) = posOf (p ++ [!b]) := by
  have hindex : (posOf (p ++ [b])).index ^^^ 1 = (posOf (p ++ [!b])).index := by
    rw [index_concat, index_concat]
    generalize (posOf p).index = i
    cases b
    · exact Nat.xor_one_of_even (n := 2 * i) ⟨i, by omega⟩
    · exact Nat.xor_one_of_odd (n := 2 * i + 1) ⟨i, rfl⟩
  rw [buddyTreeSibling, hindex]
  simp [posOf]

/-- The index in the row is what the mask leaves. -/
theorem buddyTreeIndex_posOf (hp : p.length < 64) : buddyTreeIndex (posOf p) = rowIndex p := by
  have hrow := rowIndex_lt p
  have hpow : 2 ^ p.length < 2 ^ 64 := Nat.pow_lt_pow_right (by decide) hp
  rw [buddyTreeIndex, twoToThePowerOf_eq, Nat.sub_sub, Nat.add_comm 1]
  show (2 ^ p.length + rowIndex p) &&& (2 ^ 64 - (2 ^ p.length + 1)) = rowIndex p
  refine Nat.eq_of_testBit_eq fun i => ?_
  rw [Nat.testBit_and, Nat.testBit_two_pow_sub_succ hpow]
  rcases Nat.lt_trichotomy i p.length with hi | hi | hi
  · rw [Nat.testBit_two_pow_add_gt hi, Nat.testBit_two_pow_of_ne (by omega),
      decide_eq_true (by omega)]
    simp
  · rw [hi, Nat.testBit_two_pow_self, Nat.testBit_lt_two_pow hrow]
    simp
  · have hlt : rowIndex p < 2 ^ i := hrow.trans (Nat.pow_lt_pow_right (by decide) hi)
    have hboth : 2 ^ p.length + rowIndex p < 2 ^ i := by
      have hle : 2 ^ (p.length + 1) ≤ 2 ^ i := Nat.pow_le_pow_right (by decide) hi
      rw [pow_succ] at hle
      omega
    rw [Nat.testBit_lt_two_pow hlt, Nat.testBit_lt_two_pow hboth, Bool.false_and]

/-- The row index of a path, counted in the slots of the whole. -/
theorem start_eq_rowIndex {n : ℕ} (hp : p.length ≤ n) : start n p = rowIndex p * width n p := by
  induction p using List.reverseRecOn with
  | nil => simp [start, rowIndex]
  | append_singleton p b ih =>
    rw [List.length_append, List.length_singleton] at hp
    rw [start_concat hp, ih (by omega), rowIndex_concat, width_concat hp b]
    cases b <;> simp <;> ring

end Paths

/-! ## Where a node's bits are -/

/-- The first bit of a row. -/
def rowLocation (order : ℕ) : ℕ → ℕ
  | 0 => 0
  | k + 1 => rowLocation order k + (order - k) * 2 ^ k

/-- The first bit of a node. -/
def location (order : ℕ) (p : List Bool) : ℕ :=
  rowLocation order p.length + (order - p.length) * rowIndex p

section Layout

variable {order k : ℕ} {p q : List Bool}

theorem sizeForOrderLoop_eq : ∀ (order k multi result : ℕ), k ≤ order →
    sizeForOrderLoop (order - k) order multi result = result + multi * rowLocation order k
  | 0, k, multi, result, hk => by
    obtain rfl : k = 0 := by omega
    simp [sizeForOrderLoop, rowLocation]
  | order + 1, 0, multi, result, _ => by
    simp [sizeForOrderLoop, rowLocation]
  | order + 1, k + 1, multi, result, hk => by
    have hrow : ∀ k, rowLocation (order + 1) (k + 1)
        = (order + 1) + 2 * rowLocation order k := by
      intro k
      induction k with
      | zero => simp [rowLocation]
      | succ k ih =>
        rw [rowLocation, ih, rowLocation, Nat.add_sub_add_right, pow_succ]
        ring
    rw [sizeForOrderLoop, if_neg (by omega), Nat.add_sub_add_right,
      sizeForOrderLoop_eq order k _ _ (by omega), hrow]
    ring

/-- `size_for_order` is where a row begins. -/
theorem sizeForOrder_eq (hk : k ≤ order) :
    sizeForOrder order (order - k) = rowLocation order k := by
  rw [sizeForOrder, sizeForOrderLoop_eq order k 1 0 hk]
  simp

theorem rowLocation_mono {k k' : ℕ} (h : k ≤ k') : rowLocation order k ≤ rowLocation order k' :=
  monotone_nat_of_le_succ (fun k => by rw [rowLocation]; exact Nat.le_add_right _ _) h

/-- A node's bits are in its row. -/
theorem location_add_le (p : List Bool) :
    location order p + (order - p.length) ≤ rowLocation order (p.length + 1) := by
  have hrow := rowIndex_lt p
  have hmul : (order - p.length) * (rowIndex p + 1) ≤ (order - p.length) * 2 ^ p.length :=
    Nat.mul_le_mul_left _ hrow
  rw [location, rowLocation]
  rw [Nat.mul_add, Nat.mul_one] at hmul
  omega

theorem location_add_le_total (hp : p.length < order) :
    location order p + (order - p.length) ≤ sizeForOrder order 0 := by
  have htotal := sizeForOrder_eq (le_refl order)
  rw [Nat.sub_self] at htotal
  rw [htotal]
  exact (location_add_le p).trans (rowLocation_mono hp)

theorem rowIndex_injective (hlen : p.length = q.length) (h : rowIndex p = rowIndex q) : p = q := by
  refine eq_of_start_eq (n := p.length) le_rfl hlen.ge hlen ?_
  rw [start_eq_rowIndex le_rfl, start_eq_rowIndex hlen.ge, h, width, width, hlen]

/-- **Two nodes share no bit.** -/
theorem location_apart (order : ℕ) (hne : p ≠ q) :
    location order p + (order - p.length) ≤ location order q
      ∨ location order q + (order - q.length) ≤ location order p := by
  have hrows : ∀ {p q : List Bool}, p.length < q.length →
      location order p + (order - p.length) ≤ location order q := fun {p q} h =>
    (location_add_le p).trans ((rowLocation_mono h).trans (Nat.le_add_right _ _))
  rcases Nat.lt_trichotomy p.length q.length with h | h | h
  · exact .inl (hrows h)
  · have hrow : rowIndex p ≠ rowIndex q := fun heq => hne (rowIndex_injective h heq)
    have hstep : ∀ {i j : ℕ}, i < j →
        (order - q.length) * i + (order - q.length) ≤ (order - q.length) * j := fun hij => by
      rw [← Nat.mul_succ]
      exact Nat.mul_le_mul_left _ hij
    rw [location, location, h]
    rcases Nat.lt_or_gt_of_ne hrow with hlt | hlt
    · have := hstep hlt
      exact .inl (by omega)
    · have := hstep hlt
      exact .inr (by omega)
  · exact .inr (hrows h)

end Layout

/-! ## Nodes hold numbers -/

/-- **Every node holds its number**, in unary. -/
def Tallies (order : ℕ) (bits : Bitset) (f : List Bool → ℕ) : Prop :=
  ∀ p, p.length < order → f p ≤ order - p.length
    ∧ ∀ j < order - p.length, bitsetTest bits (location order p + j) = decide (j < f p)

/-- The bits of a node. -/
def bitsOf (order : ℕ) (p : List Bool) : InternalPosition :=
  ⟨order - p.length, location order p⟩

section Nodes

variable {order : ℕ} {bits : Bitset} {f : List Bool → ℕ} {p : List Bool} {v : ℕ}

/-- It is read… -/
theorem Tallies.read (h : Tallies order bits f) (hp : p.length < order) :
    readFromInternalPosition bits (bitsOf order p) = f p := by
  obtain ⟨hle, hbits⟩ := h p hp
  have hfirst := hbits 0 (by omega)
  rw [Nat.add_zero] at hfirst
  rw [readFromInternalPosition, bitsOf]
  dsimp only
  rw [hfirst]
  by_cases hzero : f p = 0
  · simp [hzero]
  rw [decide_eq_true (by omega), Bool.not_true, if_neg (by decide),
    bitsetCountRange_eq (by omega), countBits,
    show location order p + (order - p.length) - 1 + 1 = location order p + (order - p.length) by
      omega, Finset.sum_Ico_eq_sum_range, Nat.add_sub_cancel_left]
  have hterm : ∀ j ∈ Finset.range (order - p.length),
      (bitsetTest bits (location order p + j)).toNat = if j < f p then 1 else 0 := by
    intro j hj
    rw [hbits j (Finset.mem_range.mp hj)]
    by_cases hlt : j < f p
    · simp [hlt]
    · simp [hlt]
  have hfilter : (Finset.range (order - p.length)).filter (· < f p) = Finset.range (f p) := by
    ext j
    simp only [Finset.mem_filter, Finset.mem_range]
    omega
  rw [Finset.sum_congr rfl hterm, Finset.sum_boole, hfilter, Finset.card_range, Nat.cast_id]

/-- …compared… -/
theorem Tallies.compare (h : Tallies order bits f) (hp : p.length < order) (hpos : 0 < v)
    (hv : v ≤ order - p.length) :
    compareWithInternalPosition bits (bitsOf order p) v = decide (v ≤ f p) := by
  have hbit := (h p hp).2 (v - 1) (by omega)
  rw [compareWithInternalPosition, bitsOf]
  dsimp only
  rw [Nat.add_sub_assoc hpos, hbit]
  exact decide_eq_decide.mpr (by omega)

/-- The bits of a node after a write. -/
theorem bitsetTest_write (hp : p.length < order) (hv : v ≤ order - p.length) (i : ℕ) :
    bitsetTest (writeToInternalPosition bits (bitsOf order p) v) i
      = if location order p ≤ i ∧ i < location order p + (order - p.length)
        then decide (i < location order p + v) else bitsetTest bits i := by
  have hclear : bitsetTest (bitsetClearRange bits (location order p)
      (location order p + (order - p.length) - 1)) i
        = if location order p ≤ i ∧ i < location order p + (order - p.length) then false
          else bitsetTest bits i := by
    rw [bitsetTest_bitsetClearRange (by omega)]
    refine if_congr ?_ rfl rfl
    omega
  rw [writeToInternalPosition, bitsOf]
  dsimp only
  by_cases hzero : v = 0
  · rw [if_neg (by simpa using hzero), hclear, hzero]
    split
    · exact (decide_eq_false (by omega)).symm
    · rfl
  · rw [if_pos hzero, bitsetTest_bitsetSetRange (by omega), hclear]
    by_cases hin : location order p ≤ i ∧ i < location order p + (order - p.length)
    · rw [if_pos hin, if_pos hin]
      by_cases hset : i < location order p + v
      · rw [if_pos (by omega), decide_eq_true hset]
      · rw [if_neg (by omega), decide_eq_false hset]
    · rw [if_neg (by omega), if_neg hin, if_neg hin]

/-- …and written, and no other node with it. -/
theorem Tallies.write (h : Tallies order bits f) (hp : p.length < order)
    (hv : v ≤ order - p.length) :
    Tallies order (writeToInternalPosition bits (bitsOf order p) v) (Function.update f p v) := by
  intro q hq
  by_cases hpq : q = p
  · subst hpq
    rw [Function.update_self]
    refine ⟨hv, fun j hj => ?_⟩
    rw [bitsetTest_write hq hv, if_pos (by omega)]
    exact decide_eq_decide.mpr (by omega)
  · rw [Function.update_of_ne hpq]
    refine ⟨(h q hq).1, fun j hj => ?_⟩
    have hapart := location_apart order hpq
    rw [bitsetTest_write hp hv, if_neg (by omega)]
    exact (h q hq).2 j hj

/-- A write stays in the bits. -/
theorem write_apply_of_le (hp : p.length < order) (hv : v ≤ order - p.length) {k : ℕ}
    (hk : sizeForOrder order 0 ≤ 8 * k) :
    writeToInternalPosition bits (bitsOf order p) v k = bits k := by
  have htotal := location_add_le_total hp
  rw [writeToInternalPosition, bitsOf]
  dsimp only
  split
  · rw [bitsetSetRange, bitsetRange_apply_of_lt (by omega) (by omega), bitsetClearRange,
      bitsetRange_apply_of_lt (by omega) (by omega)]
  · rw [bitsetClearRange, bitsetRange_apply_of_lt (by omega) (by omega)]

end Nodes

end MoonOS

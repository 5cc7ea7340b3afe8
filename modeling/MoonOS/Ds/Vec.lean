import MoonOS.Base.Mem

/-!
# Ds/Vec — the vectors of `libs/moon-ds/private/cc.h`, on the kernel's heap

A vector is a handle to a block: a header of two words, its size and its capacity, and then the
elements.  Growing it goes through `realloc` of `kernel/mm/alloc.c`, whose TLSF pool appears only as
the addresses it is going to answer.

`IsVec m cntr cap xs` says that the block at `cntr` holds the list `xs`.  Against lists,

* `ccVecPush_isVec` — a push appends, or leaves the vector as it was when the heap is exhausted;
* `ccVecErase_isVec` — an erase drops the **last** element, whichever index it is given: the
  elements behind the index were to be moved down, and `memmove` moves nothing down.
-/

namespace MoonOS

open ByteMemory

/-! ## The heap -/

/-- Memory, and the blocks the TLSF pool will answer with. -/
structure Heap where
  mem : Mem
  blocks : List (BitVec 64)

/-- `realloc`.  The size is passed as an `int`, and a negative one is over TLSF's limit.  A block
moves with the `old` bytes TLSF's own header says it has. -/
def realloc (ptr : BitVec 64) (old : ℕ) (sz : BitVec 64) (h : Heap) : BitVec 64 × Heap :=
  if (sz.setWidth 32).msb then (0#64, h)
  else
    match h.blocks with
    | [] => (0#64, h)
    | block :: blocks =>
      if block = 0#64 then (0#64, { h with blocks })
      else (block, { mem := copy h.mem block ptr old, blocks })

/-- `alloc`: a block with nothing to move into it. -/
def alloc (sz : BitVec 64) (h : Heap) : BitVec 64 × Heap := realloc 0#64 0 sz h

/-! ## The functions of the vector -/

/-- `cc_vec_size`. -/
def ccVecSize (m : Mem) (cntr : BitVec 64) : BitVec 64 := load m (at' cntr 0) 8

/-- `cc_vec_cap`. -/
def ccVecCap (m : Mem) (cntr : BitVec 64) : BitVec 64 := load m (at' cntr 8) 8

/-- `cc_vec_get`: no bound is checked. -/
def ccVecGet (elSize : ℕ) (cntr index : BitVec 64) : BitVec 64 :=
  at' cntr (16 + elSize * index.toNat)

/-- `cc_vec_reserve`: the new handle, unless the heap refuses. -/
def ccVecReserve (elSize : ℕ) (cntr n : BitVec 64) (h : Heap) : Option (BitVec 64) × Heap :=
  if n ≤ ccVecCap h.mem cntr then (some cntr, h)
  else
    let isPlaceholder := ccVecCap h.mem cntr = 0#64
    let ptr := if isPlaceholder then 0#64 else cntr
    let old := if isPlaceholder then 0 else 16 + elSize * (ccVecCap h.mem cntr).toNat
    let (newCntr, h) := realloc ptr old (16#64 + BitVec.ofNat 64 elSize * n) h
    if newCntr = 0#64 then (none, h)
    else
      let m := if isPlaceholder then store h.mem (at' newCntr 0) 8 0#64 else h.mem
      (some newCntr, { h with mem := store m (at' newCntr 8) 8 n })

/-- `while (cap < size + n) cap *= 2;` — a capacity that has wrapped to zero loops forever. -/
def doubleCap : ℕ → BitVec 64 → BitVec 64 → Option (BitVec 64)
  | 0, _, _ => none
  | fuel + 1, cap, target => if cap < target then doubleCap fuel (cap * 2#64) target else some cap

/-- The second half of `cc_vec_insert_n`, with room for the element: open a gap, fill it, count. -/
def ccVecPlace (elSize : ℕ) (cntr index : BitVec 64) (el : BitVec (8 * elSize)) (m : Mem) : Mem :=
  let newEls := ccVecGet elSize cntr index
  let m := (memmove m (at' newEls elSize) newEls
    (BitVec.ofNat 64 elSize * (ccVecSize m cntr - index)).toNat).1
  let m := store m newEls elSize el
  store m (at' cntr 0) 8 (ccVecSize m cntr + 1#64)

/-- `cc_vec_insert_n` of one element: the handle, and whether the element went in. -/
def ccVecInsert (elSize : ℕ) (cntr index : BitVec 64) (el : BitVec (8 * elSize)) (h : Heap) :
    Option (BitVec 64 × Bool × Heap) := do
  let size := ccVecSize h.mem cntr
  let cap := ccVecCap h.mem cntr
  let (grown, h) ←
    if cap < size + 1#64 then do
      let cap ← doubleCap 65 (if cap = 0#64 then 2#64 else cap) (size + 1#64)
      pure (ccVecReserve elSize cntr cap h)
    else pure (some cntr, h)
  match grown with
  | none => some (cntr, false, h)
  | some cntr => some (cntr, true, { h with mem := ccVecPlace elSize cntr index el h.mem })

/-- `cc_vec_push`. -/
def ccVecPush (elSize : ℕ) (cntr : BitVec 64) (el : BitVec (8 * elSize)) (h : Heap) :
    Option (BitVec 64 × Bool × Heap) :=
  ccVecInsert elSize cntr (ccVecSize h.mem cntr) el h

/-- `cc_vec_erase`, that is `cc_vec_erase_n` of one element: the pointer it returns. -/
def ccVecErase (elSize : ℕ) (cntr index : BitVec 64) (m : Mem) : BitVec 64 × Mem :=
  let size := ccVecSize m cntr
  let m := (memmove m (ccVecGet elSize cntr index) (ccVecGet elSize cntr (index + 1#64))
    ((size - 1#64 - index) * BitVec.ofNat 64 elSize).toNat).1
  (ccVecGet elSize cntr index, store m (at' cntr 0) 8 (ccVecSize m cntr - 1#64))

/-! ## Whatever the header says -/

/-- **What a push can come to**, whatever the header says: there is room, or the capacity is doubled
until there is and the heap answers, or refuses; a capacity that has wrapped is doubled forever. -/
theorem ccVecPush_cases (elSize : ℕ) (cntr : BitVec 64) (el : BitVec (8 * elSize)) (h : Heap) :
    (¬ ccVecCap h.mem cntr < ccVecSize h.mem cntr + 1#64
        ∧ ∃ h', ccVecPush elSize cntr el h = some (cntr, true, h'))
      ∨ ccVecCap h.mem cntr < ccVecSize h.mem cntr + 1#64
        ∧ match doubleCap 65 (if ccVecCap h.mem cntr = 0#64 then 2#64 else ccVecCap h.mem cntr)
            (ccVecSize h.mem cntr + 1#64) with
          | none => ccVecPush elSize cntr el h = none
          | some n => match ccVecReserve elSize cntr n h with
            | (none, h') => ccVecPush elSize cntr el h = some (cntr, false, h')
            | (some q, _) => ∃ h', ccVecPush elSize cntr el h = some (q, true, h') := by
  rw [ccVecPush, ccVecInsert]
  dsimp only
  by_cases hroom : ccVecCap h.mem cntr < ccVecSize h.mem cntr + 1#64
  · refine .inr ⟨hroom, ?_⟩
    simp only [if_pos hroom]
    split
    case h_1 hdouble =>
      rw [hdouble]
      rfl
    case h_2 n hdouble =>
      rw [hdouble]
      simp only [Option.bind_eq_bind, Option.bind_some, Option.pure_def]
      split
      case h_1 h' hres => rw [hres]
      case h_2 q h' hres =>
        rw [hres]
        exact ⟨_, rfl⟩
  · refine .inl ⟨hroom, ?_⟩
    simp only [if_neg hroom]
    exact ⟨_, rfl⟩

/-- A vector that grows gets no null handle. -/
theorem ccVecReserve_ne_zero {elSize : ℕ} {cntr n q : BitVec 64} {h h' : Heap} (hne : cntr ≠ 0#64)
    (hreserve : ccVecReserve elSize cntr n h = (some q, h')) : q ≠ 0#64 := by
  unfold ccVecReserve at hreserve
  split at hreserve
  · obtain ⟨hq, -⟩ := Prod.mk.inj hreserve
    rwa [← Option.some.inj hq]
  · dsimp only at hreserve
    generalize realloc _ _ _ h = r at hreserve
    by_cases hnew : r.1 = 0#64
    · rw [if_pos hnew] at hreserve
      cases hreserve
    · rw [if_neg hnew] at hreserve
      obtain ⟨hq, -⟩ := Prod.mk.inj hreserve
      rwa [← Option.some.inj hq]

/-- …so a push leaves none behind. -/
theorem ccVecPush_ne_zero {elSize : ℕ} {cntr q : BitVec 64} {el : BitVec (8 * elSize)} {h h' : Heap}
    {b : Bool} (hne : cntr ≠ 0#64) (hpush : ccVecPush elSize cntr el h = some (q, b, h')) :
    q ≠ 0#64 := by
  rcases ccVecPush_cases elSize cntr el h with ⟨-, h₁, heq⟩ | ⟨-, hgrow⟩
  · obtain ⟨rfl, -⟩ := Prod.mk.inj (Option.some.inj (heq.symm.trans hpush))
    exact hne
  · split at hgrow
    · rw [hgrow] at hpush
      cases hpush
    · split at hgrow
      · obtain ⟨rfl, -⟩ := Prod.mk.inj (Option.some.inj (hgrow.symm.trans hpush))
        exact hne
      case h_2 hres =>
        obtain ⟨h₁, heq⟩ := hgrow
        obtain ⟨rfl, -⟩ := Prod.mk.inj (Option.some.inj (heq.symm.trans hpush))
        exact ccVecReserve_ne_zero hne hres

/-! ## Against lists -/

/-- **The block at `cntr` is a vector that holds `xs`**, of a size an `int` can count in bytes and
inside the address space. -/
structure IsVec {elSize : ℕ} (m : Mem) (cntr : BitVec 64) (cap : ℕ)
    (xs : List (BitVec (8 * elSize))) : Prop where
  size : ccVecSize m cntr = BitVec.ofNat 64 xs.length
  capacity : ccVecCap m cntr = BitVec.ofNat 64 cap
  fits : xs.length ≤ cap
  small : 16 + elSize * cap < 2 ^ 31
  inside : cntr.toNat + (16 + elSize * cap) < 2 ^ 64
  get : ∀ i (hi : i < xs.length), load m (at' cntr (16 + elSize * i)) elSize = xs.get ⟨i, hi⟩

/-- What is assumed of the heap: a block it answers with leaves room for any size below `2³¹`. -/
def Heap.Roomy (h : Heap) : Prop := ∀ block ∈ h.blocks, block.toNat + 2 ^ 31 ≤ 2 ^ 64

section Lists

variable {elSize cap cap' : ℕ} {m : Mem} {cntr block : BitVec 64} {h : Heap}
  {xs : List (BitVec (8 * elSize))} {el : BitVec (8 * elSize)}

theorem ccVecGet_ofNat {i : ℕ} (hi : i < 2 ^ 64) :
    ccVecGet elSize cntr (BitVec.ofNat 64 i) = at' cntr (16 + elSize * i) := by
  rw [ccVecGet, BitVec.toNat_ofNat, Nat.mod_eq_of_lt hi]

/-- The bytes up to and including element `i` are inside a block of `cap` elements. -/
theorem offset_le (elSize : ℕ) {i : ℕ} (hi : i < cap) :
    16 + elSize * i + elSize ≤ 16 + elSize * cap := by
  have := Nat.mul_le_mul_left elSize (show i + 1 ≤ cap from hi)
  rw [Nat.mul_add, Nat.mul_one] at this
  omega

/-- A word stored in the header changes no element. -/
theorem load_store_header (hsmall : 16 + elSize * cap < 2 ^ 31) {i p : ℕ} (hi : i < cap)
    (hp : p + 8 ≤ 16) (v : BitVec (8 * 8)) :
    load (store m (at' cntr p) 8 v) (at' cntr (16 + elSize * i)) elSize
      = load m (at' cntr (16 + elSize * i)) elSize := by
  have := offset_le elSize hi
  exact load_store_apart (apart_at' cntr (Or.inr (by omega)) (by omega) (by omega)) v

/-- **With room behind the last element, one more is stored and counted.** -/
theorem IsVec.append (hv : IsVec m cntr cap xs) (hroom : xs.length < cap) :
    IsVec (store (store m (at' cntr (16 + elSize * xs.length)) elSize el) (at' cntr 0) 8
      (BitVec.ofNat 64 (xs.length + 1))) cntr cap (xs ++ [el]) := by
  have hsmall := hv.small
  have hend := offset_le elSize hroom
  refine ⟨?_, ?_, by simp; omega, hsmall, hv.inside, fun i hi => ?_⟩
  · rw [ccVecSize, load_store_same _ _ (by decide)]
    simp
  · rw [ccVecCap, load_store_apart (apart_at' cntr (by omega) (by omega) (by omega)),
      load_store_apart (apart_at' cntr (by omega) (by omega) (by omega)), ← ccVecCap, hv.capacity]
  · rw [List.length_append, List.length_singleton] at hi
    rw [load_store_header hsmall (by omega) (by omega)]
    by_cases hlast : i = xs.length
    · subst hlast
      rw [load_store_same _ _ (by omega)]
      simp
    · have hlt : i < xs.length := by omega
      have hoff := offset_le elSize hlt
      rw [load_store_apart (apart_at' cntr (by omega) (by omega) (by omega)), hv.get i hlt]
      simp [List.getElem_append_left hlt]

/-- **A block moved to a larger one holds the same elements.** -/
theorem IsVec.move (hv : IsVec m cntr cap xs) (hle : cap ≤ cap')
    (hsmall : 16 + elSize * cap' < 2 ^ 31) (hblock : block.toNat + 2 ^ 31 ≤ 2 ^ 64) :
    IsVec (store (copy m block cntr (16 + elSize * cap)) (at' block 8) 8 (BitVec.ofNat 64 cap'))
      block cap' xs := by
  have hold := hv.small
  refine ⟨?_, ?_, hv.fits.trans hle, hsmall, by omega, fun i hi => ?_⟩
  · rw [ccVecSize, load_store_apart (apart_at' block (by omega) (by omega) (by omega)),
      load_copy _ _ (by omega) (by omega), ← ccVecSize, hv.size]
  · rw [ccVecCap, load_store_same _ _ (by decide)]
  · have hcap : i < cap := Nat.lt_of_lt_of_le hi hv.fits
    have hoff := offset_le elSize hcap
    rw [load_store_header hsmall (Nat.lt_of_lt_of_le hcap hle) (by omega),
      load_copy _ _ hoff (by omega), hv.get i hi]

/-- A new block with a written header is an empty vector. -/
theorem isVec_nil (m : Mem) (hsmall : 16 + elSize * cap < 2 ^ 31)
    (hblock : block.toNat + 2 ^ 31 ≤ 2 ^ 64) :
    @IsVec elSize (store (store m (at' block 0) 8 0#64) (at' block 8) 8
      (BitVec.ofNat 64 cap)) block cap [] := by
  refine ⟨?_, ?_, Nat.zero_le _, hsmall, by omega, fun i hi => absurd hi (by simp)⟩
  · rw [ccVecSize, load_store_apart (apart_at' block (by omega) (by omega) (by omega)),
      load_store_same _ _ (by decide)]
    rfl
  · rw [ccVecCap, load_store_same _ _ (by decide)]

/-- The capacity a full vector asks for: two at first, and then twice what it has. -/
theorem doubleCap_full (h : cap < 2 ^ 31) :
    doubleCap 65 (if BitVec.ofNat 64 cap = 0#64 then 2#64 else BitVec.ofNat 64 cap)
      (BitVec.ofNat 64 cap + 1#64) = some (BitVec.ofNat 64 (if cap = 0 then 2 else 2 * cap)) := by
  by_cases hz : cap = 0
  · subst hz
    rfl
  · have hne : BitVec.ofNat 64 cap ≠ 0#64 := by bv_omega
    have hlt : BitVec.ofNat 64 cap < BitVec.ofNat 64 cap + 1#64 := by bv_omega
    have hge : ¬ BitVec.ofNat 64 cap * 2#64 < BitVec.ofNat 64 cap + 1#64 := by bv_omega
    rw [if_neg hne, if_neg hz, doubleCap, if_pos hlt, doubleCap, if_neg hge]
    congr 1
    bv_omega

/-- What `realloc` can do with a size below `2³²`: move the block, or refuse. -/
theorem realloc_cases {bytes : ℕ} (ptr : BitVec 64) (old : ℕ) (hbytes : bytes < 2 ^ 32)
    (h : Heap) :
    (∃ block blocks, h.blocks = block :: blocks ∧ block ≠ 0#64 ∧ bytes < 2 ^ 31
        ∧ realloc ptr old (BitVec.ofNat 64 bytes) h
          = (block, { mem := copy h.mem block ptr old, blocks }))
      ∨ ∃ h', realloc ptr old (BitVec.ofNat 64 bytes) h = (0#64, h')
        ∧ h'.blocks <:+ h.blocks ∧ h'.mem = h.mem
        ∧ (2 ^ 31 ≤ bytes ∨ h.blocks.headD 0#64 = 0#64) := by
  have hmsb : ((BitVec.ofNat 64 bytes).setWidth 32).msb = true ↔ 2 ^ 31 ≤ bytes := by
    rw [BitVec.msb_eq_decide, decide_eq_true_iff, BitVec.toNat_setWidth, BitVec.toNat_ofNat,
      Nat.mod_eq_of_lt (show bytes < 2 ^ 64 by omega), Nat.mod_eq_of_lt hbytes]
  obtain ⟨m, blocks⟩ := h
  by_cases hbig : 2 ^ 31 ≤ bytes
  · exact Or.inr ⟨_, if_pos (hmsb.mpr hbig), List.suffix_rfl, rfl, Or.inl hbig⟩
  · rw [realloc, if_neg (mt hmsb.mp hbig)]
    cases blocks with
    | nil => exact Or.inr ⟨_, rfl, List.suffix_rfl, rfl, Or.inr rfl⟩
    | cons block blocks =>
      by_cases hz : block = 0#64
      · exact Or.inr ⟨_, if_pos hz, List.suffix_cons .., rfl, Or.inr hz⟩
      · exact Or.inl ⟨block, blocks, rfl, hz, by omega, if_neg hz⟩

/-- A reservation moves the vector to a block that answers, and is refused only by the heap. -/
theorem ccVecReserve_isVec (hel : 0 < elSize) (hv : IsVec h.mem cntr cap xs)
    (hroomy : h.Roomy) (hlt : cap < cap') (hbytes : 16 + elSize * cap' < 2 ^ 32) :
    (∃ block h', ccVecReserve elSize cntr (BitVec.ofNat 64 cap') h = (some block, h')
        ∧ h.blocks = block :: h'.blocks ∧ block ≠ 0#64 ∧ IsVec h'.mem block cap' xs
        ∧ SameOutside block (16 + elSize * cap') h.mem h'.mem)
      ∨ ∃ h', ccVecReserve elSize cntr (BitVec.ofNat 64 cap') h = (none, h')
        ∧ h'.blocks <:+ h.blocks ∧ h'.mem = h.mem
        ∧ (2 ^ 31 ≤ 16 + elSize * cap' ∨ h.blocks.headD 0#64 = 0#64) := by
  have hcap' : cap' ≤ elSize * cap' := Nat.le_mul_of_pos_left _ hel
  have hsz : 16#64 + BitVec.ofNat 64 elSize * BitVec.ofNat 64 cap'
      = BitVec.ofNat 64 (16 + elSize * cap') := by
    rw [BitVec.ofNat_add, BitVec.ofNat_mul]
  have hle : ¬ BitVec.ofNat 64 cap' ≤ ccVecCap h.mem cntr := by
    rw [hv.capacity, BitVec.le_def, BitVec.toNat_ofNat, BitVec.toNat_ofNat,
      Nat.mod_eq_of_lt (by omega), Nat.mod_eq_of_lt (by omega)]
    omega
  have hplace : ccVecCap h.mem cntr = 0#64 ↔ cap = 0 := by
    rw [hv.capacity]
    bv_omega
  rw [ccVecReserve, if_neg hle, hsz]
  simp only [hplace]
  rcases realloc_cases (if cap = 0 then 0#64 else cntr)
      (if cap = 0 then 0 else 16 + elSize * (ccVecCap h.mem cntr).toNat) hbytes h with
    ⟨block, blocks, hblocks, hne, hsmall, heq⟩ | ⟨h', heq, hsuf, hmem, hwhy⟩
  · rw [heq]
    have hblock := hroomy block (by simp [hblocks])
    have hframe := SameOutside.refl block (16 + elSize * cap') h.mem
    refine Or.inl ⟨block, _, if_neg hne, hblocks, hne, ?_⟩
    by_cases hz : cap = 0
    · obtain rfl : xs = [] := List.eq_nil_of_length_eq_zero (by have := hv.fits; omega)
      simp only [hz, if_true]
      exact ⟨isVec_nil _ hsmall hblock,
        (((hframe.copy (Nat.zero_le _) _).store (by omega) _).store (by omega) _)⟩
    · have hold : (ccVecCap h.mem cntr).toNat = cap := by
        rw [hv.capacity, BitVec.toNat_ofNat, Nat.mod_eq_of_lt (by omega)]
      have hlen : elSize * cap ≤ elSize * cap' := Nat.mul_le_mul_left _ hlt.le
      simp only [hz, if_false, hold]
      exact ⟨hv.move hlt.le hsmall hblock, (hframe.copy (by omega) _).store (by omega) _⟩
  · rw [heq]
    exact Or.inr ⟨h', if_pos rfl, hsuf, hmem, hwhy⟩

/-- Nothing is moved when nothing is behind. -/
theorem memmove_zero (m : Mem) (dst src : BitVec 64) : (memmove m dst src 0).1 = m := by
  rw [memmove]
  split <;> rfl

/-- The element goes behind the last, and is counted. -/
theorem IsVec.place (hel : 0 < elSize) (hv : IsVec m cntr cap xs) (hroom : xs.length < cap)
    (el : BitVec (8 * elSize)) :
    IsVec (ccVecPlace elSize cntr (BitVec.ofNat 64 xs.length) el m) cntr cap (xs ++ [el])
      ∧ SameOutside cntr (16 + elSize * cap) m
        (ccVecPlace elSize cntr (BitVec.ofNat 64 xs.length) el m) := by
  have hsmall := hv.small
  have hend := offset_le elSize hroom
  have hcap : cap ≤ elSize * cap := Nat.le_mul_of_pos_left _ hel
  have hcount : ccVecSize (store m (at' cntr (16 + elSize * xs.length)) elSize el) cntr + 1#64
      = BitVec.ofNat 64 (xs.length + 1) := by
    rw [ccVecSize, load_store_apart (apart_at' cntr (by omega) (by omega) (by omega)), ← ccVecSize,
      hv.size, BitVec.ofNat_add]
  simp only [ccVecPlace, hv.size, BitVec.sub_self, BitVec.mul_zero, BitVec.toNat_zero,
    memmove_zero]
  rw [ccVecGet_ofNat (by omega), hcount]
  exact ⟨hv.append hroom, ((SameOutside.refl _ _ _).store hend _).store (by omega) _⟩

/-- The capacity a full vector grows to. -/
def grownCap (cap : ℕ) : ℕ := if cap = 0 then 2 else 2 * cap

/-- **A push appends**, or leaves the vector as it was when the heap refuses to let it grow. -/
theorem ccVecPush_isVec (hel : 0 < elSize) (hel' : elSize < 2 ^ 16) (hv : IsVec h.mem cntr cap xs)
    (hroomy : h.Roomy) (el : BitVec (8 * elSize)) :
    (∃ cntr' h' cap', ccVecPush elSize cntr el h = some (cntr', true, h')
        ∧ (cntr' = cntr ∧ cap' = cap ∧ h'.blocks = h.blocks
          ∨ h.blocks = cntr' :: h'.blocks ∧ cap' = grownCap cap ∧ cntr' ≠ 0#64)
        ∧ IsVec h'.mem cntr' cap' (xs ++ [el])
        ∧ SameOutside cntr' (16 + elSize * cap') h.mem h'.mem)
      ∨ ∃ h', ccVecPush elSize cntr el h = some (cntr, false, h')
        ∧ h'.blocks <:+ h.blocks ∧ h'.mem = h.mem ∧ xs.length = cap
        ∧ (2 ^ 30 ≤ 8 + elSize * cap ∨ h.blocks.headD 0#64 = 0#64) := by
  have hsmall := hv.small
  have hfits := hv.fits
  have hcap : cap ≤ elSize * cap := Nat.le_mul_of_pos_left _ hel
  rw [ccVecPush, ccVecInsert]
  simp only [hv.size, hv.capacity]
  by_cases hroom : xs.length < cap
  · have hge : ¬ BitVec.ofNat 64 cap < BitVec.ofNat 64 xs.length + 1#64 := by bv_omega
    rw [if_neg hge]
    exact Or.inl ⟨cntr, _, cap, rfl, .inl ⟨rfl, rfl, rfl⟩, hv.place hel hroom el⟩
  · obtain rfl : xs.length = cap := by omega
    have hlt : BitVec.ofNat 64 xs.length < BitVec.ofNat 64 xs.length + 1#64 := by bv_omega
    rw [if_pos hlt, doubleCap_full (by omega)]
    rw [← grownCap]
    generalize hn : grownCap xs.length = n
    -- Two elements at first, and then exactly twice the bytes.
    have hbytes : elSize * n = elSize * 2 ∨ elSize * n = 2 * (elSize * xs.length) := by
      subst hn
      rw [grownCap]
      split
      · exact Or.inl rfl
      · exact Or.inr (Nat.mul_left_comm ..)
    have hltn : xs.length < n := by
      subst hn
      rw [grownCap]
      split <;> omega
    rcases ccVecReserve_isVec hel hv hroomy hltn (by omega) with
      ⟨block, h', hres, hblocks, hne, hv', hmoved⟩ | ⟨h', hres, hsuf, hmem, hwhy⟩
    · obtain ⟨hplaced, hframe⟩ := hv'.place hel hltn el
      refine Or.inl ⟨block, { h' with mem := ccVecPlace elSize block _ el h'.mem }, n, ?_,
        .inr ⟨hblocks, rfl, hne⟩, hplaced, hmoved.trans hframe⟩
      simp only [Option.pure_def, Option.bind_eq_bind, Option.bind_some, hres]
    · refine Or.inr ⟨h', ?_, hsuf, hmem, rfl, hwhy.imp_left fun hbig => by omega⟩
      simp only [Option.pure_def, Option.bind_eq_bind, Option.bind_some, hres]

/-- An erase moves nothing: it counts one less. -/
theorem ccVecErase_eq (hel : 0 < elSize) (hv : IsVec m cntr cap xs) {i : ℕ} (hi : i < xs.length) :
    ccVecErase elSize cntr (BitVec.ofNat 64 i) m
      = (at' cntr (16 + elSize * i),
        store m (at' cntr 0) 8 (BitVec.ofNat 64 (xs.length - 1))) := by
  have hsmall := hv.small
  have hfits := hv.fits
  have hinside := hv.inside
  have hcap : cap ≤ elSize * cap := Nat.le_mul_of_pos_left _ hel
  have hend := offset_le elSize (Nat.lt_of_lt_of_le hi hfits)
  have hsucc : BitVec.ofNat 64 i + 1#64 = BitVec.ofNat 64 (i + 1) := by rw [BitVec.ofNat_add]
  -- The slots grow upwards, so the block is to be moved down.
  have hdown : ¬ ccVecGet elSize cntr (BitVec.ofNat 64 i + 1#64)
      < ccVecGet elSize cntr (BitVec.ofNat 64 i) := by
    rw [hsucc, ccVecGet_ofNat (by omega), ccVecGet_ofNat (by omega), Nat.mul_add, BitVec.lt_def,
      toNat_at' (by omega), toNat_at' (by omega)]
    omega
  simp only [ccVecErase, memmove_of_le hdown, hv.size]
  rw [ccVecGet_ofNat (by omega)]
  congr 2
  bv_omega

/-- **An erase drops the last element, and returns a pointer to the one at its index.** -/
theorem ccVecErase_isVec (hel : 0 < elSize) (hv : IsVec m cntr cap xs) {i : ℕ}
    (hi : i < xs.length) :
    (ccVecErase elSize cntr (BitVec.ofNat 64 i) m).1 = at' cntr (16 + elSize * i)
      ∧ IsVec (ccVecErase elSize cntr (BitVec.ofNat 64 i) m).2 cntr cap xs.dropLast
      ∧ load (ccVecErase elSize cntr (BitVec.ofNat 64 i) m).2 (at' cntr (16 + elSize * i)) elSize
        = xs.get ⟨i, hi⟩
      ∧ SameOutside cntr (16 + elSize * cap) m
        (ccVecErase elSize cntr (BitVec.ofNat 64 i) m).2 := by
  have hsmall := hv.small
  have hfits := hv.fits
  have hget : ∀ j, j < xs.length →
      load (store m (at' cntr 0) 8 (BitVec.ofNat 64 (xs.length - 1)))
        (at' cntr (16 + elSize * j)) elSize = load m (at' cntr (16 + elSize * j)) elSize :=
    fun j hj => load_store_header hsmall (Nat.lt_of_lt_of_le hj hfits) (by omega) _
  rw [ccVecErase_eq hel hv hi]
  refine ⟨rfl, ⟨?_, ?_, ?_, hsmall, hv.inside, fun j hj => ?_⟩, ?_, ?_⟩
  · rw [ccVecSize, load_store_same _ _ (by decide), List.length_dropLast]
  · rw [ccVecCap, load_store_apart (apart_at' cntr (by omega) (by omega) (by omega)),
      ← ccVecCap, hv.capacity]
  · rw [List.length_dropLast]
    omega
  · rw [List.length_dropLast] at hj
    rw [hget j (by omega), hv.get j (by omega)]
    simp
  · rw [hget i hi, hv.get i hi]
  · exact (SameOutside.refl _ _ _).store (by omega) _

/-- A vector apart from the memory that changes stays as it is. -/
theorem IsVec.frame {m' : Mem} {a : BitVec 64} {n : ℕ} (hv : IsVec m cntr cap xs)
    (hsame : SameOutside a n m m') (hapart : Apart cntr (16 + elSize * cap) a n) :
    IsVec m' cntr cap xs := by
  refine ⟨?_, ?_, hv.fits, hv.small, hv.inside, fun i hi => ?_⟩
  · rw [ccVecSize, hsame.load (hapart.sub (by omega)), ← ccVecSize, hv.size]
  · rw [ccVecCap, hsame.load (hapart.sub (by omega)), ← ccVecCap, hv.capacity]
  · have hoff := offset_le elSize (Nat.lt_of_lt_of_le hi hv.fits)
    rw [hsame.load (hapart.sub hoff), hv.get i hi]

end Lists

end MoonOS

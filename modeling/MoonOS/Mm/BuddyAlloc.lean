import MoonOS.Mm.BuddyReads
import MoonOS.Mm.PhysBlock

/-!
# Mm/BuddyAlloc — the vendored buddy allocator

`struct buddy` of `kernel/mm/buddy.h` and the functions the kernel calls: `buddy_embed`,
`buddy_malloc`, `buddy_free` and the reservation of ranges.  An arena that is not a power of two of
slots is tracked by a tree that is, whose surplus is marked when the allocator is made.

`BuddyAlloc.Tracks` says which slots of the arena are taken.  A block is a part of the slot tree:

* `Tracks.malloc` — a request takes a free part of the least size that is enough, or there is none;
* `Tracks.free_used`, `Tracks.free_other` — a pointer is freed if a block starts there, and no other
  pointer changes anything.
-/

namespace MoonOS

open ByteMemory SlotTree

/-! ## The allocator -/

/-- `struct buddy`, where it lies (`self`), and the tree behind it.  `arena` is the union of
`main` and `main_offset`. -/
@[ext]
structure BuddyAlloc where
  self : BitVec 64
  memorySize : ℕ
  alignment : ℕ
  arena : BitVec 64
  buddyFlags : ℕ
  tree : BuddyTree

/-- `is_valid_alignment`. -/
def isValidAlignment (alignment : ℕ) : Bool := ceilingPowerOfTwo alignment == alignment

/-- `buddy_tree_order_for_memory`. -/
def buddyTreeOrderForMemory (memorySize alignment : ℕ) : ℕ :=
  highestBitPosition (ceilingPowerOfTwo (memorySize / alignment))

/-- `buddy_sizeof_alignment`; `sizeof(struct buddy)` is 32. -/
def buddySizeofAlignment (memorySize alignment : ℕ) : ℕ :=
  if !isValidAlignment alignment then 0
  else if memorySize < alignment then 0
  else 32 + buddyTreeSizeof (buddyTreeOrderForMemory memorySize alignment % 256)

/-- The loop of `depth_for_size`; the memory is halved at most 64 times. -/
def depthForSizeLoop (requestedSize : ℕ) : ℕ → ℕ → ℕ → ℕ
  | 0, depth, _ => depth
  | n + 1, depth, effectiveMemorySize =>
    if (effectiveMemorySize / requestedSize) >>> 1 ≠ 0 then
      depthForSizeLoop requestedSize n (depth + 1) (effectiveMemorySize >>> 1)
    else depth

/-- The loop of `position_for_address`: up to the first position that is not free. -/
def positionForAddressLoop (t : BuddyTree) : ℕ → BuddyTreePos → Option BuddyTreePos
  | 0, _ => none
  | n + 1, pos =>
    if buddyTreeStatus t pos ≠ 0 then some pos
    else
      let pos := buddyTreeParent pos
      if !buddyTreeValid t pos then none else positionForAddressLoop t n pos

namespace BuddyAlloc

/-- `buddy_relative_mode`. -/
def relativeMode (b : BuddyAlloc) : Bool := b.buddyFlags % 2 == 1

/-- `buddy_main`. -/
def main (b : BuddyAlloc) : BitVec 64 := if b.relativeMode then b.self - b.arena else b.arena

/-- `buddy_effective_memory_size`. -/
def effectiveMemorySize (b : BuddyAlloc) : ℕ := ceilingPowerOfTwo b.memorySize

/-- `depth_for_size`. -/
def depthForSize (b : BuddyAlloc) (requestedSize : ℕ) : ℕ :=
  let requestedSize := if requestedSize < b.alignment then b.alignment else requestedSize
  depthForSizeLoop requestedSize 64 1 b.effectiveMemorySize

/-- `size_for_depth`. -/
def sizeForDepth (b : BuddyAlloc) (depth : ℕ) : ℕ := ceilingPowerOfTwo b.memorySize >>> (depth - 1)

/-- `address_for_position`. -/
def addressForPosition (b : BuddyAlloc) (pos : BuddyTreePos) : BitVec 64 :=
  at' b.main (b.sizeForDepth pos.depth * buddyTreeIndex pos)

/-- `deepest_position_for_offset`. -/
def deepestPositionForOffset (b : BuddyAlloc) (offset : ℕ) : BuddyTreePos :=
  let pos := buddyTreeLeftmostChild b.tree
  { pos with index := pos.index + offset / b.alignment }

/-- `position_for_address`. -/
def positionForAddress (b : BuddyAlloc) (addr : BitVec 64) : BuddyTreePos :=
  let offset := (addr - b.main).toNat
  if offset % b.alignment ≠ 0 then invalidPos
  else
    match positionForAddressLoop b.tree b.tree.order (b.deepestPositionForOffset offset) with
    | none => invalidPos
    | some pos => if b.addressForPosition pos ≠ addr then invalidPos else pos

/-- `buddy_malloc`. -/
def malloc (b : BuddyAlloc) (requestedSize : ℕ) : BitVec 64 × BuddyAlloc :=
  let requestedSize := if requestedSize = 0 then 1 else requestedSize
  if b.memorySize < requestedSize then (0#64, b)
  else
    let targetDepth := b.depthForSize requestedSize
    let pos := buddyTreeFindFree b.tree (targetDepth % 256)
    if !buddyTreeValid b.tree pos then (0#64, b)
    else
      let b := { b with tree := buddyTreeMark b.tree pos }
      (b.addressForPosition pos, b)

/-- `buddy_free`. -/
def free (b : BuddyAlloc) (ptr : BitVec 64) : BuddyAlloc :=
  if ptr = 0#64 then b
  else if ptr < b.main ∨ at' b.main b.memorySize ≤ ptr then b
  else
    let pos := b.positionForAddress ptr
    if !buddyTreeValid b.tree pos then b
    else { b with tree := buddyTreeRelease b.tree pos }

/-- The loop of `buddy_toggle_virtual_slots`, from a position whose last `delta` bytes are to be
toggled; it goes down one level a turn. -/
def toggleVirtualSlotsLoop (b : BuddyAlloc) (toggle : BuddyTree → BuddyTreePos → BuddyTree) :
    ℕ → BuddyTree → BuddyTreePos → ℕ → BuddyTree
  | 0, t, _, _ => t
  | n + 1, t, pos, delta =>
    if delta = 0 then t
    else
      let currentPosSize := b.sizeForDepth pos.depth
      if delta = currentPosSize then toggle t pos
      else if delta ≤ currentPosSize / 2 then
        toggleVirtualSlotsLoop b toggle n t (buddyTreeRightChild pos) delta
      else
        toggleVirtualSlotsLoop b toggle n (toggle t (buddyTreeRightChild pos))
          (buddyTreeLeftChild pos) (delta - currentPosSize / 2)

/-- `buddy_toggle_virtual_slots`; `state` is whether to mark. -/
def toggleVirtualSlots (b : BuddyAlloc) (state : Bool) : BuddyAlloc :=
  if b.effectiveMemorySize = b.memorySize then b
  else
    let delta := b.effectiveMemorySize - b.memorySize
    let toggle := if state then buddyTreeMark else buddyTreeRelease
    let pos := buddyTreeRightChild buddyTreeRoot
    { b with tree := b.toggleVirtualSlotsLoop toggle b.tree.order b.tree pos delta }

/-- The loop of `buddy_toggle_range_reservation`, slot by slot. -/
def toggleRangeLoop (alignment : ℕ) (toggle : BuddyTree → BuddyTreePos → BuddyTree) :
    ℕ → BuddyTree → BuddyTreePos → ℕ → BuddyTree
  | 0, t, _, _ => t
  | n + 1, t, pos, requestedSize =>
    if requestedSize = 0 then t
    else toggleRangeLoop alignment toggle n (toggle t pos) { pos with index := pos.index + 1 }
      (if requestedSize < alignment then 0 else requestedSize - alignment)

/-- `buddy_toggle_range_reservation`. -/
def toggleRangeReservation (b : BuddyAlloc) (ptr : BitVec 64) (requestedSize : ℕ) (state : Bool) :
    BuddyAlloc :=
  if ptr = 0#64 then b
  else if requestedSize = 0 then b
  else if ptr < b.main ∨ at' b.main b.memorySize < at' ptr requestedSize then b
  else
    let toggle := if state then buddyTreeMark else buddyTreeRelease
    let offset := (ptr - b.main).toNat
    let pos := b.deepestPositionForOffset offset
    let tree := toggleRangeLoop b.alignment toggle (requestedSize + 1) b.tree pos requestedSize
    { b with tree }

end BuddyAlloc

/-- `buddy_init_alignment`, over memory that held `raw` behind `self`; `alignof(struct buddy)` and
`alignof(size_t)` are 8. -/
def buddyInitAlignment (raw : Bitset) (self main : BitVec 64) (memorySize alignment : ℕ) :
    Option BuddyAlloc :=
  if self = 0#64 then none
  else if main = 0#64 then none
  else if self = main then none
  else if !isValidAlignment alignment then none
  else if self.toNat % 8 ≠ 0 then none
  else if main.toNat % 8 ≠ 0 then none
  else
    let memorySize := memorySize - memorySize % alignment
    if buddySizeofAlignment memorySize alignment = 0 then none
    else
      let order := buddyTreeOrderForMemory memorySize alignment
      let b : BuddyAlloc :=
        { self, memorySize, alignment, arena := main, buddyFlags := 0
          tree := buddyTreeInit raw (order % 256) }
      some (b.toggleVirtualSlots true)

/-- `struct buddy_embed_check`. -/
structure BuddyEmbedCheck where
  canFit : Bool
  offset : ℕ
  buddySize : ℕ
deriving DecidableEq, Repr

/-- `buddy_embed_offset`. -/
def buddyEmbedOffset (memorySize alignment : ℕ) : BuddyEmbedCheck :=
  let buddySize := buddySizeofAlignment memorySize alignment
  -- nothing sets `can_fit` again
  if memorySize ≤ buddySize then ⟨false, 0, 0⟩
  else
    let offset := memorySize - buddySize
    if offset % 8 ≠ 0 then
      let buddySize := buddySize + offset % 8
      if memorySize ≤ buddySize then ⟨false, 0, 0⟩ else ⟨true, memorySize - buddySize, buddySize⟩
    else ⟨true, offset, buddySize⟩

/-- `buddy_embed_alignment`. -/
def buddyEmbedAlignment (raw : Bitset) (main : BitVec 64) (memorySize alignment : ℕ) :
    Option BuddyAlloc :=
  if main = 0#64 then none
  else if !isValidAlignment alignment then none
  else
    let check := buddyEmbedOffset memorySize alignment
    if !check.canFit then none
    else
      (buddyInitAlignment raw (at' main check.offset) main check.offset alignment).map fun b =>
        { b with buddyFlags := b.buddyFlags ||| 1, arena := b.self - main }

/-- `buddy_embed`; `BUDDY_ALLOC_ALIGN` is 64. -/
def buddyEmbed (raw : Bitset) (main : BitVec 64) (memorySize : ℕ) : Option BuddyAlloc :=
  buddyEmbedAlignment raw main memorySize 64

/-! ## What is tracked -/

namespace BuddyAlloc

/-- The levels under the root. -/
def levels (b : BuddyAlloc) : ℕ := b.tree.order - 1

/-- The slots of the arena. -/
def slots (b : BuddyAlloc) : ℕ := b.memorySize / 64

/-- The memory of a part of the slot tree. -/
def block (b : BuddyAlloc) (p : List Bool) : Region :=
  ⟨at' b.main (64 * start b.levels p), 64 * width b.levels p⟩

/-- A used block that covers a slot, and nothing of the arena. -/
def Masked (b : BuddyAlloc) (s : Slots) (x : ℕ) : Prop :=
  ∃ q, s.sub q = .used ∧ b.slots ≤ start b.levels q
    ∧ start b.levels q ≤ x ∧ x < start b.levels q + width b.levels q

/-- An allocator for an arena of whole slots, which ends in front of the last address. -/
structure Sized (b : BuddyAlloc) : Prop where
  alignment : b.alignment = 64
  nonempty : 0 < b.memorySize
  trimmed : b.memorySize % 64 = 0
  main_ne : b.main ≠ 0#64
  small : b.memorySize ≤ 2 ^ 63
  bounded : b.main.toNat + b.memorySize < 2 ^ 64
  order : b.tree.order = Nat.clog 2 b.slots + 1

/-- **An allocator and the slots it holds to be taken**: those behind the arena are. -/
structure Tracks (b : BuddyAlloc) (s : Slots) : Prop extends b.Sized where
  reads : b.tree.Reads s
  masked : ∀ x, b.slots ≤ x → x < 2 ^ b.levels → b.Masked s x

section Sizes

variable {b : BuddyAlloc} {p : List Bool}

theorem clog_mul {m : ℕ} (hm : 0 < m) : Nat.clog 2 (64 * m) = 6 + Nat.clog 2 m := by
  refine eq_of_forall_ge_iff fun k => ?_
  rw [Nat.clog_le_iff_le_pow (by decide)]
  constructor
  · intro hle
    have hk : 6 ≤ k := by
      by_contra hlt
      have hpow : 2 ^ k ≤ 2 ^ 5 := Nat.pow_le_pow_right (by decide) (by omega)
      omega
    obtain ⟨j, rfl⟩ := Nat.exists_eq_add_of_le hk
    rw [pow_add] at hle
    have hj := (Nat.clog_le_iff_le_pow (b := 2) (by decide)).mpr
      (Nat.le_of_mul_le_mul_left hle (by decide))
    omega
  · intro hle
    obtain ⟨j, rfl⟩ := Nat.exists_eq_add_of_le (show 6 ≤ k by omega)
    have hj := (Nat.clog_le_iff_le_pow (b := 2) (by decide)).mp (show Nat.clog 2 m ≤ j by omega)
    rw [pow_add]
    exact Nat.mul_le_mul_left 64 hj

theorem mul_two_pow (k : ℕ) : 64 * 2 ^ k = 2 ^ (k + 6) := by
  rw [pow_add]
  ring

theorem Sized.levels_eq (h : b.Sized) : b.levels = Nat.clog 2 b.slots := by
  rw [levels, h.order, Nat.add_sub_cancel]

theorem Sized.order_eq (h : b.Sized) : b.tree.order = b.levels + 1 := by
  rw [h.order, h.levels_eq]

theorem Sized.memorySize_eq (h : b.Sized) : b.memorySize = 64 * b.slots := by
  have := h.trimmed
  rw [slots]
  omega

theorem Sized.slots_pos (h : b.Sized) : 0 < b.slots := by
  have := h.memorySize_eq
  have := h.nonempty
  omega

theorem Sized.slots_le (h : b.Sized) : b.slots ≤ 2 ^ b.levels := by
  rw [h.levels_eq]
  exact Nat.le_pow_clog (by decide) _

theorem Sized.levels_le (h : b.Sized) : b.levels ≤ 57 := by
  have hmem := h.memorySize_eq
  have hsmall := h.small
  rw [h.levels_eq]
  exact Nat.clog_le_of_le_pow (by omega)

/-- The tree is over the next power of two of slots. -/
theorem Sized.effectiveMemorySize_eq (h : b.Sized) :
    b.effectiveMemorySize = 64 * 2 ^ b.levels := by
  rw [effectiveMemorySize, ceilingPowerOfTwo_eq h.nonempty h.small, h.memorySize_eq,
    clog_mul h.slots_pos, h.levels_eq, pow_add]
  norm_num

theorem Sized.sizeForDepth_eq (h : b.Sized) (hp : p.length ≤ b.levels) :
    b.sizeForDepth (posOf p).depth = 64 * width b.levels p := by
  rw [sizeForDepth, show ceilingPowerOfTwo b.memorySize = 64 * 2 ^ b.levels from
    h.effectiveMemorySize_eq, posOf, Nat.add_sub_cancel, Nat.shiftRight_eq_div_pow, width,
    Nat.mul_div_assoc _ (pow_dvd_pow 2 hp), Nat.pow_div hp (by decide)]

/-- **The address of a position is where its block starts.** -/
theorem Sized.addressForPosition_eq (h : b.Sized) (hp : p.length ≤ b.levels) :
    b.addressForPosition (posOf p) = (b.block p).ptr := by
  have hle := h.levels_le
  rw [addressForPosition, h.sizeForDepth_eq hp, buddyTreeIndex_posOf (by omega), block,
    start_eq_rowIndex hp, Nat.mul_assoc, Nat.mul_comm (width _ _)]

/-- How deep the slots of a size are. -/
theorem depthForSizeLoop_eq {r : ℕ} (hr : 0 < r) : ∀ (n depth e : ℕ), e ≤ n → r ≤ 2 ^ e →
    depthForSizeLoop r n depth (2 ^ e) = depth + (e - Nat.clog 2 r)
  | 0, depth, e, hn, _ => by
    rw [depthForSizeLoop]
    omega
  | n + 1, depth, e, hn, hle => by
    have hclog := (Nat.clog_le_iff_le_pow (b := 2) (by decide)).mpr hle
    have hturn : (2 ^ e / r) >>> 1 ≠ 0 ↔ Nat.clog 2 r < e := by
      rw [Nat.shiftRight_eq_div_pow, pow_one, Nat.ne_zero_iff_zero_lt, Nat.div_pos_iff]
      have hdiv := Nat.le_div_iff_mul_le (x := 2) (y := 2 ^ e) hr
      constructor
      · rintro ⟨-, htwo⟩
        have hmul := hdiv.mp htwo
        cases e with
        | zero => omega
        | succ e =>
          rw [pow_succ] at hmul
          exact Nat.lt_succ_of_le ((Nat.clog_le_iff_le_pow (by decide)).mpr (by omega))
      · intro hlt
        refine ⟨by decide, hdiv.mpr ?_⟩
        cases e with
        | zero => omega
        | succ e =>
          have := (Nat.clog_le_iff_le_pow (b := 2) (by decide)).mp (Nat.le_of_lt_succ hlt)
          rw [pow_succ]
          omega
    rw [depthForSizeLoop]
    by_cases hlt : Nat.clog 2 r < e
    · obtain ⟨e, rfl⟩ : ∃ e', e = e' + 1 := ⟨e - 1, by omega⟩
      have hhalf : 2 ^ (e + 1) >>> 1 = 2 ^ e := by
        rw [Nat.shiftRight_eq_div_pow, pow_succ, pow_one, Nat.mul_div_cancel _ (by decide)]
      rw [if_pos (hturn.mpr hlt), hhalf, depthForSizeLoop_eq hr n (depth + 1) e (by omega)
        ((Nat.clog_le_iff_le_pow (by decide)).mp (by omega))]
      omega
    · rw [if_neg (fun hne => hlt (hturn.mp hne))]
      omega

/-- The size of the slot for a request: a power of two, not under 64. -/
theorem six_le_clog (n : ℕ) : 6 ≤ Nat.clog 2 (max n 64) := by
  rw [show (6 : ℕ) = Nat.clog 2 (2 ^ 6) from (Nat.clog_pow 2 6 (by decide)).symm]
  exact Nat.clog_mono_right 2 (le_max_right n 64)

/-- The length of a path to a slot for a request of `n` bytes. -/
def wantedDepth (b : BuddyAlloc) (n : ℕ) : ℕ := b.levels + 6 - Nat.clog 2 (max n 64)

/-- **`depth_for_size` finds the level of the least slots that are enough.** -/
theorem Sized.depthForSize_eq (h : b.Sized) {n : ℕ} (hn : n ≤ b.memorySize) :
    b.depthForSize n = b.wantedDepth n + 1 ∧ b.wantedDepth n ≤ b.levels
      ∧ Nat.clog 2 (max n 64) ≤ b.levels + 6 := by
  have heff : b.effectiveMemorySize = 2 ^ (b.levels + 6) := by
    rw [h.effectiveMemorySize_eq, mul_two_pow]
  have hmax : (if n < b.alignment then b.alignment else n) = max n 64 := by
    rw [h.alignment]
    split <;> omega
  have hle : max n 64 ≤ 2 ^ (b.levels + 6) := by
    have hslots := h.slots_le
    have hmem := h.memorySize_eq
    have hpos := h.slots_pos
    rw [pow_add]
    omega
  have hclog := (Nat.clog_le_iff_le_pow (b := 2) (by decide)).mpr hle
  have hsix := six_le_clog n
  have hbound := h.levels_le
  rw [depthForSize, hmax, heff, depthForSizeLoop_eq (by omega) 64 1 _ (by omega) hle, wantedDepth]
  omega

/-- A slot of that level is as long as the request is rounded to. -/
theorem block_len_of_wantedDepth {n : ℕ} (hp : p.length = b.wantedDepth n)
    (hn : Nat.clog 2 (max n 64) ≤ b.levels + 6) : (b.block p).len = slotSize n := by
  have hsix := six_le_clog n
  rw [block, width, slotSize, hp, wantedDepth]
  dsimp only
  rw [mul_two_pow]
  congr 1
  omega

theorem length_of_block_len {n : ℕ} (hp : p.length ≤ b.levels)
    (hlen : (b.block p).len = slotSize n) : p.length = b.wantedDepth n := by
  rw [block, width, slotSize] at hlen
  dsimp only at hlen
  rw [mul_two_pow] at hlen
  have hexp : b.levels - p.length + 6 = Nat.clog 2 (max n 64) :=
    Nat.pow_right_injective (le_refl 2) hlen
  rw [wantedDepth]
  omega

end Sizes

/-! ## Allocation -/

section Malloc

variable {b : BuddyAlloc} {s s' : Slots} {p q : List Bool} {t : BuddyTree}

/-- **A free part lies in the arena.** -/
theorem Tracks.inside_of_freeAt (h : b.Tracks s) (hp : p.length ≤ b.levels) (hfree : s.FreeAt p) :
    start b.levels p + width b.levels p ≤ b.slots := by
  by_contra hout
  have hend := start_add_width_le hp
  have hwidth := width_pos (n := b.levels) (p := p)
  obtain ⟨q, hused, -, hlo, hhi⟩ := h.masked (start b.levels p + width b.levels p - 1) (by omega)
    (by omega)
  have hfits := h.reads.fits
  have horder := h.order_eq
  have hq := Slots.length_lt_of_used hfits hused
  obtain ⟨hqp, hpq⟩ := (Slots.freeAt_iff hfits (by omega)).mp hfree q hused
  rcases (overlap_iff (by omega) hp).mp (show start b.levels q < _ ∧ _ by omega) with hle | hle
  · exact hqp hle
  · exact hpq hle

/-- Another tree in the same allocator, in which what lies behind the arena is still used. -/
theorem Tracks.withTree (h : b.Tracks s) (hreads : t.Reads s') (hrest : t.SameRest b.tree)
    (hmask : ∀ q, s.sub q = .used → b.slots ≤ start b.levels q → s'.sub q = .used) :
    ({ b with tree := t } : BuddyAlloc).Tracks s' := by
  have hlevels : ({ b with tree := t } : BuddyAlloc).levels = b.levels := by
    rw [levels, levels, ← hrest.order]
  refine ⟨⟨h.alignment, h.nonempty, h.trimmed, h.main_ne, h.small, h.bounded,
    hrest.order.trans h.order⟩, hreads, fun x hlo hhi => ?_⟩
  rw [hlevels] at hhi
  obtain ⟨q, hused, hq, hin⟩ := h.masked x hlo hhi
  refine ⟨q, hmask q hused hq, ?_, ?_⟩
  · rw [hlevels]
    exact hq
  · rw [hlevels]
    exact hin

theorem block_withTree (hrest : t.SameRest b.tree) (p : List Bool) :
    ({ b with tree := t } : BuddyAlloc).block p = b.block p := by
  have hlevels : ({ b with tree := t } : BuddyAlloc).levels = b.levels := by
    rw [levels, levels, ← hrest.order]
  rw [block, block, hlevels]
  rfl

theorem slotSize_pos_eq (n : ℕ) : slotSize (if n = 0 then 1 else n) = slotSize n := by
  split
  · next hzero =>
    subst hzero
    rfl
  · rfl

theorem le_slotSize (n : ℕ) : n ≤ slotSize n :=
  (le_max_left n 64).trans (Nat.le_pow_clog (by decide) _)

/-- **A request takes a free part of the least size that is enough, or there is none.** -/
theorem Tracks.malloc (h : b.Tracks s) (n : ℕ) :
    (b.malloc n = (0#64, b)
        ∧ ∀ p, p.length ≤ b.levels → (b.block p).len = slotSize n → ¬ s.FreeAt p)
      ∨ ∃ p t, p.length ≤ b.levels ∧ (b.block p).len = slotSize n ∧ s.FreeAt p
        ∧ b.malloc n = ((b.block p).ptr, { b with tree := t })
        ∧ ({ b with tree := t } : BuddyAlloc).Tracks (s.set p .used) ∧ t.SameRest b.tree := by
  have horder := h.order_eq
  have hfits := h.reads.fits
  rw [← slotSize_pos_eq n, BuddyAlloc.malloc]
  generalize (if n = 0 then 1 else n) = n
  dsimp only
  by_cases hlarge : b.memorySize < n
  · refine .inl ⟨if_pos hlarge, fun p hp hlen hfree => ?_⟩
    have hin := h.inside_of_freeAt hp hfree
    have hslot := le_slotSize n
    have hmem := h.memorySize_eq
    rw [← hlen] at hslot
    change n ≤ 64 * width b.levels p at hslot
    omega
  obtain ⟨hdepth, hwanted, hclog⟩ := h.depthForSize_eq (n := n) (by omega)
  have hbound := h.levels_le
  rw [if_neg hlarge, hdepth, Nat.mod_eq_of_lt (by omega),
    h.reads.buddyTreeFindFree (by omega) (by omega), Nat.add_sub_cancel]
  by_cases hroom : s.status b.tree.order ≤ b.wantedDepth n
  · have hlen := length_bestFit b.tree.order (b.wantedDepth n) s
    have hfree := freeAt_bestFit hfits (by omega) hroom
    generalize bestFit b.tree.order (b.wantedDepth n) s = p at hlen hfree
    obtain ⟨t, hmark, hreads, hrest⟩ := h.reads.buddyTreeMark (p := p) (by omega) fun b => by
      rw [Slots.sub_of_freeAt hfree, Slots.half_free]
    have hp : p.length ≤ b.levels := by omega
    refine .inr ⟨p, t, hp, block_len_of_wantedDepth hlen hclog, hfree, ?_, ?_, hrest⟩
    · rw [if_pos hroom, h.reads.sound.valid (by omega), Bool.not_true, if_neg (by decide), hmark,
        ← h.addressForPosition_eq hp]
      rfl
    · refine h.withTree hreads hrest fun q hused _ => ?_
      exact (Slots.sub_set_used hfits (by omega) hfree).mpr (.inr hused)
  · refine .inl ⟨?_, fun p hp hlen hfree => hroom ?_⟩
    · rw [if_neg hroom, buddyTreeValid_invalidPos, Bool.not_false, if_pos rfl]
    · refine (Slots.exists_freeAt_iff hfits (by omega)).mp ⟨p, ?_, hfree⟩
      exact length_of_block_len hp hlen

end Malloc

/-! ## Release -/

section Free

variable {b : BuddyAlloc} {s : Slots} {p q c d : List Bool} {t : BuddyTree} {ptr : BitVec 64}

/-- The climb ends at the last position on the way that is not free… -/
theorem positionForAddressLoop_of_taken (h : t.Reads s) (hd : s.look t.order d ≠ 0) :
    ∀ {n : ℕ} {c : List Bool}, c.length < n → c.length < t.order → d <+: c →
      (∀ e, d <+: e → e ≠ d → e <+: c → s.look t.order e = 0) →
      positionForAddressLoop t n (posOf c) = some (posOf d) := by
  intro n
  induction n with
  | zero => exact fun hn => absurd hn (Nat.not_lt_zero _)
  | succ n ih =>
    intro c hn hc hdc hzero
    rw [positionForAddressLoop, h.buddyTreeStatus hc]
    by_cases hcd : c = d
    · rw [hcd, if_pos hd]
    · rw [if_neg (not_not.mpr (hzero c hdc hcd List.prefix_rfl))]
      induction c using List.reverseRecOn with
      | nil => exact absurd (List.prefix_nil.mp hdc).symm hcd
      | append_singleton c a _ =>
        rw [List.length_append, List.length_singleton] at hn hc
        have hdc' : d <+: c := by
          rcases List.prefix_concat_iff.mp hdc with heq | hle
          · exact absurd heq.symm hcd
          · exact hle
        dsimp only
        rw [parent_posOf, h.sound.valid (by omega), Bool.not_true, if_neg (by decide)]
        exact ih (by omega) (by omega) hdc' fun e hde hne hec =>
          hzero e hde hne (hec.trans (List.prefix_append c [a]))

/-- …or there is none. -/
theorem positionForAddressLoop_of_free (h : t.Reads s) :
    ∀ {n : ℕ} {c : List Bool}, c.length < t.order → (∀ e, e <+: c → s.look t.order e = 0) →
      positionForAddressLoop t n (posOf c) = none := by
  intro n
  induction n with
  | zero => exact fun _ _ => rfl
  | succ n ih =>
    intro c hc hzero
    rw [positionForAddressLoop, h.buddyTreeStatus hc,
      if_neg (not_not.mpr (hzero c List.prefix_rfl))]
    induction c using List.reverseRecOn with
    | nil => rfl
    | append_singleton c a _ =>
      rw [List.length_append, List.length_singleton] at hc
      dsimp only
      rw [parent_posOf, h.sound.valid (by omega), Bool.not_true, if_neg (by decide)]
      exact ih (by omega) fun e hec => hzero e (hec.trans (List.prefix_append c [a]))

/-- One of the two is the case. -/
theorem exists_last_taken (f : List Bool → ℕ) (c : List Bool) :
    (∀ e, e <+: c → f e = 0)
      ∨ ∃ d, d <+: c ∧ f d ≠ 0 ∧ ∀ e, d <+: e → e ≠ d → e <+: c → f e = 0 := by
  induction c using List.reverseRecOn with
  | nil =>
    by_cases hf : f [] = 0
    · exact .inl fun e he => List.prefix_nil.mp he ▸ hf
    · exact .inr ⟨[], List.prefix_rfl, hf, fun e _ hne he => absurd (List.prefix_nil.mp he) hne⟩
  | append_singleton c a ih =>
    by_cases hf : f (c ++ [a]) = 0
    · have hlast : ∀ e, e <+: c ++ [a] → e ≠ c ++ [a] → e <+: c := fun e he hne =>
        (List.prefix_concat_iff.mp he).resolve_left hne
      rcases ih with hall | ⟨d, hdc, hd, hzero⟩
      · refine .inl fun e he => ?_
        by_cases hec : e = c ++ [a]
        · rwa [hec]
        · exact hall e (hlast e he hec)
      · refine .inr ⟨d, hdc.trans (List.prefix_append c [a]), hd, fun e hde hne he => ?_⟩
        by_cases hec : e = c ++ [a]
        · rwa [hec]
        · exact hzero e hde hne (hlast e he hec)
    · refine .inr ⟨c ++ [a], List.prefix_rfl, hf, fun e hle hne he => absurd ?_ hne⟩
      exact (he.eq_of_length (le_antisymm he.length_le hle.length_le))

theorem rowIndex_leaf {n x : ℕ} (hx : x < 2 ^ n) : rowIndex (leaf n x) = x := by
  have hstart := start_eq_rowIndex (n := n) (p := leaf n x) (length_leaf n x).le
  rw [start_leaf hx, width_leaf, Nat.mul_one] at hstart
  exact hstart.symm

/-- The deepest position at an offset is a slot. -/
theorem Sized.deepestPositionForOffset_eq (h : b.Sized) {x : ℕ} (hx : x < 2 ^ b.levels) {o : ℕ}
    (ho : o / 64 = x) : b.deepestPositionForOffset o = posOf (leaf b.levels x) := by
  rw [deepestPositionForOffset, buddyTreeLeftmostChild, twoToThePowerOf_eq, h.alignment, ho, posOf,
    rowIndex_leaf hx, length_leaf, ← levels, h.order_eq]

/-- The offset of a pointer into the arena. -/
theorem Sized.ptr_at' (h : b.Sized) {o : ℕ} (ho : o < b.memorySize) :
    at' b.main o ≠ 0#64 ∧ ¬ (at' b.main o < b.main ∨ at' b.main b.memorySize ≤ at' b.main o)
      ∧ (at' b.main o - b.main).toNat = o := by
  have hbound := h.bounded
  have hmain : b.main.toNat ≠ 0 := fun hzero => h.main_ne (BitVec.eq_of_toNat_eq hzero)
  have hptr := toNat_at' (a := b.main) (i := o) (by omega)
  have hend := toNat_at' (a := b.main) (i := b.memorySize) (by omega)
  refine ⟨fun hzero => ?_, ?_, toNat_at'_sub _ (by omega)⟩
  · rw [hzero] at hptr
    simp only [BitVec.toNat_ofNat] at hptr
    omega
  · rw [BitVec.lt_def, BitVec.le_def]
    omega

/-- **Freeing a block that was handed out takes it back**, and nothing else. -/
theorem Tracks.free_used (h : b.Tracks s) (hused : s.sub q = .used)
    (hq : start b.levels q < b.slots) :
    ∃ t, b.free (b.block q).ptr = { b with tree := t }
      ∧ ({ b with tree := t } : BuddyAlloc).Tracks (s.set q .free) ∧ t.SameRest b.tree := by
  have horder := h.order_eq
  have hlen := Slots.length_lt_of_used h.reads.fits hused
  have hslots := h.slots_le
  obtain ⟨hne, hrange, hoffset⟩ := h.ptr_at' (o := 64 * start b.levels q) (by
    have := h.memorySize_eq
    omega)
  have hptr : at' b.main (64 * start b.levels q) = (b.block q).ptr := rfl
  rw [hptr] at hne hrange hoffset
  have hleaf := length_leaf b.levels (start b.levels q)
  have hprefix : q <+: leaf b.levels (start b.levels q) :=
    (prefix_leaf_iff (by omega) (by omega)).mpr
      ⟨le_rfl, Nat.lt_add_of_pos_right width_pos⟩
  have htaken : s.look b.tree.order q ≠ 0 := by
    rw [Slots.look, hused, Slots.status_used]
    omega
  have hclimb : positionForAddressLoop b.tree b.tree.order
      (posOf (leaf b.levels (start b.levels q))) = some (posOf q) := by
    refine positionForAddressLoop_of_taken h.reads htaken (by omega) (by omega) hprefix ?_
    rintro e ⟨r, rfl⟩ hne -
    rw [Slots.look, Slots.sub_of_used hused (by simpa using hne), Slots.status_free]
  have hposition : b.positionForAddress (b.block q).ptr = posOf q := by
    rw [positionForAddress, hoffset, h.alignment, if_neg (by omega),
      h.deepestPositionForOffset_eq (x := start b.levels q) (by omega) (by omega), hclimb]
    dsimp only
    rw [h.addressForPosition_eq (by omega), if_neg (not_not.mpr rfl)]
  obtain ⟨t, hrelease, hreads, hrest⟩ := h.reads.buddyTreeRelease (p := q) hlen hused
  refine ⟨t, ?_, ?_, hrest⟩
  · rw [free, if_neg hne, if_neg hrange]
    dsimp only
    rw [hposition, h.reads.sound.valid hlen, Bool.not_true, if_neg (by decide), hrelease]
  · refine h.withTree hreads hrest fun r hr hbehind => ?_
    refine (Slots.sub_set_free hused).mpr ⟨?_, hr⟩
    rintro rfl
    omega

/-- A split part, of which one half is free, is not full. -/
theorem look_ne_of_half_free {h : ℕ} (hfits : s.Fits h) (hd : d.length + 1 < h)
    (hused : s.sub d ≠ .used) {a : Bool} (hzero : s.look h (d ++ [a]) = 0) :
    s.look h d ≠ h - d.length := by
  rw [Slots.look_eq_combine hfits (by omega) hused a, hzero, Slots.combine]
  split <;> omega

/-- **A pointer at which no block of the arena starts is not freed.** -/
theorem Tracks.free_other (h : b.Tracks s)
    (hno : ∀ q, s.sub q = .used → start b.levels q < b.slots → (b.block q).ptr ≠ ptr) :
    b.free ptr = b := by
  have horder := h.order_eq
  have hbound := h.bounded
  have hslots := h.slots_le
  rw [free]
  by_cases hnull : ptr = 0#64
  · exact if_pos hnull
  rw [if_neg hnull]
  by_cases hrange : ptr < b.main ∨ at' b.main b.memorySize ≤ ptr
  · exact if_pos hrange
  rw [if_neg hrange]
  have hinside : (ptr - b.main).toNat < b.memorySize := by
    have hend := toNat_at' (a := b.main) (i := b.memorySize) (by omega)
    rw [BitVec.lt_def, BitVec.le_def, hend] at hrange
    rw [BitVec.toNat_sub]
    omega
  suffices hrelease : buddyTreeValid b.tree (b.positionForAddress ptr) = false
      ∨ buddyTreeRelease b.tree (b.positionForAddress ptr) = b.tree by
    dsimp only
    rcases hrelease with hinvalid | hsame
    · rw [hinvalid, Bool.not_false, if_pos rfl]
    · split
      · rfl
      · rw [hsame]
  rw [positionForAddress, h.alignment]
  by_cases haligned : (ptr - b.main).toNat % 64 ≠ 0
  · exact .inl (by rw [if_pos haligned]; rfl)
  rw [if_neg haligned]
  have hmem := h.memorySize_eq
  have hx : (ptr - b.main).toNat / 64 < 2 ^ b.levels := by omega
  have hleaf := length_leaf b.levels ((ptr - b.main).toNat / 64)
  rw [h.deepestPositionForOffset_eq hx rfl]
  rcases exists_last_taken (s.look b.tree.order) (leaf b.levels ((ptr - b.main).toNat / 64))
    with hfree | ⟨d, hdc, htaken, hbelow⟩
  · exact .inl (by rw [positionForAddressLoop_of_free h.reads (by omega) hfree]; rfl)
  rw [positionForAddressLoop_of_taken h.reads htaken (by omega) (by omega) hdc hbelow]
  have hdlen := hdc.length_le
  dsimp only
  by_cases haddr : b.addressForPosition (posOf d) ≠ ptr
  · exact .inl (by rw [if_pos haddr]; rfl)
  rw [if_neg haddr]
  rw [not_not, h.addressForPosition_eq (by omega)] at haddr
  refine .inr (h.reads.buddyTreeRelease_of_ne (by omega) ?_)
  have hstart := (prefix_leaf_iff (by omega) hx).mp hdc
  have hused : s.sub d ≠ .used := fun hused => hno d hused (by omega) haddr
  have hproper : d ≠ leaf b.levels ((ptr - b.main).toNat / 64) := by
    rintro rfl
    refine htaken ?_
    have hone : s.Fits b.tree.order := h.reads.fits
    have hfits := Slots.fits_sub (p := leaf b.levels ((ptr - b.main).toNat / 64)) (by omega) hone
    rw [show b.tree.order - (leaf b.levels ((ptr - b.main).toNat / 64)).length = 1 by omega]
      at hfits
    have hfree := Slots.join_half hfits hused
    rw [Slots.half_of_fits_one hfits, Slots.half_of_fits_one hfits] at hfree
    rw [Slots.look, ← hfree]
    simp [Slots.join]
  obtain ⟨r, hr⟩ := hdc
  cases r with
  | nil => exact absurd (by simpa using hr) hproper
  | cons a r =>
    have hlen : d.length + 1 ≤ b.levels := by
      have := congrArg List.length hr
      rw [List.length_append, List.length_cons] at this
      omega
    refine look_ne_of_half_free h.reads.fits (by omega) hused (a := a) (hbelow _ ?_ (by simp) ?_)
    · exact List.prefix_append d [a]
    · rw [← hr]
      exact ⟨r, by simp⟩

end Free

end BuddyAlloc

end MoonOS

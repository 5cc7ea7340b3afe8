import MoonOS.Mm.BuddyEmbed

/-!
# Mm/BuddyRun — the vendored buddy allocator over whole runs

A run is any sequence of `buddy_malloc`, `buddy_free` (of any pointer at all) and reservations of
memory nobody holds, on an allocator that `buddy_embed` made.  Beside the allocator it keeps the
list of blocks that are held.  The allocator's bits are that list and nothing more (`BuddyInv`), so

* `buddySafe_of_buddyReachable` — the blocks held are disjoint, naturally aligned, in the arena and
  off the metadata, and a request is met with one more of the least size that is enough;
* `malloc_eq_null_iff` — a request fails only if no aligned place of that size is free;
* `free_of_buddyReachable` — freeing undoes the request, bit by bit; a pointer at which no block
  starts is ignored; and when all is freed the allocator is as it was made.
-/

namespace MoonOS

open ByteMemory SlotTree

/-! ## Runs -/

/-- An allocator, and the blocks that are held. -/
structure BuddyState where
  alloc : BuddyAlloc
  live : List Region

/-- What callers do. -/
inductive BuddyEvent
  | malloc (size : ℕ)
  | free (ptr : BitVec 64)
  | reserve (ptr : BitVec 64) (size : ℕ)

/-- The slots of a range, one block each. -/
def rangeSlots (b : BuddyAlloc) (ptr : BitVec 64) (size : ℕ) : List Region :=
  (List.range ((size + 63) / 64)).map fun i =>
    ⟨at' b.main (64 * ((ptr - b.main).toNat / 64 + i)), 64⟩

/-- What a run may do next.  A range that is reserved is in the arena, and its slots are
nobody's. -/
def BuddyEvent.Allowed (s : BuddyState) : BuddyEvent → Prop
  | malloc _ => True
  | free _ => True
  | reserve ptr size => 0 < size ∧ (ptr - s.alloc.main).toNat + size ≤ s.alloc.memorySize
      ∧ ∀ r ∈ rangeSlots s.alloc ptr size, ∀ c ∈ s.live, Disjoint r.bytes c.bytes

/-- One event. -/
def BuddyEvent.apply (s : BuddyState) : BuddyEvent → BuddyState
  | malloc size =>
    let (ptr, alloc) := s.alloc.malloc size
    ⟨alloc, if ptr = 0#64 then s.live else ⟨ptr, slotSize size⟩ :: s.live⟩
  | free ptr => ⟨s.alloc.free ptr, s.live.filter (·.ptr ≠ ptr)⟩
  | reserve ptr size =>
    ⟨s.alloc.toggleRangeReservation ptr size true, rangeSlots s.alloc ptr size ++ s.live⟩

/-- The states of all runs of an allocator. -/
inductive BuddyReachable (b₀ : BuddyAlloc) : BuddyState → Prop
  | init : BuddyReachable b₀ ⟨b₀, []⟩
  | step {s : BuddyState} {e : BuddyEvent} : BuddyReachable b₀ s → e.Allowed s →
      BuddyReachable b₀ (e.apply s)

/-! ## Blocks and parts -/

namespace BuddyAlloc

section Blocks

variable {b : BuddyAlloc} {s : Slots} {p q : List Bool}

/-- **Blocks of parts that share no slot are disjoint.** -/
theorem Sized.disjoint_block (h : b.Sized) (hp : p.length ≤ b.levels) (hq : q.length ≤ b.levels)
    (hpq : ¬ p <+: q) (hqp : ¬ q <+: p) : Disjoint (b.block p).bytes (b.block q).bytes := by
  have hover := (overlap_iff hp hq).not.mpr (not_or.mpr ⟨hpq, hqp⟩)
  have hendp := start_add_width_le hp
  have hendq := start_add_width_le hq
  have hpow : 2 ^ b.levels ≤ 2 ^ 57 := Nat.pow_le_pow_right (by decide) h.levels_le
  rw [block, block]
  by_cases hle : start b.levels p + width b.levels p ≤ start b.levels q
  · exact Region.disjoint_of_le (by omega) (by omega)
  · exact (Region.disjoint_of_le (by omega) (by omega)).symm

/-- Blocks of parts that share a slot are not. -/
theorem Sized.not_disjoint_block (h : b.Sized) (hp : p.length ≤ b.levels)
    (hq : q.length ≤ b.levels) (hpq : p <+: q ∨ q <+: p) :
    ¬ Disjoint (b.block p).bytes (b.block q).bytes := by
  have hendp := start_add_width_le hp
  have hendq := start_add_width_le hq
  have hwp := width_pos (n := b.levels) (p := p)
  have hwq := width_pos (n := b.levels) (p := q)
  have hpow : 2 ^ b.levels ≤ 2 ^ 57 := Nat.pow_le_pow_right (by decide) h.levels_le
  have hover := (overlap_iff hp hq).mpr hpq
  -- the later of the two starts is in both
  have hmem : ∀ {r : List Bool} {x : ℕ}, r.length ≤ b.levels → start b.levels r ≤ x →
      x < start b.levels r + width b.levels r → at' b.main (64 * x) ∈ (b.block r).bytes := by
    intro r x hr hlo hhi
    have hend := start_add_width_le hr
    have hoff : at' b.main (64 * x)
        = at' (at' b.main (64 * start b.levels r)) (64 * (x - start b.levels r)) := by
      rw [at'_at']
      congr 2
      omega
    show (at' b.main (64 * x) - at' b.main (64 * start b.levels r)).toNat
      < 64 * width b.levels r
    rw [hoff, toNat_at'_sub _ (by omega)]
    omega
  intro hdisjoint
  refine Set.disjoint_left.mp hdisjoint
    (hmem (x := max (start b.levels p) (start b.levels q)) hp (by omega) (by omega))
    (hmem hq (by omega) (by omega))

/-- A part is known by its block. -/
theorem Sized.block_ptr_injective (h : b.Sized) (hp : p.length ≤ b.levels)
    (hq : q.length ≤ b.levels) (hptr : (b.block p).ptr = (b.block q).ptr) :
    start b.levels p = start b.levels q := by
  have hendp := start_add_width_le hp
  have hendq := start_add_width_le hq
  have hwp := width_pos (n := b.levels) (p := p)
  have hwq := width_pos (n := b.levels) (p := q)
  have hpow : 2 ^ b.levels ≤ 2 ^ 57 := Nat.pow_le_pow_right (by decide) h.levels_le
  have hsub : at' b.main (64 * start b.levels p) - b.main
      = at' b.main (64 * start b.levels q) - b.main := congrArg (· - b.main) hptr
  have hnat := congrArg BitVec.toNat hsub
  rw [toNat_at'_sub _ (by omega), toNat_at'_sub _ (by omega)] at hnat
  omega

/-- A used part that starts in the arena ends in it: behind the arena other parts are used. -/
theorem Tracks.inside_of_used (h : b.Tracks s) (hp : s.sub p = .used)
    (hlt : start b.levels p < b.slots) : start b.levels p + width b.levels p ≤ b.slots := by
  by_contra hout
  have hfits := h.reads.fits
  have horder := h.order_eq
  have hlen := Slots.length_lt_of_used hfits hp
  have hend := start_add_width_le (n := b.levels) (p := p) (by omega)
  obtain ⟨q, hq, hbehind, hlo, hhi⟩ := h.masked b.slots le_rfl (by omega)
  have hlenq := Slots.length_lt_of_used hfits hq
  have hsame : p = q := by
    rcases (overlap_iff (n := b.levels) (p := p) (q := q) (by omega) (by omega)).mp (by omega)
      with hle | hle
    · exact Slots.eq_of_prefix hp hq hle
    · exact (Slots.eq_of_prefix hq hp hle).symm
  subst hsame
  omega

theorem block_leaf (b : BuddyAlloc) {x : ℕ} (hx : x < 2 ^ b.levels) :
    b.block (leaf b.levels x) = ⟨at' b.main (64 * x), 64⟩ := by
  rw [block, start_leaf hx, width_leaf]

/-- A block that is handed out is not at address 0. -/
theorem Tracks.block_ptr_ne (h : b.Tracks s) (hp : p.length ≤ b.levels) (hfree : s.FreeAt p) :
    (b.block p).ptr ≠ 0#64 := by
  have hin := h.inside_of_freeAt hp hfree
  have hwp := width_pos (n := b.levels) (p := p)
  have hmem := h.memorySize_eq
  exact (h.ptr_at' (by omega)).1

/-- A block starts at a multiple of its length. -/
theorem Sized.block_natural (h : b.Sized) (hp : p.length ≤ b.levels) :
    ((b.block p).ptr - b.main).toNat % (b.block p).len = 0 := by
  have hend := start_add_width_le hp
  have hwp := width_pos (n := b.levels) (p := p)
  have hpow : 2 ^ b.levels ≤ 2 ^ 57 := Nat.pow_le_pow_right (by decide) h.levels_le
  show (at' b.main (64 * start b.levels p) - b.main).toNat % (64 * width b.levels p) = 0
  rw [toNat_at'_sub _ (by omega), start_eq_rowIndex hp, Nat.mul_mod_mul_left,
    Nat.mul_mod_left, Nat.mul_zero]

/-- **An aligned place of a slot's size is a part.** -/
theorem exists_part {n d x : ℕ} (hd : d ≤ n) (hx : x < 2 ^ n) (haligned : x % 2 ^ (n - d) = 0) :
    ∃ p : List Bool, p.length = d ∧ start n p = x ∧ width n p = 2 ^ (n - d) := by
  have hlen : ((leaf n x).take d).length = d := by
    rw [List.length_take, length_leaf, min_eq_left hd]
  have hwidth : width n ((leaf n x).take d) = 2 ^ (n - d) := by rw [width, hlen]
  refine ⟨(leaf n x).take d, hlen, ?_, hwidth⟩
  obtain ⟨hlo, hhi⟩ := (prefix_leaf_iff (by omega) hx).mp (List.take_prefix d (leaf n x))
  have hstart := start_eq_rowIndex (n := n) (p := (leaf n x).take d) (by omega)
  rw [hwidth] at hhi hstart
  -- both are multiples of the width, less than a width apart
  refine (Nat.sub_eq_zero_iff_le.mp (Nat.eq_zero_of_dvd_of_lt ?_
    (show x - start n ((leaf n x).take d) < 2 ^ (n - d) by omega))).antisymm hlo |>.symm
  exact Nat.dvd_sub (Nat.dvd_of_mod_eq_zero haligned) (hstart ▸ Nat.dvd_mul_left _ _)

/-- **An aligned place in the arena of a slot's size is a block.** -/
theorem Sized.exists_block (h : b.Sized) {n o : ℕ} (haligned : o % slotSize n = 0)
    (hend : o + slotSize n ≤ b.memorySize) :
    ∃ p, p.length ≤ b.levels ∧ start b.levels p + width b.levels p ≤ b.slots
      ∧ b.block p = ⟨at' b.main o, slotSize n⟩ := by
  have hmem := h.memorySize_eq
  have hslots := h.slots_le
  have hsix := six_le_clog n
  have hclog : Nat.clog 2 (max n 64) ≤ b.levels + 6 := by
    refine Nat.clog_le_of_le_pow ?_
    have hle : max n 64 ≤ slotSize n := Nat.le_pow_clog (by decide) _
    have hpow := mul_two_pow b.levels
    omega
  have hsize : slotSize n = 64 * 2 ^ (b.levels - b.wantedDepth n) := by
    rw [slotSize, mul_two_pow, wantedDepth]
    congr 1
    omega
  obtain ⟨k, hk⟩ := Nat.dvd_of_mod_eq_zero haligned
  have hx : o = 64 * (2 ^ (b.levels - b.wantedDepth n) * k) := by rw [hk, hsize, Nat.mul_assoc]
  have hpos := Nat.two_pow_pos (b.levels - b.wantedDepth n)
  obtain ⟨p, hlen, hstart, hwidth⟩ := exists_part (n := b.levels) (d := b.wantedDepth n)
    (x := 2 ^ (b.levels - b.wantedDepth n) * k) (by rw [wantedDepth]; omega) (by omega)
    (Nat.mul_mod_right _ _)
  refine ⟨p, by rw [hlen, wantedDepth]; omega, by omega, ?_⟩
  rw [block, hstart, hwidth, hx, hsize]

/-- **Freeing undoes the request**, met or not. -/
theorem Tracks.free_malloc (h : b.Tracks s) (n : ℕ) : (b.malloc n).2.free (b.malloc n).1 = b := by
  rcases h.malloc n with ⟨hnull, -⟩ | ⟨p, t, hlen, -, hfree, hsome, htracks, hrest⟩
  · rw [hnull, free, if_pos rfl]
  have horder := h.order_eq
  have hin := h.inside_of_freeAt hlen hfree
  have hwidth := width_pos (n := b.levels) (p := p)
  have hlevels : ({ b with tree := t } : BuddyAlloc).levels = b.levels := by
    rw [levels, levels, ← hrest.order]
  obtain ⟨t', hfreed, htracks', hrest'⟩ := htracks.free_used (q := p) (Slots.sub_set _ _) (by
    rw [hlevels]
    exact (show start b.levels p < b.slots by omega))
  rw [block_withTree hrest] at hfreed
  have hback : (s.set p .used).set p .free = s := by
    rw [Slots.set_set, Slots.set_free h.reads.fits (by omega) hfree]
  rw [hback] at htracks'
  have htree : t' = b.tree := htracks'.reads.eq_of_sameRest h.reads (hrest'.trans hrest)
  rw [hsome]
  dsimp only
  rw [hfreed, htree]

end Blocks

/-! ## Reservation -/

section Reserve

variable {b : BuddyAlloc} {s : Slots}

/-- The slot after a slot. -/
theorem posOf_leaf_succ {n x : ℕ} (hx : x + 1 < 2 ^ n) :
    ({ posOf (leaf n x) with index := (posOf (leaf n x)).index + 1 } : BuddyTreePos)
      = posOf (leaf n (x + 1)) := by
  simp only [posOf, rowIndex_leaf hx, rowIndex_leaf (show x < 2 ^ n by omega), length_leaf,
    Nat.add_assoc]

/-- **A reservation uses the slots of its range, one by one.** -/
theorem toggleRangeLoop_marks {levels : ℕ} :
    ∀ (n : ℕ) (t : BuddyTree) (s : Slots) (x size : ℕ), t.Reads s → t.order = levels + 1 →
      size < n → x + (size + 63) / 64 ≤ 2 ^ levels →
      (∀ i < (size + 63) / 64, s.FreeAt (leaf levels (x + i))) →
      ∃ t' s', toggleRangeLoop 64 buddyTreeMark n t (posOf (leaf levels x)) size = t' ∧ t'.Reads s'
        ∧ t'.SameRest t ∧ ∀ q, s'.sub q = .used ↔ s.sub q = .used
          ∨ ∃ i < (size + 63) / 64, q = leaf levels (x + i) := by
  intro n
  induction n with
  | zero => exact fun _ _ _ _ _ _ hn => absurd hn (Nat.not_lt_zero _)
  | succ n ih =>
    intro t s x size hreads horder hn hend hfree
    rw [toggleRangeLoop]
    by_cases hzero : size = 0
    · refine ⟨t, s, if_pos hzero, hreads, .refl t, fun q => ?_⟩
      simp [hzero]
    rw [if_neg hzero]
    have hleaf := length_leaf levels x
    have hfirst : s.FreeAt (leaf levels x) := hfree 0 (by omega)
    have hused := fun q => Slots.sub_set_used (q := q) hreads.fits
      (show (leaf levels x).length ≤ t.order by omega) hfirst
    obtain ⟨t₁, hmark, hreads₁, hrest₁⟩ := hreads.buddyTreeMark (p := leaf levels x) (by omega)
      fun a => by rw [Slots.sub_of_freeAt hfirst, Slots.half_free]
    rw [hmark]
    have hcount : ((if size < 64 then 0 else size - 64) + 63) / 64 = (size + 63) / 64 - 1 := by
      split <;> omega
    have hsplit : ∀ q, (∃ i < (size + 63) / 64, q = leaf levels (x + i))
        ↔ q = leaf levels x ∨ ∃ i < (size + 63) / 64 - 1, q = leaf levels (x + 1 + i) := by
      intro q
      constructor
      · rintro ⟨i, hi, rfl⟩
        cases i with
        | zero => exact .inl rfl
        | succ i => exact .inr ⟨i, by omega, by rw [Nat.add_right_comm, Nat.add_assoc]⟩
      · rintro (rfl | ⟨i, hi, rfl⟩)
        · exact ⟨0, by omega, rfl⟩
        · exact ⟨i + 1, by omega, by rw [Nat.add_right_comm, Nat.add_assoc]⟩
    by_cases hlast : (size + 63) / 64 = 1
    · -- no size is left, so the next turn is the last
      have hnone : (if size < 64 then 0 else size - 64) = 0 := by split <;> omega
      rw [hnone]
      cases n with
      | zero => omega
      | succ n =>
        refine ⟨t₁, _, if_pos rfl, hreads₁, hrest₁, fun q => ?_⟩
        rw [hused, hsplit, hlast, Or.comm]
        simp
    rw [posOf_leaf_succ (by omega)]
    have hstart : ∀ {y}, y < 2 ^ levels → start levels (leaf levels y) = y := start_leaf
    -- the slots that follow are still free
    have hnext : ∀ i < (size + 63) / 64 - 1,
        (s.set (leaf levels x) .used).FreeAt (leaf levels (x + 1 + i)) := by
      intro i hi
      have hother := length_leaf levels (x + 1 + i)
      refine (Slots.freeAt_iff hreads₁.fits (by rw [hrest₁.order]; omega)).mpr fun q hq => ?_
      rcases (hused q).mp hq with rfl | hq
      · have hne : leaf levels x ≠ leaf levels (x + 1 + i) := fun heq => by
          have := hstart (y := x) (by omega)
          rw [heq, hstart (by omega)] at this
          omega
        exact ⟨fun hle => hne (hle.eq_of_length (by omega)),
          fun hle => hne (hle.eq_of_length (by omega)).symm⟩
      · have hfree' := hfree (i + 1) (by omega)
        rw [show x + (i + 1) = x + 1 + i by omega] at hfree'
        exact (Slots.freeAt_iff hreads.fits (by omega)).mp hfree' q hq
    rw [← hcount] at hnext
    obtain ⟨t', s', hloop, hreads', hrest', hmarks⟩ := ih t₁ (s.set (leaf levels x) .used) (x + 1)
      (if size < 64 then 0 else size - 64) hreads₁ (hrest₁.order.trans horder)
      (by split <;> omega) (by omega) hnext
    refine ⟨t', s', hloop, hreads', hrest'.trans hrest₁, fun q => ?_⟩
    rw [hmarks, hused, hsplit, hcount]
    tauto

/-- **A reservation of free slots of the arena takes those slots.** -/
theorem Tracks.toggleRangeReservation (h : b.Tracks s) {ptr : BitVec 64} {size : ℕ}
    (hsize : 0 < size) (hend : (ptr - b.main).toNat + size ≤ b.memorySize)
    (hfree : ∀ i < (size + 63) / 64, s.FreeAt (leaf b.levels ((ptr - b.main).toNat / 64 + i))) :
    ∃ t s', b.toggleRangeReservation ptr size true = { b with tree := t } ∧ t.Reads s'
      ∧ t.SameRest b.tree ∧ ∀ q, s'.sub q = .used ↔ s.sub q = .used
        ∨ ∃ i < (size + 63) / 64, q = leaf b.levels ((ptr - b.main).toNat / 64 + i) := by
  have hmem := h.memorySize_eq
  have hslots := h.slots_le
  have hbound := h.bounded
  obtain ⟨hne, hrange, -⟩ := h.ptr_at' (o := (ptr - b.main).toNat) (by omega)
  rw [at'_toNat_sub] at hne hrange
  have hlast : ¬ (ptr < b.main ∨ at' b.main b.memorySize < at' ptr size) := by
    rintro (hlt | hlt)
    · exact hrange (.inl hlt)
    · rw [BitVec.lt_def] at hlt
      rw [show at' ptr size = at' b.main ((ptr - b.main).toNat + size) by
        rw [← at'_at', at'_toNat_sub], toNat_at' (by omega), toNat_at' (by omega)] at hlt
      omega
  obtain ⟨t, s', hloop, hreads, hrest, hused⟩ := toggleRangeLoop_marks (size + 1) b.tree s
    ((ptr - b.main).toNat / 64) size h.reads h.order_eq (by omega) (by omega) hfree
  refine ⟨t, s', ?_, hreads, hrest, hused⟩
  rw [BuddyAlloc.toggleRangeReservation, if_neg hne, if_neg (by omega), if_neg hlast]
  dsimp only
  rw [h.deepestPositionForOffset_eq (x := (ptr - b.main).toNat / 64) (by omega) rfl, h.alignment,
    if_pos rfl, hloop]

end Reserve

/-- What no call changes. -/
structure SameRest (b b₀ : BuddyAlloc) : Prop where
  eq : b = { b₀ with tree := b.tree }
  tree : b.tree.SameRest b₀.tree

namespace SameRest

variable {b b₀ : BuddyAlloc} {t : BuddyTree}

theorem slots (h : b.SameRest b₀) : b.slots = b₀.slots := by
  rw [h.eq]
  rfl

theorem main (h : b.SameRest b₀) : b.main = b₀.main := by
  rw [h.eq]
  rfl

theorem memorySize (h : b.SameRest b₀) : b.memorySize = b₀.memorySize := by rw [h.eq]

theorem levels (h : b.SameRest b₀) : b.levels = b₀.levels := by
  rw [BuddyAlloc.levels, BuddyAlloc.levels, h.tree.order]

theorem block (h : b.SameRest b₀) (p : List Bool) : b.block p = b₀.block p := by
  rw [BuddyAlloc.block, BuddyAlloc.block, h.main, h.levels]

theorem sized (h : b.SameRest b₀) (hb : b.Sized) : b₀.Sized := by
  rw [h.eq] at hb
  exact ⟨hb.alignment, hb.nonempty, hb.trimmed, hb.main_ne, hb.small, hb.bounded,
    h.tree.order.symm.trans hb.order⟩

theorem withTree (h : b.SameRest b₀) (ht : t.SameRest b.tree) :
    ({ b with tree := t } : BuddyAlloc).SameRest b₀ where
  eq := by rw [h.eq]
  tree := ht.trans h.tree

end SameRest

end BuddyAlloc

/-! ## The invariant -/

/-- **The bits are the blocks held**, and what `buddy_embed` masked. -/
structure BuddyInv (b₀ : BuddyAlloc) (u₀ : Slots) (s : BuddyState) (u : Slots) : Prop where
  tracks : s.alloc.Tracks u
  rest : s.alloc.SameRest b₀
  masks : ∀ q, b₀.slots ≤ start b₀.levels q → (u.sub q = .used ↔ u₀.sub q = .used)
  live : ∀ r, r ∈ s.live ↔
    ∃ q, u.sub q = .used ∧ start b₀.levels q < b₀.slots ∧ r = b₀.block q
  disjoint : s.live.Pairwise fun r c => Disjoint r.bytes c.bytes

namespace BuddyInv

variable {b₀ : BuddyAlloc} {u₀ u u' : Slots} {s : BuddyState} {t : BuddyTree}

theorem init (h : b₀.Tracks u₀) (harena : ∀ q, u₀.sub q = .used → b₀.slots ≤ start b₀.levels q) :
    BuddyInv b₀ u₀ ⟨b₀, []⟩ u₀ where
  tracks := h
  rest := ⟨rfl, .refl _⟩
  masks q _ := .rfl
  live r := by
    refine iff_of_false List.not_mem_nil ?_
    rintro ⟨q, hused, hq, -⟩
    exact absurd (harena q hused) (by omega)
  disjoint := .nil

/-- **Free parts of the arena that share nothing may be taken**, one or many. -/
theorem take (h : BuddyInv b₀ u₀ s u) (parts : List (List Bool)) (hreads : t.Reads u')
    (hrest : t.SameRest s.alloc.tree) (hused : ∀ q, u'.sub q = .used ↔ u.sub q = .used ∨ q ∈ parts)
    (hfree : ∀ p ∈ parts, p.length ≤ b₀.levels ∧ u.FreeAt p)
    (hparts : parts.Pairwise fun p q => ¬ p <+: q ∧ ¬ q <+: p) :
    BuddyInv b₀ u₀ ⟨{ s.alloc with tree := t }, parts.map b₀.block ++ s.live⟩ u' := by
  have hsized := h.rest.sized h.tracks.toSized
  have hlevels := h.rest.levels
  have hslots := h.rest.slots
  have horder := h.tracks.order_eq
  have hfits := h.tracks.reads.fits
  have hinside : ∀ p ∈ parts, start b₀.levels p + width b₀.levels p ≤ b₀.slots := by
    intro p hp
    rw [← hlevels, ← hslots]
    exact h.tracks.inside_of_freeAt (hlevels ▸ (hfree p hp).1) (hfree p hp).2
  have hwidth : ∀ p, 0 < width b₀.levels p := fun p => width_pos
  refine ⟨h.tracks.withTree hreads hrest fun q hq _ => (hused q).mpr (.inl hq),
    h.rest.withTree hrest, fun q hq => ?_, fun r => ?_, ?_⟩
  · rw [hused, ← h.masks q hq, or_iff_left]
    intro hp
    have := hinside q hp
    have := hwidth q
    omega
  · rw [List.mem_append, List.mem_map, h.live]
    constructor
    · rintro (⟨p, hp, rfl⟩ | ⟨q, hq, hlt, rfl⟩)
      · have := hinside p hp
        have := hwidth p
        exact ⟨p, (hused p).mpr (.inr hp), by omega, rfl⟩
      · exact ⟨q, (hused q).mpr (.inl hq), hlt, rfl⟩
    · rintro ⟨q, hq, hlt, rfl⟩
      rcases (hused q).mp hq with hq | hq
      · exact .inr ⟨q, hq, hlt, rfl⟩
      · exact .inl ⟨q, hq, rfl⟩
  · refine List.pairwise_append.mpr ⟨List.pairwise_map.mpr ?_, h.disjoint, ?_⟩
    · refine hparts.imp_of_mem fun hp hq hapart => ?_
      exact hsized.disjoint_block (hfree _ hp).1 (hfree _ hq).1 hapart.1 hapart.2
    · rintro r hr c hc
      obtain ⟨p, hp, rfl⟩ := List.mem_map.mp hr
      obtain ⟨q, hq, -, rfl⟩ := (h.live c).mp hc
      obtain ⟨hlen, hfreep⟩ := hfree p hp
      have hlenq := Slots.length_lt_of_used hfits hq
      have hapart := (Slots.freeAt_iff hfits (by omega)).mp hfreep q hq
      exact hsized.disjoint_block hlen (by omega) hapart.2 hapart.1

theorem malloc (h : BuddyInv b₀ u₀ s u) (n : ℕ) :
    ∃ u', BuddyInv b₀ u₀ ((BuddyEvent.malloc n).apply s) u' := by
  rw [BuddyEvent.apply]
  rcases h.tracks.malloc n with ⟨hnull, -⟩ | ⟨p, t, hlen, hsize, hfree, hsome, htracks, hrest⟩
  · exact ⟨u, by rwa [hnull]⟩
  · have horder := h.tracks.order_eq
    have hne := h.tracks.block_ptr_ne hlen hfree
    have htake := h.take [p] htracks.reads hrest
      (fun q => by
        rw [Slots.sub_set_used h.tracks.reads.fits (by omega) hfree, List.mem_singleton, Or.comm])
      (fun q hq => by
        rw [List.mem_singleton.mp hq, ← h.rest.levels]
        exact ⟨hlen, hfree⟩)
      (List.pairwise_singleton _ _)
    refine ⟨u.set p .used, ?_⟩
    rw [hsome]
    dsimp only
    rw [if_neg hne, ← hsize, h.rest.block]
    exact htake

theorem free_ignored (h : BuddyInv b₀ u₀ s u) {ptr : BitVec 64} (hno : ∀ r ∈ s.live, r.ptr ≠ ptr) :
    s.alloc.free ptr = s.alloc := by
  refine h.tracks.free_other fun q hq hlt heq => hno (b₀.block q) ((h.live _).mpr ?_) ?_
  · exact ⟨q, hq, by rwa [← h.rest.levels, ← h.rest.slots], rfl⟩
  · rwa [← h.rest.block]

theorem free (h : BuddyInv b₀ u₀ s u) (ptr : BitVec 64) :
    ∃ u', BuddyInv b₀ u₀ ((BuddyEvent.free ptr).apply s) u' := by
  rw [BuddyEvent.apply]
  have hsized := h.rest.sized h.tracks.toSized
  have horder := h.tracks.order_eq
  have hlevels := h.rest.levels
  have hslots := h.rest.slots
  have hlen : ∀ {q}, u.sub q = .used → q.length ≤ b₀.levels := fun hq => by
    have := Slots.length_lt_of_used h.tracks.reads.fits hq
    omega
  by_cases hex : ∃ q, u.sub q = .used ∧ start b₀.levels q < b₀.slots ∧ (b₀.block q).ptr = ptr
  · obtain ⟨q, hq, hlt, rfl⟩ := hex
    obtain ⟨t, hfree, htracks, hrest⟩ := h.tracks.free_used hq (by rw [hlevels, hslots]; exact hlt)
    rw [h.rest.block] at hfree
    rw [hfree]
    have hused : ∀ {c}, (u.set q .free).sub c = .used ↔ c ≠ q ∧ u.sub c = .used :=
      Slots.sub_set_free hq
    -- no other block starts there
    have hptr : ∀ {c}, u.sub c = .used → ((b₀.block c).ptr ≠ (b₀.block q).ptr ↔ c ≠ q) := by
      intro c hc
      refine ⟨fun hne heq => hne (heq ▸ rfl), fun hne heq => hne ?_⟩
      have hstart := hsized.block_ptr_injective (hlen hc) (hlen hq) heq
      have hwc := width_pos (n := b₀.levels) (p := c)
      have hwq := width_pos (n := b₀.levels) (p := q)
      rcases (overlap_iff (hlen hc) (hlen hq)).mp (by omega) with hle | hle
      · exact Slots.eq_of_prefix hc hq hle
      · exact (Slots.eq_of_prefix hq hc hle).symm
    refine ⟨_, htracks, h.rest.withTree hrest, fun c hc => ?_, fun r => ?_, h.disjoint.filter _⟩
    · rw [hused, ← h.masks c hc, and_iff_right_of_imp]
      rintro - rfl
      omega
    · rw [List.mem_filter, h.live, decide_eq_true_eq]
      constructor
      · rintro ⟨⟨c, hc, hlt, rfl⟩, hne⟩
        exact ⟨c, hused.mpr ⟨(hptr hc).mp hne, hc⟩, hlt, rfl⟩
      · rintro ⟨c, hc, hlt, rfl⟩
        obtain ⟨hne, hc⟩ := hused.mp hc
        exact ⟨⟨c, hc, hlt, rfl⟩, (hptr hc).mpr hne⟩
  · -- the pointer is no block's, so neither the bits nor the blocks change
    have hno : ∀ r ∈ s.live, r.ptr ≠ ptr := by
      intro r hr heq
      obtain ⟨q, hq, hlt, rfl⟩ := (h.live r).mp hr
      exact hex ⟨q, hq, hlt, heq⟩
    rw [h.free_ignored hno, List.filter_eq_self.mpr fun r hr => decide_eq_true (hno r hr)]
    exact ⟨u, h⟩

theorem reserve (h : BuddyInv b₀ u₀ s u) {ptr : BitVec 64} {size : ℕ}
    (hallowed : (BuddyEvent.reserve ptr size).Allowed s) :
    ∃ u', BuddyInv b₀ u₀ ((BuddyEvent.reserve ptr size).apply s) u' := by
  rw [BuddyEvent.apply]
  obtain ⟨hsize, hend, hoff⟩ := hallowed
  have hsized := h.rest.sized h.tracks.toSized
  have hmem := h.tracks.memorySize_eq
  have horder := h.tracks.order_eq
  have hslots := hsized.slots_le
  rw [h.rest.slots] at hmem
  rw [h.rest.levels] at horder
  let first := (ptr - s.alloc.main).toNat / 64
  let parts := (List.range ((size + 63) / 64)).map fun i => leaf b₀.levels (first + i)
  have hlast : ∀ i < (size + 63) / 64, first + i < b₀.slots := fun i hi => by omega
  have hregions : rangeSlots s.alloc ptr size = parts.map b₀.block := by
    rw [rangeSlots, List.map_map]
    refine List.map_congr_left fun i hi => ?_
    have hi := hlast i (List.mem_range.mp hi)
    rw [Function.comp, b₀.block_leaf (by omega), ← h.rest.main]
  have hfree : ∀ i < (size + 63) / 64, u.FreeAt (leaf b₀.levels (first + i)) := by
    intro i hi
    have hlen := length_leaf b₀.levels (first + i)
    have hstart := start_leaf (n := b₀.levels) (s := first + i) (by have := hlast i hi; omega)
    refine (Slots.freeAt_iff h.tracks.reads.fits (by omega)).mpr fun q hq => ?_
    have hlenq := Slots.length_lt_of_used h.tracks.reads.fits hq
    rw [← not_or]
    intro hover
    -- what is used and shares the slot is in the arena too, so it is held
    have hin := (overlap_iff (n := b₀.levels) (by omega) hlen.le).mpr hover
    rw [width_leaf] at hin
    have hlive := (h.live (b₀.block q)).mpr ⟨q, hq, by have := hlast i hi; omega, rfl⟩
    refine hsized.not_disjoint_block hlen.le (by omega) hover.symm (hoff _ ?_ _ hlive)
    rw [hregions]
    exact List.mem_map_of_mem (List.mem_map_of_mem (List.mem_range.mpr hi))
  obtain ⟨t, u', hres, hreads, hrest, hused⟩ := h.tracks.toggleRangeReservation hsize hend
    (by rw [h.rest.levels]; exact hfree)
  rw [hres, hregions]
  refine ⟨u', h.take parts hreads hrest (fun q => ?_) (fun p hp => ?_) ?_⟩
  · rw [hused, h.rest.levels, List.mem_map]
    simp only [List.mem_range, eq_comm, first]
  · obtain ⟨i, hi, rfl⟩ := List.mem_map.mp hp
    exact ⟨(length_leaf _ _).le, hfree i (List.mem_range.mp hi)⟩
  · refine List.pairwise_map.mpr (List.pairwise_lt_range.imp_of_mem fun {i j} hi hj hlt => ?_)
    have hi := hlast i (List.mem_range.mp hi)
    have hj := hlast j (List.mem_range.mp hj)
    rw [← not_or, ← overlap_iff (n := b₀.levels) (length_leaf _ _).le (length_leaf _ _).le,
      start_leaf (by omega), start_leaf (by omega), width_leaf, width_leaf]
    omega

/-- **One event keeps the invariant.** -/
theorem step (h : BuddyInv b₀ u₀ s u) {e : BuddyEvent} (hallowed : e.Allowed s) :
    ∃ u', BuddyInv b₀ u₀ (e.apply s) u' := by
  cases e with
  | malloc size => exact h.malloc size
  | free ptr => exact h.free ptr
  | reserve ptr size => exact h.reserve hallowed

theorem length_le (h : BuddyInv b₀ u₀ s u) {q : List Bool} (hq : u.sub q = .used) :
    q.length ≤ b₀.levels := by
  have hlen := Slots.length_lt_of_used h.tracks.reads.fits hq
  have horder := h.tracks.order_eq
  rw [h.rest.levels] at horder
  omega

/-- **A part of the arena is free exactly when no block held meets it.** -/
theorem freeAt_iff (h : BuddyInv b₀ u₀ s u) {p : List Bool} (hp : p.length ≤ b₀.levels)
    (hin : start b₀.levels p + width b₀.levels p ≤ b₀.slots) :
    u.FreeAt p ↔ ∀ r ∈ s.live, Disjoint r.bytes (b₀.block p).bytes := by
  have hsized := h.rest.sized h.tracks.toSized
  have horder := h.tracks.order_eq
  rw [h.rest.levels] at horder
  rw [Slots.freeAt_iff h.tracks.reads.fits (by omega)]
  constructor
  · rintro hfree r hr
    obtain ⟨q, hq, -, rfl⟩ := (h.live r).mp hr
    exact hsized.disjoint_block (h.length_le hq) hp (hfree q hq).1 (hfree q hq).2
  · intro hoff q hq
    rw [← not_or]
    intro hover
    have hmeet := (overlap_iff (h.length_le hq) hp).mpr hover
    exact hsized.not_disjoint_block (h.length_le hq) hp hover
      (hoff _ ((h.live _).mpr ⟨q, hq, by omega, rfl⟩))

theorem inside (h : BuddyInv b₀ u₀ s u) {q : List Bool} (hq : u.sub q = .used)
    (hlt : start b₀.levels q < b₀.slots) :
    start b₀.levels q + width b₀.levels q ≤ b₀.slots := by
  rw [← h.rest.levels, ← h.rest.slots] at hlt ⊢
  exact h.tracks.inside_of_used hq hlt

/-- **A block that is held lies in the arena, at a multiple of its length.** -/
theorem block_of_live (h : BuddyInv b₀ u₀ s u) {r : Region} (hr : r ∈ s.live) :
    (r.ptr - b₀.main).toNat + r.len ≤ b₀.memorySize ∧ (r.ptr - b₀.main).toNat % r.len = 0
      ∧ ∃ k, r.len = 2 ^ k ∧ 64 ≤ r.len := by
  have hsized := h.rest.sized h.tracks.toSized
  have hmem := hsized.memorySize_eq
  have hsmall := hsized.small
  obtain ⟨q, hq, hlt, rfl⟩ := (h.live r).mp hr
  have hin := h.inside hq hlt
  have hwidth := width_pos (n := b₀.levels) (p := q)
  have hoff : ((b₀.block q).ptr - b₀.main).toNat = 64 * start b₀.levels q :=
    toNat_at'_sub _ (by omega)
  have hlen : (b₀.block q).len = 64 * width b₀.levels q := rfl
  refine ⟨by omega, hsized.block_natural (h.length_le hq), b₀.levels - q.length + 6, ?_, by omega⟩
  exact BuddyAlloc.mul_two_pow _

theorem null_iff (h : BuddyInv b₀ u₀ s u) (n : ℕ) :
    (s.alloc.malloc n).1 = 0#64 ↔
      ∀ o, o % slotSize n = 0 → o + slotSize n ≤ b₀.memorySize →
        ∃ r ∈ s.live, ¬ Disjoint r.bytes (⟨at' b₀.main o, slotSize n⟩ : Region).bytes := by
  have hsized := h.rest.sized h.tracks.toSized
  have hmem := hsized.memorySize_eq
  have hslots := hsized.slots_le
  rcases h.tracks.malloc n with ⟨hnull, hnone⟩ | ⟨p, t, hlen, hsize, hfree, hsome, -, -⟩
  · refine iff_of_true (by rw [hnull]) fun o haligned hend => ?_
    obtain ⟨p, hlen, hin, hblock⟩ := hsized.exists_block haligned hend
    by_contra hoff
    push Not at hoff
    refine hnone p (h.rest.levels ▸ hlen) ?_ ((h.freeAt_iff hlen hin).mpr ?_)
    · rw [h.rest.block, hblock]
    · rwa [hblock]
  · have hin := h.tracks.inside_of_freeAt hlen hfree
    have hne := h.tracks.block_ptr_ne hlen hfree
    rw [h.rest.levels] at hlen hin
    rw [h.rest.slots] at hin
    rw [h.rest.block] at hsize
    refine iff_of_false (by rwa [hsome]) fun hall => ?_
    have hend : 64 * start b₀.levels p + (b₀.block p).len ≤ b₀.memorySize := by
      show 64 * start b₀.levels p + 64 * width b₀.levels p ≤ b₀.memorySize
      omega
    have hnatural := hsized.block_natural hlen
    rw [show ((b₀.block p).ptr - b₀.main).toNat = 64 * start b₀.levels p from
      toNat_at'_sub _ (by have := hsized.small; omega)] at hnatural
    rw [hsize] at hend hnatural
    obtain ⟨r, hr, hmeet⟩ := hall _ hnatural hend
    have hoff := (h.freeAt_iff hlen hin).mp hfree r hr
    rw [← hsize] at hmeet
    exact hmeet hoff

/-- **The blocks held determine the allocator**, bit by bit. -/
theorem alloc_eq {s' : BuddyState} (h : BuddyInv b₀ u₀ s u) (h' : BuddyInv b₀ u₀ s' u')
    (hlive : ∀ r, r ∈ s.live ↔ r ∈ s'.live) : s.alloc = s'.alloc := by
  have hsized := h.rest.sized h.tracks.toSized
  have horder := h.rest.tree.order.trans h'.rest.tree.order.symm
  -- a part of the arena is used in both or in neither
  have hkeep : ∀ {c c' : BuddyState} {v v' : Slots}, BuddyInv b₀ u₀ c v → BuddyInv b₀ u₀ c' v' →
      (∀ r, r ∈ c.live → r ∈ c'.live) → ∀ q, v.sub q = .used → v'.sub q = .used := by
    intro c c' v v' hc hc' hsub q hq
    by_cases hin : b₀.slots ≤ start b₀.levels q
    · exact (hc'.masks q hin).mpr ((hc.masks q hin).mp hq)
    · obtain ⟨q', hq', -, hblock⟩ := (hc'.live _).mp (hsub _ ((hc.live _).mpr
        ⟨q, hq, by omega, rfl⟩))
      have hstart := hsized.block_ptr_injective (hc.length_le hq) (hc'.length_le hq')
        (congrArg Region.ptr hblock)
      have hwidth : 64 * width b₀.levels q = 64 * width b₀.levels q' := congrArg Region.len hblock
      have hlen : b₀.levels - q.length = b₀.levels - q'.length :=
        Nat.pow_right_injective (le_refl 2) (Nat.eq_of_mul_eq_mul_left (by decide) hwidth)
      have hq₁ := hc.length_le hq
      have hq₂ := hc'.length_le hq'
      rwa [eq_of_start_eq hq₁ hq₂ (by omega) hstart]
  have hslots : u = u' := Slots.eq_of_used_iff h.tracks.reads.fits
    (horder ▸ h'.tracks.reads.fits) fun q =>
      ⟨hkeep h h' (fun r => (hlive r).mp) q, hkeep h' h (fun r => (hlive r).mpr) q⟩
  have htree : s.alloc.tree = s'.alloc.tree := h.tracks.reads.eq_of_sameRest
    (hslots ▸ h'.tracks.reads) (h.rest.tree.trans h'.rest.tree.symm)
  rw [h.rest.eq, h'.rest.eq, htree]

end BuddyInv

/-! ## Every run -/

section Runs

variable {raw : Bitset} {main : BitVec 64} {size : ℕ} {b : BuddyAlloc} {s s' : BuddyState}

/-- The invariant holds in every state of every run. -/
theorem BuddyReachable.exists_inv {u₀ : Slots} (hinit : BuddyInv b u₀ ⟨b, []⟩ u₀)
    (h : BuddyReachable b s) : ∃ u, BuddyInv b u₀ s u := by
  induction h with
  | init => exact ⟨u₀, hinit⟩
  | step _ hallowed ih =>
    obtain ⟨u, hinv⟩ := ih
    exact hinv.step hallowed

theorem exists_buddyInv (hbound : main.toNat + size ≤ 2 ^ 64) (hsmall : size ≤ 2 ^ 63)
    (hembed : buddyEmbed raw main size = some b) : ∃ u₀, BuddyInv b u₀ ⟨b, []⟩ u₀ := by
  obtain ⟨-, -, -, u₀, htracks, harena⟩ := buddyEmbed_tracks hbound hsmall hembed
  exact ⟨u₀, .init htracks harena⟩

/-- A page with its allocator in it has room for any request that is not rounded up to more than it
has, while nothing is held. -/
theorem exists_page_run {n : ℕ} (hn : slotSize n ≤ 3904) :
    ∃ b, buddyEmbed (fun _ => 0) 0x1000#64 4096 = some b ∧ b.memorySize = 3904
      ∧ BuddyReachable b ((BuddyEvent.malloc n).apply ⟨b, []⟩)
      ∧ ((BuddyEvent.malloc n).apply ⟨b, []⟩).live = [⟨(b.malloc n).1, slotSize n⟩] := by
  have hsize : (buddyEmbed (fun _ => 0) 0x1000#64 4096).map (·.memorySize) = some 3904 := by
    decide +kernel
  obtain ⟨b, hembed, hmem⟩ := Option.map_eq_some_iff.mp hsize
  obtain ⟨u₀, hinit⟩ := exists_buddyInv (by decide) (by decide) hembed
  have hmet : (b.malloc n).1 ≠ 0#64 := fun hnull => by
    obtain ⟨r, hr, -⟩ := (hinit.null_iff n).mp hnull 0 (Nat.zero_mod _) (by omega)
    exact List.not_mem_nil hr
  refine ⟨b, hembed, hmem, .step .init trivial, ?_⟩
  rw [BuddyEvent.apply]
  exact if_neg hmet

/-- After a hundred bytes another hundred are found, since the first block is in one place only. -/
theorem exists_page_run_twice : ∃ b s, buddyEmbed (fun _ => 0) 0x1000#64 4096 = some b
    ∧ BuddyReachable b s ∧ ∃ ptr ptr', s.live = [⟨ptr, 128⟩, ⟨ptr', 128⟩] := by
  have hslot : slotSize 100 = 128 := by decide +kernel
  obtain ⟨b, hembed, hmem, hreach, hlive⟩ := exists_page_run (n := 100) (by omega)
  generalize (BuddyEvent.malloc 100).apply ⟨b, []⟩ = s at hreach hlive
  generalize (b.malloc 100).1 = ptr at hlive
  obtain ⟨u₀, hinit⟩ := exists_buddyInv (by decide) (by decide) hembed
  obtain ⟨u, hinv⟩ := hreach.exists_inv hinit
  rw [hslot] at hlive
  obtain ⟨hend, hnatural, -⟩ := hinv.block_of_live (hlive ▸ List.mem_singleton_self _)
  dsimp only at hend hnatural
  have hmet : (s.alloc.malloc 100).1 ≠ 0#64 := fun hnull => by
    have hall := (hinv.null_iff 100).mp hnull
    rw [hlive, hslot, hmem] at hall
    obtain ⟨r, hr, hmeet⟩ := hall 0 (by decide) (by decide)
    obtain ⟨r', hr', hmeet'⟩ := hall 128 (by decide) (by decide)
    obtain rfl := List.mem_singleton.mp hr
    obtain rfl := List.mem_singleton.mp hr'
    have hptr : ptr = at' b.main (ptr - b.main).toNat := (at'_toNat_sub ..).symm
    rw [hptr] at hmeet hmeet'
    by_cases hzero : (ptr - b.main).toNat = 0
    · rw [hzero] at hmeet'
      exact hmeet' (Region.disjoint_of_le (by decide) (by decide))
    · exact hmeet (Region.disjoint_of_le (by omega) (by omega)).symm
  refine ⟨b, _, hembed, hreach.step (e := .malloc 100) trivial, (s.alloc.malloc 100).1, ptr, ?_⟩
  rw [BuddyEvent.apply, ← hlive, ← hslot]
  exact if_neg hmet

/-- **The blocks held at any time are disjoint from one another and from the metadata, are of a
power of two bytes and lie at a multiple of their length.** -/
theorem buddySafe_of_buddyReachable (hbound : main.toNat + size ≤ 2 ^ 64) (hsmall : size ≤ 2 ^ 63)
    (hembed : buddyEmbed raw main size = some b) (h : BuddyReachable b s) :
    (s.live.Pairwise fun r c => Disjoint r.bytes c.bytes)
      ∧ ∀ r ∈ s.live, r.bytes ⊆ (⟨main, b.memorySize⟩ : Region).bytes
        ∧ Disjoint r.bytes (⟨b.self, embedMetaLen size⟩ : Region).bytes
        ∧ (∃ k, r.len = 2 ^ k ∧ 64 ≤ r.len) ∧ (r.ptr - main).toNat % r.len = 0 := by
  obtain ⟨hmain, hself, hmeta, -⟩ := buddyEmbed_tracks hbound hsmall hembed
  obtain ⟨u₀, hinit⟩ := exists_buddyInv hbound hsmall hembed
  obtain ⟨u, hinv⟩ := h.exists_inv hinit
  refine ⟨hinv.disjoint, fun r hr => ?_⟩
  obtain ⟨hend, hnatural, hlen⟩ := hinv.block_of_live hr
  rw [hmain] at hend hnatural
  have hbytes : r.bytes ⊆ (⟨main, b.memorySize⟩ : Region).bytes := by
    have hsub := Region.bytes_subset (a := main) hend
    rwa [at'_toNat_sub] at hsub
  refine ⟨hbytes, Set.disjoint_of_subset_left hbytes ?_, hlen, hnatural⟩
  have hall := Region.disjoint_of_le (a := main) (p := 0) (n := b.memorySize)
    (q := size - embedMetaLen size) (k := embedMetaLen size) (by omega) (by omega)
  rwa [at'_zero, ← hself] at hall

theorem buddySafe_page : ∃ b s r c, buddyEmbed (fun _ => 0) 0x1000#64 4096 = some b
    ∧ BuddyReachable b s ∧ s.live = [r, c] ∧ Disjoint r.bytes c.bytes
    ∧ Disjoint r.bytes (⟨b.self, embedMetaLen 4096⟩ : Region).bytes := by
  obtain ⟨b, s, hembed, hreach, ptr, ptr', hlive⟩ := exists_page_run_twice
  obtain ⟨hpairs, hblocks⟩ := buddySafe_of_buddyReachable (by decide) (by decide) hembed hreach
  rw [hlive] at hpairs hblocks
  exact ⟨b, s, _, _, hembed, hreach, hlive,
    (List.pairwise_cons.mp hpairs).1 _ (List.mem_singleton_self _),
    (hblocks _ List.mem_cons_self).2.1⟩

/-- **A request fails exactly when no aligned place of the least size that is enough is free.** -/
theorem malloc_eq_null_iff (hbound : main.toNat + size ≤ 2 ^ 64) (hsmall : size ≤ 2 ^ 63)
    (hembed : buddyEmbed raw main size = some b) (h : BuddyReachable b s) (n : ℕ) :
    (s.alloc.malloc n).1 = 0#64 ↔
      ∀ o, o % slotSize n = 0 → o + slotSize n ≤ b.memorySize →
        ∃ r ∈ s.live, ¬ Disjoint r.bytes (⟨at' main o, slotSize n⟩ : Region).bytes := by
  obtain ⟨hmain, -⟩ := buddyEmbed_tracks hbound hsmall hembed
  obtain ⟨u₀, hinit⟩ := exists_buddyInv hbound hsmall hembed
  obtain ⟨u, hinv⟩ := h.exists_inv hinit
  rw [← hmain]
  exact hinv.null_iff n

/-- Of 2048 bytes a page with its allocator has one place. -/
theorem malloc_page : ∃ b s, buddyEmbed (fun _ => 0) 0x1000#64 4096 = some b
    ∧ BuddyReachable b s ∧ (b.malloc 2000).1 ≠ 0#64 ∧ (s.alloc.malloc 2000).1 = 0#64 := by
  have hslot : slotSize 2000 = 2048 := by decide +kernel
  obtain ⟨b, hembed, hmem, hreach, hlive⟩ := exists_page_run (n := 2000) (by omega)
  have hiff := fun {s} => malloc_eq_null_iff (s := s) (by decide) (by decide) hembed
  refine ⟨b, _, hembed, hreach, fun hnull => ?_, (hiff hreach 2000).mpr fun o haligned hend => ?_⟩
  · obtain ⟨r, hr, -⟩ := (hiff .init 2000).mp hnull 0 (Nat.zero_mod _) (by omega)
    exact absurd hr List.not_mem_nil
  · -- The block that is held is in that place.
    obtain ⟨hmain, -⟩ := buddyEmbed_tracks (by decide) (by decide) hembed
    obtain ⟨u₀, hinit⟩ := exists_buddyInv (by decide) (by decide) hembed
    obtain ⟨u, hinv⟩ := hreach.exists_inv hinit
    obtain ⟨hin, hnatural, -⟩ := hinv.block_of_live (hlive ▸ List.mem_singleton_self _)
    dsimp only at hin hnatural
    rw [hslot, hmem, hmain] at hin
    rw [hslot, hmain] at hnatural
    rw [hslot] at haligned hend ⊢
    have hplace : (⟨at' 0x1000#64 o, 2048⟩ : Region) = ⟨(b.malloc 2000).1, 2048⟩ := by
      rw [show o = ((b.malloc 2000).1 - 0x1000#64).toNat by omega, at'_toNat_sub]
    rw [hplace, hlive, hslot]
    have hfirst := Region.ptr_mem (b := ⟨(b.malloc 2000).1, 2048⟩) (Nat.succ_pos _)
    exact ⟨_, List.mem_singleton_self _, fun hdisjoint =>
      Set.disjoint_left.mp hdisjoint hfirst hfirst⟩

/-- **Two runs that hold the same blocks have left the same bits**, whatever they did before. -/
theorem alloc_eq_of_live_eq (hbound : main.toNat + size ≤ 2 ^ 64) (hsmall : size ≤ 2 ^ 63)
    (hembed : buddyEmbed raw main size = some b) (h : BuddyReachable b s) (h' : BuddyReachable b s')
    (hlive : ∀ r, r ∈ s.live ↔ r ∈ s'.live) : s.alloc = s'.alloc := by
  obtain ⟨u₀, hinit⟩ := exists_buddyInv hbound hsmall hembed
  obtain ⟨u, hinv⟩ := h.exists_inv hinit
  obtain ⟨u', hinv'⟩ := h'.exists_inv hinit
  exact hinv.alloc_eq hinv' hlive

theorem alloc_eq_page : ∃ b s, buddyEmbed (fun _ => 0) 0x1000#64 4096 = some b
    ∧ BuddyReachable b s ∧ s.live ≠ [] ∧ s.alloc.free (b.malloc 100).1 = b := by
  have hslot : slotSize 100 = 128 := by decide +kernel
  obtain ⟨b, hembed, -, hreach, hlive⟩ := exists_page_run (n := 100) (by omega)
  generalize (BuddyEvent.malloc 100).apply ⟨b, []⟩ = s at hreach hlive
  have hfreed : BuddyReachable b ((BuddyEvent.free (b.malloc 100).1).apply s) :=
    .step hreach trivial
  refine ⟨b, s, hembed, hreach, by simp [hlive],
    alloc_eq_of_live_eq (by decide) (by decide) hembed hfreed .init fun r => ?_⟩
  simp [BuddyEvent.apply, hlive]

/-- **Freeing what was just handed out undoes the request, and a pointer at which no block that is
held starts is ignored.** -/
theorem free_of_buddyReachable (hbound : main.toNat + size ≤ 2 ^ 64) (hsmall : size ≤ 2 ^ 63)
    (hembed : buddyEmbed raw main size = some b) (h : BuddyReachable b s) :
    (∀ n, (s.alloc.malloc n).2.free (s.alloc.malloc n).1 = s.alloc)
      ∧ ∀ ptr, (∀ r ∈ s.live, r.ptr ≠ ptr) → s.alloc.free ptr = s.alloc := by
  obtain ⟨u₀, hinit⟩ := exists_buddyInv hbound hsmall hembed
  obtain ⟨u, hinv⟩ := h.exists_inv hinit
  exact ⟨fun n => hinv.tracks.free_malloc n, fun ptr => hinv.free_ignored⟩

theorem free_page : ∃ b s, buddyEmbed (fun _ => 0) 0x1000#64 4096 = some b
    ∧ BuddyReachable b s ∧ s.live ≠ []
    ∧ (s.alloc.malloc 64).2.free (s.alloc.malloc 64).1 = s.alloc := by
  obtain ⟨b, s, hembed, hreach, ptr, ptr', hlive⟩ := exists_page_run_twice
  exact ⟨b, s, hembed, hreach, by simp [hlive],
    (free_of_buddyReachable (by decide) (by decide) hembed hreach).1 64⟩

end Runs

end MoonOS

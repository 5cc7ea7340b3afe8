import MoonOS.Mm.Paging
import Mathlib.Order.CompletePartialOrder

/-!
# Mm/Phys — the page allocator's zones

`init_phys_allocator` lays a zone over every usable entry of the memory map: its header on the first
page, and from the second page on the arena of a vendored buddy allocator.  Of the buddy this much
is used: it keeps its metadata at the end of what it was given (`metaLen` bytes of it), a range
outside the arena is not reserved, and a block it answers with lies in the arena, off every range
that is (`BuddyMalloc`).  So a zone keeps to its entry, `zone_subset_span`.
-/

namespace MoonOS

open ByteMemory

/-! ## The memory map -/

/-- `HANDOVER_MEMMAP_*`. -/
inductive MemmapType
  | usable | reserved | acpiReclaimable | acpiNvs | badMemory | bootloaderReclaimable
  | kernelAndModules | framebuffer
deriving DecidableEq, Repr

/-- An entry of the memory map. -/
structure MemmapEntry where
  base : BitVec 64
  length : BitVec 64
  type : MemmapType
deriving DecidableEq, Repr

/-- A stretch of memory. -/
structure Region where
  ptr : BitVec 64
  len : ℕ
deriving DecidableEq, Repr

/-- The addresses in it. -/
def Region.bytes (r : Region) : Set (BitVec 64) := { b | (b - r.ptr).toNat < r.len }

/-! ## Zones -/

/-- `struct zone`: where it lies, and what it keeps.  The ranges reserved are the buddy's. -/
structure Zone where
  header : BitVec 64
  start : BitVec 64
  len : BitVec 64
  reserved : List Region
deriving DecidableEq, Repr

/-- `sizeof(struct zone)`. -/
def zoneSize : ℕ := 56

/-- The header of a zone. -/
def Zone.headerRegion (z : Zone) : Region := ⟨z.header, zoneSize⟩

/-- `init_zone`. -/
def initZone (base len : BitVec 64) : Zone where
  header := base
  start := alignUp (base + BitVec.ofNat 64 zoneSize)
  len := len - 4096#64
  reserved := []

/-- The entries that get a zone: usable, and longer than the header's page. -/
def MemmapEntry.hasZone (e : MemmapEntry) : Bool := e.type == .usable && e.length != 4096#64

/-- `init_phys_allocator`. -/
def initPhysAllocator (hhdm : BitVec 64) (mmap : List MemmapEntry) : List Zone :=
  (mmap.filter MemmapEntry.hasZone).map fun e => initZone (va hhdm e.base) (e.length - 1#64)

section Buddy

variable (metaLen : ℕ → ℕ)

/-- Where the blocks of a zone come from. -/
def Zone.arena (z : Zone) : Region := ⟨z.start, z.len.toNat - metaLen z.len.toNat⟩

/-- The metadata of a zone's buddy. -/
def Zone.metadata (z : Zone) : Region :=
  ⟨at' z.start (z.len.toNat - metaLen z.len.toNat), metaLen z.len.toNat⟩

/-- `buddy_toggle_range_reservation`: a range that leaves the arena is ignored. -/
def Zone.reserve (base len : BitVec 64) (z : Zone) : Zone :=
  if base = 0#64 ∨ len = 0#64 then z
  else if base < z.start ∨ at' z.start (z.arena metaLen).len < base + len then z
  else { z with reserved := ⟨base, len.toNat⟩ :: z.reserved }

/-- `arch_reserve_range`. -/
def archReserveRange (base len : BitVec 64) (zones : List Zone) : List Zone :=
  zones.map fun z => if z.len < len then z else z.reserve metaLen base len

/-- One call of `arch_alloc_page_sz`: the size, and what each zone's buddy would answer. -/
structure AllocCall where
  sz : BitVec 32
  answer : Zone → Option (BitVec 64)

/-- `arch_alloc_page_sz`: the first zone that is long enough and has a block. -/
def archAllocPageSz (call : AllocCall) (zones : List Zone) : Option (BitVec 64) :=
  zones.findSome? fun z => if z.len < call.sz.signExtend 64 then none else call.answer z

/-- **What is assumed of `buddy_malloc`**: a block lies in the arena, off the reserved ranges. -/
structure BuddyMalloc (call : AllocCall) : Prop where
  inside : ∀ z ptr, call.answer z = some ptr →
    (⟨ptr, call.sz.toNat⟩ : Region).bytes ⊆ (z.arena metaLen).bytes
  reserved : ∀ z ptr, call.answer z = some ptr → ∀ r ∈ z.reserved,
    Disjoint (⟨ptr, call.sz.toNat⟩ : Region).bytes r.bytes

/-- The blocks returned by a run of calls. -/
def returnedBlocks (calls : List AllocCall) (zones : List Zone) : List Region :=
  calls.filterMap fun call => (archAllocPageSz call zones).map fun ptr => ⟨ptr, call.sz.toNat⟩

end Buddy

/-! ## A zone keeps to its entry -/

/-- A stretch inside another. -/
theorem Region.bytes_subset {a : BitVec 64} {k n m : ℕ} (h : k + n ≤ m) :
    (⟨at' a k, n⟩ : Region).bytes ⊆ (⟨a, m⟩ : Region).bytes := by
  intro b hb
  have hb' : (b - at' a k).toNat < n := hb
  have hoff : b - a = (b - at' a k) + BitVec.ofNat 64 k := by
    rw [at']
    bv_omega
  show (b - a).toNat < m
  rw [hoff, BitVec.toNat_add, BitVec.toNat_ofNat]
  omega

/-- Two stretches one after the other. -/
theorem Region.disjoint_of_le {a : BitVec 64} {p n q k : ℕ} (h : p + n ≤ q) (hq : q + k ≤ 2 ^ 64) :
    Disjoint (⟨at' a p, n⟩ : Region).bytes (⟨at' a q, k⟩ : Region).bytes := by
  refine Set.disjoint_left.mpr fun x hx hx' => ?_
  have hp : (x - at' a p).toNat < n := hx
  have hq' : (x - at' a q).toNat < k := hx'
  have hoff : (x - at' a p) + BitVec.ofNat 64 p = (x - at' a q) + BitVec.ofNat 64 q := by
    grind
  have hnat := congrArg BitVec.toNat hoff
  rw [BitVec.toNat_add, BitVec.toNat_add, BitVec.toNat_ofNat, BitVec.toNat_ofNat] at hnat
  omega

/-- Rounding up from just above a page boundary goes to the next one. -/
theorem alignUp_of_page {a : BitVec 64} (ha : a.toNat % 4096 = 0) {k : ℕ} (hk : 0 < k)
    (hk' : k ≤ 4096) : alignUp (a + BitVec.ofNat 64 k) = at' a 4096 := by
  refine BitVec.eq_of_toNat_eq ?_
  rw [alignUp, toNat_and_not_pageMask, at']
  bv_omega

/-- Whole pages, at least one. -/
structure MemmapEntry.Paged (e : MemmapEntry) : Prop where
  base : e.base.toNat % 4096 = 0
  length : e.length.toNat % 4096 = 0
  nonempty : 0 < e.length.toNat

/-- What is assumed of an entry with a zone: whole pages, at least one, all in the direct map. -/
structure EntryOk (hhdm : BitVec 64) (e : MemmapEntry) : Prop where
  base : e.base.toNat % 4096 = 0
  length : e.length.toNat % 4096 = 0
  nonempty : 0 < e.length.toNat
  mapped : hhdm.toNat + e.base.toNat + e.length.toNat ≤ 2 ^ 64

theorem EntryOk.paged {hhdm : BitVec 64} {e : MemmapEntry} (h : EntryOk hhdm e) : e.Paged :=
  ⟨h.base, h.length, h.nonempty⟩

/-- The memory of an entry, through the direct map. -/
def MemmapEntry.span (hhdm : BitVec 64) (e : MemmapEntry) : Region :=
  ⟨va hhdm e.base, e.length.toNat⟩

section Span

variable {hhdm : BitVec 64} {e : MemmapEntry} {metaLen : ℕ → ℕ}

/-- The zone of an entry: header on its first page, arena from the second to just before its end. -/
theorem start_initZone (hhdm0 : hhdm.toNat % 4096 = 0) (he : e.Paged) :
    (initZone (va hhdm e.base) (e.length - 1#64)).start = at' (va hhdm e.base) 4096 := by
  have hpage : (va hhdm e.base).toNat % 4096 = 0 := by
    have hb := he.base
    rw [va]
    bv_omega
  exact alignUp_of_page hpage (by decide) (by decide)

theorem len_initZone (he : e.Paged) (hz : e.hasZone = true) (base : BitVec 64) :
    4096 + (initZone base (e.length - 1#64)).len.toNat < e.length.toNat := by
  have hlong : e.length ≠ 4096#64 := by
    simp only [MemmapEntry.hasZone, Bool.and_eq_true, bne_iff_ne] at hz
    exact hz.2
  have hlen := he.length
  have hpos := he.nonempty
  have hne : e.length.toNat ≠ 4096 := fun h => hlong (BitVec.eq_of_toNat_eq h)
  simp only [initZone]
  bv_omega

theorem mem_initPhysAllocator {mmap : List MemmapEntry} {z : Zone} :
    z ∈ initPhysAllocator hhdm mmap ↔
      ∃ u ∈ mmap, u.hasZone = true ∧ initZone (va hhdm u.base) (u.length - 1#64) = z := by
  simp [initPhysAllocator, and_assoc]

/-- **A zone keeps to its entry**: header, metadata and arena. -/
theorem zone_subset_span (hmeta : ∀ n, metaLen n ≤ n) (hhdm0 : hhdm.toNat % 4096 = 0)
    (he : e.Paged) (hz : e.hasZone = true) {z : Zone}
    (hzone : z = initZone (va hhdm e.base) (e.length - 1#64)) :
    z.headerRegion.bytes ⊆ (e.span hhdm).bytes
      ∧ (z.metadata metaLen).bytes ⊆ (e.span hhdm).bytes
      ∧ (z.arena metaLen).bytes ⊆ (e.span hhdm).bytes := by
  have hstart := start_initZone hhdm0 he
  have hlen := len_initZone he hz (va hhdm e.base)
  rw [← hzone] at hstart hlen
  have hm := hmeta z.len.toNat
  refine ⟨?_, ?_, ?_⟩
  · have hheader : z.headerRegion = ⟨at' (va hhdm e.base) 0, 56⟩ := by
      rw [at'_zero, hzone]
      rfl
    rw [hheader]
    exact Region.bytes_subset (by omega)
  · rw [Zone.metadata, hstart, at'_at']
    exact Region.bytes_subset (by omega)
  · rw [Zone.arena, hstart]
    exact Region.bytes_subset (by omega)

/-- A block returned lies in the span of an entry with a zone. -/
theorem returnedBlocks_subset {zones : List Zone} {calls : List AllocCall} {b : Region}
    (hcalls : ∀ call ∈ calls, BuddyMalloc metaLen call) (hb : b ∈ returnedBlocks calls zones) :
    ∃ z ∈ zones, b.bytes ⊆ (z.arena metaLen).bytes := by
  obtain ⟨call, hcall, hreturn⟩ := List.mem_filterMap.mp hb
  obtain ⟨ptr, halloc, rfl⟩ := Option.map_eq_some_iff.mp hreturn
  obtain ⟨z, hz, hanswer⟩ := List.exists_of_findSome?_eq_some halloc
  split at hanswer
  · cases hanswer
  · exact ⟨z, hz, (hcalls call hcall).inside z ptr hanswer⟩

/-- A range below the direct map is reserved nowhere. -/
theorem reserve_of_lt {base len : BitVec 64} {z : Zone} (h : base < z.start) :
    z.reserve metaLen base len = z := by
  rw [Zone.reserve]
  split
  · rfl
  · rw [if_pos (.inl h)]

end Span

end MoonOS

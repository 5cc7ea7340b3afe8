import MoonOS.Mm.Addr
import MoonOS.Base.Mem

/-!
# Service/Capability — `kernel/service/capability.c`

A capability is a set of bits and a union.  Of the vendored buddy allocator only what it does
without a pool is here: a pool is the list of blocks it will answer with, and `buddy_embed` and
`buddy_free` are functions of what they are given.

Authority is in three places, the bits, the range and the `revoked` flag.  No function reads the
flag, the bits of a derived capability do not depend on those it is derived from, and its range is
read through one arm of the union whichever it holds:

* `unamplified_iff` — which capabilities nothing can be gained from.
-/

namespace MoonOS

open ByteMemory

/-- `Range`. -/
structure Range where
  base : BitVec 64
  limit : BitVec 64
deriving DecidableEq, Repr

/-- `CapabilityMemoryRegionType`. -/
inductive CapabilityMemoryRegionType
  | ram | framebuffer
deriving DecidableEq, Repr

/-- `CapabilityData`: three words.  The last one is beyond an `Object`. -/
inductive CapabilityData
  | allocatableMemoryRegion (range : Range) (pool : BitVec 64)
  | memoryRegion (type : CapabilityMemoryRegionType) (range : Range)
  | object (id : BitVec 32) (data beyond : BitVec 64)
deriving DecidableEq, Repr

/-- `Capability`. -/
structure Capability where
  type : BitVec 32
  data : CapabilityData
  revoked : Bool
deriving DecidableEq, Repr

/-- `CAP_READ`. -/
def capRead : BitVec 32 := 2#32

/-- `CAP_WRITE`. -/
def capWrite : BitVec 32 := 4#32

/-- `CAP_MEMORY_REGION`. -/
def capMemoryRegion : BitVec 32 := 8#32

/-- `CAP_ALLOCATABLE_MEMORY_REGION`. -/
def capAllocatableMemoryRegion : BitVec 32 := 16#32

/-- `CAPABILITY_HAS_ACCESS`. -/
def Capability.hasAccess (cap : Capability) (access : BitVec 32) : Bool :=
  cap.type &&& access == access

/-- `cap.data.memory_region.range`: the second and the third word of the union. -/
def Capability.range (cap : Capability) : Range :=
  match cap.data with
  | .memoryRegion _ range => range
  | .allocatableMemoryRegion range pool => ⟨range.limit, pool⟩
  | .object _ data beyond => ⟨data, beyond⟩

/-- `cap.data.allocatable_memory_region.pool`: the third word of the union. -/
def Capability.pool (cap : Capability) : BitVec 64 :=
  match cap.data with
  | .allocatableMemoryRegion _ pool => pool
  | .memoryRegion _ range => range.limit
  | .object _ _ beyond => beyond

/-- The range of either kind of memory, as it was put in; an object has none. -/
def CapabilityData.range : CapabilityData → Range
  | .allocatableMemoryRegion range _ => range
  | .memoryRegion _ range => range
  | .object _ _ _ => ⟨0#64, 0#64⟩

/-- The addresses in a range: its limit is a length. -/
def Range.bytes (r : Range) : Set (BitVec 64) := { b | (b - r.base).toNat < r.limit.toNat }

/-- `capability_create_memory_region`.  The size goes through an `int`. -/
def capabilityCreateMemoryRegion (region sz : BitVec 64) (rw : Bool)
    (type : CapabilityMemoryRegionType) : Capability where
  type := (if rw then capWrite else 0#32) ||| capRead ||| capMemoryRegion
  data := .memoryRegion type ⟨region, (sz.setWidth 32).signExtend 64⟩
  revoked := false

/-- `capability_make_region_allocatable`, with the memory it hands to `buddy_embed`. -/
def capabilityMakeRegionAllocatable (hhdm : BitVec 64)
    (buddyEmbed : BitVec 64 → BitVec 64 → BitVec 64) (regionCap : Capability) :
    Capability × List Range :=
  if regionCap.hasAccess capMemoryRegion = false then
    (⟨0#32, .memoryRegion .ram ⟨0#64, 0#64⟩, false⟩, [])
  else
    let range := regionCap.range
    let pool := buddyEmbed (va hhdm range.base) range.limit
    (⟨capAllocatableMemoryRegion ||| capRead ||| capWrite, .allocatableMemoryRegion range pool,
      false⟩,
      [⟨va hhdm range.base, range.limit⟩])

/-! ## Pools -/

/-- A block a pool will answer with, and how long it is. -/
structure Block where
  ptr : BitVec 64
  len : ℕ
deriving DecidableEq, Repr

/-- What each pool has left. -/
abbrev Pools := BitVec 64 → List Block

/-- `buddy_malloc`: the next block, if it is long enough; none without a pool. -/
def buddyMalloc (pool : BitVec 64) (size : ℕ) (pools : Pools) : BitVec 64 × Pools :=
  if pool = 0#64 then (0#64, pools)
  else
    match pools pool with
    | [] => (0#64, pools)
    | block :: blocks =>
      (if size ≤ block.len then block.ptr else 0#64, Function.update pools pool blocks)

/-- `buddy_free`: what it gives back is up to the allocator; without a pool it gives back nothing,
and neither the null pointer. -/
def buddyFree (release : BitVec 64 → BitVec 64 → Mem × Pools → Mem × Pools) (pool ptr : BitVec 64)
    (s : Mem × Pools) : Mem × Pools :=
  if pool = 0#64 then s else if ptr = 0#64 then s else release pool ptr s

/-- `capability_alloc_from`. -/
def capabilityAllocFrom (cap : Capability) (size : ℕ) (m : Mem) (pools : Pools) :
    BitVec 64 × Mem × Pools :=
  if cap.hasAccess capAllocatableMemoryRegion = false then (0#64, m, pools)
  else
    let (ptr, pools) := buddyMalloc cap.pool size pools
    (ptr, if ptr ≠ 0#64 then memset m ptr 0#8 size else m, pools)

/-- **What an allocation does**: without a block it changes no memory; with one it hands out the
next block of the pool, if that is long enough, and clears as much of it as was asked for. -/
theorem capabilityAllocFrom_cases {cap : Capability} {n : ℕ} {m m' : Mem} {pools pools' : Pools}
    {ptr : BitVec 64} (h : capabilityAllocFrom cap n m pools = (ptr, m', pools')) :
    (ptr = 0#64 ∧ m' = m ∧ ∀ pool, pools' pool <:+ pools pool)
      ∨ ∃ block blocks, pools cap.pool = block :: blocks ∧ n ≤ block.len ∧ block.ptr ≠ 0#64
        ∧ ptr = block.ptr ∧ m' = fill m ptr n 0#8
        ∧ pools' = Function.update pools cap.pool blocks := by
  rw [capabilityAllocFrom] at h
  split at h
  case isTrue =>
    obtain ⟨rfl, rfl, rfl⟩ := h
    exact .inl ⟨rfl, rfl, fun _ => List.suffix_refl _⟩
  case isFalse =>
    rw [buddyMalloc] at h
    by_cases hzero : cap.pool = 0#64
    · rw [if_pos hzero] at h
      obtain ⟨rfl, rfl, rfl⟩ := h
      exact .inl ⟨rfl, rfl, fun _ => List.suffix_refl _⟩
    rw [if_neg hzero] at h
    cases hpool : pools cap.pool with
    | nil =>
      rw [hpool] at h
      obtain ⟨rfl, rfl, rfl⟩ := h
      exact .inl ⟨rfl, rfl, fun _ => List.suffix_refl _⟩
    | cons block blocks =>
      rw [hpool] at h
      dsimp only at h
      by_cases hgiven : n ≤ block.len ∧ block.ptr ≠ 0#64
      · rw [if_pos hgiven.1, if_pos hgiven.2, memset_eq_fill] at h
        obtain ⟨rfl, rfl, rfl⟩ := h
        exact .inr ⟨block, blocks, rfl, hgiven.1, hgiven.2, rfl, rfl, rfl⟩
      · have hnull : (if n ≤ block.len then block.ptr else 0#64) = 0#64 := by
          split
          next hle => exact not_not.mp fun h0 => hgiven ⟨hle, h0⟩
          next => rfl
        rw [hnull, if_neg (by simp)] at h
        obtain ⟨rfl, rfl, rfl⟩ := h
        refine .inl ⟨rfl, rfl, fun pool => ?_⟩
        by_cases heq : pool = cap.pool
        · rw [heq, Function.update_self, hpool]
          exact List.suffix_cons _ _
        · rw [Function.update_of_ne heq]

/-- A pool can be allocated from. -/
structure Capability.HasPool (cap : Capability) : Prop where
  access : cap.hasAccess capAllocatableMemoryRegion = true
  pool : cap.pool ≠ 0#64

/-- An allocation succeeds with a block that is long enough. -/
theorem capabilityAllocFrom_eq {cap : Capability} {n : ℕ} {m : Mem} {pools : Pools} {block : Block}
    {blocks : List Block} (hcap : cap.HasPool) (hpool : pools cap.pool = block :: blocks)
    (hlen : n ≤ block.len) (hptr : block.ptr ≠ 0#64) :
    capabilityAllocFrom cap n m pools
      = (block.ptr, fill m block.ptr n 0#8, Function.update pools cap.pool blocks) := by
  rw [capabilityAllocFrom, if_neg (by simp [hcap.access]), buddyMalloc, if_neg hcap.pool, hpool]
  dsimp only
  rw [if_pos hlen, if_pos hptr, memset_eq_fill]

/-- What a pool has left is the end of what it had. -/
theorem capabilityAllocFrom_suffix {cap : Capability} {n : ℕ} {m m' : Mem} {pools pools' : Pools}
    {ptr : BitVec 64} (h : capabilityAllocFrom cap n m pools = (ptr, m', pools'))
    (pool : BitVec 64) : pools' pool <:+ pools pool := by
  obtain ⟨-, -, hsuffix⟩ | ⟨block, blocks, hpool, -, -, -, -, rfl⟩ := capabilityAllocFrom_cases h
  · exact hsuffix pool
  · by_cases heq : pool = cap.pool
    · rw [heq, Function.update_self, hpool]
      exact List.suffix_cons _ _
    · rw [Function.update_of_ne heq]

/-- `capablity_free_from`. -/
def capablityFreeFrom (release : BitVec 64 → BitVec 64 → Mem × Pools → Mem × Pools)
    (cap : Capability) (ptr : BitVec 64) (s : Mem × Pools) : Mem × Pools :=
  if cap.hasAccess capAllocatableMemoryRegion = false then s
  else buddyFree release cap.pool ptr s

/-- **Without a pool neither does anything.** -/
theorem capabilityAllocFrom_of_not_hasPool {cap : Capability} (h : ¬ cap.HasPool) (n : ℕ) (m : Mem)
    (pools : Pools) : capabilityAllocFrom cap n m pools = (0#64, m, pools) := by
  rw [capabilityAllocFrom]
  split
  case isTrue => rfl
  case isFalse haccess =>
    have hpool : cap.pool = 0#64 := not_not.mp fun hpool => h ⟨by simpa using haccess, hpool⟩
    rw [buddyMalloc, if_pos hpool]
    simp

theorem capablityFreeFrom_of_not_hasPool {cap : Capability} (h : ¬ cap.HasPool)
    (release : BitVec 64 → BitVec 64 → Mem × Pools → Mem × Pools) (ptr : BitVec 64)
    (s : Mem × Pools) : capablityFreeFrom release cap ptr s = s := by
  rw [capablityFreeFrom]
  split
  case isTrue => rfl
  case isFalse haccess =>
    have hpool : cap.pool = 0#64 := not_not.mp fun hpool => h ⟨by simpa using haccess, hpool⟩
    rw [buddyFree, if_pos hpool]

/-! ## Authority -/

section Authority

variable (hhdm : BitVec 64) (buddyEmbed : BitVec 64 → BitVec 64 → BitVec 64)
  (release : BitVec 64 → BitVec 64 → Mem × Pools → Mem × Pools)

/-- `d` has no authority that `c` does not have. -/
structure Capability.Within (d c : Capability) : Prop where
  rights : ∀ access ∈ [capRead, capWrite], d.hasAccess access = true → c.hasAccess access = true
  range : d.data.range.bytes ⊆ c.data.range.bytes
  revoked : c.revoked = true → d.revoked = true

/-- Neither allocating nor freeing through `c` does anything. -/
structure Capability.Inert (c : Capability) : Prop where
  alloc : ∀ size m pools, capabilityAllocFrom c size m pools = (0#64, m, pools)
  free : ∀ ptr s, capablityFreeFrom release c ptr s = s

/-- **Derivation does not amplify, and revocation holds**, for one capability. -/
structure Capability.Unamplified (c : Capability) : Prop where
  derive : (capabilityMakeRegionAllocatable hhdm buddyEmbed c).1.type = 0#32
    ∨ (capabilityMakeRegionAllocatable hhdm buddyEmbed c).1.Within c
  revoked : c.revoked = true → c.Inert release

/-- **The range is read as it was put in**, or as a part of that: a memory region's is; of an
allocatable one the limit and the pool are read for base and limit. -/
def Capability.RangeKept (c : Capability) : Prop :=
  match c.data with
  | .memoryRegion _ _ => True
  | .allocatableMemoryRegion range pool =>
    pool = 0#64 ∨ (range.limit - range.base).toNat + pool.toNat ≤ range.limit.toNat
  | .object _ _ beyond => beyond = 0#64

variable {hhdm buddyEmbed release} {c : Capability}

/-- One range is part of another, though both may go round the end of memory. -/
theorem Range.bytes_subset_iff {r r' : Range} : r.bytes ⊆ r'.bytes
    ↔ r.limit = 0#64 ∨ (r.base - r'.base).toNat + r.limit.toNat ≤ r'.limit.toNat := by
  constructor
  · intro hsub
    by_contra! hnot
    obtain ⟨hne, hlt⟩ := hnot
    have hpos : 0 < r.limit.toNat := Nat.pos_of_ne_zero fun h0 => hne (BitVec.eq_of_toNat_eq h0)
    -- The first byte of `r` is in `r'`, and the one at the end of `r'` is in `r`.
    have hfirst : (r.base - r'.base).toNat < r'.limit.toNat :=
      hsub (show (r.base - r.base).toNat < r.limit.toNat by rwa [BitVec.sub_self])
    have hend : r'.base + r'.limit ∈ r.bytes := by
      show (r'.base + r'.limit - r.base).toNat < r.limit.toNat
      bv_omega
    have hin : (r'.base + r'.limit - r'.base).toNat < r'.limit.toNat := hsub hend
    bv_omega
  · rintro (hzero | hle) b hb
    · have hb' : (b - r.base).toNat < r.limit.toNat := hb
      rw [hzero] at hb'
      exact absurd hb' (Nat.not_lt_zero _)
    · have hb' : (b - r.base).toNat < r.limit.toNat := hb
      show (b - r'.base).toNat < r'.limit.toNat
      bv_omega

theorem Capability.bytes_range_subset_iff : c.range.bytes ⊆ c.data.range.bytes ↔ c.RangeKept := by
  obtain ⟨type, data, revoked⟩ := c
  rw [Range.bytes_subset_iff]
  cases data with
  | memoryRegion type range => simp [Capability.range, CapabilityData.range, Capability.RangeKept]
  | allocatableMemoryRegion range pool => rfl
  | object id data beyond =>
    simp only [Capability.range, CapabilityData.range, Capability.RangeKept]
    bv_omega

/-- What is not a region is made nothing of. -/
theorem derive_bad (h : c.hasAccess capMemoryRegion = false) :
    (capabilityMakeRegionAllocatable hhdm buddyEmbed c).1.type = 0#32 := by
  rw [capabilityMakeRegionAllocatable, if_pos h]

/-- **A region is made allocatable, readable and writable, and not revoked**, whatever it was. -/
theorem derive_region (hhdm : BitVec 64) (buddyEmbed : BitVec 64 → BitVec 64 → BitVec 64)
    (h : c.hasAccess capMemoryRegion = true) :
    ∃ pool, (capabilityMakeRegionAllocatable hhdm buddyEmbed c).1
      = ⟨22#32, .allocatableMemoryRegion c.range pool, false⟩ := by
  rw [capabilityMakeRegionAllocatable, if_neg (by simp [h])]
  exact ⟨_, rfl⟩

/-- So only a region with every right that is not revoked is above what is made of it, if it is
one in the union. -/
theorem derive_within_iff (h : c.hasAccess capMemoryRegion = true) :
    (capabilityMakeRegionAllocatable hhdm buddyEmbed c).1.Within c
      ↔ c.hasAccess capRead = true ∧ c.hasAccess capWrite = true ∧ c.revoked = false
        ∧ c.RangeKept := by
  obtain ⟨pool, hd⟩ := derive_region hhdm buddyEmbed h
  rw [hd]
  constructor
  · intro hw
    exact ⟨hw.rights capRead (by simp) (by decide : (22#32 &&& capRead == capRead) = true),
      hw.rights capWrite (by simp) (by decide : (22#32 &&& capWrite == capWrite) = true),
      by simpa using hw.revoked, Capability.bytes_range_subset_iff.mp hw.range⟩
  · rintro ⟨hread, hwrite, hrevoked, hrange⟩
    refine ⟨fun access haccess _ => ?_, Capability.bytes_range_subset_iff.mpr hrange,
      by simp [hrevoked]⟩
    rcases List.mem_pair.mp haccess with rfl | rfl
    · exact hread
    · exact hwrite

/-- **Only a capability without a pool is inert.**  The flag makes no difference: a pool with a
block gives it away. -/
theorem inert_iff : c.Inert release ↔ ¬ c.HasPool := by
  constructor
  · intro hinert hpool
    have halloc := hinert.alloc 1 (fun _ => 0#8) fun _ => [⟨1#64, 1⟩]
    rw [capabilityAllocFrom_eq hpool rfl (le_refl 1) (by decide)] at halloc
    have hptr : 1#64 = 0#64 := congrArg Prod.fst halloc
    exact absurd hptr (by decide)
  · intro hpool
    exact ⟨capabilityAllocFrom_of_not_hasPool hpool,
      capablityFreeFrom_of_not_hasPool hpool release⟩

/-- **A capability is not amplified exactly when** it is no region, or has every right, is not
revoked and holds a region in the union; and when it has no pool, if it is revoked. -/
theorem unamplified_iff (hhdm : BitVec 64) (buddyEmbed : BitVec 64 → BitVec 64 → BitVec 64)
    (release : BitVec 64 → BitVec 64 → Mem × Pools → Mem × Pools) (c : Capability) :
    c.Unamplified hhdm buddyEmbed release
      ↔ (c.hasAccess capMemoryRegion = true →
          c.hasAccess capRead = true ∧ c.hasAccess capWrite = true ∧ c.revoked = false
            ∧ c.RangeKept)
        ∧ (c.revoked = true → ¬ c.HasPool) := by
  have hsplit : c.Unamplified hhdm buddyEmbed release
      ↔ ((capabilityMakeRegionAllocatable hhdm buddyEmbed c).1.type = 0#32
          ∨ (capabilityMakeRegionAllocatable hhdm buddyEmbed c).1.Within c)
        ∧ (c.revoked = true → c.Inert release) :=
    ⟨fun h => ⟨h.derive, h.revoked⟩, fun h => ⟨h.1, h.2⟩⟩
  rw [hsplit, inert_iff]
  refine and_congr_left fun _ => ?_
  cases hregion : c.hasAccess capMemoryRegion with
  | false => exact ⟨fun _ => nofun, fun _ => .inl (derive_bad hregion)⟩
  | true =>
    obtain ⟨pool, hd⟩ := derive_region hhdm buddyEmbed hregion
    have htype : (capabilityMakeRegionAllocatable hhdm buddyEmbed c).1.type ≠ 0#32 := by
      rw [hd]
      exact (by decide : 22#32 ≠ 0#32)
    rw [or_iff_right htype, derive_within_iff hregion]
    simp

end Authority

/-- **A read-only region that has been revoked becomes a writable one that has not.** -/
theorem not_unamplified_readOnly :
    ¬ (⟨capRead ||| capMemoryRegion, .memoryRegion .ram ⟨0x100000#64, 0x1000#64⟩, true⟩ :
      Capability).Unamplified 0xffff800000000000#64 (fun ptr _ => ptr) (fun _ _ s => s) := by
  intro hunamplified
  rcases hunamplified.derive with hbad | hwithin
  · exact absurd hbad (by decide)
  · exact absurd (hwithin.rights capWrite (by simp) (by decide)) (by decide)

end MoonOS

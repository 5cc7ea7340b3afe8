import MoonOS.Mm.Phys
import MoonOS.Service.Capability

/-!
# Service/InitTask — the pool of the init task, and the page allocator under it

`setup_init_task_capabilities` of `kernel/kernel.c` carves an allocatable pool out of the first long
entry of the memory map.  Three things go by each other there: the reservation is made at the
*physical* address, and no arena reaches so low; the pool starts at the entry's first byte, where
the zone has its header; and it is as long as the whole entry, cut to an `int`.

* `poolApart_iff` — the pool keeps off everything that is the page allocator's exactly when no zone
  starts inside it;
* `capsPartition_iff` — the capabilities partition memory exactly when the pool's entry is memory of
  16 MiB, no more.
-/

namespace MoonOS

/-! ## `setup_init_task_capabilities` -/

/-- `MiB(16)`. -/
def carveSize : BitVec 64 := 0x1000000#64

/-- The state of the loop: the capabilities, the zones, what has been handed to `buddy_embed`, and
whether there is a pool already. -/
structure Setup where
  caps : List Capability
  zones : List Zone
  handed : List Range
  hasAllocatableRegion : Bool

/-- `data.memory_region.range` with `base` moved up and `limit` down by 16 MiB. -/
def CapabilityData.carve : CapabilityData → CapabilityData
  | .memoryRegion type range =>
    .memoryRegion type ⟨range.base + carveSize, range.limit - carveSize⟩
  | .allocatableMemoryRegion range pool =>
    .allocatableMemoryRegion ⟨range.base, range.limit + carveSize⟩ (pool - carveSize)
  | .object id data beyond => .object id (data + carveSize) (beyond - carveSize)

/-- The entries init gets a capability for. -/
def MemmapEntry.granted (e : MemmapEntry) : Bool :=
  (e.type == .usable || e.type == .framebuffer) && e.length != 4096#64

/-- `region_cap`. -/
def MemmapEntry.regionCap (e : MemmapEntry) : Capability :=
  capabilityCreateMemoryRegion e.base e.length true
    (if e.type = .usable then .ram else .framebuffer)

section Loop

variable (hhdm : BitVec 64) (buddyEmbed : BitVec 64 → BitVec 64 → BitVec 64) (metaLen : ℕ → ℕ)

/-- One round of the loop; `CAP_BAD` is a panic. -/
def grantEntry (s : Setup) (e : MemmapEntry) : Option Setup :=
  if e.granted = false then some s
  else if carveSize ≤ e.length ∧ s.hasAllocatableRegion = false then
    let (allocatable, handed) := capabilityMakeRegionAllocatable hhdm buddyEmbed e.regionCap
    if allocatable.type = 0#32 then none
    else
      some
        { caps := s.caps ++ [allocatable, { e.regionCap with data := e.regionCap.data.carve }]
          zones := archReserveRange metaLen e.base carveSize s.zones
          handed := s.handed ++ handed
          hasAllocatableRegion := true }
  else some { s with caps := s.caps ++ [e.regionCap] }

/-- `setup_init_task_capabilities`. -/
def setupInitTaskCapabilities (mmap : List MemmapEntry) (zones : List Zone) : Option Setup :=
  mmap.foldlM (grantEntry hhdm buddyEmbed metaLen) ⟨[], zones, [], false⟩

end Loop

/-! ## What is handed over -/

/-- The entry the pool is carved out of. -/
def carvedEntry (mmap : List MemmapEntry) : Option MemmapEntry :=
  mmap.find? fun e => e.granted && carveSize ≤ e.length

/-- The length of the pool: that of the entry, through an `int`. -/
def MemmapEntry.carveLimit (e : MemmapEntry) : BitVec 64 := (e.length.setWidth 32).signExtend 64

/-- The capability for the pool carved out of an entry. -/
def MemmapEntry.allocatableCap (hhdm : BitVec 64) (buddyEmbed : BitVec 64 → BitVec 64 → BitVec 64)
    (e : MemmapEntry) : Capability :=
  ⟨22#32, .allocatableMemoryRegion ⟨e.base, e.carveLimit⟩
    (buddyEmbed (va hhdm e.base) e.carveLimit), false⟩

/-- The capability for the rest of it. -/
def MemmapEntry.restCap (e : MemmapEntry) : Capability :=
  { e.regionCap with data := e.regionCap.data.carve }

/-- The capabilities for entries that are not carved. -/
def regionCaps (mmap : List MemmapEntry) : List Capability :=
  (mmap.filter (·.granted)).map MemmapEntry.regionCap

theorem regionCaps_append (l l' : List MemmapEntry) :
    regionCaps (l ++ l') = regionCaps l ++ regionCaps l' := by
  rw [regionCaps, List.filter_append, List.map_append, regionCaps, regionCaps]

/-- The memory handed to `buddy_embed`. -/
def MemmapEntry.handed (hhdm : BitVec 64) (e : MemmapEntry) : Region :=
  ⟨va hhdm e.base, e.carveLimit.toNat⟩

/-- A range as a stretch of memory: its limit is a length. -/
def Range.region (r : Range) : Region := ⟨r.base, r.limit.toNat⟩

/-- **The pool is apart from the page allocator**: whatever was returned before and is returned
after, the memory handed over meets no header, no metadata and no block. -/
def PoolApart (hhdm : BitVec 64) (buddyEmbed : BitVec 64 → BitVec 64 → BitVec 64)
    (metaLen : ℕ → ℕ) (mmap : List MemmapEntry) : Prop :=
  ∀ before after : List AllocCall, (∀ call ∈ before ++ after, BuddyMalloc metaLen call) →
    ∃ s, setupInitTaskCapabilities hhdm buddyEmbed metaLen mmap (initPhysAllocator hhdm mmap)
      = some s
      ∧ ∀ range ∈ s.handed,
        (∀ z ∈ initPhysAllocator hhdm mmap, Disjoint range.region.bytes z.headerRegion.bytes
          ∧ Disjoint range.region.bytes (z.metadata metaLen).bytes)
        ∧ ∀ b ∈ returnedBlocks before (initPhysAllocator hhdm mmap) ++ returnedBlocks after s.zones,
            Disjoint range.region.bytes b.bytes

/-- No zone starts inside the pool. -/
def CarveFits (mmap : List MemmapEntry) : Prop :=
  ∀ e, carvedEntry mmap = some e → ∀ u ∈ mmap, u.hasZone = true →
    e.carveLimit.toNat ≤ (u.base - e.base).toNat

/-- Two entries do not meet, if one has a zone and the other is granted. -/
def MemmapEntry.Apart (a b : MemmapEntry) : Prop :=
  a.hasZone = true ∧ b.granted = true ∨ a.granted = true ∧ b.hasZone = true →
    a.base.toNat + a.length.toNat ≤ b.base.toNat ∨ b.base.toNat + b.length.toNat ≤ a.base.toNat

/-- **A memory map as a boot loader gives it**: entries with a zone are whole pages, at least one,
and all in the direct map; they meet no other entry that is usable or a framebuffer; and physical
memory ends below the direct map. -/
structure MemmapOk (hhdm : BitVec 64) (mmap : List MemmapEntry) : Prop where
  aligned : hhdm.toNat % 4096 = 0
  entry : ∀ e ∈ mmap, e.hasZone = true → EntryOk hhdm e
  below : ∀ e ∈ mmap, e.granted = true → e.base < hhdm
  disjoint : mmap.Pairwise MemmapEntry.Apart

/-! ## The loop -/

section Run

variable (hhdm : BitVec 64) (buddyEmbed : BitVec 64 → BitVec 64 → BitVec 64) (metaLen : ℕ → ℕ)

/-- A region can always be made allocatable: it is handed over from its first byte. -/
theorem capabilityMakeRegionAllocatable_regionCap (e : MemmapEntry) :
    capabilityMakeRegionAllocatable hhdm buddyEmbed e.regionCap
      = (e.allocatableCap hhdm buddyEmbed, [⟨va hhdm e.base, e.carveLimit⟩]) := by
  have haccess : e.regionCap.hasAccess capMemoryRegion = true :=
    (by decide : (6#32 ||| capMemoryRegion) &&& capMemoryRegion == capMemoryRegion)
  rw [capabilityMakeRegionAllocatable, if_neg (by simp [haccess])]
  rfl

/-- The first long entry is carved… -/
theorem grantEntry_carve {s : Setup} {e : MemmapEntry} (hs : s.hasAllocatableRegion = false)
    (he : (e.granted && decide (carveSize ≤ e.length)) = true) :
    grantEntry hhdm buddyEmbed metaLen s e
      = some ⟨s.caps ++ [e.allocatableCap hhdm buddyEmbed, e.restCap],
          archReserveRange metaLen e.base carveSize s.zones,
          s.handed ++ [⟨va hhdm e.base, e.carveLimit⟩], true⟩ := by
  obtain ⟨hgranted, hlong⟩ := Bool.and_eq_true_iff.mp he
  rw [grantEntry, if_neg (by simp [hgranted]), if_pos ⟨of_decide_eq_true hlong, hs⟩,
    capabilityMakeRegionAllocatable_regionCap]
  rfl

/-- …and at every other one only a capability is added. -/
theorem grantEntry_keep {s : Setup} {e : MemmapEntry}
    (h : s.hasAllocatableRegion = true ∨ (e.granted && decide (carveSize ≤ e.length)) = false) :
    grantEntry hhdm buddyEmbed metaLen s e = some { s with caps := s.caps ++ regionCaps [e] } := by
  rw [grantEntry]
  by_cases hgranted : e.granted = false
  · rw [if_pos hgranted, regionCaps, List.filter_cons_of_neg (by simp [hgranted])]
    simp
  · have hnot : ¬(carveSize ≤ e.length ∧ s.hasAllocatableRegion = false) := by
      rintro ⟨hlong, hs⟩
      simp_all
    rw [if_neg hgranted, if_neg hnot, regionCaps, List.filter_cons_of_pos (by simpa using hgranted)]
    rfl

/-- Where there is a pool already or no entry is long, there is a capability for each entry. -/
theorem foldlM_grantEntry_keep (mmap : List MemmapEntry) {s : Setup}
    (h : s.hasAllocatableRegion = true
      ∨ ∀ e ∈ mmap, (e.granted && decide (carveSize ≤ e.length)) = false) :
    mmap.foldlM (grantEntry hhdm buddyEmbed metaLen) s
      = some { s with caps := s.caps ++ regionCaps mmap } := by
  induction mmap generalizing s with
  | nil => simp [regionCaps]
  | cons e mmap ih =>
    have hstep := grantEntry_keep hhdm buddyEmbed metaLen (s := s) (e := e)
      (h.imp_right fun hall => hall e List.mem_cons_self)
    have hrest := ih (s := { s with caps := s.caps ++ regionCaps [e] })
      (h.imp_right fun hall a ha => hall a (List.mem_cons_of_mem e ha))
    rw [List.foldlM_cons, hstep, Option.bind_eq_bind, Option.bind_some, hrest, List.append_assoc,
      ← regionCaps_append, List.singleton_append]

/-- **What the loop does where an entry is carved**: it hands that entry over, and reserves its
first 16 MiB. -/
theorem foldlM_grantEntry_carve (pre post : List MemmapEntry) {e : MemmapEntry} {s : Setup}
    (hs : s.hasAllocatableRegion = false)
    (hpre : ∀ a ∈ pre, (a.granted && decide (carveSize ≤ a.length)) = false)
    (he : (e.granted && decide (carveSize ≤ e.length)) = true) :
    (pre ++ e :: post).foldlM (grantEntry hhdm buddyEmbed metaLen) s
      = some ⟨s.caps ++ regionCaps pre ++ [e.allocatableCap hhdm buddyEmbed, e.restCap]
            ++ regionCaps post,
          archReserveRange metaLen e.base carveSize s.zones,
          s.handed ++ [⟨va hhdm e.base, e.carveLimit⟩], true⟩ := by
  rw [List.foldlM_append, foldlM_grantEntry_keep hhdm buddyEmbed metaLen pre (.inr hpre),
    Option.bind_eq_bind, Option.bind_some, List.foldlM_cons,
    grantEntry_carve hhdm buddyEmbed metaLen (by exact hs) he, Option.bind_eq_bind,
    Option.bind_some, foldlM_grantEntry_keep hhdm buddyEmbed metaLen post (.inl rfl)]

/-- The carved entry, and the entries before it. -/
theorem carvedEntry_eq_some {mmap : List MemmapEntry} {e : MemmapEntry}
    (h : carvedEntry mmap = some e) :
    (e.granted && decide (carveSize ≤ e.length)) = true ∧ ∃ pre post, mmap = pre ++ e :: post
      ∧ ∀ a ∈ pre, (a.granted && decide (carveSize ≤ a.length)) = false := by
  obtain ⟨he, pre, post, rfl, hpre⟩ := List.find?_eq_some_iff_append.mp h
  exact ⟨he, pre, post, rfl, fun a ha => (Bool.not_eq_true' _).mp (hpre a ha)⟩

theorem carvedEntry_eq_none {mmap : List MemmapEntry} (h : carvedEntry mmap = none) :
    ∀ e ∈ mmap, (e.granted && decide (carveSize ≤ e.length)) = false := fun e he =>
  Bool.eq_false_iff.mpr (List.find?_eq_none.mp h e he)

/-- **What the loop does**: it hands over the carved entry, if there is one, and reserves its first
16 MiB. -/
theorem foldlM_grantEntry (mmap : List MemmapEntry) {s : Setup}
    (hs : s.hasAllocatableRegion = false) :
    ∃ s', mmap.foldlM (grantEntry hhdm buddyEmbed metaLen) s = some s'
      ∧ s'.zones = ((carvedEntry mmap).elim s.zones fun e =>
          archReserveRange metaLen e.base carveSize s.zones)
      ∧ s'.handed
          = s.handed ++ (carvedEntry mmap).toList.map fun e => ⟨va hhdm e.base, e.carveLimit⟩ := by
  cases hcarved : carvedEntry mmap with
  | none =>
    exact ⟨_, foldlM_grantEntry_keep hhdm buddyEmbed metaLen mmap
      (.inr (carvedEntry_eq_none hcarved)), rfl, (List.append_nil _).symm⟩
  | some e =>
    obtain ⟨he, pre, post, rfl, hpre⟩ := carvedEntry_eq_some hcarved
    exact ⟨_, foldlM_grantEntry_carve hhdm buddyEmbed metaLen pre post hs hpre he, rfl, rfl⟩

end Run

/-! ## The reservation misses -/

section Apart

variable {hhdm : BitVec 64} {metaLen : ℕ → ℕ} {mmap : List MemmapEntry}

theorem granted_of_carvedEntry {e : MemmapEntry} (he : carvedEntry mmap = some e) :
    e ∈ mmap ∧ e.granted = true := by
  have hfound := List.find?_some he
  exact ⟨List.mem_of_find?_eq_some he, (Bool.and_eq_true_iff.mp hfound).1⟩

/-- A zone's arena is in the direct map, above every physical address… -/
theorem MemmapOk.lt_start (hmap : MemmapOk hhdm mmap) {e : MemmapEntry} (he : e ∈ mmap)
    (hgranted : e.granted = true) {z : Zone} (hz : z ∈ initPhysAllocator hhdm mmap) :
    e.base < z.start := by
  obtain ⟨u, hu, hzone, rfl⟩ := mem_initPhysAllocator.mp hz
  have hok := hmap.entry u hu hzone
  have hlen := len_initZone hok.paged hzone (va hhdm u.base)
  have hbelow := hmap.below e he hgranted
  have hmapped := hok.mapped
  rw [start_initZone hmap.aligned hok.paged, ByteMemory.at', va]
  bv_omega

/-- …so **a reservation at a physical address reserves nothing**. -/
theorem MemmapOk.archReserveRange (hmap : MemmapOk hhdm mmap) {e : MemmapEntry} (he : e ∈ mmap)
    (hgranted : e.granted = true) (len : BitVec 64) :
    archReserveRange metaLen e.base len (initPhysAllocator hhdm mmap)
      = initPhysAllocator hhdm mmap := by
  refine (List.map_congr_left fun z hz => ?_).trans (List.map_id _)
  rw [reserve_of_lt (hmap.lt_start he hgranted hz), ite_self, id]

/-- The zones after `setup_init_task_capabilities` are those before, and the carved entry is all
that was handed over. -/
theorem MemmapOk.setupInitTaskCapabilities (hmap : MemmapOk hhdm mmap) (metaLen : ℕ → ℕ)
    (buddyEmbed : BitVec 64 → BitVec 64 → BitVec 64) :
    ∃ s, setupInitTaskCapabilities hhdm buddyEmbed metaLen mmap (initPhysAllocator hhdm mmap)
      = some s
      ∧ s.zones = initPhysAllocator hhdm mmap
      ∧ s.handed = (carvedEntry mmap).toList.map fun e => ⟨va hhdm e.base, e.carveLimit⟩ := by
  obtain ⟨s, hrun, hzones, hhanded⟩ := foldlM_grantEntry hhdm buddyEmbed metaLen mmap
    (s := ⟨[], initPhysAllocator hhdm mmap, [], false⟩) rfl
  refine ⟨s, hrun, ?_, hhanded⟩
  rw [hzones]
  cases hcarved : carvedEntry mmap with
  | none => rfl
  | some e =>
    obtain ⟨he, hgranted⟩ := granted_of_carvedEntry hcarved
    exact hmap.archReserveRange he hgranted carveSize

/-! ## Where the pool lies -/

instance : Std.Symm MemmapEntry.Apart :=
  ⟨fun _ _ hab h => (hab (h.symm.imp And.symm And.symm)).symm⟩

/-- The pool does not reach an entry whose base it does not reach. -/
theorem MemmapOk.disjoint_span (hmap : MemmapOk hhdm mmap) {e u : MemmapEntry} (he : e ∈ mmap)
    (hgranted : e.granted = true) (hu : u ∈ mmap) (hzone : u.hasZone = true)
    (hfits : e.carveLimit.toNat ≤ (u.base - e.base).toNat) :
    Disjoint (e.handed hhdm).bytes (u.span hhdm).bytes := by
  refine Set.disjoint_left.mpr fun x hx hx' => ?_
  have hpool : (x - va hhdm e.base).toNat < e.carveLimit.toNat := hx
  have hspan : (x - va hhdm u.base).toNat < u.length.toNat := hx'
  have hmapped := (hmap.entry u hu hzone).mapped
  have hsplit : x - va hhdm e.base = (u.base - e.base) + (x - va hhdm u.base) := by
    grind [va]
  rw [hsplit, BitVec.toNat_add, BitVec.toNat_sub u.base] at hpool
  rw [BitVec.toNat_sub] at hfits
  -- Only a pool that wraps around can come back to `u`; then `e` starts inside `u`.
  have hinside : u.base.toNat < e.base.toNat ∧ e.base.toNat < u.base.toNat + u.length.toNat := by
    omega
  have hne : u ≠ e := by
    rintro rfl
    exact lt_irrefl _ hinside.1
  rcases hmap.disjoint.forall hu he hne (.inl ⟨hzone, hgranted⟩) with h | h <;> omega

/-- A pool that reaches the base of an entry with a zone meets the zone's header. -/
theorem not_disjoint_headerRegion {e u : MemmapEntry}
    (hreach : (u.base - e.base).toNat < e.carveLimit.toNat) :
    ¬Disjoint (e.handed hhdm).bytes
      (initZone (va hhdm u.base) (u.length - 1#64)).headerRegion.bytes := by
  refine Set.not_disjoint_iff.mpr ⟨va hhdm u.base, ?_, ?_⟩
  · show (va hhdm u.base - va hhdm e.base).toNat < e.carveLimit.toNat
    have hshift : va hhdm u.base - va hhdm e.base = u.base - e.base := by
      grind [va]
    rwa [hshift]
  · show (va hhdm u.base - va hhdm u.base).toNat < zoneSize
    rw [BitVec.sub_self]
    decide

/-- **The pool of the init task is apart from the page allocator exactly when no zone starts inside
it.** -/
theorem poolApart_iff (hmap : MemmapOk hhdm mmap) (hmeta : ∀ n, metaLen n ≤ n)
    (buddyEmbed : BitVec 64 → BitVec 64 → BitVec 64) :
    PoolApart hhdm buddyEmbed metaLen mmap ↔ CarveFits mmap := by
  obtain ⟨s, hrun, hzones, hhanded⟩ := hmap.setupInitTaskCapabilities metaLen buddyEmbed
  constructor
  · intro hapart e he u hu hzone
    by_contra hreach
    obtain ⟨s', hrun', hdisjoint⟩ := hapart [] [] (by simp)
    obtain rfl : s = s' := Option.some_injective _ (hrun.symm.trans hrun')
    have hmem : (⟨va hhdm e.base, e.carveLimit⟩ : Range) ∈ s.handed := by
      rw [hhanded, he]
      exact List.mem_singleton_self _
    exact not_disjoint_headerRegion (not_le.mp hreach)
      ((hdisjoint _ hmem).1 _ (mem_initPhysAllocator.mpr ⟨u, hu, hzone, rfl⟩)).1
  · intro hfits before after hcalls
    refine ⟨s, hrun, fun range hrange => ?_⟩
    rw [hhanded] at hrange
    obtain ⟨e, he, rfl⟩ := List.mem_map.mp hrange
    have he' : carvedEntry mmap = some e := Option.mem_toList.mp he
    obtain ⟨hmem, hgranted⟩ := granted_of_carvedEntry he'
    -- Header, metadata and arena of each zone lie in the span of an entry the pool does not reach.
    have hzone : ∀ z ∈ initPhysAllocator hhdm mmap,
        Disjoint (e.handed hhdm).bytes z.headerRegion.bytes
          ∧ Disjoint (e.handed hhdm).bytes (z.metadata metaLen).bytes
          ∧ Disjoint (e.handed hhdm).bytes (z.arena metaLen).bytes := by
      intro z hz
      obtain ⟨u, hu, hu', hzu⟩ := mem_initPhysAllocator.mp hz
      have hspan := hmap.disjoint_span hmem hgranted hu hu' (hfits e he' u hu hu')
      obtain ⟨hheader, hmetadata, harena⟩ :=
        zone_subset_span hmeta hmap.aligned (hmap.entry u hu hu').paged hu' hzu.symm
      exact ⟨hspan.mono_right hheader, hspan.mono_right hmetadata, hspan.mono_right harena⟩
    refine ⟨fun z hz => ⟨(hzone z hz).1, (hzone z hz).2.1⟩, fun b hb => ?_⟩
    have hblock : ∃ z ∈ initPhysAllocator hhdm mmap, b.bytes ⊆ (z.arena metaLen).bytes := by
      rw [hzones] at hb
      rcases List.mem_append.mp hb with hb | hb
      · exact returnedBlocks_subset (fun c hc => hcalls c (List.mem_append_left _ hc)) hb
      · exact returnedBlocks_subset (fun c hc => hcalls c (List.mem_append_right _ hc)) hb
    obtain ⟨z, hz, hsub⟩ := hblock
    exact (hzone z hz).2.2.mono_right hsub

end Apart

/-! ## The capabilities as a partition -/

/-- The physical addresses of an entry. -/
def MemmapEntry.bytes (e : MemmapEntry) : Set (BitVec 64) :=
  (⟨e.base, e.length.toNat⟩ : Region).bytes

/-- The addresses a capability is for. -/
def Capability.bytes (c : Capability) : Set (BitVec 64) := c.data.range.bytes

/-- **Capabilities that partition memory**: no two share an address, each keeps to one usable or
framebuffer entry, and an allocatable one is 16 MiB of a usable entry. -/
structure CapsPartition (mmap : List MemmapEntry) (caps : List Capability) : Prop where
  disjoint : caps.Pairwise fun c d => Disjoint c.bytes d.bytes
  contained : ∀ c ∈ caps, ∃ e ∈ mmap, (e.type = .usable ∨ e.type = .framebuffer) ∧ c.bytes ⊆ e.bytes
  allocatable : ∀ c ∈ caps, c.hasAccess capAllocatableMemoryRegion = true →
    (∃ e ∈ mmap, e.type = .usable ∧ c.bytes ⊆ e.bytes) ∧ c.data.range.limit = carveSize

/-- What is asked of the map: entries that share no address, each below 2 GiB. -/
structure MemmapDisjoint (mmap : List MemmapEntry) : Prop where
  disjoint : mmap.Pairwise fun a b => Disjoint a.bytes b.bytes
  length : ∀ e ∈ mmap, e.length.toNat < 2 ^ 31

section Partition

variable {hhdm : BitVec 64} {buddyEmbed : BitVec 64 → BitVec 64 → BitVec 64} {metaLen : ℕ → ℕ}
  {mmap : List MemmapEntry} {e : MemmapEntry}

/-- A length below 2 GiB goes through an `int` unchanged. -/
theorem carveLimit_eq (h : e.length.toNat < 2 ^ 31) : e.carveLimit = e.length := by
  have hmsb : (e.length.setWidth 32).msb = false := by
    rw [BitVec.msb_eq_decide, BitVec.toNat_setWidth, Nat.mod_eq_of_lt (by omega)]
    simpa using h
  rw [MemmapEntry.carveLimit, BitVec.signExtend_eq_setWidth_of_msb_false hmsb]
  bv_omega

/-- The capability for an entry is for the whole of it… -/
theorem bytes_regionCap (h : e.length.toNat < 2 ^ 31) : e.regionCap.bytes = e.bytes := by
  show (⟨e.base, e.carveLimit.toNat⟩ : Region).bytes = e.bytes
  rw [carveLimit_eq h, MemmapEntry.bytes]

/-- …and so is the one for the pool carved out of it… -/
theorem bytes_allocatableCap (h : e.length.toNat < 2 ^ 31) :
    (e.allocatableCap hhdm buddyEmbed).bytes = e.bytes := by
  show (⟨e.base, e.carveLimit.toNat⟩ : Region).bytes = e.bytes
  rw [carveLimit_eq h, MemmapEntry.bytes]

/-- …while the rest starts 16 MiB further up. -/
theorem bytes_restCap (h : e.length.toNat < 2 ^ 31) :
    e.restCap.bytes = (⟨e.base + carveSize, (e.length - carveSize).toNat⟩ : Region).bytes := by
  show (⟨e.base + carveSize, (e.carveLimit - carveSize).toNat⟩ : Region).bytes = _
  rw [carveLimit_eq h]

/-- Capabilities for the entries themselves are as far apart as the entries. -/
theorem pairwise_regionCaps (hmap : MemmapDisjoint mmap) :
    (regionCaps mmap).Pairwise fun c d => Disjoint c.bytes d.bytes := by
  rw [regionCaps, List.pairwise_map]
  refine (hmap.disjoint.filter _).imp_of_mem fun {a b} ha hb hab => ?_
  rwa [bytes_regionCap (hmap.length a (List.mem_of_mem_filter ha)),
    bytes_regionCap (hmap.length b (List.mem_of_mem_filter hb))]

theorem mem_regionCaps {c : Capability} :
    c ∈ regionCaps mmap ↔ ∃ e ∈ mmap, e.granted = true ∧ e.regionCap = c := by
  simp [regionCaps, and_assoc]

theorem type_of_granted (h : e.granted = true) : e.type = .usable ∨ e.type = .framebuffer := by
  simpa [MemmapEntry.granted] using (Bool.and_eq_true_iff.mp h).1

/-- No capability for an entry itself is allocatable. -/
theorem hasAccess_regionCap (e : MemmapEntry) :
    e.regionCap.hasAccess capAllocatableMemoryRegion = false :=
  (by decide : ((6#32 ||| capMemoryRegion) &&& capAllocatableMemoryRegion
    == capAllocatableMemoryRegion) = false)

theorem hasAccess_restCap (e : MemmapEntry) :
    e.restCap.hasAccess capAllocatableMemoryRegion = false := by
  rw [MemmapEntry.restCap, Capability.hasAccess, ← hasAccess_regionCap e, Capability.hasAccess]

theorem hasAccess_allocatableCap (e : MemmapEntry) :
    (e.allocatableCap hhdm buddyEmbed).hasAccess capAllocatableMemoryRegion = true :=
  (by decide : (22#32 &&& capAllocatableMemoryRegion == capAllocatableMemoryRegion) = true)

/-- Capabilities for the entries themselves always partition memory. -/
theorem capsPartition_regionCaps (hmap : MemmapDisjoint mmap) :
    CapsPartition mmap (regionCaps mmap) where
  disjoint := pairwise_regionCaps hmap
  contained c hc := by
    obtain ⟨e, he, hgranted, rfl⟩ := mem_regionCaps.mp hc
    exact ⟨e, he, type_of_granted hgranted, (bytes_regionCap (hmap.length e he)).subset⟩
  allocatable c hc haccess := by
    obtain ⟨e, -, -, rfl⟩ := mem_regionCaps.mp hc
    rw [hasAccess_regionCap] at haccess
    cases haccess

/-- **A partition with an entry's capability in it stays one when a usable entry of 16 MiB is
handed over whole**: nothing is left of it. -/
theorem capsPartition_carve {pre post : List MemmapEntry} (hmap : MemmapDisjoint (pre ++ e :: post))
    (hgranted : e.granted = true) (hlen : e.length = carveSize) (htype : e.type = .usable) :
    CapsPartition (pre ++ e :: post)
      (regionCaps pre ++ [e.allocatableCap hhdm buddyEmbed, e.restCap] ++ regionCaps post) := by
  have hmem : e ∈ pre ++ e :: post := by simp
  have hlt := hmap.length e hmem
  have hpool : (e.allocatableCap hhdm buddyEmbed).bytes = e.bytes := bytes_allocatableCap hlt
  have hempty : e.restCap.bytes = ∅ := by
    rw [bytes_restCap hlt, hlen, BitVec.sub_self, BitVec.toNat_zero]
    exact Set.eq_empty_of_forall_notMem fun x hx => Nat.not_lt_zero _ hx
  have hwhole := capsPartition_regionCaps hmap
  have hsplit : regionCaps (pre ++ e :: post)
      = regionCaps pre ++ ([e.regionCap] ++ regionCaps post) := by
    rw [regionCaps_append, regionCaps, regionCaps, List.filter_cons_of_pos hgranted]
    rfl
  rw [hsplit] at hwhole
  -- Every other capability is one of the partition without a pool.
  have hother : ∀ c ∈ regionCaps pre ++ [e.allocatableCap hhdm buddyEmbed, e.restCap]
      ++ regionCaps post, c = e.allocatableCap hhdm buddyEmbed ∨ c = e.restCap
        ∨ c ∈ regionCaps pre ++ ([e.regionCap] ++ regionCaps post) := by
    intro c hc
    simp only [List.mem_append, List.mem_cons, List.not_mem_nil, or_false] at hc ⊢
    tauto
  refine ⟨?_, fun c hc => ?_, fun c hc haccess => ?_⟩
  · have hdisjoint := hwhole.disjoint
    rw [List.pairwise_append, List.pairwise_append] at hdisjoint
    obtain ⟨hpre, ⟨-, hpost, he⟩, hcross⟩ := hdisjoint
    have hbytes : (e.allocatableCap hhdm buddyEmbed).bytes = e.regionCap.bytes :=
      hpool.trans (bytes_regionCap hlt).symm
    rw [List.append_assoc, List.pairwise_append]
    refine ⟨hpre, List.pairwise_cons.mpr ⟨List.forall_mem_cons.mpr ⟨?_, fun d hd => ?_⟩,
      List.pairwise_cons.mpr ⟨fun d _ => ?_, hpost⟩⟩, fun c hc => List.forall_mem_cons.mpr
        ⟨?_, List.forall_mem_cons.mpr ⟨?_, fun d hd => ?_⟩⟩⟩
    · rw [hempty]
      exact Set.disjoint_empty _
    · rw [hbytes]
      exact he _ (List.mem_singleton_self _) d hd
    · rw [hempty]
      exact Set.empty_disjoint _
    · rw [hbytes]
      exact hcross c hc _ List.mem_cons_self
    · rw [hempty]
      exact Set.disjoint_empty _
    · exact hcross c hc d (List.mem_cons_of_mem _ hd)
  · rcases hother c hc with rfl | rfl | hc
    · exact ⟨e, hmem, .inl htype, hpool.subset⟩
    · exact ⟨e, hmem, .inl htype, by rw [hempty]; exact Set.empty_subset _⟩
    · exact hwhole.contained c hc
  · rcases hother c hc with rfl | rfl | hc
    · exact ⟨⟨e, hmem, htype, hpool.subset⟩, (carveLimit_eq hlt).trans hlen⟩
    · exact absurd haccess (Bool.eq_false_iff.mp (hasAccess_restCap e))
    · exact hwhole.allocatable c hc haccess

/-- An entry inside another is that one, unless it is empty. -/
theorem MemmapDisjoint.eq_of_subset (hmap : MemmapDisjoint mmap) {u : MemmapEntry} (he : e ∈ mmap)
    (hu : u ∈ mmap) (hpos : 0 < e.length.toNat) (hsub : e.bytes ⊆ u.bytes) : e = u := by
  by_contra hne
  have hsymm : Std.Symm fun a b : MemmapEntry => Disjoint a.bytes b.bytes := ⟨fun _ _ h => h.symm⟩
  have hbase : e.base ∈ e.bytes := by
    show (e.base - e.base).toNat < e.length.toNat
    rwa [BitVec.sub_self, BitVec.toNat_zero]
  exact Set.disjoint_left.mp (hmap.disjoint.forall he hu hne) hbase (hsub hbase)

/-- **The capabilities of the init task partition memory exactly when the first entry of 16 MiB or
more is memory of exactly 16 MiB.**  Of a longer one the pool gets the whole, and the capability for
the rest lies inside it. -/
theorem capsPartition_iff (hmap : MemmapDisjoint mmap) (zones : List Zone) :
    (∃ s, setupInitTaskCapabilities hhdm buddyEmbed metaLen mmap zones = some s
        ∧ CapsPartition mmap s.caps)
      ↔ ∀ e, carvedEntry mmap = some e → e.length = carveSize ∧ e.type = .usable := by
  rw [setupInitTaskCapabilities]
  cases hcarved : carvedEntry mmap with
  | none =>
    have hrun := foldlM_grantEntry_keep hhdm buddyEmbed metaLen mmap
      (s := ⟨[], zones, [], false⟩) (.inr (carvedEntry_eq_none hcarved))
    exact ⟨fun _ _ => nofun, fun _ => ⟨_, hrun, capsPartition_regionCaps hmap⟩⟩
  | some e =>
    obtain ⟨he, pre, post, rfl, hpre⟩ := carvedEntry_eq_some hcarved
    obtain ⟨hgranted, hlong⟩ := Bool.and_eq_true_iff.mp he
    have hmem : e ∈ pre ++ e :: post := by simp
    have hlt := hmap.length e hmem
    rw [foldlM_grantEntry_carve hhdm buddyEmbed metaLen pre post (s := ⟨[], zones, [], false⟩) rfl
      hpre he]
    constructor
    · rintro ⟨s, hs, hpart⟩ e' he'
      obtain rfl := Option.some.inj hs
      obtain rfl := Option.some.inj he'
      obtain ⟨⟨u, hu, htype, hsub⟩, hlimit⟩ := hpart.allocatable (e.allocatableCap hhdm buddyEmbed)
        (by simp) (hasAccess_allocatableCap e)
      rw [bytes_allocatableCap hlt] at hsub
      have hpos : 0 < e.length.toNat :=
        lt_of_lt_of_le (by decide) (BitVec.le_def.mp (of_decide_eq_true hlong))
      obtain rfl := hmap.eq_of_subset hmem hu hpos hsub
      exact ⟨(carveLimit_eq hlt).symm.trans hlimit, htype⟩
    · intro hcarve
      obtain ⟨hlen, htype⟩ := hcarve e rfl
      exact ⟨_, rfl, capsPartition_carve hmap hgranted hlen htype⟩

end Partition

/-! ## Two memory maps -/

/-- A framebuffer of 16 MiB, and 1 MiB of memory below it. -/
def framebufferMap : List MemmapEntry :=
  [⟨0xe0000000#64, 0x1000000#64, .framebuffer⟩, ⟨0x100000#64, 0x100000#64, .usable⟩]

theorem memmapOk_framebufferMap : MemmapOk 0xffff800000000000#64 framebufferMap where
  aligned := by decide
  entry := by
    refine List.forall_mem_cons.mpr ⟨fun h => absurd h (by decide), ?_⟩
    exact List.forall_mem_singleton.mpr fun _ => ⟨by decide, by decide, by decide, by decide⟩
  below := List.forall_mem_cons.mpr ⟨fun _ => by decide,
    List.forall_mem_singleton.mpr fun _ => by decide⟩
  disjoint := List.pairwise_pair.mpr fun _ => .inr (by decide)

theorem poolApart_framebufferMap :
    CarveFits framebufferMap
      ∧ PoolApart 0xffff800000000000#64 (fun ptr _ => ptr) (fun n => n / 64) framebufferMap := by
  have hfits : CarveFits framebufferMap := by
    intro e he u hu hzone
    obtain rfl : _ = e := Option.some_injective _ he
    rcases List.mem_pair.mp hu with rfl | rfl
    · exact absurd hzone (by decide)
    · decide
  exact ⟨hfits, (poolApart_iff memmapOk_framebufferMap (fun n => Nat.div_le_self n 64) _).mpr hfits⟩

/-- 32 MiB of memory. -/
def ramMap : List MemmapEntry := [⟨0x100000#64, 0x2000000#64, .usable⟩]

theorem memmapOk_ramMap : MemmapOk 0xffff800000000000#64 ramMap where
  aligned := by decide
  entry := List.forall_mem_singleton.mpr fun _ => ⟨by decide, by decide, by decide, by decide⟩
  below := List.forall_mem_singleton.mpr fun _ => by decide
  disjoint := List.pairwise_singleton _ _

/-- **The pool starts at the zone's header**, with 32 MiB of memory and nothing else. -/
theorem not_poolApart_ramMap :
    MemmapOk 0xffff800000000000#64 ramMap
      ∧ ¬PoolApart 0xffff800000000000#64 (fun ptr _ => ptr) (fun n => n / 64) ramMap := by
  refine ⟨memmapOk_ramMap, fun hapart => ?_⟩
  obtain ⟨s, hrun, -, hhanded⟩ :=
    memmapOk_ramMap.setupInitTaskCapabilities (fun n => n / 64) fun ptr _ => ptr
  obtain ⟨s', hrun', hdisjoint⟩ := hapart [] [] (by simp)
  obtain rfl : s = s' := Option.some_injective _ (hrun.symm.trans hrun')
  have hmem : (⟨0xffff800000100000#64, 0x2000000#64⟩ : Range) ∈ s.handed := by
    rw [hhanded]
    exact List.mem_singleton_self _
  have hzone : initZone (va 0xffff800000000000#64 0x100000#64) (0x2000000#64 - 1#64)
      ∈ initPhysAllocator 0xffff800000000000#64 ramMap := List.mem_singleton_self _
  have hfirst : 0xffff800000100000#64 ∈ (⟨0xffff800000100000#64, 0x2000000⟩ : Region).bytes :=
    (by decide : (0xffff800000100000#64 - 0xffff800000100000#64).toNat < 0x2000000)
  have hheader : 0xffff800000100000#64 ∈ (⟨0xffff800000100000#64, zoneSize⟩ : Region).bytes :=
    (by decide : (0xffff800000100000#64 - 0xffff800000100000#64).toNat < zoneSize)
  exact Set.disjoint_left.mp ((hdisjoint _ hmem).1 _ hzone).1 hfirst hheader

/-- 16 MiB of memory, and a framebuffer above it. -/
def sixteenMap : List MemmapEntry :=
  [⟨0x1000000#64, 0x1000000#64, .usable⟩, ⟨0xe0000000#64, 0x800000#64, .framebuffer⟩]

theorem memmapDisjoint_sixteenMap : MemmapDisjoint sixteenMap where
  disjoint := by
    refine List.pairwise_pair.mpr (Set.disjoint_left.mpr fun x hx hx' => ?_)
    have hlow : (x - 0x1000000#64).toNat < 0x1000000 := hx
    have hhigh : (x - 0xe0000000#64).toNat < 0x800000 := hx'
    bv_omega
  length := List.forall_mem_cons.mpr ⟨by decide, List.forall_mem_singleton.mpr (by decide)⟩

theorem capsPartition_sixteenMap :
    ∃ s, setupInitTaskCapabilities 0xffff800000000000#64 (fun ptr _ => ptr) (fun n => n / 64)
        sixteenMap [] = some s ∧ CapsPartition sixteenMap s.caps := by
  refine (capsPartition_iff memmapDisjoint_sixteenMap []).mpr fun e he => ?_
  obtain rfl : _ = e := Option.some_injective _ he
  exact ⟨rfl, rfl⟩

/-- **With 32 MiB of memory the pool is all of it**, and the rest is granted twice. -/
theorem not_capsPartition_ramMap :
    MemmapDisjoint ramMap ∧ ¬∃ s, setupInitTaskCapabilities 0xffff800000000000#64 (fun ptr _ => ptr)
      (fun n => n / 64) ramMap [] = some s ∧ CapsPartition ramMap s.caps := by
  refine ⟨⟨List.pairwise_singleton _ _, List.forall_mem_singleton.mpr (by decide)⟩, ?_⟩
  rintro ⟨s, hs, hpart⟩
  have hrun := foldlM_grantEntry_carve 0xffff800000000000#64 (fun ptr _ => ptr) (fun n => n / 64)
    [] [] (e := ⟨0x100000#64, 0x2000000#64, .usable⟩) (s := ⟨[], [], [], false⟩)
    rfl nofun (by decide)
  have hcaps : s.caps = [⟨22#32, .allocatableMemoryRegion ⟨0x100000#64, 0x2000000#64⟩
      0xffff800000100000#64, false⟩,
      ⟨14#32, .memoryRegion .ram ⟨0x1100000#64, 0x1000000#64⟩, false⟩] := by
    obtain rfl := Option.some.inj (hs.symm.trans hrun)
    decide
  have hboth := hpart.disjoint
  rw [hcaps, List.pairwise_pair] at hboth
  exact Set.disjoint_left.mp hboth
    (by decide : (0x1100000#64 - 0x100000#64).toNat < (0x2000000#64).toNat)
    (by decide : (0x1100000#64 - 0x1100000#64).toNat < (0x1000000#64).toNat)

end MoonOS

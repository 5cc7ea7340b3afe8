import MoonOS.Mm.Phys
import MoonOS.Service.Capability
import Mathlib.Order.CompletePartialOrder

/-!
# Service/CapabilityPool — allocations through a capability, over whole runs

`capability_make_region_allocatable` embeds a buddy allocator in the region itself: blocks from its
start, metadata at its end.  A run is any sequence of `capability_alloc_from` and
`capablity_free_from` through the capability that frees only live blocks; of the vendored buddy it
is assumed where it puts its metadata (`BuddyEmbed`) and, at each allocation, where the block is
that it answers with (`BuddyPool`).

* `poolSafe_of_poolReachable` — in every state of every run the live blocks are in the region, off
  each other and off the metadata; a block that is returned is clear and nothing beside it has been
  cleared; and where no pool could be embedded there is no block at all.
-/

namespace MoonOS

open ByteMemory

/-! ## Runs -/

/-- **What is assumed of `buddy_embed`**: it answers with the place of its metadata, which is at the
end of what it was given, or with the null pointer if that is too little. -/
structure BuddyEmbed (metaLen : ℕ → ℕ) (buddyEmbed : BitVec 64 → BitVec 64 → BitVec 64) : Prop where
  fits : ∀ main size, buddyEmbed main size ≠ 0#64 → metaLen size.toNat ≤ size.toNat
  place : ∀ main size, buddyEmbed main size ≠ 0#64 →
    buddyEmbed main size = at' main (size.toNat - metaLen size.toNat)

/-- The memory of a range, through the direct map. -/
def Range.span (hhdm : BitVec 64) (range : Range) : Region :=
  ⟨va hhdm range.base, range.limit.toNat⟩

/-- Where the blocks of a pool come from. -/
def Range.arena (hhdm : BitVec 64) (metaLen : ℕ → ℕ) (range : Range) : Region :=
  ⟨va hhdm range.base, range.limit.toNat - metaLen range.limit.toNat⟩

/-- The metadata of a pool. -/
def poolMetadata (metaLen : ℕ → ℕ) (range : Range) (pool : BitVec 64) : Region :=
  ⟨pool, metaLen range.limit.toNat⟩

/-- Memory, what the pools will answer, and the blocks that are live. -/
structure PoolState where
  mem : Mem
  pools : Pools
  live : List Region

/-- The block a pool answers with next. -/
def nextBlock (pool : BitVec 64) (pools : Pools) : Region :=
  match pools pool with
  | [] => ⟨0#64, 0⟩
  | block :: _ => ⟨block.ptr, block.len⟩

/-- What a holder of the capability does. -/
inductive PoolEvent
  | alloc (size : BitVec 64)
  | free (ptr : BitVec 64)
deriving DecidableEq, Repr

/-- **What is assumed of `buddy_malloc`**: a block lies in the arena, off those it has handed out
and not got back. -/
structure BuddyPool (arena : Region) (pool : BitVec 64) (s : PoolState) : Prop where
  inside : (nextBlock pool s.pools).ptr ≠ 0#64 → (nextBlock pool s.pools).bytes ⊆ arena.bytes
  disjoint : (nextBlock pool s.pools).ptr ≠ 0#64 →
    ∀ b ∈ s.live, Disjoint (nextBlock pool s.pools).bytes b.bytes

section Run

variable (release : BitVec 64 → BitVec 64 → Mem × Pools → Mem × Pools) (cap : Capability)

/-- One call. -/
def PoolEvent.apply (s : PoolState) : PoolEvent → PoolState
  | alloc size =>
    let (ptr, mem, pools) := capabilityAllocFrom cap size.toNat s.mem s.pools
    { mem, pools, live := if ptr = 0#64 then s.live else nextBlock cap.pool s.pools :: s.live }
  | free ptr =>
    let (mem, pools) := capablityFreeFrom release cap ptr (s.mem, s.pools)
    { mem, pools, live := s.live.filter (·.ptr ≠ ptr) }

/-- What a run may do next. -/
def PoolEvent.Allowed (arena : Region) (s : PoolState) : PoolEvent → Prop
  | alloc _ => BuddyPool arena cap.pool s
  | free ptr => ∃ b ∈ s.live, b.ptr = ptr

/-- The states of all runs from a pool with no block handed out. -/
inductive PoolReachable (arena : Region) : PoolState → Prop
  | init (mem : Mem) (pools : Pools) : PoolReachable arena ⟨mem, pools, []⟩
  | step {s : PoolState} {e : PoolEvent} : PoolReachable arena s → e.Allowed cap arena s →
      PoolReachable arena (e.apply release cap s)

end Run

/-- **Allocations are confined.** -/
structure PoolSafe (hhdm : BitVec 64) (metaLen : ℕ → ℕ) (range : Range) (cap : Capability)
    (s : PoolState) : Prop where
  disjoint : s.live.Pairwise fun b c => Disjoint b.bytes c.bytes
  inside : ∀ b ∈ s.live, b.bytes ⊆ (range.span hhdm).bytes
  metadata : ∀ b ∈ s.live, Disjoint b.bytes (poolMetadata metaLen range cap.pool).bytes
  zeroed : ∀ (size : BitVec 64) ptr m pools,
    capabilityAllocFrom cap size.toNat s.mem s.pools = (ptr, m, pools) → ptr ≠ 0#64 →
      ptr = (nextBlock cap.pool s.pools).ptr ∧ (∀ i < size.toNat, m (at' ptr i) = 0#8)
        ∧ ∀ x ∉ (nextBlock cap.pool s.pools).bytes, m x = s.mem x
  null : cap.pool = 0#64 →
    ∀ size : BitVec 64, (capabilityAllocFrom cap size.toNat s.mem s.pools).1 = 0#64

section Safe

variable {hhdm : BitVec 64} {metaLen : ℕ → ℕ} {buddyEmbed : BitVec 64 → BitVec 64 → BitVec 64}
  {release : BitVec 64 → BitVec 64 → Mem × Pools → Mem × Pools} {cap : Capability}
  {range : Range} {s : PoolState} {m : Mem} {pools : Pools} {ptr : BitVec 64} {size : BitVec 64}

/-- **What an allocation that succeeds does**: it hands out the next block, if that is long enough,
and clears as much of it as was asked for. -/
theorem capabilityAllocFrom_of_ne_zero {n : ℕ}
    (h : capabilityAllocFrom cap n m pools = (ptr, s.mem, s.pools)) (hptr : ptr ≠ 0#64) :
    ptr = (nextBlock cap.pool pools).ptr ∧ n ≤ (nextBlock cap.pool pools).len
      ∧ s.mem = fill m ptr n 0#8 := by
  obtain ⟨hnull, -⟩ | ⟨block, blocks, hpool, hlen, -, rfl, hmem, -⟩ := capabilityAllocFrom_cases h
  · exact absurd hnull hptr
  · rw [nextBlock, hpool]
    exact ⟨rfl, hlen, hmem⟩

/-- Without a pool there is none. -/
theorem capabilityAllocFrom_of_null {n : ℕ} (hpool : cap.pool = 0#64) :
    (capabilityAllocFrom cap n m pools).1 = 0#64 := by
  rw [capabilityAllocFrom_of_not_hasPool fun h => h.pool hpool]

/-- **What every run keeps**: the live blocks are in the arena, off each other, and if there is no
pool there are none. -/
structure PoolInv (arena : Region) (cap : Capability) (s : PoolState) : Prop where
  disjoint : s.live.Pairwise fun b c => Disjoint b.bytes c.bytes
  inside : ∀ b ∈ s.live, b.bytes ⊆ arena.bytes
  null : cap.pool = 0#64 → s.live = []

theorem poolInv_of_poolReachable {arena : Region} (h : PoolReachable release cap arena s) :
    PoolInv arena cap s := by
  induction h with
  | init mem pools => exact ⟨.nil, nofun, fun _ => rfl⟩
  | @step s e _ hallowed ih =>
    cases e with
    | alloc size =>
      have hbuddy : BuddyPool arena cap.pool s := hallowed
      rw [PoolEvent.apply]
      generalize hrun : capabilityAllocFrom cap size.toNat s.mem s.pools = r
      obtain ⟨ptr, m, pools⟩ := r
      dsimp only
      by_cases hptr : ptr = 0#64
      · rw [if_pos hptr]
        exact ⟨ih.disjoint, ih.inside, ih.null⟩
      · rw [if_neg hptr]
        obtain ⟨hnext, -, -⟩ := capabilityAllocFrom_of_ne_zero (s := ⟨m, pools, []⟩) hrun hptr
        rw [hnext] at hptr
        refine ⟨List.pairwise_cons.mpr ⟨hbuddy.disjoint hptr, ih.disjoint⟩,
          List.forall_mem_cons.mpr ⟨hbuddy.inside hptr, ih.inside⟩, fun hpool => ?_⟩
        have hfst : (capabilityAllocFrom cap size.toNat s.mem s.pools).1 = 0#64 :=
          capabilityAllocFrom_of_null hpool
        rw [hrun] at hfst
        exact absurd (hnext.symm.trans hfst) hptr
    | free ptr =>
      have hsub : (s.live.filter (·.ptr ≠ ptr)).Sublist s.live := List.filter_sublist
      refine ⟨ih.disjoint.sublist hsub, fun b hb => ih.inside b (hsub.subset hb), fun hpool => ?_⟩
      show s.live.filter _ = []
      rw [ih.null hpool]
      rfl

/-- **In every state of every run allocations are confined**, through the capability made of any
memory region. -/
theorem poolSafe_of_poolReachable (hembed : BuddyEmbed metaLen buddyEmbed)
    {regionCap : Capability} {type : CapabilityMemoryRegionType}
    (hregion : regionCap.hasAccess capMemoryRegion = true)
    (hdata : regionCap.data = .memoryRegion type range)
    (hcap : cap = (capabilityMakeRegionAllocatable hhdm buddyEmbed regionCap).1)
    (h : PoolReachable release cap (range.arena hhdm metaLen) s) :
    PoolSafe hhdm metaLen range cap s := by
  have hinv := poolInv_of_poolReachable h
  have hrange : regionCap.range = range := by rw [Capability.range, hdata]
  have hpool : cap.pool = buddyEmbed (va hhdm range.base) range.limit := by
    rw [hcap, capabilityMakeRegionAllocatable, if_neg (by simp [hregion]), hrange]
    rfl
  have harena : range.arena hhdm metaLen = ⟨at' (va hhdm range.base) 0,
      range.limit.toNat - metaLen range.limit.toNat⟩ := by rw [at'_zero, Range.arena]
  refine ⟨hinv.disjoint, fun b hb => (hinv.inside b hb).trans ?_, fun b hb => ?_,
    fun size ptr m pools hrun hptr => ?_, fun hnull size => ?_⟩
  · rw [harena]
    exact Region.bytes_subset (by omega)
  · have hne : cap.pool ≠ 0#64 := fun h0 => by
      rw [hinv.null h0] at hb
      cases hb
    rw [hpool] at hne
    have hfits := hembed.fits _ _ hne
    have hlt := range.limit.isLt
    refine Disjoint.mono_left (hinv.inside b hb) ?_
    rw [harena, poolMetadata, hpool, hembed.place _ _ hne]
    exact Region.disjoint_of_le (by omega) (by omega)
  · obtain ⟨hnext, hlen, hmem⟩ :=
      capabilityAllocFrom_of_ne_zero (s := ⟨m, pools, []⟩) hrun hptr
    dsimp only at hmem
    refine ⟨hnext, fun i hi => ?_, fun x hx => ?_⟩
    · rw [hmem, fill, if_pos (by rwa [toNat_at'_sub ptr (by omega)])]
    · have hout : ¬ (x - (nextBlock cap.pool s.pools).ptr).toNat
          < (nextBlock cap.pool s.pools).len := hx
      rw [hmem, fill, hnext, if_neg (by omega)]
  · exact capabilityAllocFrom_of_null hnull

end Safe

/-- Two pages of memory at `1 MiB`, to be made allocatable. -/
def twoPageRegion : Capability := capabilityCreateMemoryRegion 0x100000#64 0x2000#64 true .ram

/-- …with one part in 64 for metadata. -/
def embedAtEnd (main size : BitVec 64) : BitVec 64 := at' main (size.toNat - size.toNat / 64)

theorem buddyEmbed_embedAtEnd : BuddyEmbed (· / 64) embedAtEnd where
  fits _ _ _ := Nat.div_le_self ..
  place _ _ _ := rfl

/-- The pool has two blocks of 64 bytes, and nothing has been handed out. -/
def twoBlockPool : PoolState where
  mem _ := 0xff#8
  pools _ := [⟨0xffff800000100040#64, 64⟩, ⟨0xffff800000100080#64, 64⟩]
  live := []

/-- The capability made of the two pages. -/
def twoPagePool : Capability :=
  (capabilityMakeRegionAllocatable 0xffff800000000000#64 embedAtEnd twoPageRegion).1

/-- Sixteen bytes from it, and 64 more. -/
def twoBlocksTaken : PoolState :=
  [PoolEvent.alloc 16#64, .alloc 64#64].foldl (PoolEvent.apply (fun _ _ s => s) twoPagePool)
    twoBlockPool

theorem poolReachable_twoBlocksTaken : PoolReachable (fun _ _ s => s) twoPagePool
    (Range.arena 0xffff800000000000#64 (· / 64) ⟨0x100000#64, 0x2000#64⟩) twoBlocksTaken := by
  have hnext : nextBlock twoPagePool.pool ((PoolEvent.alloc 16#64).apply (fun _ _ s => s)
      twoPagePool twoBlockPool).pools = ⟨0xffff800000100080#64, 64⟩ := by
    decide +kernel
  have hlive : ((PoolEvent.alloc 16#64).apply (fun _ _ s => s) twoPagePool twoBlockPool).live
      = [⟨0xffff800000100040#64, 64⟩] := by
    decide +kernel
  have hinit : PoolReachable (fun _ _ s => s) twoPagePool
      (Range.arena 0xffff800000000000#64 (· / 64) ⟨0x100000#64, 0x2000#64⟩) twoBlockPool :=
    .init _ _
  have hone := hinit.step (e := .alloc 16#64)
    ⟨fun _ => Region.bytes_subset (a := 0xffff800000100000#64) (k := 64) (by decide),
      fun _ b hb => absurd hb List.not_mem_nil⟩
  refine hone.step (e := .alloc 64#64) ⟨fun _ => ?_, fun _ => ?_⟩
  · rw [hnext]
    exact Region.bytes_subset (a := 0xffff800000100000#64) (k := 128) (by decide)
  · rw [hnext, hlive]
    intro b hb
    obtain rfl := List.mem_singleton.mp hb
    exact (Region.disjoint_of_le (a := 0xffff800000100000#64) (p := 64) (n := 64) (q := 128)
      (k := 64) (by decide) (by decide)).symm

/-- Both blocks are live, and safe. -/
theorem poolSafe_twoBlocksTaken :
    twoBlocksTaken.live = [⟨0xffff800000100080#64, 64⟩, ⟨0xffff800000100040#64, 64⟩]
      ∧ PoolSafe 0xffff800000000000#64 (· / 64) ⟨0x100000#64, 0x2000#64⟩ twoPagePool
        twoBlocksTaken :=
  ⟨by decide +kernel, poolSafe_of_poolReachable buddyEmbed_embedAtEnd
    (show twoPageRegion.hasAccess capMemoryRegion = true by decide) rfl rfl
    poolReachable_twoBlocksTaken⟩

end MoonOS

import MoonOS.Mm.Phys
import MoonOS.Lib.GuardedRun

/-!
# Mm/PhysLock — the page allocator and its lock

The three functions of `kernel/arch/x86/mm/phys.c` that take `pmm_lock`, over zones that each carry
the state of their buddy.  The vendored buddy is a parameter, and nothing is assumed of it.  The
page `arch_alloc_page_sz` clears is in `Mm/Virt`; here it is followed what happens to the lock.

Every exit gives the lock back but one: a request no zone can meet returns with the lock held.  So

* `returnsFree_iff` — in a run all calls return with the lock free exactly when every request finds
  a zone that is long enough and has a block for it.
-/

namespace MoonOS

open ByteMemory GuardedRun

/-! ## The lock -/

/-- `Lock`: whether it is held. -/
abbrev Lock := Bool

/-- `acquire_lock`.  It spins on a lock that is held, and when the call that took the lock is over
nobody is left to release it. -/
def acquireLock (lock : Lock) : Option Lock := if lock then none else some true

/-- Whoever gets the lock has found it free. -/
theorem eq_false_of_acquireLock {lock lock' : Lock} (h : acquireLock lock = some lock') :
    lock = false := by
  cases lock with
  | false => rfl
  | true => exact nomatch h

/-- `release_lock`. -/
def releaseLock (_ : Lock) : Lock := false

/-! ## The allocator -/

/-- What the page allocator calls of the vendored buddy allocator. -/
structure Buddy (B : Type) where
  malloc : B → BitVec 64 → BitVec 64 × B
  free : B → BitVec 64 → B
  toggleRangeReservation : B → BitVec 64 → BitVec 64 → B

/-- `struct zone`, with its buddy. -/
structure BuddyZone (B : Type) where
  start : BitVec 64
  len : BitVec 64
  buddy : B

/-- The page allocator: `pmm_lock` and `zone_list`. -/
structure Pmm (B : Type) where
  lock : Lock
  zones : List (BuddyZone B)

section Calls

variable {B : Type} (ops : Buddy B)

/-- `find_first_free_block`. -/
def findFirstFreeBlock (sz : BitVec 32) : List (BuddyZone B) → BitVec 64 × List (BuddyZone B)
  | [] => (0#64, [])
  | zone :: zones =>
    if zone.len < sz.signExtend 64 then
      let (block, zones) := findFirstFreeBlock sz zones
      (block, zone :: zones)
    else
      let (ptr, buddy) := ops.malloc zone.buddy (sz.signExtend 64)
      if ptr = 0#64 then
        let (block, zones) := findFirstFreeBlock sz zones
        (block, { zone with buddy } :: zones)
      else (ptr, { zone with buddy } :: zones)

/-- `arch_alloc_page_sz`. -/
def Pmm.archAllocPageSz (sz : BitVec 32) (s : Pmm B) : Option (BitVec 64 × Pmm B) :=
  (acquireLock s.lock).map fun lock =>
    let (block, zones) := findFirstFreeBlock ops sz s.zones
    -- the early return is in front of `release_lock`
    if block = 0#64 then (0#64, { lock, zones })
    else (block, { lock := releaseLock lock, zones })

/-- The loop of `arch_free_page`: the first zone around the address. -/
def freeInZone (page : BitVec 64) : List (BuddyZone B) → List (BuddyZone B)
  | [] => []
  | zone :: zones =>
    if zone.start ≤ page ∧ page ≤ zone.start + zone.len then
      { zone with buddy := ops.free zone.buddy page } :: zones
    else zone :: freeInZone page zones

/-- `arch_free_page`. -/
def Pmm.archFreePage (page : BitVec 64) (s : Pmm B) : Option (Pmm B) :=
  if page = 0#64 then some s
  else (acquireLock s.lock).map fun lock =>
    { lock := releaseLock lock, zones := freeInZone ops page s.zones }

/-- `arch_reserve_range`. -/
def Pmm.archReserveRange (base len : BitVec 64) (s : Pmm B) : Option (Pmm B) :=
  (acquireLock s.lock).map fun lock =>
    { lock := releaseLock lock
      zones := s.zones.map fun zone =>
        if zone.len < len then zone
        else { zone with buddy := ops.toggleRangeReservation zone.buddy base len } }

/-- A call of the page allocator. -/
inductive PmmCall
  | alloc (sz : BitVec 32)
  | free (page : BitVec 64)
  | reserve (base len : BitVec 64)
deriving DecidableEq, Repr

/-- What it leaves; `none` is a call that does not return. -/
def PmmCall.apply (s : Pmm B) : PmmCall → Option (Pmm B)
  | alloc sz => (s.archAllocPageSz ops sz).map Prod.snd
  | free page => s.archFreePage ops page
  | reserve base len => s.archReserveRange ops base len

/-- **Every call of a run returns, with the lock free.** -/
def ReturnsFree (calls : List PmmCall) (s : Pmm B) : Prop :=
  ∀ n, ∃ s', (calls.take n).foldlM (PmmCall.apply ops) s = some s' ∧ s'.lock = false

/-- A zone is long enough and its buddy has a block. -/
def Pmm.HasBlock (sz : BitVec 32) (s : Pmm B) : Prop :=
  ∃ zone ∈ s.zones, ¬ zone.len < sz.signExtend 64
    ∧ (ops.malloc zone.buddy (sz.signExtend 64)).1 ≠ 0#64

/-- A call that is not a request that no zone can meet. -/
def PmmCall.Served (s : Pmm B) : PmmCall → Prop
  | alloc sz => s.HasBlock ops sz
  | free _ => True
  | reserve _ _ => True

end Calls

section Discipline

variable {B : Type} {ops : Buddy B} {s s' : Pmm B} {sz : BitVec 32}

/-- The search comes back with a block exactly when there is one. -/
theorem findFirstFreeBlock_ne_zero {zones : List (BuddyZone B)} :
    (findFirstFreeBlock ops sz zones).1 ≠ 0#64
      ↔ ∃ zone ∈ zones, ¬ zone.len < sz.signExtend 64
        ∧ (ops.malloc zone.buddy (sz.signExtend 64)).1 ≠ 0#64 := by
  induction zones with
  | nil => simp [findFirstFreeBlock]
  | cons zone zones ih =>
    rw [List.exists_mem_cons_iff, ← ih, findFirstFreeBlock]
    by_cases hshort : zone.len < sz.signExtend 64
    · rw [if_pos hshort]
      simp [hshort]
    · rw [if_neg hshort]
      by_cases hnull : (ops.malloc zone.buddy (sz.signExtend 64)).1 = 0#64
      · simp [hnull]
      · simp [hnull, hshort]

/-- **From a free lock every call returns**, and leaves the lock free unless it was a request that
no zone could meet. -/
theorem PmmCall.apply_of_free (ops : Buddy B) (hs : s.lock = false) (call : PmmCall) :
    ∃ s', call.apply ops s = some s' ∧ (s'.lock = false ↔ call.Served ops s) := by
  have hacquire : acquireLock s.lock = some true := by rw [acquireLock, hs]; rfl
  cases call with
  | alloc sz =>
    rw [PmmCall.apply, Pmm.archAllocPageSz, hacquire, PmmCall.Served, Pmm.HasBlock,
      ← findFirstFreeBlock_ne_zero]
    by_cases hnull : (findFirstFreeBlock ops sz s.zones).1 = 0#64
    · simp [hnull]
    · simp [hnull, releaseLock]
  | free page =>
    rw [PmmCall.apply, Pmm.archFreePage, hacquire, PmmCall.Served]
    by_cases hnull : page = 0#64
    · simp [hnull, hs]
    · simp [hnull, releaseLock]
  | reserve base len =>
    rw [PmmCall.apply, Pmm.archReserveRange, hacquire, PmmCall.Served]
    simp [releaseLock]

/-- **All calls of a run return with the lock free exactly when every request finds a block.** -/
theorem returnsFree_iff (ops : Buddy B) (calls : List PmmCall) (hs : s.lock = false) :
    ReturnsFree ops calls s ↔ Guarded (PmmCall.apply ops) (PmmCall.Served ops) calls s := by
  have hmove : ∀ (s : Pmm B) (call : PmmCall), s.lock = false →
      ∃ s', call.apply ops s = some s' := fun s call hs => by
    obtain ⟨s', hrun, -⟩ := call.apply_of_free ops hs
    exact ⟨s', hrun⟩
  rw [ReturnsFree, ← always_iff_take (P := fun s : Pmm B => s.lock = false) hmove]
  refine always_iff_guarded (I := fun _ => True) (fun s call s' _ hs hrun => ⟨trivial, ?_⟩)
    trivial hs
  obtain ⟨s₁, hrun₁, hiff⟩ := call.apply_of_free ops hs
  obtain rfl := Option.some.inj (hrun₁.symm.trans hrun)
  exact hiff

end Discipline

/-- A buddy that counts the pages it has left, from `0xffff800000002000` on. -/
def countingBuddy : Buddy ℕ where
  malloc n sz :=
    if n = 0 ∨ 4096#64 < sz then (0#64, n)
    else (BitVec.ofNat 64 (0xffff800000001000 + 4096 * n), n - 1)
  free n _ := n + 1
  toggleRangeReservation n _ _ := n

/-- One zone of fourteen pages, of which one is left. -/
def onePageLeft : Pmm ℕ where
  lock := false
  zones := [⟨0xffff800000002000#64, 0xefff#64, 1⟩]

/-- A page taken and given back. -/
theorem returnsFree_onePageLeft :
    ReturnsFree countingBuddy [.alloc 4096#32, .free 0xffff800000002000#64] onePageLeft := by
  refine (returnsFree_iff countingBuddy _ rfl).mpr ?_
  refine .cons rfl ⟨_, List.mem_singleton.mpr rfl, by decide, by decide⟩ ?_
  exact .cons rfl trivial trivial

/-- After the last page, the next request returns nothing, and the page can no longer be given
back. -/
theorem not_returnsFree_onePageLeft :
    [PmmCall.alloc 4096#32, .alloc 4096#32, .free 0xffff800000002000#64].foldlM
        (PmmCall.apply countingBuddy) onePageLeft = none
      ∧ ¬ ReturnsFree countingBuddy
        [.alloc 4096#32, .alloc 4096#32, .free 0xffff800000002000#64] onePageLeft := by
  have hspin : [PmmCall.alloc 4096#32, .alloc 4096#32, .free 0xffff800000002000#64].foldlM
      (PmmCall.apply countingBuddy) onePageLeft = none := rfl
  refine ⟨hspin, fun hfree => ?_⟩
  obtain ⟨s', hrun, -⟩ := hfree 3
  exact nomatch hspin.symm.trans hrun

end MoonOS

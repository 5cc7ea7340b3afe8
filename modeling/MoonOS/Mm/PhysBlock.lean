import MoonOS.Mm.PhysLock
import MoonOS.Mm.PhysRun
import MoonOS.Mm.Virt

/-!
# Mm/PhysBlock — a block when it is handed out, and when it is given back

The page allocator of `Mm/PhysLock`, now with something assumed of the vendored buddy
(`BuddyLaw`): it answers inside the memory it was made for, a refusal changes nothing, and
`buddy_free` undoes the `buddy_malloc` that returned the pointer.

* `archFreePage_archAllocPageSz` — freeing a block right after it was allocated restores every zone.
  The zone is found again by address, with an inclusive upper bound; that bound is the last byte of
  the zone's own entry, so a neighbour is never taken for it.
* `allocClean_iff` — a block is clean on return and nothing else has been written exactly when it is
  a page: `arch_alloc_page_sz` clears `PAGE_SIZE` bytes, whatever it was asked for.
* `archAllocPage_over` — the page allocator of `Mm/Virt`, a list of answers and the lock, does what
  this one does.
-/

namespace MoonOS

open ByteMemory

/-! ## What is assumed of the buddy -/

/-- **The vendored buddy, on its own arena.**  `arena` is the memory a buddy was made for, which no
call changes. -/
structure BuddyLaw {B : Type} (ops : Buddy B) (arena : B → Region) : Prop where
  arena_malloc : ∀ b sz, arena (ops.malloc b sz).2 = arena b
  arena_free : ∀ b page, arena (ops.free b page) = arena b
  arena_toggle : ∀ b base len, arena (ops.toggleRangeReservation b base len) = arena b
  inside : ∀ b sz, (ops.malloc b sz).1 ≠ 0#64 → (ops.malloc b sz).1 ∈ (arena b).bytes
  refused : ∀ b sz, (ops.malloc b sz).1 = 0#64 → (ops.malloc b sz).2 = b
  undo : ∀ b sz, (ops.malloc b sz).1 ≠ 0#64 →
    ops.free (ops.malloc b sz).2 (ops.malloc b sz).1 = b
  outside : ∀ b page, page ∉ (arena b).bytes → ops.free b page = b

section Model

variable {B : Type} (ops : Buddy B)

/-- The memory of a zone behind its header. -/
def BuddyZone.region (z : BuddyZone B) : Region := ⟨z.start, z.len.toNat⟩

/-- The page allocator as `init_phys_allocator` leaves it; `embed` is `buddy_embed`. -/
def initPmm (hhdm : BitVec 64) (embed : Zone → B) (mmap : List MemmapEntry) : Pmm B where
  lock := false
  zones := (initPhysAllocator hhdm mmap).map fun z => ⟨z.start, z.len, embed z⟩

/-- The states of all runs from there. -/
def PmmReachable (hhdm : BitVec 64) (embed : Zone → B) (mmap : List MemmapEntry) (s : Pmm B) :
    Prop :=
  ∃ calls : List PmmCall, calls.foldlM (PmmCall.apply ops) (initPmm hhdm embed mmap) = some s

/-- **A block goes back to the zone it came from**: `s₁` is `s` with the block taken out of one
zone, and that zone is the one `arch_free_page` finds. -/
def Routed (sz : BitVec 32) (page : BitVec 64) (s s₁ : Pmm B) : Prop :=
  ∃ pre z post, s.zones = pre ++ z :: post
    ∧ (ops.malloc z.buddy (sz.signExtend 64)).1 = page
    ∧ s₁.zones = pre ++ { z with buddy := (ops.malloc z.buddy (sz.signExtend 64)).2 } :: post
    ∧ freeInZone ops page s₁.zones = pre ++ { z with
        buddy := ops.free (ops.malloc z.buddy (sz.signExtend 64)).2 page } :: post

/-- The addresses `arch_free_page` takes to be a zone's: up to and with its end. -/
def BuddyZone.Covers (z : BuddyZone B) (page : BitVec 64) : Prop :=
  z.start ≤ page ∧ page ≤ z.start + z.len

end Model

/-! ## The search -/

section Search

variable {B : Type} {ops : Buddy B} {arena : B → Region} {sz : BitVec 32} {page : BitVec 64}

/-- **What the search takes**: a block of one zone, and from the others nothing. -/
theorem BuddyLaw.findFirstFreeBlock (law : BuddyLaw ops arena) {zones : List (BuddyZone B)}
    (h : (findFirstFreeBlock ops sz zones).1 ≠ 0#64) :
    ∃ pre z post, zones = pre ++ z :: post
      ∧ (findFirstFreeBlock ops sz zones).1 = (ops.malloc z.buddy (sz.signExtend 64)).1
      ∧ (findFirstFreeBlock ops sz zones).2
          = pre ++ { z with buddy := (ops.malloc z.buddy (sz.signExtend 64)).2 } :: post := by
  induction zones with
  | nil => exact absurd rfl h
  | cons z zones ih =>
    rw [MoonOS.findFirstFreeBlock] at h ⊢
    by_cases hshort : z.len < sz.signExtend 64
    · simp only [if_pos hshort] at h ⊢
      obtain ⟨pre, z', post, rfl, hblock, hrest⟩ := ih h
      exact ⟨z :: pre, z', post, rfl, hblock, by rw [hrest, List.cons_append]⟩
    · simp only [if_neg hshort] at h ⊢
      by_cases hnull : (ops.malloc z.buddy (sz.signExtend 64)).1 = 0#64
      · simp only [if_pos hnull] at h ⊢
        obtain ⟨pre, z', post, rfl, hblock, hrest⟩ := ih h
        refine ⟨z :: pre, z', post, rfl, hblock, ?_⟩
        rw [hrest, law.refused _ _ hnull, List.cons_append]
      · simp only [if_neg hnull] at h ⊢
        exact ⟨[], z, zones, rfl, rfl, rfl⟩

/-- A search by address passes over zones that do not cover it. -/
theorem freeInZone_append {pre post : List (BuddyZone B)} {z : BuddyZone B}
    (hpre : ∀ a ∈ pre, ¬ a.Covers page) (hz : z.Covers page) :
    freeInZone ops page (pre ++ z :: post)
      = pre ++ { z with buddy := ops.free z.buddy page } :: post := by
  induction pre with
  | nil => exact if_pos hz
  | cons a pre ih =>
    have hrest := ih fun b hb => hpre b (List.mem_cons_of_mem a hb)
    exact (if_neg (hpre a List.mem_cons_self)).trans (congrArg (a :: ·) hrest)

/-- An address in no arena is freed nowhere. -/
theorem BuddyLaw.freeInZone_outside (law : BuddyLaw ops arena) {zones : List (BuddyZone B)}
    (h : ∀ z ∈ zones, page ∉ (arena z.buddy).bytes) : freeInZone ops page zones = zones := by
  induction zones with
  | nil => rfl
  | cons z zones ih =>
    rw [freeInZone, law.outside _ _ (h z List.mem_cons_self),
      ih fun a ha => h a (List.mem_cons_of_mem z ha)]
    exact ite_self _

/-! ## What no call changes -/

/-- Where a zone is, and the arena of its buddy. -/
def zoneShape (arena : B → Region) (z : BuddyZone B) : BitVec 64 × BitVec 64 × Region :=
  (z.start, z.len, arena z.buddy)

theorem BuddyLaw.shape_malloc (law : BuddyLaw ops arena) (z : BuddyZone B) (n : BitVec 64) :
    zoneShape arena { z with buddy := (ops.malloc z.buddy n).2 } = zoneShape arena z := by
  rw [zoneShape, zoneShape, law.arena_malloc]

theorem BuddyLaw.shape_findFirstFreeBlock (law : BuddyLaw ops arena) (zones : List (BuddyZone B)) :
    (MoonOS.findFirstFreeBlock ops sz zones).2.map (zoneShape arena)
      = zones.map (zoneShape arena) := by
  induction zones with
  | nil => rfl
  | cons z zones ih =>
    rw [MoonOS.findFirstFreeBlock]
    by_cases hshort : z.len < sz.signExtend 64
    · simp only [if_pos hshort, List.map_cons, ih]
    · simp only [if_neg hshort]
      split
      · simp only [List.map_cons, ih, law.shape_malloc]
      · simp only [List.map_cons, law.shape_malloc]

theorem BuddyLaw.shape_freeInZone (law : BuddyLaw ops arena) (zones : List (BuddyZone B)) :
    (freeInZone ops page zones).map (zoneShape arena) = zones.map (zoneShape arena) := by
  induction zones with
  | nil => rfl
  | cons z zones ih =>
    rw [freeInZone]
    split
    · rw [List.map_cons, List.map_cons, zoneShape, zoneShape, law.arena_free]
    · rw [List.map_cons, List.map_cons, ih]

/-- **No call moves a zone or its arena.** -/
theorem BuddyLaw.shape_apply (law : BuddyLaw ops arena) {s s' : Pmm B} {call : PmmCall}
    (h : call.apply ops s = some s') :
    s'.zones.map (zoneShape arena) = s.zones.map (zoneShape arena) := by
  cases call with
  | alloc sz =>
    obtain ⟨⟨block, s₁⟩, halloc, rfl⟩ := Option.map_eq_some_iff.mp h
    obtain ⟨lock, -, hpair⟩ := Option.map_eq_some_iff.mp halloc
    dsimp only at hpair
    split at hpair <;> obtain ⟨-, rfl⟩ := Prod.mk.inj hpair <;>
      exact law.shape_findFirstFreeBlock _
  | free page =>
    rw [PmmCall.apply, Pmm.archFreePage] at h
    split at h
    · rw [Option.some.inj h]
    · obtain ⟨lock, -, rfl⟩ := Option.map_eq_some_iff.mp h
      exact law.shape_freeInZone _
  | reserve base len =>
    obtain ⟨lock, -, rfl⟩ := Option.map_eq_some_iff.mp h
    rw [List.map_map]
    refine List.map_congr_left fun z _ => ?_
    rw [Function.comp_apply]
    split
    · rfl
    · rw [zoneShape, zoneShape, law.arena_toggle]

theorem BuddyLaw.shape_reachable (law : BuddyLaw ops arena) {hhdm : BitVec 64} {embed : Zone → B}
    {mmap : List MemmapEntry} {s : Pmm B} (h : PmmReachable ops hhdm embed mmap s) :
    s.zones.map (zoneShape arena)
      = (initPhysAllocator hhdm mmap).map fun z => (z.start, z.len, arena (embed z)) := by
  obtain ⟨calls, hrun⟩ := h
  induction calls using List.reverseRecOn generalizing s with
  | nil =>
    obtain rfl := Option.some.inj hrun
    rw [initPmm, List.map_map]
    rfl
  | append_singleton calls call ih =>
    rw [List.foldlM_append] at hrun
    obtain ⟨s₁, hrun₁, hlast⟩ := Option.bind_eq_some_iff.mp hrun
    have hcall : call.apply ops s₁ = some s := by simpa using hlast
    rw [law.shape_apply hcall, ih hrun₁]

end Search

/-! ## Zones and entries -/

section Entries

variable {B : Type} {ops : Buddy B} {arena : B → Region} {hhdm : BitVec 64} {embed : Zone → B}
  {mmap : List MemmapEntry} {s s₁ : Pmm B} {sz : BitVec 32} {page : BitVec 64}

/-- **No two zones cover one address**: each answers for addresses of its own entry only. -/
theorem UsableOk.pairwise_covers (hmap : UsableOk mmap) (hhdm0 : hhdm.toNat % 4096 = 0)
    (hshape : s.zones.map (zoneShape arena)
      = (initPhysAllocator hhdm mmap).map fun z => (z.start, z.len, arena (embed z))) :
    s.zones.Pairwise fun a b => ∀ x, b.Covers x → ¬ a.Covers x := by
  have htriples : (s.zones.map (zoneShape arena)).Pairwise fun a b =>
      ∀ x, b.1 ≤ x ∧ x ≤ b.1 + b.2.1 → ¬ (a.1 ≤ x ∧ x ≤ a.1 + a.2.1) := by
    rw [hshape, initPhysAllocator, List.map_map, List.pairwise_map]
    have hsub : (mmap.filter MemmapEntry.hasZone).Sublist (mmap.filter (·.type = .usable)) :=
      List.monotone_filter_right mmap fun e he => decide_eq_true (hasZone_usable he)
    refine (hmap.disjoint.sublist hsub).imp_of_mem fun {e u} he hu hbefore x hx hx' => ?_
    obtain ⟨he, hezone⟩ := List.mem_filter.mp he
    obtain ⟨hu, huzone⟩ := List.mem_filter.mp hu
    have hepaged := (hmap.paged e he (hasZone_usable hezone)).1
    have hupaged := (hmap.paged u hu (hasZone_usable huzone)).1
    obtain rfl := hmap.eq_of_mem_span he (hasZone_usable hezone) hu (hasZone_usable huzone)
      (mem_span_of_covered hhdm0 hepaged hezone hx'.1 hx'.2)
      (mem_span_of_covered hhdm0 hupaged huzone hx.1 hx.2)
    have hpos := hepaged.nonempty
    rw [MemmapEntry.Before] at hbefore
    omega
  exact List.pairwise_map.mp htriples

/-- A zone is the zone of an entry, and its buddy's arena is in it. -/
theorem exists_entry_of_mem (hshape : s.zones.map (zoneShape arena)
      = (initPhysAllocator hhdm mmap).map fun z => (z.start, z.len, arena (embed z)))
    (hembed : ∀ z, (arena (embed z)).bytes ⊆ (⟨z.start, z.len.toNat⟩ : Region).bytes)
    {z : BuddyZone B} (hz : z ∈ s.zones) :
    (∃ e ∈ mmap, e.hasZone = true ∧ z.start = (initZone (va hhdm e.base) (e.length - 1#64)).start
        ∧ z.len = (initZone (va hhdm e.base) (e.length - 1#64)).len)
      ∧ (arena z.buddy).bytes ⊆ z.region.bytes := by
  have hmem : zoneShape arena z ∈ s.zones.map (zoneShape arena) := List.mem_map_of_mem hz
  rw [hshape] at hmem
  obtain ⟨z₀, hz₀, heq⟩ := List.mem_map.mp hmem
  obtain ⟨hstart, hlen, harena⟩ : z₀.start = z.start ∧ z₀.len = z.len
      ∧ arena (embed z₀) = arena z.buddy := by simpa [zoneShape] using heq
  obtain ⟨e, he, hzone, rfl⟩ := mem_initPhysAllocator.mp hz₀
  refine ⟨⟨e, he, hzone, hstart.symm, hlen.symm⟩, ?_⟩
  rw [← harena, BuddyZone.region, ← hstart, ← hlen]
  exact hembed _

/-- A zone in the direct map covers its own memory. -/
theorem covers_of_mem_region {e : MemmapEntry} {z : BuddyZone B} (hhdm0 : hhdm.toNat % 4096 = 0)
    (hpaged : e.Paged) (hzone : e.hasZone = true)
    (hdirect : (va hhdm e.base).toNat + e.length.toNat ≤ 2 ^ 64)
    (hstart : z.start = (initZone (va hhdm e.base) (e.length - 1#64)).start)
    (hlen : z.len = (initZone (va hhdm e.base) (e.length - 1#64)).len)
    (hx : page ∈ z.region.bytes) : z.Covers page := by
  have hlong := len_initZone hpaged hzone (va hhdm e.base)
  rw [start_initZone hhdm0 hpaged] at hstart
  rw [← hlen] at hlong
  have hnat : z.start.toNat = (va hhdm e.base).toNat + 4096 := by
    rw [hstart]
    exact toNat_at' (by omega)
  have hoff : (page - z.start).toNat < z.len.toNat := hx
  rw [BitVec.toNat_sub] at hoff
  rw [BuddyZone.Covers, BitVec.le_def, BitVec.le_def, BitVec.toNat_add]
  omega

/-- **Free undoes allocate, across zones.**  From every state of every run, a block that has just
been returned is freed in the zone it came from, which puts everything back as it was; and an
address outside every zone is freed in none.  Usable memory lies in the direct map. -/
theorem archFreePage_archAllocPageSz (law : BuddyLaw ops arena)
    (hembed : ∀ z, (arena (embed z)).bytes ⊆ (⟨z.start, z.len.toNat⟩ : Region).bytes)
    (hmap : UsableOk mmap) (hhdm0 : hhdm.toNat % 4096 = 0)
    (hdirect : ∀ e ∈ mmap, e.hasZone = true → (va hhdm e.base).toNat + e.length.toNat ≤ 2 ^ 64)
    (hs : PmmReachable ops hhdm embed mmap s) :
    (∀ sz page s₁, s.archAllocPageSz ops sz = some (page, s₁) → page ≠ 0#64 →
      Routed ops sz page s s₁ ∧ s₁.archFreePage ops page = some s)
    ∧ ∀ page, (∀ z ∈ s.zones, page ∉ z.region.bytes) →
        ∀ s', s.archFreePage ops page = some s' → s'.zones = s.zones := by
  have hshape := law.shape_reachable hs
  refine ⟨fun sz page s₁ halloc hpage => ?_, fun page hout s' hfree => ?_⟩
  · obtain ⟨lock, hlock, hpair⟩ := Option.map_eq_some_iff.mp halloc
    have hfree := eq_false_of_acquireLock hlock
    -- a block was found, so the call took the last branch and released the lock
    have hblock : (findFirstFreeBlock ops sz s.zones).1 = page
        ∧ s₁ = ⟨false, (findFirstFreeBlock ops sz s.zones).2⟩ := by
      dsimp only at hpair
      split at hpair
      · exact absurd (Prod.mk.inj hpair).1.symm hpage
      · exact ⟨(Prod.mk.inj hpair).1, (Prod.mk.inj hpair).2.symm⟩
    obtain ⟨hptr, rfl⟩ := hblock
    obtain ⟨pre, z, post, hzones, hmalloc, hafter⟩ := law.findFirstFreeBlock (hptr ▸ hpage)
    rw [hptr] at hmalloc
    have hz : z ∈ s.zones := by simp [hzones]
    obtain ⟨⟨e, he, hzone, hstart, hlen⟩, harena⟩ := exists_entry_of_mem hshape hembed hz
    have hcovers : z.Covers page := by
      refine covers_of_mem_region hhdm0 (hmap.paged e he (hasZone_usable hzone)).1 hzone
        (hdirect e he hzone) hstart hlen (harena ?_)
      rw [hmalloc]
      exact law.inside _ _ (hmalloc ▸ hpage)
    have hpre : ∀ a ∈ pre, ¬ a.Covers page := fun a ha => by
      have hpairwise := hmap.pairwise_covers hhdm0 hshape
      rw [hzones, List.pairwise_append] at hpairwise
      exact hpairwise.2.2 a ha z List.mem_cons_self page hcovers
    have hrouted : freeInZone ops page (findFirstFreeBlock ops sz s.zones).2
        = pre ++ { z with
            buddy := ops.free (ops.malloc z.buddy (sz.signExtend 64)).2 page } :: post := by
      rw [hafter]
      exact freeInZone_append hpre hcovers
    refine ⟨⟨pre, z, post, hzones, hmalloc.symm, hafter, hrouted⟩, ?_⟩
    rw [Pmm.archFreePage, if_neg hpage]
    show some (⟨false, freeInZone ops page (findFirstFreeBlock ops sz s.zones).2⟩ : Pmm B) = some s
    rw [hrouted, hmalloc, law.undo _ _ (hmalloc ▸ hpage), ← hzones, ← hfree]
  · rw [Pmm.archFreePage] at hfree
    split at hfree
    · rw [Option.some.inj hfree]
    · obtain ⟨lock, -, rfl⟩ := Option.map_eq_some_iff.mp hfree
      exact law.freeInZone_outside fun z hz hin =>
        hout z hz ((exists_entry_of_mem hshape hembed hz).2 hin)

end Entries

/-! ### A buddy that keeps the law -/

/-- A buddy that hands out single pages: its memory, and the pages it has left. -/
structure PageStack where
  region : Region
  pages : List (BitVec 64)
  inside : ∀ p ∈ pages, p ≠ 0#64 ∧ (p - region.ptr).toNat < region.len

/-- The first page is handed out, and comes back as the first. -/
def pageStackBuddy : Buddy PageStack where
  malloc b _ :=
    match b with
    | ⟨region, [], h⟩ => (0#64, ⟨region, [], h⟩)
    | ⟨region, page :: pages, h⟩ => (page, ⟨region, pages, fun p hp => h p (by simp [hp])⟩)
  free b page :=
    if h : page ≠ 0#64 ∧ (page - b.region.ptr).toNat < b.region.len then
      ⟨b.region, page :: b.pages, List.forall_mem_cons.mpr ⟨h, b.inside⟩⟩
    else b
  toggleRangeReservation b _ _ := b

theorem buddyLaw_pageStackBuddy : BuddyLaw pageStackBuddy PageStack.region where
  arena_malloc b sz := by
    obtain ⟨region, pages, h⟩ := b
    cases pages <;> rfl
  arena_free b page := by
    simp only [pageStackBuddy]
    split <;> rfl
  arena_toggle b base len := rfl
  inside b sz hne := by
    obtain ⟨region, pages, h⟩ := b
    cases pages with
    | nil => exact absurd rfl hne
    | cons page pages => exact (h page List.mem_cons_self).2
  refused b sz hnull := by
    obtain ⟨region, pages, h⟩ := b
    cases pages with
    | nil => rfl
    | cons page pages => exact absurd hnull (h page List.mem_cons_self).1
  undo b sz hne := by
    obtain ⟨region, pages, h⟩ := b
    cases pages with
    | nil => exact absurd rfl hne
    | cons page pages => exact dif_pos (h page List.mem_cons_self)
  outside b page hout := dif_neg fun h => hout h.2

/-- `buddy_embed` for it: the first page of the zone, if there is one. -/
def embedPage (z : Zone) : PageStack :=
  if h : z.start ≠ 0#64 ∧ 0 < z.len.toNat then
    ⟨⟨z.start, z.len.toNat⟩, [z.start], List.forall_mem_singleton.mpr (by
      rw [BitVec.sub_self]
      exact h)⟩
  else ⟨⟨z.start, z.len.toNat⟩, [], by simp⟩

theorem region_embedPage (z : Zone) : (embedPage z).region = ⟨z.start, z.len.toNat⟩ := by
  rw [embedPage]
  split <;> rfl

/-- The page of the first zone, taken and given back. -/
theorem archFreePage_twoZones : ∃ page s₁,
    (initPmm 0xffff800000000000#64 embedPage twoZones).archAllocPageSz pageStackBuddy 4096#32
        = some (page, s₁)
      ∧ page = 0xffff800000101000#64
      ∧ s₁.archFreePage pageStackBuddy page
          = some (initPmm 0xffff800000000000#64 embedPage twoZones) := by
  obtain ⟨hundo, -⟩ := archFreePage_archAllocPageSz buddyLaw_pageStackBuddy
    (fun z => by rw [region_embedPage]) usableOk_twoZones
    (show (0xffff800000000000#64).toNat % 4096 = 0 by decide) (by decide)
    (s := initPmm 0xffff800000000000#64 embedPage twoZones) ⟨[], rfl⟩
  exact ⟨_, _, rfl, rfl, (hundo 4096#32 _ _ rfl (by decide)).2⟩

/-! ## What is cleared -/

/-- The length of the block `buddy_malloc` answers a request with: `depth_for_size` goes to the
least power of two that is enough, and not below the alignment. -/
def slotSize (n : ℕ) : ℕ := 2 ^ Nat.clog 2 (max n 64)

section Clear

variable {B : Type} (ops : Buddy B)

/-- `arch_alloc_page_sz` with the memory it clears.  `m` is memory as `find_first_free_block` leaves
it, with the bookkeeping of the buddies done. -/
def Pmm.archAllocPageSzOn (sz : BitVec 32) (s : Pmm B) (m : Mem) :
    Option (BitVec 64 × Pmm B × Mem) :=
  (s.archAllocPageSz ops sz).map fun (block, s) =>
    (block, s, if block = 0#64 then m else memset m block 0#8 pageSize)

/-- **A block is clean on return, and no other byte has been written**, whatever was in memory. -/
def AllocClean (sz : BitVec 32) (s : Pmm B) : Prop :=
  ∀ m block s' m', s.archAllocPageSzOn ops sz m = some (block, s', m') → block ≠ 0#64 →
    (∀ i < sz.toNat, m' (at' block i) = 0#8)
      ∧ ∀ x, x ∉ (⟨block, slotSize sz.toNat⟩ : Region).bytes → m' x = m x

variable {ops} {sz : BitVec 32} {s : Pmm B}

theorem slotSize_le {n k : ℕ} (h : max n 64 ≤ 2 ^ k) : slotSize n ≤ 2 ^ k :=
  Nat.pow_le_pow_right (by decide) (Nat.clog_le_of_le_pow h)

/-- A request from half a page to a page is met with a page. -/
theorem slotSize_eq_page {n : ℕ} (h : 2048 < n) (h' : n ≤ 4096) : slotSize n = 2 ^ 12 := by
  have hle : Nat.clog 2 (max n 64) ≤ 12 := Nat.clog_le_of_le_pow (by omega)
  have hlt : 11 < Nat.clog 2 (max n 64) :=
    (Nat.lt_clog_iff_pow_lt (by decide)).mpr (by omega)
  rw [slotSize, show Nat.clog 2 (max n 64) = 12 by omega]

/-- A call that returns a block has had the lock, and a zone has had the block. -/
theorem archAllocPageSzOn_of_ne {m m' : Mem} {block : BitVec 64} {s' : Pmm B}
    (h : s.archAllocPageSzOn ops sz m = some (block, s', m')) (hne : block ≠ 0#64) :
    s.lock = false ∧ s.HasBlock ops sz ∧ m' = fill m block 4096 0#8 := by
  obtain ⟨⟨p, s₁⟩, halloc, hpair⟩ := Option.map_eq_some_iff.mp h
  obtain ⟨rfl, -, rfl⟩ : p = block ∧ s₁ = s' ∧ _ = m' := by simpa using hpair
  obtain ⟨lock, hlock, hfound⟩ := Option.map_eq_some_iff.mp halloc
  refine ⟨eq_false_of_acquireLock hlock, findFirstFreeBlock_ne_zero.mp fun hnull => hne ?_, ?_⟩
  · simp only [if_pos hnull] at hfound
    exact (Prod.mk.inj hfound).1.symm
  · rw [if_neg hne, memset_eq_fill, pageSize]

/-- …and with both, it returns one, its first page cleared. -/
theorem archAllocPageSzOn_of_hasBlock (hlock : s.lock = false) (hblock : s.HasBlock ops sz)
    (m : Mem) : ∃ block s', block ≠ 0#64
      ∧ s.archAllocPageSzOn ops sz m = some (block, s', fill m block 4096 0#8) := by
  have hne := findFirstFreeBlock_ne_zero.mpr hblock
  refine ⟨(findFirstFreeBlock ops sz s.zones).1,
    ⟨false, (findFirstFreeBlock ops sz s.zones).2⟩, hne, ?_⟩
  rw [Pmm.archAllocPageSzOn, Pmm.archAllocPageSz, acquireLock, hlock, Option.map_map,
    if_neg (by decide), Option.map_some]
  simp only [Function.comp, if_neg hne, memset_eq_fill, pageSize, releaseLock]

/-- **A block is clean and nothing else is written exactly when a page was asked for**, or what is
rounded up to one: less, and the clearing runs over the end of the block; more, and it stops
short. -/
theorem allocClean_iff (ops : Buddy B) (sz : BitVec 32) (s : Pmm B) :
    AllocClean ops sz s
      ↔ (s.lock = false → s.HasBlock ops sz → 2048 < sz.toNat ∧ sz.toNat ≤ 4096) := by
  constructor
  · intro hclean hlock hblock
    obtain ⟨block, s', hne, hrun⟩ := archAllocPageSzOn_of_hasBlock hlock hblock fun _ => 0xff#8
    obtain ⟨hzero, hframe⟩ := hclean _ block s' _ hrun hne
    have hoff : ∀ i ≤ 4096, (at' block i - block).toNat = i := fun i hi =>
      toNat_at'_sub block (by omega)
    constructor
    · by_contra hshort
      -- the byte half a page in is outside the block, and has been cleared
      have hslot := slotSize_le (n := sz.toNat) (k := 11) (by omega)
      have hout : at' block 2048 ∉ (⟨block, slotSize sz.toNat⟩ : Region).bytes := fun hin => by
        have hin' : (at' block 2048 - block).toNat < slotSize sz.toNat := hin
        rw [hoff 2048 (by decide)] at hin'
        omega
      have hbyte := hframe _ hout
      rw [fill, if_pos (by rw [hoff 2048 (by decide)]; decide)] at hbyte
      exact absurd hbyte (by decide)
    · by_contra hlong
      have hbyte := hzero 4096 (by omega)
      rw [fill, if_neg (by rw [hoff 4096 (by decide)]; decide)] at hbyte
      exact absurd hbyte (by decide)
  · intro hpage m block s' m' hrun hne
    obtain ⟨hlock, hblock, rfl⟩ := archAllocPageSzOn_of_ne hrun hne
    obtain ⟨hlo, hhi⟩ := hpage hlock hblock
    refine ⟨fun i hi => ?_, fun x hx => ?_⟩
    · rw [fill, if_pos (by rw [toNat_at'_sub block (by omega)]; omega)]
    · have hout : ¬(x - block).toNat < slotSize sz.toNat := hx
      rw [slotSize_eq_page hlo hhi] at hout
      exact if_neg (by omega)

end Clear

/-! ## The page allocator of `Mm/Virt` -/

section Over

variable {B : Type} (ops : Buddy B)

/-- What the zones answer to so many requests for a page. -/
def pagesOf : ℕ → List (BuddyZone B) → List (BitVec 64)
  | 0, _ => []
  | n + 1, zones =>
    let (block, zones) := findFirstFreeBlock ops 4096#32 zones
    block :: pagesOf n zones

/-- A `Vm` over the page allocator: it has its lock, and its next answers. -/
structure Vm.Over (n : ℕ) (s : Pmm B) (vm : Vm) : Prop where
  lock : vm.pmmLock = s.lock
  frames : vm.frames = pagesOf ops n s.zones

variable {ops} {n : ℕ} {s : Pmm B} {vm : Vm}

/-- **A page of the one is a page of the other**: both spin, or both come back with the same page,
the same memory and the same lock. -/
theorem archAllocPage_over (h : vm.Over ops (n + 1) s) :
    archAllocPage vm = none ∧ s.archAllocPageSzOn ops 4096#32 vm.mem = none
      ∨ ∃ block vm' s', archAllocPage vm = some (block, vm')
        ∧ s.archAllocPageSzOn ops 4096#32 vm.mem = some (block, s', vm'.mem)
        ∧ vm'.Over ops n s' := by
  have hhead : vm.frames.headD 0#64 = (findFirstFreeBlock ops 4096#32 s.zones).1 := by
    rw [h.frames]
    rfl
  have htail : vm.frames.tail = pagesOf ops n (findFirstFreeBlock ops 4096#32 s.zones).2 := by
    rw [h.frames]
    rfl
  rw [archAllocPage_eq, Pmm.archAllocPageSzOn, Pmm.archAllocPageSz, acquireLock, h.lock, hhead]
  split_ifs with hlock hnull
  · exact .inl ⟨rfl, rfl⟩
  · exact .inr ⟨_, _, ⟨true, _⟩, rfl, by simp [hnull, Vm.refused], rfl, htail⟩
  · refine .inr ⟨_, _, ⟨false, _⟩, rfl, ?_, by simpa [h.lock, Vm.served] using hlock, htail⟩
    rw [Vm.served, hhead]
    simp [hnull, releaseLock]

end Over

/-- The page allocator over 1 GiB of memory. -/
def gibLeft : Pmm Unit :=
  initPmm 0xffff800000000000#64 (fun _ => ()) [⟨0x1000#64, 0x40001000#64, .usable⟩]

/-- A buddy that answers every request with the first byte of its arena. -/
def firstByteBuddy : Buddy Unit where
  malloc b _ := (0xffff800000002000#64, b)
  free b _ := b
  toggleRangeReservation b _ _ := b

/-- **The 512 MiB `alloc_init` asks for keep what was in them behind the first page**, and a request
of 64 bytes clears a page, 4032 bytes of which are not its own. -/
theorem not_allocClean_gibLeft :
    (∃ s' m', gibLeft.archAllocPageSzOn firstByteBuddy 0x20000000#32 (fun _ => 0xff#8)
        = some (0xffff800000002000#64, s', m') ∧ m' (at' 0xffff800000002000#64 4096) = 0xff#8)
      ∧ ∃ s' m', gibLeft.archAllocPageSzOn firstByteBuddy 64#32 (fun _ => 0xff#8)
          = some (0xffff800000002000#64, s', m')
        ∧ at' 0xffff800000002000#64 64 ∉ (⟨0xffff800000002000#64, slotSize 64⟩ : Region).bytes
        ∧ m' (at' 0xffff800000002000#64 64) = 0#8 := by
  have hslot : slotSize 64 ≤ 2 ^ 6 := slotSize_le (by decide)
  have hout : at' 0xffff800000002000#64 64
      ∉ (⟨0xffff800000002000#64, slotSize 64⟩ : Region).bytes := fun hin => by
    have hin' : (at' 0xffff800000002000#64 64 - 0xffff800000002000#64).toNat < slotSize 64 := hin
    rw [toNat_at'_sub _ (by decide)] at hin'
    omega
  refine ⟨⟨_, _, rfl, ?_⟩, _, _, rfl, hout, ?_⟩
  · rw [if_neg (by decide), memset_eq_fill]
    exact if_neg (by decide)
  · rw [if_neg (by decide), memset_eq_fill]
    exact if_pos (by decide)

end MoonOS

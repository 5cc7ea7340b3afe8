import MoonOS.Mm.SlabOverlap

/-!
# Mm/SlabDestroy — what `kmem_cache_destroy` gives back

`kmem_cache_destroy` calls `arch_free_page` for every object on the free lists, of which the first
of a page is the page, and for the cache.  So it gives a page back if its slab is on the cache's
list and all its objects are on their list.

* `CacheAt.kmemCacheDestroy` — what it frees of a cache that is in order;
* `exists_not_destroyReturnsAll` — where the headers of the objects do not fit, a cache just made is
  not given back;
* `pagesTaken_slabCacheGrow`, `keeps_slabCacheGrow` — the pages there are to give back, and the
  refusal behind which `pmm_lock` is held and none can be.
-/

namespace MoonOS

open ByteMemory

/-! ## `kmem_cache_destroy` -/

/-- `list_foreach(bufctl, next, slab->freelist) arch_free_page((void *)bufctl);`: the addresses
passed, `none` when the list does not end. -/
def freeBufctls (m : Mem) : ℕ → BitVec 64 → Option (List (BitVec 64))
  | 0, _ => none
  | fuel + 1, bufctl =>
    if bufctl = 0#64 then some []
    else (freeBufctls m fuel (load m bufctl 8)).map (bufctl :: ·)

/-- The loop of `kmem_cache_destroy` over the slabs. -/
def destroySlabs (m : Mem) : ℕ → BitVec 64 → Option (List (BitVec 64))
  | 0, _ => none
  | fuel + 1, slab =>
    if slab = 0#64 then some []
    else if load m (at' slab 24) 4 ≠ 0#32 then none -- "Tried to destroy slab …"
    else
      (freeBufctls m (2 ^ 64) (load m (at' slab 16) 8)).bind fun freed =>
        (destroySlabs m fuel (load m slab 8)).map (freed ++ ·)

/-- `kmem_cache_destroy`: the addresses it calls `arch_free_page` with, and the memory.  At the
first of these calls, and there is one for the cache itself, `acquire_lock(&pmm_lock)` spins if the
lock is held. -/
def kmemCacheDestroy (cache : BitVec 64) (s : Vm) : Option (List (BitVec 64) × Vm) :=
  if cache = 0#64 then some ([], s)
  else
    (destroySlabs s.mem (2 ^ 64) (load s.mem (at' cache 16) 8)).bind fun freed =>
      if s.pmmLock then none
      else some (freed ++ [cache], { s with mem := memset s.mem cache 0#8 24 })

/-- **Destroying the cache returns all its pages**: it comes back and does not panic, the page of
the cache and each page it took are freed once and no page anyone else holds is, so the pages handed
out are again those that were before.  Freeing what is no page handed out is ignored. -/
def DestroyReturnsAll (held : List (BitVec 64)) (cache : BitVec 64) (t : SlabState) : Prop :=
  ∃ freed vm, kmemCacheDestroy cache t.vm = some (freed, vm)
    ∧ (∀ p ∈ cache :: t.pages, freed.count p = 1) ∧ (∀ p ∈ held, p ∉ freed)
    ∧ ((cache :: t.pages) ++ held).diff freed = held

section Destroy

variable {n fuel : ℕ} {cache a size : BitVec 64} {alignment : BitVec 32} {m : Mem} {s : Vm}
  {slabs : List SlabView} {l freed : List (BitVec 64)}

theorem freeBufctls_of_linked (h : Linked m a l) (hfuel : l.length < fuel) :
    freeBufctls m fuel a = some l := by
  induction l generalizing a fuel with
  | nil =>
    obtain ⟨fuel, rfl⟩ : ∃ f, fuel = f + 1 := ⟨fuel - 1, by omega⟩
    obtain rfl := h
    rw [freeBufctls, if_pos rfl]
  | cons b l ih =>
    obtain ⟨rfl, hb, hrest⟩ := h
    rw [List.length_cons] at hfuel
    obtain ⟨fuel, rfl⟩ : ∃ f, fuel = f + 1 := ⟨fuel - 1, by omega⟩
    rw [freeBufctls, if_neg hb, ih hrest (by omega), Option.map_some]

theorem destroySlabs_of_linked (h : Linked m a (slabs.map SlabView.addr))
    (hslab : ∀ v ∈ slabs, SlabAt m v) (hlen : ∀ v ∈ slabs, v.free.length < 2 ^ 64)
    (hfuel : slabs.length < fuel) : destroySlabs m fuel a
      = if ∀ v ∈ slabs, v.refcount = 0#32 then some (slabs.flatMap SlabView.free) else none := by
  induction slabs generalizing a fuel with
  | nil =>
    obtain ⟨fuel, rfl⟩ : ∃ f, fuel = f + 1 := ⟨fuel - 1, by omega⟩
    obtain rfl := h
    simp [destroySlabs]
  | cons v slabs ih =>
    obtain ⟨rfl, hv, hrest⟩ := h
    rw [List.length_cons] at hfuel
    obtain ⟨fuel, rfl⟩ : ∃ f, fuel = f + 1 := ⟨fuel - 1, by omega⟩
    have hat := hslab v List.mem_cons_self
    have hcount : load m (at' v.addr 24) 4 = v.refcount := by
      rw [SlabView.addr, at'_at']
      exact hat.refcount
    have hfree : freeBufctls m (2 ^ 64) (load m (at' v.addr 16) 8) = some v.free := by
      rw [SlabView.addr, at'_at']
      exact freeBufctls_of_linked hat.freelist (hlen v List.mem_cons_self)
    rw [destroySlabs, if_neg hv, hcount, hfree, Option.bind_some,
      ih hrest (fun u hu => hslab u (List.mem_cons_of_mem v hu))
        (fun u hu => hlen u (List.mem_cons_of_mem v hu)) (by omega)]
    by_cases h0 : v.refcount = 0#32 <;> by_cases hall : ∀ u ∈ slabs, u.refcount = 0#32 <;>
      simp [h0, hall]

/-- **What destroying a cache gives back**: the objects on the free lists and the cache, unless a
slab counts objects handed out, or `pmm_lock` is held. -/
theorem CacheAt.kmemCacheDestroy (h : CacheAt n cache s.mem slabs)
    (hshape : CacheShape n cache slabs) (hlen : ∀ v ∈ slabs, v.free.length < 2 ^ 64) :
    MoonOS.kmemCacheDestroy cache s
      = if s.pmmLock = false ∧ ∀ v ∈ slabs, v.refcount = 0#32
        then some (slabs.flatMap SlabView.free ++ [cache],
          { s with mem := memset s.mem cache 0#8 24 })
        else none := by
  rw [MoonOS.kmemCacheDestroy, if_neg hshape.cachePage.ne_zero,
    destroySlabs_of_linked h.nodes h.slab hlen hshape.length_lt]
  by_cases hzero : ∀ v ∈ slabs, v.refcount = 0#32
  · rw [if_pos hzero, Option.bind_some]
    by_cases hlock : s.pmmLock = true
    · rw [if_pos hlock, if_neg fun h => Bool.false_ne_true (h.1.symm.trans hlock)]
    · rw [if_neg hlock, if_pos ⟨by simpa using hlock, hzero⟩]
  · rw [if_neg hzero, if_neg fun h => hzero h.2, Option.bind_none]

/-- A free list that is freed ends… -/
theorem linked_of_freeBufctls (h : freeBufctls m fuel a = some l) : Linked m a l := by
  induction fuel generalizing a l with
  | zero => cases h
  | succ fuel ih =>
    rw [freeBufctls] at h
    split at h
    · obtain rfl := Option.some.inj h
      assumption
    · obtain ⟨rest, hrest, rfl⟩ := Option.map_eq_some_iff.mp h
      exact ⟨rfl, ‹_›, ih hrest⟩

/-- …and so do slabs that are destroyed, each of which counted no objects. -/
theorem walk_of_destroySlabs (h : destroySlabs m fuel a = some freed) :
    ∃ walk, SlabWalk m a walk ∧ freed = walk.flatMap Prod.snd := by
  induction fuel generalizing a freed with
  | zero => cases h
  | succ fuel ih =>
    rw [destroySlabs] at h
    split at h
    · obtain rfl := Option.some.inj h
      exact ⟨[], ⟨‹_›, by simp, by simp⟩, rfl⟩
    · rename_i ha
      split at h
      · cases h
      · rename_i hcount
        obtain ⟨free, hfree, hrest⟩ := Option.bind_eq_some_iff.mp h
        obtain ⟨freed, hslabs, rfl⟩ := Option.map_eq_some_iff.mp hrest
        obtain ⟨walk, hwalk, rfl⟩ := ih hslabs
        exact ⟨(a, free) :: walk, hwalk.cons ha (not_not.mp hcount) (linked_of_freeBufctls hfree),
          rfl⟩

/-- **Where the headers do not fit, a cache just made is not given back.** -/
theorem exists_not_destroyReturnsAll (hsize : objectSize size alignment = n) (hn : 1 ≤ n)
    (hn' : n ≤ 512) (hfit : ¬ HeadersFit n) : ∃ s cache s₀, CacheMade size alignment [] s cache s₀
      ∧ s₀.pmmLock = false ∧ ¬ DestroyReturnsAll [] cache (madeState s cache s₀) := by
  obtain ⟨m, hmade, hbroken⟩ := exists_walk_broken hsize hn hn' hfit
  refine ⟨_, _, _, hmade, rfl, ?_⟩
  rintro ⟨freed, m', hdestroy, hcount, -⟩
  rw [kmemCacheDestroy, if_neg hmade.ne_zero] at hdestroy
  obtain ⟨freed, hslabs, heq⟩ := Option.bind_eq_some_iff.mp hdestroy
  obtain ⟨rfl, -⟩ := Prod.mk.inj (Option.some.inj heq)
  obtain ⟨walk, hwalk, rfl⟩ := walk_of_destroySlabs hslabs
  obtain rfl := hbroken walk hwalk
  have hpages : (madeState ⟨fun _ => 0xff#8, [highPage 1, highPage 2], false⟩ (highPage 1)
      ⟨m, [], false⟩).pages = [highPage 2] := by
    show ([highPage 1, highPage 2].filter (· ≠ 0#64)).erase (highPage 1) = [highPage 2]
    decide
  exact absurd (hcount (highPage 2) (by rw [hpages]; simp)) (by decide)

end Destroy

/-! ## Pages taken -/

section Taken

variable {cache p : BitVec 64} {count : ℕ} {s s' : Vm} {m : Mem} {fs used : List (BitVec 64)}
  {b : Bool}

/-- A page taken before the others. -/
theorem pagesTaken_cons (m m' : Mem) {lock lock' : Bool} (hp : p ≠ 0#64)
    (hsuffix : s'.frames <:+ fs) :
    pagesTaken ⟨m, p :: fs, lock⟩ s' = p :: pagesTaken ⟨m', fs, lock'⟩ s' := by
  have hle := hsuffix.length_le
  rw [pagesTaken, pagesTaken, List.length_cons,
    show fs.length + 1 - s'.frames.length = fs.length - s'.frames.length + 1 by omega,
    List.take_succ_cons, List.filter_cons_of_pos (by simpa using hp)]

/-- Without a page none is taken. -/
theorem pagesTaken_refused (h : s.frames.headD 0#64 = 0#64) (hs' : s'.frames = s.frames.tail) :
    pagesTaken s s' = [] := by
  obtain ⟨m, frames, lock⟩ := s
  cases frames with
  | nil => simp [pagesTaken, hs']
  | cons p fs =>
    obtain rfl : p = 0#64 := h
    rw [pagesTaken, hs']
    simp

/-- `create_slab` takes one page, and leaves the lock free. -/
theorem createSlab_frames {slab : BitVec 64} (hp : PageStart p)
    (h : createSlab cache ⟨m, p :: fs, false⟩ = some (slab, s')) :
    slab ≠ 0#64 ∧ s'.frames = fs ∧ s'.pmmLock = false := by
  have hslab : p + 4096#64 - 32#64 ≠ 0#64 := by
    rw [show p + 4096#64 - 32#64 = at' p 4064 by grind]
    exact hp.at_ne_zero (by decide)
  rw [createSlab, archAllocPage, if_neg Bool.false_ne_true] at h
  simp only [if_neg hp.ne_zero, Option.bind_some] at h
  split at h
  · obtain ⟨rfl, rfl⟩ := Prod.mk.inj (Option.some.inj h)
    exact ⟨hslab, rfl, rfl⟩
  · obtain ⟨tail, -, heq⟩ := Option.map_eq_some_iff.mp h
    obtain ⟨rfl, rfl⟩ := Prod.mk.inj heq
    exact ⟨hslab, rfl, rfl⟩

/-- **The pages `slab_cache_grow` takes**: as many as it is asked for, up to the first refusal. -/
theorem pagesTaken_slabCacheGrow (hfresh : FreshPages s.frames used)
    (h : slabCacheGrow cache count s = some (b, s')) : s'.frames <:+ s.frames
      ∧ pagesTaken s s' = (s.frames.take count).takeWhile (· ≠ 0#64) := by
  induction count generalizing s with
  | zero =>
    obtain ⟨-, rfl⟩ := Prod.mk.inj (Option.some.inj h)
    exact ⟨List.suffix_rfl, by simp [pagesTaken]⟩
  | succ count ih =>
    obtain ⟨m, frames, lock⟩ := s
    obtain rfl : lock = false := pmmLock_of_slabCacheGrow h
    by_cases hhead : frames.headD 0#64 = 0#64
    · rw [slabCacheGrow_refused rfl hhead] at h
      obtain ⟨-, rfl⟩ := Prod.mk.inj (Option.some.inj h)
      refine ⟨List.tail_suffix _, (pagesTaken_refused hhead rfl).trans ?_⟩
      cases frames with
      | nil => simp
      | cons p fs =>
        obtain rfl : p = 0#64 := hhead
        simp
    · obtain ⟨p, fs, rfl, hp, -⟩ := hfresh.head hhead
      rw [slabCacheGrow] at h
      obtain ⟨⟨slab, s₁⟩, hcreate, hrest⟩ := Option.bind_eq_some_iff.mp h
      obtain ⟨hslab, hfs, hlock⟩ := createSlab_frames hp hcreate
      obtain ⟨m₁, fs₁, lock₁⟩ := s₁
      obtain rfl : fs₁ = fs := hfs
      obtain rfl : lock₁ = false := hlock
      simp only [if_neg hslab] at hrest
      split at hrest
      · cases hrest
      · obtain ⟨hsuffix, htaken⟩ := ih (by exact hfresh.tail) hrest
        refine ⟨hsuffix.trans (List.suffix_cons p _), ?_⟩
        rw [pagesTaken_cons m _ hp.ne_zero hsuffix, htaken, List.take_succ_cons,
          List.takeWhile_cons_of_pos (by simpa using hp.ne_zero)]

/-- **Growing that is asked for a page takes one or leaves the lock held.** -/
theorem keeps_slabCacheGrow (hfresh : FreshPages s.frames used)
    (h : slabCacheGrow cache count s = some (b, s')) :
    pagesTaken s s' = [] ∧ s'.pmmLock = false ↔ count = 0 ∧ s.pmmLock = false := by
  cases count with
  | zero =>
    obtain ⟨-, rfl⟩ := Prod.mk.inj (Option.some.inj h)
    simp [pagesTaken]
  | succ count =>
    refine iff_of_false ?_ (fun h0 => Nat.succ_ne_zero count h0.1)
    rintro ⟨hnil, hlock⟩
    obtain ⟨m, frames, lock⟩ := s
    obtain rfl : lock = false := pmmLock_of_slabCacheGrow h
    by_cases hhead : frames.headD 0#64 = 0#64
    · rw [slabCacheGrow_refused rfl hhead] at h
      obtain ⟨-, rfl⟩ := Prod.mk.inj (Option.some.inj h)
      exact Bool.false_ne_true hlock.symm
    · obtain ⟨p, fs, rfl, hp, -⟩ := hfresh.head hhead
      rw [(pagesTaken_slabCacheGrow hfresh h).2, List.take_succ_cons,
        List.takeWhile_cons_of_pos (by simpa using hp.ne_zero)] at hnil
      cases hnil

end Taken

end MoonOS

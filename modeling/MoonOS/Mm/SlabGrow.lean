import MoonOS.Mm.SlabLayout

/-!
# Mm/SlabGrow — a cache that has a slab gets no other

`create_slab` appends by setting the last slab's link and then clears that link again, so a page
given to a cache that has slabs is lost: `WritesFresh`, nothing but the pages handed out changes.

* `cacheGrowth_iff` — `slab_cache_grow` does what it says for the first page of a cache only, and
  there only if the objects' headers fit; `kmem_cache_alloc` on a full cache takes every page there
  is and returns null.
-/

namespace MoonOS

open ByteMemory

/-! ## Pages that are lost -/

/-- **Nothing but the pages handed out in between has changed**; and `pmm_lock`, once held, is not
released. -/
structure WritesFresh (s s' : Vm) : Prop where
  suffix : s'.frames <:+ s.frames
  locked : s'.pmmLock = false → s.pmmLock = false
  same : ∀ q, PageStart q → q ∉ s.frames → ∀ j k, j + k ≤ 4096 →
    load s'.mem (at' q j) k = load s.mem (at' q j) k

section Lost

variable {cache p q : BitVec 64} {flags : BitVec 32} {n count fuel : ℕ} {m : Mem} {s s' s'' : Vm}
  {fs used frames : List (BitVec 64)} {slabs : List SlabView} {b : Bool}

theorem WritesFresh.refl (s : Vm) : WritesFresh s s :=
  ⟨List.suffix_rfl, id, fun _ _ _ _ _ _ => rfl⟩

theorem WritesFresh.refused (s : Vm) : WritesFresh s s.refused :=
  ⟨List.tail_suffix _, fun h => absurd h.symm Bool.false_ne_true, fun _ _ _ _ _ _ => rfl⟩

theorem WritesFresh.trans (h : WritesFresh s s') (h' : WritesFresh s' s'') : WritesFresh s s'' where
  suffix := h'.suffix.trans h.suffix
  locked h'' := h.locked (h'.locked h'')
  same q hq hout j k hj := by
    rw [h'.same q hq (fun hmem => hout (h.suffix.subset hmem)) j k hj, h.same q hq hout j k hj]

theorem FreshPages.suffix (h : FreshPages frames used) (hfs : fs <:+ frames) :
    FreshPages fs used where
  page f hf := h.page f (hfs.subset hf)
  unused f hf := h.unused f (hfs.subset hf)
  distinct := h.distinct.sublist (hfs.sublist.filter _)

theorem FreshPages.not_mem (h : FreshPages frames used) (hq : q ∈ used) (hq0 : q ≠ 0#64) :
    q ∉ frames := fun hmem => h.unused q hmem hq0 hq

/-- **A cache that is in order stays so** while pages are lost. -/
theorem CacheAt.of_writesFresh (h : CacheAt n cache s.mem slabs) (hshape : CacheShape n cache slabs)
    (hn : 1 ≤ n) (hfresh : FreshPages s.frames (cache :: slabs.map SlabView.page))
    (hw : WritesFresh s s') : CacheAt n cache s'.mem slabs := by
  refine h.congr hshape hn fun q hq => ?_
  have hstart := hshape.pageStart hq
  exact hw.same q hstart (hfresh.not_mem hq hstart.ne_zero)

/-- A page given to a cache that has slabs is the only thing written. -/
theorem sameOutside_grownMem (hn : 1 ≤ n) (hn' : n ≤ 512) (h : load m (at' cache 16) 8 ≠ 0#64) :
    SameOutside p 4096 m (grownMem n cache p m) := by
  rw [grownMem, if_neg h]
  exact (sameOutside_createdPage p m).trans (sameOutside_linkedPage hn hn' p _)

/-- No page, no slab; and `pmm_lock` stays held. -/
theorem slabCacheGrow_refused (hlock : s.pmmLock = false) (h : s.frames.headD 0#64 = 0#64) :
    slabCacheGrow cache (count + 1) s = some (false, s.refused) := by
  rw [slabCacheGrow, createSlab, archAllocPage_refused hlock h]
  rfl

/-- Growing takes the lock. -/
theorem pmmLock_of_slabCacheGrow {r : Bool × Vm}
    (hgrow : slabCacheGrow cache (count + 1) s = some r) : s.pmmLock = false := by
  by_contra hlock
  rw [slabCacheGrow, createSlab, archAllocPage, if_pos (by simpa using hlock)] at hgrow
  cases hgrow

/-- **Whatever its list looks like, a cache that has slabs loses every page it is given**, and takes
as many as it is asked to or all there are. -/
theorem writesFresh_slabCacheGrow (hn : 1 ≤ n) (hn' : n ≤ 512) (hcache : PageStart cache)
    (hsize : load s.mem (at' cache 0) 4 = BitVec.ofNat 32 n)
    (hobjs : load s.mem (at' cache 4) 4 = 4072#32) (hnodes : load s.mem (at' cache 16) 8 ≠ 0#64)
    (hfresh : FreshPages s.frames [cache]) (hgrow : slabCacheGrow cache count s = some (b, s')) :
    WritesFresh s s' := by
  induction count generalizing s with
  | zero =>
    obtain ⟨-, rfl⟩ := Prod.mk.inj (Option.some.inj hgrow)
    exact WritesFresh.refl s
  | succ count ih =>
    obtain ⟨m, frames, lock⟩ := s
    obtain rfl : lock = false := pmmLock_of_slabCacheGrow hgrow
    by_cases hhead : frames.headD 0#64 = 0#64
    · rw [slabCacheGrow_refused rfl hhead] at hgrow
      obtain ⟨-, rfl⟩ := Prod.mk.inj (Option.some.inj hgrow)
      exact WritesFresh.refused _
    · obtain ⟨p, fs, rfl, hp, hout, -⟩ := hfresh.head hhead
      have hne : cache ≠ p := fun h => hout (List.mem_singleton.mpr h.symm)
      rw [slabCacheGrow_page hn hn' hcache hp hne hsize hobjs] at hgrow
      obtain ⟨-, -, hrest⟩ := Option.bind_eq_some_iff.mp hgrow
      have hsame := sameOutside_grownMem (p := p) hn hn' hnodes
      have hword : ∀ q, PageStart q → q ≠ p → ∀ j k, j + k ≤ 4096 →
          load (grownMem n cache p m) (at' q j) k = load m (at' q j) k :=
        fun q hq hqp j k hj => load_of_sameOutside hsame hp hq hqp hj
      have hround : WritesFresh ⟨m, p :: fs, false⟩ ⟨grownMem n cache p m, fs, false⟩ :=
        ⟨List.suffix_cons p fs, id, fun q hq hout =>
          hword q hq fun h => hout (h ▸ List.mem_cons_self)⟩
      refine hround.trans (ih ?_ ?_ ?_ hfresh.tail hrest)
      · exact (hword cache hcache hne 0 4 (by decide)).trans hsize
      · exact (hword cache hcache hne 4 4 (by decide)).trans hobjs
      · exact (hword cache hcache hne 16 8 (by decide)).trans_ne hnodes

theorem CacheAt.writesFresh_slabCacheGrow (h : CacheAt n cache s.mem slabs)
    (hshape : CacheShape n cache slabs) (hn : 1 ≤ n) (hn' : n ≤ 512)
    (hfresh : FreshPages s.frames (cache :: slabs.map SlabView.page)) (hne : slabs ≠ [])
    (hgrow : MoonOS.slabCacheGrow cache count s = some (b, s')) : WritesFresh s s' := by
  refine MoonOS.writesFresh_slabCacheGrow hn hn' hshape.cachePage h.size h.objects
    (h.nodes_ne_zero hne) ?_ hgrow
  exact ⟨hfresh.page, fun f hf hf0 hmem => hfresh.unused f hf hf0 (by simp_all), hfresh.distinct⟩

/-- **An allocation from a full cache finds nothing**, however often it tries. -/
theorem CacheAt.alloc_full (h : CacheAt n cache s.mem slabs) (hshape : CacheShape n cache slabs)
    (hn : 1 ≤ n) (hn' : n ≤ 512) (hfresh : FreshPages s.frames (cache :: slabs.map SlabView.page))
    (hfull : ∀ v ∈ slabs, v.free = [])
    (halloc : kmemCacheAllocFuel cache flags fuel s = some (p, s')) :
    p = 0#64 ∧ WritesFresh s s' := by
  induction fuel generalizing s with
  | zero => cases halloc
  | succ fuel ih =>
    rw [kmemCacheAllocFuel, if_neg hshape.cachePage.ne_zero] at halloc
    have hstay : some (0#64, s) = some (p, s') → p = 0#64 ∧ WritesFresh s s' := by
      intro hsame
      obtain ⟨rfl, rfl⟩ := Prod.mk.inj (Option.some.inj hsame)
      exact ⟨rfl, WritesFresh.refl _⟩
    split at halloc
    · split at halloc
      · cases halloc
      · exact hstay halloc
    · rename_i hnodes
      have hne : slabs ≠ [] := by
        rintro rfl
        exact hnodes h.nodes
      rw [h.slabWithFree_full hshape hfull, Option.bind_some, if_neg (by simp)] at halloc
      split at halloc
      · exact hstay halloc
      · obtain ⟨⟨success, s₁⟩, hgrow, hrest⟩ := Option.bind_eq_some_iff.mp halloc
        have hw := h.writesFresh_slabCacheGrow hshape hn hn' hfresh hne hgrow
        simp only at hrest
        split at hrest
        · obtain ⟨hp, hw'⟩ := ih (h.of_writesFresh hshape hn hfresh hw) (hfresh.suffix hw.suffix)
            hrest
          exact ⟨hp, hw.trans hw'⟩
        · split at hrest
          · cases hrest
          · obtain ⟨rfl, rfl⟩ := Prod.mk.inj (Option.some.inj hrest)
            exact ⟨rfl, hw⟩

end Lost

/-! ## The first slab -/

section First

variable {cache p : BitVec 64} {n : ℕ} {m : Mem}

/-- The first page given to a cache is linked. -/
theorem load_grownMem_first (hn : 1 ≤ n) (hn' : n ≤ 512) (h : CacheAt n cache m [])
    (hcache : PageStart cache) (hp : PageStart p) (hne : cache ≠ p) :
    load (grownMem n cache p m) (at' cache 0) 4 = BitVec.ofNat 32 n
      ∧ load (grownMem n cache p m) (at' cache 4) 4 = 4072#32
      ∧ load (grownMem n cache p m) (at' cache 16) 8 = at' p 4064 := by
  have hnodes : load m (at' cache 16) 8 = 0#64 := h.nodes
  have hword : ∀ m' j k, j + k ≤ 4096 →
      load (linkedPage n p m') (at' cache j) k = load m' (at' cache j) k := fun m' j k hj =>
    load_of_sameOutside (sameOutside_linkedPage hn hn' p m') hp hcache hne hj
  have hcreated : ∀ j k, j + k ≤ 4096 →
      load (createdPage p m) (at' cache j) k = load m (at' cache j) k := fun j k hj =>
    load_of_sameOutside (sameOutside_createdPage p m) hp hcache hne hj
  rw [grownMem, if_pos hnodes, hword _ 0 4 (by decide), hword _ 4 4 (by decide),
    hword _ 16 8 (by decide)]
  refine ⟨?_, ?_, load_store_same _ _ (by decide) _⟩
  · rw [load_store_at' _ (by decide) (by decide) (by decide), hcreated 0 4 (by decide), h.size]
  · rw [load_store_at' _ (by decide) (by decide) (by decide), hcreated 4 4 (by decide), h.objects]

/-- **The first page makes a slab**, if the headers of its objects fit. -/
theorem cacheAt_grownMem (hfit : HeadersFit n) (hn' : n ≤ 512) (h : CacheAt n cache m [])
    (hcache : PageStart cache) (hp : PageStart p) (hne : cache ≠ p) :
    CacheAt n cache (grownMem n cache p m) [freshSlab n p] := by
  have hn : 1 ≤ n := le_trans (by decide) hfit.1
  obtain ⟨hsize, hobjs, hnodes⟩ := load_grownMem_first hn hn' h hcache hp hne
  obtain ⟨m', hm', hlink, -⟩ := load_grownMem (n := n) (m := m) hcache hp hne
  refine ⟨hsize, hobjs, ⟨hnodes, hp.at_ne_zero (by decide), ?_⟩, ?_⟩
  · show load (grownMem n cache p m) (at' p 4064) 8 = 0#64
    rw [hm', load_linkedPage_of_le hn hn' hfit.2 (by decide), hlink]
  · intro v hv
    obtain rfl := List.mem_singleton.mp hv
    exact slabAt_grownMem hfit.1 hn' hcache hp hne

theorem cacheShape_freshSlab (hcache : PageStart cache) (hp : PageStart p) (hne : cache ≠ p) :
    CacheShape n cache [freshSlab n p] where
  cachePage := hcache
  page v hv := by
    obtain rfl := List.mem_singleton.mp hv
    exact ⟨hp, hne.symm⟩
  distinct := List.nodup_singleton _
  slot v hv o ho := by
    obtain rfl := List.mem_singleton.mp hv
    obtain ⟨i, hi, rfl⟩ := List.mem_map.mp ho
    exact ⟨p, List.mem_singleton_self p, i, List.mem_range.mp hi, rfl⟩

/-- **`kmem_cache_create`** — a cache without slabs, grown by a page. -/
theorem kmemCacheCreate_page (name size : BitVec 64) (alignment : BitVec 32) (m : Mem)
    (fs : List (BitVec 64)) (hcache : PageStart cache) (h0 : size ≠ 0#64)
    (hn' : objectSize size alignment ≤ 512) :
    ∃ m₀, CacheAt (objectSize size alignment) cache m₀ [] ∧ SameOutside cache 4096 m m₀ ∧
      kmemCacheCreate name size alignment ⟨m, cache :: fs, false⟩
        = (slabCacheGrow cache 1 ⟨m₀, fs, false⟩).map fun r => (cache, r.2) := by
  have hle : ¬ 512#64 < slabSize size (kmemAlignment alignment) := by
    rw [BitVec.lt_def, not_lt]
    exact hn'
  have hfill : SameOutside cache 4096 m (fill m cache 4096 0#8) := fun x hx => if_neg (by omega)
  refine ⟨store (store (store (store (fill m cache 4096 0#8) (at' cache 0) 4
    ((slabSize size (kmemAlignment alignment)).setWidth 32)) (at' cache 8) 8 name) (at' cache 4) 4
    4072#32) (at' cache 16) 8 0#64, ⟨?_, ?_, ?_, by simp⟩, ?_, ?_⟩
  · simp (disch := omega) only [load_store_at', load_store_same]
    rw [objectSize, ← BitVec.ofNat_toNat]
  · simp (disch := omega) only [load_store_at', load_store_same]
  · simp (disch := omega) only [load_store_same]
    rfl
  · exact (((hfill.store (by decide) _).store (by decide) _).store (by decide) _).store
      (by decide) _
  · rw [kmemCacheCreate, if_neg h0, slabCreateCache]
    simp only [if_neg hle, archAllocPage, if_neg Bool.false_ne_true, if_neg hcache.ne_zero,
      Option.bind_some, memset_eq_fill, pageSize, at'_zero]

end First

/-! ## Growth -/

/-- **The cache has grown**: its slabs are the old ones and a full one for each page taken. -/
def CacheGrown (n : ℕ) (cache : BitVec 64) (slabs : List SlabView) (count : ℕ) (s s' : Vm) : Prop :=
  ∃ new, s.frames = new ++ s'.frames ∧ new.length = count
    ∧ CacheAt n cache s'.mem (slabs ++ new.map (freshSlab n))

/-- **An allocation grows the cache once**: where there is a page it returns an object of it, and
where there is none it returns null, or panics if it is to.  With `pmm_lock` held it would do
neither, but wait. -/
structure AllocGrowsOnce (n : ℕ) (cache : BitVec 64) (flags : BitVec 32) (s : Vm) : Prop where
  unlocked : s.pmmLock = false
  grown : ∀ p fs, s.frames = p :: fs → p ≠ 0#64 → ∃ ptr m',
    kmemCacheAllocFuel cache flags 2 s = some (ptr, ⟨m', fs, false⟩) ∧ SlotOf n p ptr
  refused : s.frames.headD 0#64 = 0#64 → (kmemCacheAllocFuel cache flags 2 s).map Prod.fst
    = if checkFlag flags 1 then none else some 0#64

section Growth

variable {cache : BitVec 64} {flags : BitVec 32} {n count : ℕ} {s s' : Vm} {slabs : List SlabView}

/-- A cache that has slabs does not grow. -/
theorem not_cacheGrown (hn : 1 ≤ n) (hn' : n ≤ 512) (h : CacheAt n cache s.mem slabs)
    (hshape : CacheShape n cache slabs)
    (hfresh : FreshPages s.frames (cache :: slabs.map SlabView.page)) (hne : slabs ≠ [])
    (hgrow : slabCacheGrow cache (count + 1) s = some (true, s')) :
    ¬ CacheGrown n cache slabs (count + 1) s s' := by
  rintro ⟨new, -, hlen, hnew⟩
  have hold := h.of_writesFresh hshape hn hfresh
    (h.writesFresh_slabCacheGrow hshape hn hn' hfresh hne hgrow)
  have hsame := congrArg List.length (hold.nodes.unique hnew.nodes)
  simp only [List.length_map, List.length_append] at hsame
  omega

/-- A cache's first page is written once: the pages after it are lost. -/
theorem CacheAt.firstPage_kept {m : Mem} {p : BitVec 64} {fs : List (BitVec 64)} {b : Bool}
    (hn : 1 ≤ n) (hn' : n ≤ 512) (h : CacheAt n cache m []) (hcache : PageStart cache)
    (hfresh : FreshPages (p :: fs) [cache]) (hp0 : p ≠ 0#64)
    (hgrow : MoonOS.slabCacheGrow cache (count + 1) ⟨m, p :: fs, false⟩ = some (b, s')) :
    MoonOS.slabCacheGrow cache count ⟨grownMem n cache p m, fs, false⟩ = some (b, s')
      ∧ ∀ j k, j + k ≤ 4096 →
        load s'.mem (at' p j) k = load (grownMem n cache p m) (at' p j) k := by
  have hp : PageStart p := hfresh.page p List.mem_cons_self hp0
  have hout : p ∉ [cache] := hfresh.unused p List.mem_cons_self hp0
  have hne : cache ≠ p := fun h => hout (List.mem_singleton.mpr h.symm)
  rw [h.slabCacheGrow ⟨hcache, by simp, by simp, by simp⟩ hn hn' hp hout] at hgrow
  obtain ⟨hsize, hobjs, hnodes⟩ := load_grownMem_first hn hn' h hcache hp hne
  have hw : WritesFresh ⟨grownMem n cache p m, fs, false⟩ s' :=
    MoonOS.writesFresh_slabCacheGrow hn hn' hcache hsize hobjs
      (by rw [hnodes]; exact hp.at_ne_zero (by decide)) hfresh.tail hgrow
  exact ⟨hgrow, hw.same p hp ((hfresh.cons hp0).not_mem List.mem_cons_self hp0)⟩

/-- A cache that grows by pages of the upper half has room for the headers, and grows by one. -/
theorem CacheGrown.headersFit (hn : 1 ≤ n) (hn' : n ≤ 512) (h : CacheAt n cache s.mem [])
    (hcache : PageStart cache) (hfresh : FreshPages s.frames [cache])
    (hup : ∀ f ∈ s.frames, f ≠ 0#64 → UpperHalf f)
    (hgrow : slabCacheGrow cache (count + 1) s = some (true, s'))
    (hgrown : CacheGrown n cache [] (count + 1) s s') : count = 0 ∧ HeadersFit n := by
  obtain ⟨m, frames, lock⟩ := s
  obtain rfl : lock = false := pmmLock_of_slabCacheGrow hgrow
  obtain ⟨new, hnew, hlen, hafter⟩ := hgrown
  have hhead : frames.headD 0#64 ≠ 0#64 := by
    intro hhead
    rw [slabCacheGrow_refused rfl hhead] at hgrow
    cases hgrow
  cases new with
  | nil => cases hlen
  | cons p new =>
    obtain rfl : frames = p :: (new ++ s'.frames) := hnew
    have hp : PageStart p := hfresh.page p List.mem_cons_self hhead
    have hne : cache ≠ p := by
      rintro rfl
      exact hfresh.unused cache List.mem_cons_self hhead (List.mem_singleton_self cache)
    have hfs : FreshPages (new ++ s'.frames) (p :: [cache]) := hfresh.cons hhead
    obtain ⟨hgrow, hpage⟩ := h.firstPage_kept hn hn' hcache hfresh hhead hgrow
    obtain ⟨m', hm', hlink, -⟩ := load_grownMem (n := n) (m := m) hcache hp hne
    rw [List.nil_append, List.map_cons] at hafter
    have hsixteen : 16 ≤ n := by
      by_contra hlt
      refine not_self_of_lt_sixteen (m := m') hp hn (by omega) fun i hi => ?_
      have hle := slot_le hi
      rw [← hm', ← hpage _ 8 (by omega), ← at'_at']
      exact (hafter.slab _ List.mem_cons_self).self _
        (List.mem_map_of_mem (List.mem_range.mpr hi))
    obtain ⟨-, -, hrest⟩ := hafter.nodes
    have hnext : load s'.mem (at' p 4064) 8 = load (linkedPage n p m') (at' p 4064) 8 := by
      rw [hpage 4064 8 (by decide), hm']
    have hfit : HeadersFit n := by
      refine headersFit_of_link hsixteen hn' hp (hup p List.mem_cons_self hhead) hlink ?_
      rw [← hnext]
      cases new with
      | nil => exact .inl hrest
      | cons q new =>
        obtain ⟨k, rfl⟩ : ∃ k, count = k + 1 := ⟨new.length, by simpa using hlen.symm⟩
        have hq0 : q ≠ 0#64 := by
          rintro rfl
          rw [slabCacheGrow_refused rfl rfl] at hgrow
          cases hgrow
        have hqp : p ≠ q := by
          rintro rfl
          exact hfs.unused p List.mem_cons_self hq0 List.mem_cons_self
        exact .inr ⟨q, hfs.page q List.mem_cons_self hq0,
          hup q (List.mem_cons_of_mem p List.mem_cons_self) hq0, hqp, hrest.1⟩
    refine ⟨?_, hfit⟩
    cases new with
    | nil => simpa using hlen.symm
    | cons q new =>
      obtain ⟨hq, hq0, -⟩ := hrest
      have hnull : load s'.mem (at' p 4064) 8 = 0#64 := by
        rw [hnext, load_linkedPage_of_le hn hn' hfit.2 (by decide), hlink]
      exact absurd (hq.symm.trans hnull) hq0

/-- The first page of a cache, on which the headers fit. -/
theorem cacheGrown_first (hfit : HeadersFit n) (hn' : n ≤ 512) (h : CacheAt n cache s.mem [])
    (hcache : PageStart cache) (hfresh : FreshPages s.frames [cache])
    (hgrow : slabCacheGrow cache 1 s = some (true, s')) : CacheGrown n cache [] 1 s s' := by
  obtain ⟨m, frames, lock⟩ := s
  obtain rfl : lock = false := pmmLock_of_slabCacheGrow hgrow
  have hhead : frames.headD 0#64 ≠ 0#64 := by
    intro hhead
    rw [slabCacheGrow_refused rfl hhead] at hgrow
    cases hgrow
  obtain ⟨p, fs, rfl, hp, hne, -⟩ := hfresh.head hhead
  have hshape : CacheShape n cache [] := ⟨hcache, by simp, by simp, by simp⟩
  rw [h.slabCacheGrow hshape (le_trans (by decide) hfit.1) hn' hp hne] at hgrow
  obtain ⟨-, rfl⟩ := Prod.mk.inj (Option.some.inj hgrow)
  exact ⟨[p], rfl, rfl, cacheAt_grownMem hfit hn' h hcache hp
    (fun hcp => hne (hcp ▸ List.mem_singleton_self cache))⟩

/-- Without a page an allocation from a full cache is refused. -/
theorem CacheAt.alloc_refused (h : CacheAt n cache s.mem slabs) (hshape : CacheShape n cache slabs)
    (hfull : ∀ v ∈ slabs, v.free = []) (hflags : checkFlag flags 2 = false)
    (hlock : s.pmmLock = false) (hhead : s.frames.headD 0#64 = 0#64) :
    (kmemCacheAllocFuel cache flags 2 s).map Prod.fst
      = if checkFlag flags 1 then none else some 0#64 := by
  rw [kmemCacheAllocFuel, if_neg hshape.cachePage.ne_zero, h.slabWithFree_full hshape hfull,
    slabCacheGrow_refused hlock hhead]
  by_cases hpanic : checkFlag flags 1 <;> by_cases hnodes : load s.mem (at' cache 16) 8 = 0#64 <;>
    simp [hpanic, hnodes, hflags]

/-- **What growing a cache does**: the first page makes a slab if the headers of its objects fit,
and every other page is lost; an allocation from a full cache loses every page there is. -/
theorem cacheGrowth_iff (hn : 1 ≤ n) (hn' : n ≤ 512) (h : CacheAt n cache s.mem slabs)
    (hshape : CacheShape n cache slabs)
    (hfresh : FreshPages s.frames (cache :: slabs.map SlabView.page))
    (hup : ∀ f ∈ s.frames, f ≠ 0#64 → UpperHalf f) :
    (∀ count s', slabCacheGrow cache count s = some (true, s') →
      (CacheGrown n cache slabs count s s' ↔ count = 0 ∨ slabs = [] ∧ count = 1 ∧ HeadersFit n))
    ∧ ∀ flags, (∀ v ∈ slabs, v.free = []) → checkFlag flags 2 = false →
      (AllocGrowsOnce n cache flags s ↔ s.pmmLock = false ∧ s.frames.headD 0#64 = 0#64) := by
  refine ⟨fun count s' hgrow => ?_, fun flags hfull hflags => ?_⟩
  · cases count with
    | zero =>
      obtain ⟨-, rfl⟩ := Prod.mk.inj (Option.some.inj hgrow)
      exact iff_of_true ⟨[], rfl, rfl, by simpa using h⟩ (.inl rfl)
    | succ count =>
      by_cases hne : slabs = []
      · subst hne
        constructor
        · intro hgrown
          obtain ⟨rfl, hfit⟩ := hgrown.headersFit hn hn' h hshape.cachePage hfresh hup hgrow
          exact .inr ⟨rfl, rfl, hfit⟩
        · rintro (hcount | ⟨-, hcount, hfit⟩)
          · cases hcount
          · obtain rfl : count = 0 := by omega
            exact cacheGrown_first hfit hn' h hshape.cachePage hfresh hgrow
      · refine iff_of_false (not_cacheGrown hn hn' h hshape hfresh hne hgrow) ?_
        rintro (hcount | ⟨hnil, -⟩)
        · cases hcount
        · exact hne hnil
  · constructor
    · intro honce
      refine ⟨honce.unlocked, ?_⟩
      by_contra hhead
      obtain ⟨p, fs, hframes, hp, -⟩ := hfresh.head hhead
      obtain ⟨ptr, m', halloc, hslot⟩ := honce.grown p fs hframes hp.ne_zero
      exact hslot.ne_zero hp hn (h.alloc_full hshape hn hn' hfresh hfull halloc).1
    · rintro ⟨hlock, hhead⟩
      refine ⟨hlock, fun p fs hframes hp => absurd ?_ hp, fun _ => ?_⟩
      · rwa [hframes] at hhead
      · exact h.alloc_refused hshape hfull hflags hlock hhead

/-- A page of the upper half. -/
def highPage (i : ℕ) : BitVec 64 := at' 0xffff800000000000#64 (4096 * i)

theorem toNat_highPage {i : ℕ} (hi : i < 2 ^ 20) :
    (highPage i).toNat = 0xffff800000000000 + 4096 * i :=
  toNat_at' (by change 0xffff800000000000 + _ < _; omega)

theorem pageStart_highPage {i : ℕ} (hi : i < 2 ^ 20) : PageStart (highPage i) := by
  have hnat := toNat_highPage hi
  refine ⟨⟨0xffff800000000 + i, by omega⟩, fun h => ?_⟩
  rw [h, BitVec.toNat_ofNat] at hnat
  omega

theorem upperHalf_highPage {i : ℕ} (hi : i < 2 ^ 20) : UpperHalf (highPage i) := by
  rw [UpperHalf, toNat_highPage hi]
  omega

theorem freshPages_nil (used : List (BitVec 64)) : FreshPages [] used :=
  ⟨by simp, by simp, by simp⟩

theorem FreshPages.push {p : BitVec 64} {fs used : List (BitVec 64)} (h : FreshPages fs (p :: used))
    (hp : PageStart p) (hout : p ∉ used) : FreshPages (p :: fs) used where
  page := List.forall_mem_cons.mpr ⟨fun _ => hp, h.page⟩
  unused := List.forall_mem_cons.mpr
    ⟨fun _ => hout, fun f hf hf0 hmem => h.unused f hf hf0 (List.mem_cons_of_mem p hmem)⟩
  distinct := by
    rw [List.filter_cons_of_pos (by simpa using hp.ne_zero)]
    refine List.nodup_cons.mpr ⟨fun hmem => ?_, h.distinct⟩
    exact h.unused p (List.mem_filter.mp hmem).1 hp.ne_zero List.mem_cons_self

/-- A first page for 64-byte objects… -/
theorem cacheGrown_bareCache :
    ∃ s', slabCacheGrow 0x1000#64 1 ⟨bareCache 64, [highPage 2], false⟩ = some (true, s')
      ∧ CacheGrown 64 0x1000#64 [] 1 ⟨bareCache 64, [highPage 2], false⟩ s' := by
  have h := cacheAt_bareCache 64
  have hshape := cacheShape_bareCache 64
  have hgrow := h.slabCacheGrow hshape (by decide) (by decide)
    (pageStart_highPage (i := 2) (by decide)) (by decide) 0 []
  refine ⟨_, hgrow, ((cacheGrowth_iff (by decide) (by decide) h hshape ?_ ?_).1 1 _ hgrow).mpr
    (.inr ⟨rfl, rfl, by decide⟩)⟩
  · exact (freshPages_nil _).push (pageStart_highPage (by decide)) (by decide)
  · simp only [List.mem_singleton, forall_eq]
    exact fun _ => upperHalf_highPage (by decide)

/-- …and a second one, which is lost. -/
theorem not_cacheGrown_secondPage : ∃ s s',
    kmemCacheCreate 0#64 64#64 0#32 ⟨fun _ => 0#8, [highPage 1, highPage 2, highPage 3], false⟩
        = some (highPage 1, s)
      ∧ CacheAt 64 (highPage 1) s.mem [freshSlab 64 (highPage 2)]
      ∧ slabCacheGrow (highPage 1) 1 s = some (true, s')
      ∧ ¬ CacheGrown 64 (highPage 1) [freshSlab 64 (highPage 2)] 1 s s' := by
  have h₁ := pageStart_highPage (i := 1) (by decide)
  have h₂ := pageStart_highPage (i := 2) (by decide)
  have h₃ := pageStart_highPage (i := 3) (by decide)
  obtain ⟨m₀, hbare, -, hcreate⟩ := kmemCacheCreate_page 0#64 64#64 0#32 (fun _ => 0#8)
    [highPage 2, highPage 3] h₁ (by decide) (by decide)
  have hbare' : CacheAt 64 (highPage 1) m₀ [] := hbare
  rw [hbare'.slabCacheGrow ⟨h₁, by simp, by simp, by simp⟩ (by decide) (by decide) h₂ (by decide)]
    at hcreate
  have hshape := cacheShape_freshSlab (n := 64) h₁ h₂ (by decide)
  have hslab := cacheAt_grownMem (by decide) (by decide) hbare' h₁ h₂ (by decide)
  have hgrow := hslab.slabCacheGrow hshape (by decide) (by decide) h₃ (by decide) 0 []
  have hfresh : FreshPages [highPage 3] [highPage 1, highPage 2] :=
    (freshPages_nil _).push h₃ (by decide)
  exact ⟨_, _, hcreate, hslab, hgrow,
    not_cacheGrown (by decide) (by decide) hslab hshape hfresh (by simp) hgrow⟩

end Growth

end MoonOS

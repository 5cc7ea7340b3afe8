import MoonOS.Lib.GuardedRun
import MoonOS.Mm.SlabDestroy

/-!
# Mm/SlabLife — what a cache loses over its life

A cache has one slab at most (`OneSlabCache`); any other page it is given is lost, and so is an
object freed while no other is free.  A page it is refused leaves `pmm_lock` held, so that no page
can be given back any more.  What is lost is not found again, so when the cache is destroyed the end
of its life tells whether all its calls kept everything.

* `destroyReturnsAll_iff` — destroying returns all pages exactly when no call lost any or was
  refused one, and the headers of the objects fit.
-/

namespace MoonOS

open ByteMemory GuardedRun

/-! ## The life of a cache -/

/-- What happens to a cache between `kmem_cache_create` and `kmem_cache_destroy`. -/
inductive CacheEvent
  | grow (count : ℕ)
  | call (c : CacheCall)

/-- One event. -/
def CacheEvent.apply (cache : BitVec 64) (t : SlabState) : CacheEvent → Option SlabState
  | .grow count => (slabCacheGrow cache count t.vm).map fun r =>
      ⟨r.2, t.pages ++ pagesTaken t.vm r.2, t.live⟩
  | .call c => c.apply cache t

/-- Some slab of the cache has a free object. -/
def HasFree (n : ℕ) (cache : BitVec 64) (t : SlabState) : Prop :=
  ∃ slabs, CacheAt n cache t.vm.mem slabs ∧ ∃ v ∈ slabs, v.free ≠ []

/-- **An event that loses nothing**: no page is asked for but the cache's first, and there is one;
an allocation from a full cache is told not to grow it; and an object is freed while another one is
free. -/
def KeepsAll (n : ℕ) (cache : BitVec 64) (t : SlabState) : CacheEvent → Prop
  | .grow count => count = 0 ∨ count = 1 ∧ t.pages = [] ∧ t.vm.frames.headD 0#64 ≠ 0#64
  | .call (.alloc flags) => HasFree n cache t ∨ t.pages = [] ∨ checkFlag flags 2 = true
  | .call (.free _) => HasFree n cache t

/-! ## What is lost -/

/-- **A cache over its life**: one slab at most, on the first page it took.  The pages after that
are lost; so are the objects its slab counts beyond those handed out. -/
structure OneSlabCache (n : ℕ) (cache : BitVec 64) (held : List (BitVec 64)) (t : SlabState)
    (slabs : List SlabView) : Prop where
  inUse : CacheInUse n cache t slabs
  one : slabs.length ≤ 1
  first : slabs.map SlabView.page <+: t.pages
  noPage : slabs = [] → t.pages = []
  count : ∀ v ∈ slabs, v.refcount.toNat + v.free.length = 4072 / n
    ∧ t.live.length ≤ v.refcount.toNat
  pageStart : ∀ q ∈ cache :: t.pages ++ held, PageStart q
  distinct : (cache :: t.pages ++ held).Nodup
  fresh : FreshPages t.vm.frames (cache :: t.pages ++ held)

/-- **Nothing is lost**: `pmm_lock` is free, every page is a slab's, and a slab counts no more than
is handed out. -/
def NothingLost (n : ℕ) (cache : BitVec 64) (t : SlabState) : Prop :=
  t.vm.pmmLock = false ∧ ∃ slabs, CacheAt n cache t.vm.mem slabs ∧ t.pages.length = slabs.length
    ∧ ∀ v ∈ slabs, v.refcount.toNat = t.live.length

section Lost

variable {n count : ℕ} {cache p ptr o : BitVec 64} {flags : BitVec 32} {held : List (BitVec 64)}
  {t t' : SlabState} {v : SlabView} {slabs : List SlabView} {s' : Vm} {b : Bool}

theorem CacheInUse.nothingLost_iff (h : CacheInUse n cache t slabs) : NothingLost n cache t
    ↔ t.vm.pmmLock = false ∧ t.pages.length = slabs.length
      ∧ ∀ v ∈ slabs, v.refcount.toNat = t.live.length := by
  refine and_congr_right fun _ => ⟨?_, fun hlost => ⟨slabs, h.cacheAt, hlost⟩⟩
  rintro ⟨slabs', hat, hlost⟩
  obtain rfl := h.cacheAt.unique hat
  exact hlost

theorem CacheInUse.hasFree_iff (h : CacheInUse n cache t slabs) :
    HasFree n cache t ↔ ∃ v ∈ slabs, v.free ≠ [] := by
  constructor
  · rintro ⟨slabs', hat, hfree⟩
    obtain rfl := h.cacheAt.unique hat
    exact hfree
  · exact fun hfree => ⟨slabs, h.cacheAt, hfree⟩

/-- Without slabs nothing is handed out. -/
theorem CacheInUse.live_nil (h : CacheInUse n cache t []) : t.live = [] := by
  refine List.eq_nil_iff_forall_not_mem.mpr fun o ho => ?_
  obtain ⟨⟨q, hq, -⟩, -⟩ := h.live o ho
  exact absurd hq List.not_mem_nil

/-- An object that is neither free nor handed out does not matter to a cache in use. -/
theorem CacheInUse.drop (h : CacheInUse n cache t slabs) (ptr : BitVec 64) :
    CacheInUse n cache ⟨t.vm, t.pages, t.live.erase ptr⟩ slabs where
  cacheAt := h.cacheAt
  shape := h.shape
  home := h.home
  live o ho := h.live o (List.mem_of_mem_erase ho)
  distinct := h.distinct.sublist ((List.erase_sublist ..).append_left _)
  fresh := h.fresh

/-- **Pages that are lost stay with the cache.** -/
theorem OneSlabCache.lose (h : OneSlabCache n cache held t slabs) (hn : 1 ≤ n)
    (hw : WritesFresh t.vm s') (hkept : slabs = [] → pagesTaken t.vm s' = []) :
    OneSlabCache n cache held ⟨s', t.pages ++ pagesTaken t.vm s', t.live⟩ slabs := by
  obtain ⟨hfresh, hnodup, htaken⟩ := h.fresh.taken hw.suffix
  have hperm : (cache :: (t.pages ++ pagesTaken t.vm s') ++ held).Perm
      (pagesTaken t.vm s' ++ (cache :: t.pages ++ held)) := by
    rw [List.perm_iff_count]
    intro x
    simp only [List.cons_append, List.count_cons, List.count_append]
    omega
  refine ⟨h.inUse.lose hn hw _, h.one, h.first.trans (List.prefix_append _ _), fun hnil => ?_,
    h.count, fun q hq => ?_, hperm.nodup_iff.mpr ?_, hfresh.of_subset hperm.subset⟩
  · rw [h.noPage hnil, hkept hnil, List.append_nil]
  · rcases List.mem_append.mp (hperm.subset hq) with hq | hq
    · exact (htaken q hq).1
    · exact h.pageStart q hq
  · exact List.nodup_append.mpr ⟨hnodup, h.distinct, fun a ha b hb hab =>
      (htaken a ha).2 (hab ▸ hb)⟩

/-- …and are what is lost, with the lock if it is held now. -/
theorem OneSlabCache.nothingLost_lose (h : OneSlabCache n cache held t slabs)
    (hw : WritesFresh t.vm s')
    (h' : CacheInUse n cache ⟨s', t.pages ++ pagesTaken t.vm s', t.live⟩ slabs) :
    NothingLost n cache ⟨s', t.pages ++ pagesTaken t.vm s', t.live⟩
      ↔ NothingLost n cache t ∧ pagesTaken t.vm s' = [] ∧ s'.pmmLock = false := by
  have hle := h.first.length_le
  rw [List.length_map] at hle
  rw [h'.nothingLost_iff, h.inUse.nothingLost_iff, List.length_append, ← List.length_eq_zero_iff]
  constructor
  · rintro ⟨hlock, hlen, hcount⟩
    exact ⟨⟨hw.locked hlock, by omega, hcount⟩, by omega, hlock⟩
  · rintro ⟨⟨-, hlen, hcount⟩, hnil, hlock⟩
    exact ⟨hlock, by omega, hcount⟩

theorem OneSlabCache.pages_ne_nil (h : OneSlabCache n cache held t slabs) (hne : slabs ≠ []) :
    t.pages ≠ [] := by
  intro hnil
  have hpre := h.first
  rw [hnil, List.prefix_nil, List.map_eq_nil_iff] at hpre
  exact hne hpre

/-- **The first page makes the slab.** -/
theorem OneSlabCache.first_page {m : Mem} {fs : List (BitVec 64)} (hfit : HeadersFit n)
    (hn' : n ≤ 512) (h : OneSlabCache n cache held ⟨⟨m, p :: fs, false⟩, [], []⟩ [])
    (hp : p ≠ 0#64) :
    OneSlabCache n cache held ⟨⟨grownMem n cache p m, fs, false⟩, [p], []⟩ [freshSlab n p] := by
  have hstart : PageStart p := h.fresh.page p List.mem_cons_self hp
  have hout := h.fresh.unused p List.mem_cons_self hp
  have hne : cache ≠ p := by
    rintro rfl
    exact hout List.mem_cons_self
  have hfresh := h.fresh.cons hp
  have hperm : (cache :: [p] ++ held).Perm (p :: (cache :: [] ++ held)) := List.Perm.swap ..
  refine ⟨cacheInUse_freshSlab hfit hn' h.inUse.cacheAt h.inUse.shape.cachePage hstart hne
    (hfresh.of_subset (by simp)) _, by simp, by simp [freshSlab], by simp, fun v hv => ?_,
    fun q hq => ?_, hperm.nodup_iff.mpr (List.nodup_cons.mpr ⟨hout, h.distinct⟩),
    hfresh.of_subset hperm.subset⟩
  · obtain rfl := List.mem_singleton.mp hv
    simp [freshSlab]
  · rcases List.mem_cons.mp (hperm.subset hq) with rfl | hq
    · exact hstart
    · exact h.pageStart q hq

/-- A cache that has its slab loses every page it asks for, or the lock… -/
theorem OneSlabCache.grow_more (h : OneSlabCache n cache held t slabs) (hn : 1 ≤ n) (hn' : n ≤ 512)
    (hne : slabs ≠ []) (hgrow : slabCacheGrow cache count t.vm = some (b, s')) :
    OneSlabCache n cache held ⟨s', t.pages ++ pagesTaken t.vm s', t.live⟩ slabs
      ∧ (NothingLost n cache ⟨s', t.pages ++ pagesTaken t.vm s', t.live⟩
        ↔ NothingLost n cache t ∧ count = 0) := by
  have hw := h.inUse.cacheAt.writesFresh_slabCacheGrow h.inUse.shape hn hn' h.inUse.fresh hne hgrow
  have h' := h.lose hn hw fun hnil => absurd hnil hne
  refine ⟨h', ?_⟩
  rw [h.nothingLost_lose hw h'.inUse, keeps_slabCacheGrow h.fresh hgrow]
  exact and_congr_right fun hlost => and_iff_left hlost.1

/-- …and of the pages an empty cache asks for, those after the first are lost. -/
theorem OneSlabCache.grow_first {m : Mem} {fs : List (BitVec 64)} (hfit : HeadersFit n)
    (hn' : n ≤ 512) (h : OneSlabCache n cache held ⟨⟨m, p :: fs, false⟩, [], []⟩ [])
    (hp : p ≠ 0#64)
    (hgrow : slabCacheGrow cache (count + 1) ⟨m, p :: fs, false⟩ = some (b, s')) :
    OneSlabCache n cache held ⟨s', pagesTaken ⟨m, p :: fs, false⟩ s', []⟩ [freshSlab n p]
      ∧ (NothingLost n cache ⟨s', pagesTaken ⟨m, p :: fs, false⟩ s', []⟩ ↔ count = 0) := by
  have hn : 1 ≤ n := le_trans (by decide) hfit.1
  have h₁ := OneSlabCache.first_page hfit hn' h hp
  rw [h.inUse.cacheAt.slabCacheGrow h.inUse.shape hn hn' (h.fresh.page p List.mem_cons_self hp)
    (h.inUse.fresh.unused p List.mem_cons_self hp)] at hgrow
  have hone : NothingLost n cache ⟨⟨grownMem n cache p m, fs, false⟩, [p], []⟩ :=
    h₁.inUse.nothingLost_iff.mpr (by simp [freshSlab])
  have hsuffix := (pagesTaken_slabCacheGrow h₁.fresh hgrow).1
  rw [pagesTaken_cons m (grownMem n cache p m) hp hsuffix]
  obtain ⟨h₂, hlost⟩ := h₁.grow_more hn hn' (by simp) hgrow
  exact ⟨h₂, hlost.trans (and_iff_right hone)⟩

/-- A page the cache is refused is not taken, but the lock stays held. -/
theorem OneSlabCache.refused (h : OneSlabCache n cache held t slabs) (hn : 1 ≤ n)
    (hhead : t.vm.frames.headD 0#64 = 0#64) :
    OneSlabCache n cache held ⟨t.vm.refused, t.pages ++ pagesTaken t.vm t.vm.refused, t.live⟩ slabs
      ∧ ¬ NothingLost n cache
        ⟨t.vm.refused, t.pages ++ pagesTaken t.vm t.vm.refused, t.live⟩ := by
  refine ⟨h.lose hn (WritesFresh.refused _) fun _ => pagesTaken_refused hhead rfl, fun hlost => ?_⟩
  exact Bool.false_ne_true hlost.1.symm

/-- **What growing loses**: every page but the first, or the lock. -/
theorem OneSlabCache.grow (h : OneSlabCache n cache held t slabs) (hfit : HeadersFit n)
    (hn' : n ≤ 512) (hgrow : slabCacheGrow cache count t.vm = some (b, s')) :
    (∃ slabs', OneSlabCache n cache held ⟨s', t.pages ++ pagesTaken t.vm s', t.live⟩ slabs')
      ∧ (NothingLost n cache ⟨s', t.pages ++ pagesTaken t.vm s', t.live⟩
        ↔ NothingLost n cache t ∧ KeepsAll n cache t (.grow count)) := by
  have hn : 1 ≤ n := le_trans (by decide) hfit.1
  by_cases hne : slabs = []
  · subst hne
    cases count with
    | zero =>
      obtain ⟨-, rfl⟩ := Prod.mk.inj (Option.some.inj hgrow)
      have h' := h.lose hn (WritesFresh.refl _) fun _ => pagesTaken_of_eq rfl
      refine ⟨⟨[], h'⟩, (h.nothingLost_lose (WritesFresh.refl _) h'.inUse).trans ?_⟩
      exact and_congr_right fun hlost => iff_of_true ⟨pagesTaken_of_eq rfl, hlost.1⟩ (.inl rfl)
    | succ count =>
      obtain ⟨⟨m, frames, lock⟩, pages, live⟩ := t
      obtain rfl : pages = [] := h.noPage rfl
      obtain rfl : live = [] := h.inUse.live_nil
      obtain rfl : lock = false := pmmLock_of_slabCacheGrow hgrow
      by_cases hhead : frames.headD 0#64 = 0#64
      · rw [slabCacheGrow_refused rfl hhead] at hgrow
        obtain ⟨-, rfl⟩ := Prod.mk.inj (Option.some.inj hgrow)
        obtain ⟨h', hlost⟩ := h.refused hn hhead
        refine ⟨⟨[], h'⟩, iff_of_false hlost ?_⟩
        rintro ⟨-, hcount | ⟨-, -, hsome⟩⟩
        · exact Nat.succ_ne_zero count hcount
        · exact hsome hhead
      · obtain ⟨p, fs, rfl, hp, -⟩ := h.fresh.head hhead
        obtain ⟨h', hlost⟩ := OneSlabCache.grow_first hfit hn' h hp.ne_zero hgrow
        have hnone : NothingLost n cache ⟨⟨m, p :: fs, false⟩, [], []⟩ :=
          h.inUse.nothingLost_iff.mpr (by simp)
        refine ⟨⟨_, h'⟩, hlost.trans ?_⟩
        rw [and_iff_right hnone, KeepsAll]
        simp [hp.ne_zero]
  · obtain ⟨h', hlost⟩ := h.grow_more hn hn' hne hgrow
    refine ⟨⟨slabs, h'⟩, hlost.trans (and_congr_right fun _ => ?_)⟩
    rw [KeepsAll, or_iff_left fun hone => h.pages_ne_nil hne hone.2.1]

/-- A cache without slabs does not grow by itself… -/
theorem CacheAt.alloc_nil {s : Vm} (h : CacheAt n cache s.mem []) (hcache : cache ≠ 0#64)
    (halloc : kmemCacheAlloc cache flags s = some (o, s')) : s' = s := by
  have hnodes : load s.mem (at' cache 16) 8 = 0#64 := h.nodes
  rw [kmemCacheAlloc, kmemCacheAllocFuel, if_neg hcache, if_pos hnodes] at halloc
  split at halloc
  · cases halloc
  · exact (Prod.mk.inj (Option.some.inj halloc)).2.symm

/-- …and a full one that may grow takes a page, or leaves the lock held. -/
theorem CacheAt.pagesTaken_full {s : Vm} (h : CacheAt n cache s.mem slabs)
    (hshape : CacheShape n cache slabs) (hn : 1 ≤ n) (hn' : n ≤ 512)
    (hfresh : FreshPages s.frames (cache :: slabs.map SlabView.page))
    (hfull : ∀ v ∈ slabs, v.free = []) (hne : slabs ≠ [])
    (halloc : kmemCacheAlloc cache flags s = some (o, s')) :
    pagesTaken s s' = [] ∧ s'.pmmLock = false ↔ checkFlag flags 2 = true ∧ s.pmmLock = false := by
  rw [kmemCacheAlloc, kmemCacheAllocFuel, if_neg hshape.cachePage.ne_zero,
    if_neg (h.nodes_ne_zero hne), h.slabWithFree_full hshape hfull, Option.bind_some,
    if_neg (not_not_intro rfl)] at halloc
  split at halloc
  · rename_i hflag
    obtain ⟨-, rfl⟩ := Prod.mk.inj (Option.some.inj halloc)
    rw [and_iff_right hflag, and_iff_right (pagesTaken_of_eq rfl)]
  · rename_i hflag
    refine iff_of_false ?_ fun h => hflag h.1
    rintro ⟨hnil, hlock⟩
    obtain ⟨⟨success, s₁⟩, hgrow, hrest⟩ := Option.bind_eq_some_iff.mp halloc
    have hw := h.writesFresh_slabCacheGrow hshape hn hn' hfresh hne hgrow
    obtain ⟨m, frames, lock⟩ := s
    obtain rfl : lock = false := pmmLock_of_slabCacheGrow hgrow
    by_cases hhead : frames.headD 0#64 = 0#64
    · rw [slabCacheGrow_refused rfl hhead] at hgrow
      obtain ⟨rfl, rfl⟩ := Prod.mk.inj (Option.some.inj hgrow)
      simp only [if_neg Bool.false_ne_true] at hrest
      split at hrest
      · cases hrest
      · obtain ⟨-, rfl⟩ := Prod.mk.inj (Option.some.inj hrest)
        exact Bool.false_ne_true hlock.symm
    · obtain ⟨p, fs, rfl, hp, hout, -⟩ := hfresh.head hhead
      rw [h.slabCacheGrow hshape hn hn' hp hout] at hgrow
      obtain ⟨rfl, rfl⟩ := Prod.mk.inj (Option.some.inj hgrow)
      have hw' := ((h.of_writesFresh hshape hn hfresh hw).alloc_full hshape hn hn'
        (hfresh.suffix hw.suffix) hfull hrest).2
      rw [@pagesTaken_cons _ _ _ m m _ false hp.ne_zero hw'.suffix] at hnil
      cases hnil

/-- One slab at most, and one with a free object: that one. -/
theorem OneSlabCache.eq_nil {pre post : List SlabView}
    (h : OneSlabCache n cache held t (pre ++ v :: post)) : pre = [] ∧ post = [] := by
  have hone := h.one
  rw [List.length_append, List.length_cons] at hone
  exact ⟨List.length_eq_zero_iff.mp (by omega), List.length_eq_zero_iff.mp (by omega)⟩

/-- The cache goes on with its slab changed. -/
theorem OneSlabCache.update (h : OneSlabCache n cache held t [v]) {v' : SlabView} {m : Mem}
    {live : List (BitVec 64)} (hpage : v'.page = v.page)
    (huse : CacheInUse n cache ⟨{ t.vm with mem := m }, t.pages, live⟩ [v'])
    (hcount : v'.refcount.toNat + v'.free.length = 4072 / n ∧ live.length ≤ v'.refcount.toNat) :
    OneSlabCache n cache held ⟨{ t.vm with mem := m }, t.pages, live⟩ [v'] where
  inUse := huse
  one := le_rfl
  first := by
    rw [List.map_singleton, hpage]
    exact h.first
  noPage hnil := absurd hnil (List.cons_ne_nil _ _)
  count u hu := List.mem_singleton.mp hu ▸ hcount
  pageStart := h.pageStart
  distinct := h.distinct
  fresh := h.fresh

/-- **What an allocation loses**: the pages a full cache takes, and then the lock. -/
theorem OneSlabCache.alloc (h : OneSlabCache n cache held t slabs) (hn : 16 ≤ n) (hn' : n ≤ 512)
    (hcall : (CacheCall.alloc flags).apply cache t = some t') :
    (∃ slabs', OneSlabCache n cache held t' slabs')
      ∧ (NothingLost n cache t'
        ↔ NothingLost n cache t ∧ KeepsAll n cache t (.call (.alloc flags))) := by
  rcases h.inUse.alloc_cases hn hn' hcall with
    ⟨hfull, s', hw, halloc, rfl⟩ | ⟨pre, v, post, o, rest, rfl, hpre, hfree, rfl⟩
  · have hnofree : ¬ HasFree n cache t := by
      rw [h.inUse.hasFree_iff]
      rintro ⟨v, hv, hne⟩
      exact hne (hfull v hv)
    rw [KeepsAll, or_iff_right hnofree]
    by_cases hne : slabs = []
    · subst hne
      obtain rfl := h.inUse.cacheAt.alloc_nil h.inUse.shape.cachePage.ne_zero halloc
      have h' := h.lose (by omega) hw fun _ => pagesTaken_of_eq rfl
      refine ⟨⟨[], h'⟩, (h.nothingLost_lose hw h'.inUse).trans ?_⟩
      exact and_congr_right fun hlost =>
        iff_of_true ⟨pagesTaken_of_eq rfl, hlost.1⟩ (.inl (h.noPage rfl))
    · have h' := h.lose (by omega) hw fun hnil => absurd hnil hne
      refine ⟨⟨slabs, h'⟩, ?_⟩
      rw [h.nothingLost_lose hw h'.inUse, or_iff_right (h.pages_ne_nil hne),
        h.inUse.cacheAt.pagesTaken_full h.inUse.shape (by omega) hn' h.inUse.fresh hfull hne halloc]
      exact and_congr_right fun hlost => and_iff_left hlost.1
  · obtain ⟨rfl, rfl⟩ := h.eq_nil
    have hv : v ∈ [] ++ v :: [] := by simp
    have huse := h.inUse.take hn hfree t.pages
    obtain ⟨hsum, hle⟩ := h.count v hv
    have hmany : 4072 / n ≤ 4072 / 16 := Nat.div_le_div_left hn (by decide)
    rw [hfree, List.length_cons] at hsum
    have hup : (v.refcount + 1#32).toNat = v.refcount.toNat + 1 := by bv_omega
    have hrest : v.free.tail.length = rest.length := by rw [hfree, List.tail_cons]
    refine ⟨⟨_, h.update (show v.take.page = v.page from rfl) huse ?_⟩, ?_⟩
    · simp only [SlabView.take, List.length_cons]
      omega
    · rw [h.inUse.nothingLost_iff, KeepsAll, h.inUse.hasFree_iff,
        and_iff_left (.inl ⟨v, hv, by simp [hfree]⟩)]
      refine huse.nothingLost_iff.trans (and_congr Iff.rfl (and_congr Iff.rfl ?_))
      simp [SlabView.take, hup]

/-- **What freeing loses**: an object, if no other one is free. -/
theorem OneSlabCache.free (h : OneSlabCache n cache held t slabs) (hn : 16 ≤ n)
    (hcall : (CacheCall.free ptr).apply cache t = some t') :
    (∃ slabs', OneSlabCache n cache held t' slabs')
      ∧ (NothingLost n cache t'
        ↔ NothingLost n cache t ∧ KeepsAll n cache t (.call (.free ptr))) := by
  obtain ⟨hptr, ⟨hfull, rfl⟩ | ⟨pre, v, post, rfl, hpre, hfree, rfl⟩⟩ := h.inUse.free_cases hn hcall
  · have hlen := (List.perm_cons_erase hptr).length_eq
    rw [List.length_cons] at hlen
    have huse := h.inUse.drop ptr
    obtain ⟨⟨q, hq, -⟩, -⟩ := h.inUse.live ptr hptr
    obtain ⟨v, hv, -⟩ := List.mem_map.mp hq
    have hlost : ¬ NothingLost n cache ⟨t.vm, t.pages, t.live.erase ptr⟩ := by
      rw [huse.nothingLost_iff]
      rintro ⟨-, -, hcount⟩
      have := (h.count v hv).2
      have := hcount v hv
      simp only at this
      omega
    have hnofree : ¬ HasFree n cache t := by
      rw [h.inUse.hasFree_iff]
      rintro ⟨u, hu, hne⟩
      exact hne (hfull u hu)
    refine ⟨⟨slabs, huse, h.one, h.first, h.noPage, fun u hu => ?_, h.pageStart, h.distinct,
      h.fresh⟩, iff_of_false hlost fun hkeep => hnofree hkeep.2⟩
    obtain ⟨hsum, hle⟩ := h.count u hu
    exact ⟨hsum, by simp only; omega⟩
  · obtain ⟨rfl, rfl⟩ := h.eq_nil
    have hv : v ∈ [] ++ v :: [] := by simp
    obtain ⟨⟨q, hq, hslot⟩, -⟩ := h.inUse.live ptr hptr
    obtain rfl : q = v.page := by simpa using hq
    have huse := h.inUse.give hn hptr hslot t.pages
    have hlen := (List.perm_cons_erase hptr).length_eq
    rw [List.length_cons] at hlen
    obtain ⟨hsum, hle⟩ := h.count v hv
    have hdown : (v.refcount - 1#32).toNat = v.refcount.toNat - 1 := by bv_omega
    refine ⟨⟨_, h.update (show (v.give ptr).page = v.page from rfl) huse ?_⟩, ?_⟩
    · simp only [SlabView.give, List.length_cons]
      omega
    · rw [h.inUse.nothingLost_iff, KeepsAll, h.inUse.hasFree_iff, and_iff_left ⟨v, hv, hfree⟩]
      refine huse.nothingLost_iff.trans (and_congr Iff.rfl (and_congr Iff.rfl ?_))
      simp only [List.nil_append, List.mem_singleton, forall_eq, SlabView.give, hdown]
      omega

end Lost

/-! ## Whole lives -/

section Life

variable {n : ℕ} {cache size p : BitVec 64} {alignment : BitVec 32} {held : List (BitVec 64)}
  {t : SlabState} {v : SlabView} {slabs : List SlabView} {s s₀ : Vm} {events : List CacheEvent}

/-- Of the slots of a page only the first is a page. -/
theorem SlotOf.eq_page {o : BitVec 64} (h : SlotOf n p o) (hn : 1 ≤ n) (hp : PageStart p)
    (ho : PageStart o) : o = p := by
  obtain ⟨i, hi, rfl⟩ := h
  have hle := slot_le hi
  exact (ho.at_inj (i := 0) hp (by decide) (by omega) (at'_zero _)).1

/-- A free list that has as many objects as the page has slots has them all. -/
theorem CacheInUse.page_mem (h : CacheInUse n cache t slabs) (hn : 1 ≤ n) (hn' : n ≤ 512)
    (hv : v ∈ slabs) (hlen : v.free.length = 4072 / n) : v.page ∈ v.free := by
  have hnodup : v.free.Nodup :=
    (List.nodup_flatMap.mp (List.nodup_append.mp h.distinct).1).1 v hv
  have hsub : v.free ⊆ (freshSlab n v.page).free := by
    intro o ho
    obtain ⟨i, hi, rfl⟩ := h.home v hv o ho
    exact List.mem_map_of_mem (List.mem_range.mpr hi)
  have hperm := (List.subperm_of_subset hnodup hsub).perm_of_length_le (by simp [freshSlab, hlen])
  refine hperm.symm.subset (List.mem_map.mpr ⟨0, ?_, by rw [Nat.mul_zero, at'_zero]⟩)
  exact List.mem_range.mpr (Nat.div_pos (by omega) hn)

/-- Of what is freed only the cache and the slabs' pages are pages… -/
theorem CacheInUse.page_of_freed (h : CacheInUse n cache t slabs) (hn : 1 ≤ n) (hp : PageStart p)
    (hmem : p ∈ slabs.flatMap SlabView.free ++ [cache]) :
    p ∈ cache :: slabs.map SlabView.page := by
  rcases List.mem_append.mp hmem with hmem | hmem
  · obtain ⟨v, hv, ho⟩ := List.mem_flatMap.mp hmem
    rw [(h.home v hv p ho).eq_page hn (h.shape.page v hv).1 hp]
    exact List.mem_cons_of_mem _ (List.mem_map_of_mem hv)
  · exact List.mem_singleton.mp hmem ▸ List.mem_cons_self

/-- …and nothing is freed twice. -/
theorem CacheInUse.nodup_freed (h : CacheInUse n cache t slabs) (hn : 1 ≤ n) :
    (slabs.flatMap SlabView.free ++ [cache]).Nodup := by
  refine List.nodup_append.mpr ⟨(List.nodup_append.mp h.distinct).1, List.nodup_singleton _,
    fun a ha b hb hab => ?_⟩
  obtain rfl := List.mem_singleton.mp hb
  subst hab
  obtain ⟨v, hv, ho⟩ := List.mem_flatMap.mp ha
  obtain ⟨hvp, hvc⟩ := h.shape.page v hv
  exact hvc ((h.home v hv a ho).eq_page hn hvp h.shape.cachePage).symm

/-- If no slab counts objects, the cache and all slabs' pages are freed. -/
theorem OneSlabCache.mem_freed (h : OneSlabCache n cache held t slabs) (hn : 1 ≤ n) (hn' : n ≤ 512)
    (hzero : ∀ v ∈ slabs, v.refcount = 0#32) (hp : p ∈ cache :: slabs.map SlabView.page) :
    p ∈ slabs.flatMap SlabView.free ++ [cache] := by
  rcases List.mem_cons.mp hp with rfl | hp
  · exact List.mem_append_right _ (List.mem_singleton_self _)
  · obtain ⟨v, hv, rfl⟩ := List.mem_map.mp hp
    have hsum := (h.count v hv).1
    rw [hzero v hv] at hsum
    exact List.mem_append_left _ (List.mem_flatMap.mpr
      ⟨v, hv, h.inUse.page_mem hn hn' hv (by simpa using hsum)⟩)

/-- What `kmem_cache_destroy` frees over the life of a cache. -/
theorem OneSlabCache.kmemCacheDestroy (h : OneSlabCache n cache held t slabs) :
    MoonOS.kmemCacheDestroy cache t.vm
      = if t.vm.pmmLock = false ∧ ∀ v ∈ slabs, v.refcount = 0#32
        then some (slabs.flatMap SlabView.free ++ [cache],
          { t.vm with mem := memset t.vm.mem cache 0#8 24 })
        else none := by
  refine h.inUse.cacheAt.kmemCacheDestroy h.inUse.shape fun v hv => ?_
  have := (h.count v hv).1
  have := Nat.div_le_self 4072 n
  omega

/-- **What is not lost is given back…** -/
theorem OneSlabCache.returnsAll (h : OneSlabCache n cache held t slabs) (hn : 1 ≤ n) (hn' : n ≤ 512)
    (hlock : t.vm.pmmLock = false) (hzero : ∀ v ∈ slabs, v.refcount = 0#32)
    (hpages : slabs.map SlabView.page = t.pages) :
    DestroyReturnsAll held cache t := by
  have hmem : ∀ q ∈ cache :: t.pages, q ∈ slabs.flatMap SlabView.free ++ [cache] := by
    rw [← hpages]
    exact fun q => h.mem_freed hn hn' hzero
  have hheld : ∀ q ∈ held, q ∉ slabs.flatMap SlabView.free ++ [cache] := by
    intro q hq hq'
    refine List.disjoint_of_nodup_append h.distinct (a := q) ?_ hq
    rw [← hpages]
    exact h.inUse.page_of_freed hn (h.pageStart q (List.mem_append_right _ hq)) hq'
  refine ⟨_, _, by rw [h.kmemCacheDestroy, if_pos ⟨hlock, hzero⟩],
    fun q hq => List.count_eq_one_of_mem (h.inUse.nodup_freed hn) (hmem q hq), hheld, ?_⟩
  rw [h.distinct.sdiff_eq_filter, List.filter_append, List.filter_eq_nil_iff.mpr,
    List.filter_eq_self.mpr, List.nil_append]
  · exact fun q hq => decide_eq_true (hheld q hq)
  · exact fun q hq hout => of_decide_eq_true hout (hmem q hq)

/-- **…and what is lost is not.** -/
theorem OneSlabCache.returnsAll_iff (h : OneSlabCache n cache held t slabs) (hn : 1 ≤ n)
    (hn' : n ≤ 512) (hlive : t.live = []) :
    DestroyReturnsAll held cache t ↔ NothingLost n cache t := by
  obtain ⟨lost, hpages⟩ := h.first
  rw [h.inUse.nothingLost_iff, hlive]
  constructor
  · rintro ⟨freed, m, hrun, hcount, -⟩
    rw [h.kmemCacheDestroy] at hrun
    split at hrun
    · rename_i hdestroyed
      obtain ⟨hlock, hzero⟩ := hdestroyed
      obtain ⟨rfl, -⟩ := Prod.mk.inj (Option.some.inj hrun)
      refine ⟨hlock, ?_, fun v hv => by rw [hzero v hv]; rfl⟩
      -- a page that is lost is freed, so it is the cache or a slab's, which it is not
      have hnil : lost = [] := by
        refine List.eq_nil_iff_forall_not_mem.mpr fun q hq => ?_
        have hmem : q ∈ t.pages := hpages ▸ List.mem_append_right _ hq
        have hstart := h.pageStart q (List.mem_append_left _ (List.mem_cons_of_mem _ hmem))
        have hone := hcount q (List.mem_cons_of_mem _ hmem)
        have hdistinct := (List.nodup_append.mp h.distinct).1
        rw [← hpages, ← List.cons_append] at hdistinct
        exact List.disjoint_of_nodup_append hdistinct
          (h.inUse.page_of_freed hn hstart (List.count_pos_iff.mp (by omega))) hq
      rw [← hpages, hnil, List.append_nil, List.length_map]
    · cases hrun
  · rintro ⟨hlock, hlen, hcount⟩
    refine h.returnsAll hn hn' hlock (fun v hv => BitVec.eq_of_toNat_eq (hcount v hv)) ?_
    rw [← hpages, List.length_append, List.length_map, Nat.add_eq_left,
      List.length_eq_zero_iff] at hlen
    rw [← hpages, hlen, List.append_nil]

theorem OneSlabCache.step {e : CacheEvent} {t' : SlabState} (hfit : HeadersFit n) (hn' : n ≤ 512)
    (h : OneSlabCache n cache held t slabs) (hstep : e.apply cache t = some t') :
    (∃ slabs', OneSlabCache n cache held t' slabs')
      ∧ (NothingLost n cache t' ↔ NothingLost n cache t ∧ KeepsAll n cache t e) := by
  cases e with
  | grow count =>
    obtain ⟨⟨b, s'⟩, hgrow, rfl⟩ := Option.map_eq_some_iff.mp hstep
    exact h.grow hfit hn' hgrow
  | call c =>
    cases c with
    | alloc flags => exact h.alloc hfit.1 hn' hstep
    | free ptr => exact h.free hfit.1 hstep

/-- A cache just made has lost nothing, unless the page for its slab was refused. -/
theorem CacheMade.oneSlabCache (h : CacheMade size alignment held s cache s₀)
    (hsize : objectSize size alignment = n) (hfit : HeadersFit n) :
    (∃ slabs, OneSlabCache n cache held (madeState s cache s₀) slabs)
      ∧ (NothingLost n cache (madeState s cache s₀) ↔ s₀.pmmLock = false) := by
  obtain ⟨hn', hc, hout, m, m₀, fs, b, rfl, hfresh, hbare, hgrow⟩ := h.cases hsize
  have hempty : OneSlabCache n cache held ⟨⟨m₀, fs, false⟩, [], []⟩ [] :=
    ⟨cacheInUse_nil hbare hc (hfresh.of_subset (by simp)) _ _, by simp, by simp, fun _ => rfl,
      by simp, List.forall_mem_cons.mpr ⟨hc, h.heldPage⟩,
      List.nodup_cons.mpr ⟨hout, h.heldDistinct⟩, hfresh⟩
  obtain ⟨hone, hlost⟩ := hempty.grow hfit hn' hgrow
  obtain ⟨hsuffix, -⟩ := pagesTaken_slabCacheGrow hfresh hgrow
  rw [madeState, pagesTaken_cons m m₀ hc.ne_zero hsuffix, List.erase_cons_head]
  refine ⟨hone, fun hnone => hnone.1, fun hlock => hlost.mpr ?_⟩
  refine ⟨hempty.inUse.nothingLost_iff.mpr (by simp), .inr ⟨rfl, rfl, fun hhead => ?_⟩⟩
  rw [slabCacheGrow_refused rfl hhead] at hgrow
  obtain ⟨-, rfl⟩ := Prod.mk.inj (Option.some.inj hgrow)
  exact Bool.false_ne_true hlock.symm

/-- Destroying a cache whose objects' headers fit returns all its pages exactly when it was given
its first one and no call in its life lost any. -/
theorem CacheMade.returnsAll_iff_guarded (h : CacheMade size alignment held s cache s₀)
    (hsize : objectSize size alignment = n) (hfit : HeadersFit n)
    (hrun : events.foldlM (CacheEvent.apply cache) (madeState s cache s₀) = some t)
    (hlive : t.live = []) : DestroyReturnsAll held cache t ↔ s₀.pmmLock = false
      ∧ Guarded (CacheEvent.apply cache) (KeepsAll n cache) events (madeState s cache s₀) := by
  obtain ⟨hn', -⟩ := h.cases hsize
  obtain ⟨hone, hlost⟩ := h.oneSlabCache hsize hfit
  have hstep : ∀ t e t', (∃ slabs, OneSlabCache n cache held t slabs) →
      e.apply cache t = some t' → (∃ slabs, OneSlabCache n cache held t' slabs)
        ∧ (NothingLost n cache t' ↔ NothingLost n cache t ∧ KeepsAll n cache t e) := by
    rintro t e t' ⟨slabs, h⟩ happly
    exact h.step hfit hn' happly
  obtain ⟨slabs, hend⟩ := invariant (fun t e t' h happly => (hstep t e t' h happly).1) hrun hone
  rw [hend.returnsAll_iff (le_trans (by decide) hfit.1) hn' hlive,
    last_iff_guarded hstep hone hrun, hlost]

/-- **When destroying a cache returns all its pages**: exactly when it was given a page for its
slab, no call in its life lost a page or an object or was refused a page, and the headers of its
objects fit. -/
theorem destroyReturnsAll_iff (hsize : objectSize size alignment = n) (hn : 1 ≤ n) (hn' : n ≤ 512) :
    ((∀ held s cache s₀ events t, CacheMade size alignment held s cache s₀ →
        events.foldlM (CacheEvent.apply cache) (madeState s cache s₀) = some t → t.live = [] →
        s₀.pmmLock = false →
        Guarded (CacheEvent.apply cache) (KeepsAll n cache) events (madeState s cache s₀) →
        DestroyReturnsAll held cache t)
      ↔ HeadersFit n)
    ∧ (HeadersFit n → ∀ held s cache s₀ events t, CacheMade size alignment held s cache s₀ →
      events.foldlM (CacheEvent.apply cache) (madeState s cache s₀) = some t → t.live = [] →
      (DestroyReturnsAll held cache t ↔ s₀.pmmLock = false
        ∧ Guarded (CacheEvent.apply cache) (KeepsAll n cache) events (madeState s cache s₀))) := by
  refine ⟨⟨fun hall => ?_, fun hfit held s cache s₀ events t hmade hrun hlive hlock hguarded =>
    (hmade.returnsAll_iff_guarded hsize hfit hrun hlive).mpr ⟨hlock, hguarded⟩⟩,
    fun hfit held s cache s₀ events t hmade => hmade.returnsAll_iff_guarded hsize hfit⟩
  by_contra hfit
  obtain ⟨s, cache, s₀, hmade, hlock, hnot⟩ := exists_not_destroyReturnsAll hsize hn hn' hfit
  exact hnot (hall [] s cache s₀ [] _ hmade rfl rfl hlock trivial)

/-- An object taken and freed again… -/
theorem destroyReturnsAll_allocFree : ∃ s₀ t,
    kmemCacheCreate 0#64 512#64 0#32 ⟨fun _ => 0#8, [highPage 1, highPage 2], false⟩
        = some (highPage 1, s₀)
      ∧ [CacheEvent.call (.alloc 0#32), .call (.free (highPage 2))].foldlM
        (CacheEvent.apply (highPage 1)) ⟨s₀, [highPage 2], []⟩ = some t
      ∧ DestroyReturnsAll [highPage 3] (highPage 1) t := by
  obtain ⟨s₀, hcreate, hframes, hlock, huse⟩ := kmemCacheCreate_highPage (freshPages_nil _)
  have hfree : (freshSlab 512 (highPage 2)).free
      = highPage 2 :: (freshSlab 512 (highPage 2)).free.tail := by decide
  have huse₀ : CacheInUse 512 (highPage 1) ⟨s₀, [highPage 2], []⟩
      ([] ++ freshSlab 512 (highPage 2) :: []) := huse
  have huse₁ := huse₀.take (by decide) hfree [highPage 2]
  have halloc : (CacheEvent.call (.alloc 0#32)).apply (highPage 1) ⟨s₀, [highPage 2], []⟩
      = some _ := huse₀.apply_alloc (by decide) (by simp) hfree
  obtain ⟨t, hfreed, hlive⟩ : ∃ t, (CacheEvent.call (.free (highPage 2))).apply (highPage 1)
      ⟨{ s₀ with mem := (takeBufctl s₀.mem (freshSlab 512 (highPage 2)).addr).2 }, [highPage 2],
        [highPage 2]⟩ = some t ∧ t.live = [] := by
    rw [CacheEvent.apply, CacheCall.apply, if_pos List.mem_cons_self, SlabEvent.apply,
      huse₁.kmemCacheFree_first (by simp) (by decide) (by decide)]
    exact ⟨_, rfl, by simp⟩
  have hrun : [CacheEvent.call (.alloc 0#32), .call (.free (highPage 2))].foldlM
      (CacheEvent.apply (highPage 1)) ⟨s₀, [highPage 2], []⟩ = some t := by
    rw [List.foldlM_cons, halloc, Option.bind_eq_bind, Option.bind_some, List.foldlM_cons, hfreed]
    rfl
  have hpages : (pagesTaken ⟨fun _ => 0#8, [highPage 1, highPage 2], false⟩ s₀).erase (highPage 1)
      = [highPage 2] := by
    rw [pagesTaken, hframes]
    decide
  have hfresh : FreshPages [highPage 1, highPage 2] [highPage 3] :=
    ((freshPages_nil _).push (pageStart_highPage (by decide)) (by decide)).push
      (pageStart_highPage (by decide)) (by decide)
  have hmade : CacheMade 512#64 0#32 [highPage 3] ⟨fun _ => 0#8, [highPage 1, highPage 2], false⟩
      (highPage 1) s₀ :=
    ⟨by simpa using pageStart_highPage (i := 3) (by decide), List.nodup_singleton _, hfresh,
      ⟨_, hcreate⟩, by decide⟩
  have hiff := (destroyReturnsAll_iff (show objectSize 512#64 0#32 = 512 by decide) (by decide)
    (by decide)).2 (by decide) _ _ _ _ _ _ hmade (by rw [madeState, hpages]; exact hrun) hlive
  rw [madeState, hpages] at hiff
  refine ⟨s₀, t, hcreate, hrun,
    hiff.mpr ⟨hlock, Guarded.cons halloc (.inl ?_) (Guarded.cons hfreed ?_ trivial)⟩⟩
  · exact ⟨_, huse.cacheAt, _, List.mem_singleton_self _, by decide⟩
  · exact ⟨_, huse₁.cacheAt, _, List.mem_singleton_self _, by decide⟩

/-- …and a page the cache is given when it has one. -/
theorem not_destroyReturnsAll_grow : ∃ s₀ t,
    kmemCacheCreate 0#64 512#64 0#32 ⟨fun _ => 0#8, [highPage 1, highPage 2, highPage 3], false⟩
        = some (highPage 1, s₀)
      ∧ [CacheEvent.grow 1].foldlM (CacheEvent.apply (highPage 1)) ⟨s₀, [highPage 2], []⟩ = some t
      ∧ t.live = [] ∧ ¬ DestroyReturnsAll [] (highPage 1) t := by
  have h₃ := pageStart_highPage (i := 3) (by decide)
  obtain ⟨⟨m, frames, lock⟩, hcreate, hframes, hlock, huse⟩ := kmemCacheCreate_highPage
    ((freshPages_nil _).push h₃ (by decide))
  obtain rfl : frames = [highPage 3] := hframes
  obtain rfl : lock = false := hlock
  have hgrow := huse.cacheAt.slabCacheGrow huse.shape (by decide) (by decide) h₃ (by decide) 0 []
  have hw := huse.cacheAt.writesFresh_slabCacheGrow huse.shape (by decide) (by decide) huse.fresh
    (by simp) hgrow
  have hat := huse.cacheAt.of_writesFresh huse.shape (by decide) huse.fresh hw
  have htaken : pagesTaken ⟨m, [highPage 3], false⟩
      ⟨grownMem 512 (highPage 1) (highPage 3) m, [], false⟩ = [highPage 3] := by
    simp [pagesTaken, h₃.ne_zero]
  refine ⟨_, ⟨⟨grownMem 512 (highPage 1) (highPage 3) m, [], false⟩, [highPage 2, highPage 3], []⟩,
    hcreate, ?_, rfl, ?_⟩
  · rw [List.foldlM_cons, CacheEvent.apply, hgrow, slabCacheGrow, Option.map_some, htaken]
    rfl
  · rintro ⟨freed, m', hrun, hcount, -⟩
    rw [hat.kmemCacheDestroy huse.shape (by decide), if_pos ⟨rfl, by decide⟩] at hrun
    obtain ⟨rfl, -⟩ := Prod.mk.inj (Option.some.inj hrun)
    exact absurd (hcount (highPage 3) (by simp)) (by decide)

end Life

end MoonOS

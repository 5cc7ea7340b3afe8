import MoonOS.Lib.GuardedRun
import MoonOS.Mm.SlabOverlap

/-!
# Mm/SlabAccounts — the counts and free lists of a cache over a run

`kmem_cache_free` does not look at the address it is given.  So an object freed goes to another
slab's list and off another slab's count, or nowhere if all slabs are full.

* `accounted_iff` — the books are right all along a run exactly when each object freed belongs to
  the first slab that has a free one; a cache just made has them right, whatever memory holds,
  exactly when the headers of its objects fit.
-/

namespace MoonOS

open ByteMemory GuardedRun

/-! ## Accounts -/

/-- How many of the objects lie on a page. -/
def liveOn (page : BitVec 64) (live : List (BitVec 64)) : ℕ :=
  live.countP fun o => (o - page).toNat < 4096

/-- **The books are right**: each slab counts the objects of its page that are handed out, and free
objects and objects handed out are all there are. -/
structure Balanced (n : ℕ) (live : List (BitVec 64)) (slabs : List SlabView) : Prop where
  counts : ∀ v ∈ slabs, v.refcount.toInt = (liveOn v.page live : ℤ)
  total : (slabs.map fun v => v.free.length).sum + live.length = slabs.length * (4072 / n)

/-- …in the memory of a cache. -/
def Accounted (n : ℕ) (cache : BitVec 64) (t : SlabState) : Prop :=
  ∃ slabs, CacheAt n cache t.vm.mem slabs ∧ Balanced n t.live slabs

/-- A call that frees an object of the first slab that has a free one. -/
def FreesHome (n : ℕ) (cache : BitVec 64) (t : SlabState) : CacheCall → Prop
  | .alloc _ => True
  | .free ptr => ∃ slabs v, CacheAt n cache t.vm.mem slabs
      ∧ slabs.find? (fun v => v.free ≠ []) = some v ∧ (ptr - v.page).toNat < 4096

section Accounts

variable {n : ℕ} {cache ptr o p : BitVec 64} {t : SlabState} {v : SlabView}
  {slabs pre post : List SlabView} {live : List (BitVec 64)}

theorem toInt_add_one {x : BitVec 32} {k : ℕ} (h : x.toInt = k) (hk : k + 1 < 2 ^ 31) :
    (x + 1#32).toInt = (k + 1 : ℕ) := by
  rw [BitVec.toInt_add, h, show (1#32).toInt = 1 from rfl, Int.bmod_eq_of_le (by omega) (by omega)]
  omega

theorem toInt_sub_one {x : BitVec 32} {k : ℕ} (h : x.toInt = (k + 1 : ℕ)) (hk : k < 2 ^ 31) :
    (x - 1#32).toInt = k := by
  rw [BitVec.toInt_sub, h, show (1#32).toInt = 1 from rfl, Int.bmod_eq_of_le (by omega) (by omega)]
  omega

theorem liveOn_cons (p o : BitVec 64) (live : List (BitVec 64)) :
    liveOn p (o :: live) = liveOn p live + if (o - p).toNat < 4096 then 1 else 0 := by
  simp [liveOn, List.countP_cons]

theorem liveOn_erase (p : BitVec 64) (hptr : ptr ∈ live) :
    liveOn p live = liveOn p (live.erase ptr) + if (ptr - p).toNat < 4096 then 1 else 0 := by
  rw [← liveOn_cons]
  exact (List.perm_cons_erase hptr).countP_eq _

/-- A page has as many objects as slots. -/
theorem liveOn_le (hp : PageStart p) (hn : 1 ≤ n) {pages : List (BitVec 64)}
    (hpages : ∀ q ∈ pages, PageStart q) (hlive : ∀ o ∈ live, IsSlot n pages o)
    (hdistinct : live.Nodup) : liveOn p live ≤ 4072 / n := by
  rw [liveOn, List.countP_eq_length_filter]
  have hsub : live.filter (fun o => (o - p).toNat < 4096)
      ⊆ (List.range (4072 / n)).map fun i => at' p (n * i) := by
    intro o ho
    obtain ⟨hmem, hon⟩ := List.mem_filter.mp ho
    obtain ⟨q, hq, hslot⟩ := hlive o hmem
    have hqp : q = p := by
      by_contra hne
      exact SlotOf.off_page hslot hp (hpages q hq) hne hn (of_decide_eq_true hon)
    subst hqp
    obtain ⟨i, hi, rfl⟩ := hslot
    exact List.mem_map_of_mem (List.mem_range.mpr hi)
  have hle := (List.subperm_of_subset (hdistinct.filter _) hsub).length_le
  simpa using hle

/-- The first slab with a free object. -/
theorem find?_first (hfull : ∀ u ∈ pre, u.free = []) (hfree : v.free ≠ []) :
    (pre ++ v :: post).find? (fun v => v.free ≠ []) = some v := by
  rw [List.find?_append, List.find?_eq_none.mpr (by simpa using hfull), Option.none_or,
    List.find?_cons_of_pos (by simpa using hfree)]

/-- The count of a slab is small. -/
theorem CacheInUse.liveOn_lt (h : CacheInUse n cache t slabs) (hn : 16 ≤ n) (hp : PageStart p) :
    liveOn p t.live < 255 := by
  have hle := liveOn_le hp (by omega : 1 ≤ n)
    (fun q hq => h.shape.pageStart (List.mem_cons_of_mem cache hq)) (fun o ho => (h.live o ho).1)
    (List.nodup_append.mp h.distinct).2.1
  have hmany : 4072 / n ≤ 4072 / 16 := Nat.div_le_div_left hn (by decide)
  omega

/-- An object taken is counted where it is from… -/
theorem Balanced.take (h : Balanced n t.live (pre ++ v :: post))
    (huse : CacheInUse n cache t (pre ++ v :: post)) (hn : 16 ≤ n) {rest : List (BitVec 64)}
    (hfree : v.free = o :: rest) : Balanced n (o :: t.live) (pre ++ v.take :: post) := by
  have hv : v ∈ pre ++ v :: post := by simp
  have hvp := (huse.shape.page v hv).1
  have hslot : SlotOf n v.page o := huse.home v hv o (hfree ▸ List.mem_cons_self)
  have hkeep : ∀ u, u ∈ pre ∨ u ∈ post →
      u.refcount.toInt = (liveOn u.page (o :: t.live) : ℤ) := by
    intro u hu
    obtain ⟨hmem, hne⟩ := huse.shape.other hu
    rw [liveOn_cons, if_neg (hslot.off_page (huse.shape.page u hmem).1 hvp hne.symm (by omega)),
      Nat.add_zero, h.counts u hmem]
  refine ⟨fun u hu => ?_, ?_⟩
  · simp only [List.mem_append, List.mem_cons] at hu
    rcases hu with hu | rfl | hu
    · exact hkeep u (.inl hu)
    · have hlt := huse.liveOn_lt hn hvp
      show (v.refcount + 1#32).toInt = (liveOn v.page (o :: t.live) : ℤ)
      rw [liveOn_cons, if_pos (hslot.on_page (by omega))]
      exact toInt_add_one (h.counts v hv) (by omega)
    · exact hkeep u (.inr hu)
  · have htotal := h.total
    simp only [List.map_append, List.map_cons, List.sum_append, List.sum_cons, List.length_append,
      List.length_cons, hfree, SlabView.take, List.tail_cons] at htotal ⊢
    omega

/-- …and one put back to its slab no more. -/
theorem Balanced.give (h : Balanced n t.live (pre ++ v :: post))
    (huse : CacheInUse n cache t (pre ++ v :: post)) (hn : 16 ≤ n) (hptr : ptr ∈ t.live)
    (hslot : SlotOf n v.page ptr) :
    Balanced n (t.live.erase ptr) (pre ++ v.give ptr :: post) := by
  have hv : v ∈ pre ++ v :: post := by simp
  have hvp := (huse.shape.page v hv).1
  have hkeep : ∀ u, u ∈ pre ∨ u ∈ post →
      u.refcount.toInt = (liveOn u.page (t.live.erase ptr) : ℤ) := by
    intro u hu
    obtain ⟨hmem, hne⟩ := huse.shape.other hu
    rw [h.counts u hmem, liveOn_erase u.page hptr,
      if_neg (hslot.off_page (huse.shape.page u hmem).1 hvp hne.symm (by omega)), Nat.add_zero]
  refine ⟨fun u hu => ?_, ?_⟩
  · simp only [List.mem_append, List.mem_cons] at hu
    rcases hu with hu | rfl | hu
    · exact hkeep u (.inl hu)
    · have hlt := huse.liveOn_lt hn hvp
      have hcount := h.counts v hv
      rw [liveOn_erase v.page hptr, if_pos (hslot.on_page (by omega))] at hcount hlt
      show (v.refcount - 1#32).toInt = (liveOn v.page (t.live.erase ptr) : ℤ)
      exact toInt_sub_one hcount (by omega)
    · exact hkeep u (.inr hu)
  · have htotal := h.total
    have hlen := (List.perm_cons_erase hptr).length_eq
    simp only [List.map_append, List.map_cons, List.sum_append, List.sum_cons, List.length_append,
      List.length_cons, SlabView.give] at htotal hlen ⊢
    omega

/-- **An object put back to another slab** is counted down there, where it was not counted. -/
theorem not_accounted_foreign (huse : CacheInUse n cache t (pre ++ v :: post)) (hn : 16 ≤ n)
    (hbal : Balanced n t.live (pre ++ v :: post)) (hptr : ptr ∈ t.live)
    (hoff : ¬ (ptr - v.page).toNat < 4096) (pages : List (BitVec 64)) :
    ¬ Accounted n cache
      ⟨{ t.vm with mem := giveBufctl t.vm.mem v.page ptr }, pages, t.live.erase ptr⟩ := by
  rintro ⟨slabs', hat, hbal'⟩
  have hv : v ∈ pre ++ v :: post := by simp
  have hvp := (huse.shape.page v hv).1
  obtain ⟨r, hr, hslot⟩ := (huse.live ptr hptr).1
  have hrp := huse.shape.pageStart (List.mem_cons_of_mem cache hr)
  have hslot : SlotOf n r ptr := hslot
  -- the list of slabs is what it was
  have hnodes : load (giveBufctl t.vm.mem v.page ptr) (at' cache 16) 8
      = load t.vm.mem (at' cache 16) 8 := by
    have hrc : r ≠ cache := by
      obtain ⟨u, hu, rfl⟩ := List.mem_map.mp hr
      exact (huse.shape.page u hu).2
    exact load_giveBufctl_cache hvp hrp hslot huse.shape.cachePage (huse.shape.page v hv).2 hrc
      (by omega) (by decide)
  have hlinked : Linked (giveBufctl t.vm.mem v.page ptr)
      (load (giveBufctl t.vm.mem v.page ptr) (at' cache 16) 8)
      ((pre ++ v :: post).map SlabView.addr) := by
    rw [hnodes]
    refine huse.cacheAt.nodes.congr fun a ha => ?_
    obtain ⟨u, hu, rfl⟩ := List.mem_map.mp ha
    exact load_giveBufctl_link hn hvp hrp hslot (huse.shape.page u hu).1
  have haddr : v.addr ∈ slabs'.map SlabView.addr := by
    rw [← hlinked.unique hat.nodes]
    exact List.mem_map_of_mem hv
  obtain ⟨w, hw, hwv⟩ := List.mem_map.mp haddr
  have hpage : w.page = v.page := (BitVec.add_left_inj _).mp hwv
  have hcount := hbal'.counts w hw
  have hdown := (hat.slab w hw).refcount
  rw [hpage] at hcount hdown
  rw [(load_giveBufctl_header hn hvp hrp hslot).2.1, (huse.cacheAt.slab v hv).refcount] at hdown
  rw [← hdown] at hcount
  have hup := hbal.counts v hv
  rw [liveOn_erase v.page hptr, if_neg hoff, Nat.add_zero, ← hcount, BitVec.toInt_inj] at hup
  bv_omega

/-- **An object freed to a full cache** is not put back. -/
theorem not_accounted_full (huse : CacheInUse n cache t slabs) (hbal : Balanced n t.live slabs)
    (hptr : ptr ∈ t.live) (pages : List (BitVec 64)) :
    ¬ Accounted n cache ⟨t.vm, pages, t.live.erase ptr⟩ := by
  rintro ⟨slabs', hat, hbal'⟩
  obtain rfl := huse.cacheAt.unique hat
  have htotal := hbal.total
  have htotal' := hbal'.total
  have hlen := (List.perm_cons_erase hptr).length_eq
  simp only [List.length_cons] at htotal' hlen
  omega

/-- **When the books of a cache in use are right all along a run**: exactly when every object freed
belongs to the first slab that has a free one. -/
theorem CacheInUse.always_accounted_iff (huse : CacheInUse n cache t slabs) (hn : 16 ≤ n)
    (hn' : n ≤ 512) (hbal : Balanced n t.live slabs) (calls : List CacheCall) :
    Always (CacheCall.apply cache) (Accounted n cache) calls t
      ↔ Guarded (CacheCall.apply cache) (FreesHome n cache) calls t := by
  refine always_iff_guarded
    (I := fun t => Accounted n cache t → ∃ slabs, CacheInUse n cache t slabs) ?_
    (fun _ => ⟨slabs, huse⟩) ⟨slabs, huse.cacheAt, hbal⟩
  clear hbal huse
  intro t call t' hinv hacc hcall
  obtain ⟨slabs, huse⟩ := hinv hacc
  obtain ⟨slabs', hat, hbal⟩ := hacc
  obtain rfl := huse.cacheAt.unique hat
  cases call with
  | alloc flags =>
    rcases huse.alloc_cases hn hn' hcall with
      ⟨-, s', hw, -, rfl⟩ | ⟨pre, v, post, o, rest, rfl, -, hfree, rfl⟩
    · have huse' := huse.lose (by omega) hw (t.pages ++ pagesTaken t.vm s')
      exact ⟨fun _ => ⟨_, huse'⟩, iff_of_true ⟨_, huse'.cacheAt, hbal⟩ trivial⟩
    · have huse' := huse.take hn hfree t.pages
      exact ⟨fun _ => ⟨_, huse'⟩,
        iff_of_true ⟨_, huse'.cacheAt, hbal.take huse hn hfree⟩ trivial⟩
  | free ptr =>
    obtain ⟨hptr, ⟨hfull, rfl⟩ | ⟨pre, v, post, rfl, hpre, hfree, rfl⟩⟩ := huse.free_cases hn hcall
    · have hlost := not_accounted_full huse hbal hptr t.pages
      refine ⟨fun h => absurd h hlost, iff_of_false hlost ?_⟩
      rintro ⟨slabs', v, hat', hfind, -⟩
      obtain rfl := huse.cacheAt.unique hat'
      exact absurd (hfull v (List.mem_of_find?_eq_some hfind))
        (by simpa using List.find?_some hfind)
    · by_cases hon : (ptr - v.page).toNat < 4096
      · have hslot : SlotOf n v.page ptr := by
          obtain ⟨r, hr, hslot⟩ := (huse.live ptr hptr).1
          have hrp := huse.shape.pageStart (List.mem_cons_of_mem cache hr)
          by_contra hne
          refine SlotOf.off_page hslot (huse.shape.page v (by simp)).1 hrp ?_ (by omega) hon
          rintro rfl
          exact hne hslot
        have huse' := huse.give hn hptr hslot t.pages
        exact ⟨fun _ => ⟨_, huse'⟩, iff_of_true ⟨_, huse'.cacheAt, hbal.give huse hn hptr hslot⟩
          ⟨_, v, huse.cacheAt, find?_first hpre hfree, hon⟩⟩
      · have hforeign := not_accounted_foreign huse hn hbal hptr hon t.pages
        refine ⟨fun h => absurd h hforeign, iff_of_false hforeign ?_⟩
        rintro ⟨slabs', w, hat', hfind, hw⟩
        obtain rfl := huse.cacheAt.unique hat'
        rw [find?_first hpre hfree] at hfind
        obtain rfl := Option.some.inj hfind
        exact hon hw

end Accounts

/-! ## A new cache -/

section NewSlab

variable {n : ℕ} {cache size : BitVec 64} {alignment flags : BitVec 32} {t : SlabState}
  {v : SlabView}

theorem balanced_freshSlab (n : ℕ) (p : BitVec 64) : Balanced n [] [freshSlab n p] := by
  refine ⟨fun v hv => ?_, by simp [freshSlab]⟩
  obtain rfl := List.mem_singleton.mp hv
  rfl

/-- All objects of a slab can be taken, one after the other. -/
theorem CacheInUse.takeAll (huse : CacheInUse n cache t [v]) (hbal : Balanced n t.live [v])
    (hn : 16 ≤ n) : ∃ t' v', (List.replicate v.free.length (CacheCall.alloc flags)).foldlM
        (CacheCall.apply cache) t = some t'
      ∧ CacheInUse n cache t' [v'] ∧ Balanced n t'.live [v'] ∧ v'.free = []
      ∧ ∀ o ∈ v.free ++ t.live, o ∈ t'.live := by
  generalize hk : v.free.length = k
  induction k generalizing t v with
  | zero =>
    have hnil := List.length_eq_zero_iff.mp hk
    exact ⟨t, v, rfl, huse, hbal, hnil, by simp [hnil]⟩
  | succ k ih =>
    obtain ⟨o, rest, hfree⟩ := List.exists_cons_of_length_eq_add_one hk
    have huse₀ : CacheInUse n cache t ([] ++ v :: []) := huse
    have hbal₀ : Balanced n t.live ([] ++ v :: []) := hbal
    obtain ⟨t', v', hrun, huse', hbal', hnil, hmem⟩ := ih (huse₀.take hn hfree t.pages)
      (hbal₀.take huse₀ hn hfree) (by rw [SlabView.take, List.length_tail, hk, Nat.add_sub_cancel])
    refine ⟨t', v', ?_, huse', hbal', hnil, fun x hx => hmem x ?_⟩
    · rw [List.replicate_succ, List.foldlM_cons, huse₀.apply_alloc hn (by simp) hfree]
      exact hrun
    · simp only [hfree, SlabView.take, List.tail_cons, List.cons_append, List.mem_cons,
        List.mem_append] at hx ⊢
      tauto

/-- The books of a cache just made are wrong in some memory, if the headers do not fit. -/
theorem exists_not_accounted (hsize : objectSize size alignment = n) (hn : 1 ≤ n) (hn' : n ≤ 512)
    (hfit : ¬ HeadersFit n) : ∃ s cache s₀, CacheMade size alignment [] s cache s₀
      ∧ ¬ Accounted n cache (madeState s cache s₀) := by
  obtain ⟨m, hmade, hbroken⟩ := exists_walk_broken hsize hn hn' hfit
  refine ⟨_, _, _, hmade, ?_⟩
  rintro ⟨slabs, hat, hbal⟩
  have hzero : ∀ v ∈ slabs, v.refcount = 0#32 := fun v hv =>
    BitVec.eq_of_toInt_eq (hbal.counts v hv)
  have hwalk := hbroken _ (hat.slabWalk hzero)
  obtain ⟨v, rfl, hv⟩ := List.map_eq_singleton_iff.mp hwalk
  have htotal := hbal.total
  have hmany : 7 ≤ 4072 / n := (Nat.le_div_iff_mul_le hn).mpr (by omega)
  simp [(Prod.mk.inj hv).2, madeState] at htotal
  omega

/-- **When the books of a cache are right all along a run**: exactly when every object freed belongs
to the first slab that has a free one, and the headers of its objects fit. -/
theorem accounted_iff (hsize : objectSize size alignment = n) (hn : 1 ≤ n) (hn' : n ≤ 512) :
    ((∀ held s cache s₀ calls, CacheMade size alignment held s cache s₀ →
        Guarded (CacheCall.apply cache) (FreesHome n cache) calls (madeState s cache s₀) →
        Always (CacheCall.apply cache) (Accounted n cache) calls (madeState s cache s₀))
      ↔ HeadersFit n)
    ∧ (16 ≤ n → ∀ cache t slabs calls, CacheInUse n cache t slabs → Balanced n t.live slabs →
      (Always (CacheCall.apply cache) (Accounted n cache) calls t
        ↔ Guarded (CacheCall.apply cache) (FreesHome n cache) calls t)) := by
  refine ⟨⟨fun hall => ?_, fun hfit held s cache s₀ calls hmade hguarded => ?_⟩,
    fun hsixteen cache t slabs calls huse hbal =>
      huse.always_accounted_iff hsixteen hn' hbal calls⟩
  · by_contra hfit
    obtain ⟨s, cache, s₀, hmade, hnot⟩ := exists_not_accounted hsize hn hn' hfit
    exact hnot (hall [] s cache s₀ [] hmade trivial)
  · obtain ⟨slabs, huse, hslabs⟩ := hmade.cacheInUse hsize hfit
    have hbal : Balanced n [] slabs := by
      rcases hslabs with rfl | ⟨p, rfl⟩
      · exact ⟨by simp, by simp⟩
      · exact balanced_freshSlab _ _
    exact (huse.always_accounted_iff hfit.1 hn' hbal calls).mpr hguarded

/-- An object taken and freed again… -/
theorem accounted_allocFree : ∃ s,
    kmemCacheCreate 0#64 512#64 0#32 ⟨fun _ => 0#8, [highPage 1, highPage 2], false⟩
        = some (highPage 1, s)
      ∧ Always (CacheCall.apply (highPage 1)) (Accounted 512 (highPage 1))
        [.alloc 0#32, .free (highPage 2)] ⟨s, [highPage 2], []⟩ := by
  obtain ⟨s, hcreate, -, -, huse⟩ := kmemCacheCreate_highPage (freshPages_nil _)
  refine ⟨s, hcreate,
    ((accounted_iff (show objectSize 512#64 0#32 = 512 by decide) (by decide) (by decide)).2
      (by decide) _ _ _ _ huse (balanced_freshSlab _ _)).mpr ?_⟩
  have huse₀ : CacheInUse 512 (highPage 1) ⟨s, [highPage 2], []⟩
      ([] ++ freshSlab 512 (highPage 2) :: []) := huse
  have hfree : (freshSlab 512 (highPage 2)).free
      = highPage 2 :: (freshSlab 512 (highPage 2)).free.tail := by decide
  refine Guarded.cons (huse₀.apply_alloc (by decide) (by simp) hfree) trivial
    fun s' _ => ⟨?_, trivial⟩
  exact ⟨_, _, (huse₀.take (by decide) hfree [highPage 2]).cacheAt,
    find?_first (by simp) (by decide), by decide⟩

/-- …and all objects taken, and one of them freed. -/
theorem not_accounted_takeAll : ∃ s,
    kmemCacheCreate 0#64 512#64 0#32 ⟨fun _ => 0#8, [highPage 1, highPage 2], false⟩
        = some (highPage 1, s)
      ∧ ¬ Always (CacheCall.apply (highPage 1)) (Accounted 512 (highPage 1))
        (List.replicate 7 (.alloc 0#32) ++ [.free (highPage 2)]) ⟨s, [highPage 2], []⟩ := by
  obtain ⟨s, hcreate, -, -, huse⟩ := kmemCacheCreate_highPage (freshPages_nil _)
  refine ⟨s, hcreate, fun halways => ?_⟩
  obtain ⟨t, v, hrun, huse', hbal, hfree, hmem⟩ := huse.takeAll (balanced_freshSlab _ _) (by decide)
  have hptr : highPage 2 ∈ t.live :=
    hmem _ (List.mem_append_left _ (show highPage 2 ∈ (freshSlab 512 (highPage 2)).free by decide))
  have hfull : ∀ u ∈ [v], u.free = [] := by simpa using hfree
  have hstep : (CacheCall.free (highPage 2)).apply (highPage 1) t
      = some ⟨t.vm, t.pages, t.live.erase (highPage 2)⟩ := by
    rw [CacheCall.apply, if_pos hptr, SlabEvent.apply, huse'.kmemCacheFree_full hfull]
    rfl
  exact not_accounted_full huse' hbal hptr t.pages ((halways.after hrun).2 _ hstep)

end NewSlab

end MoonOS

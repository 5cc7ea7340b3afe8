import MoonOS.Lib.LinkedMemory
import MoonOS.Mm.Bufctls

/-!
# Mm/SlabList — a slab cache as lists of slabs and objects

What a cache is *for* is a list of slabs, each with the objects it has to give away and a count of
those it gave (`SlabView`).  `CacheAt` relates that to memory: the slabs hang together from the
cache's `nodes`, and the free objects of each from its `freelist`.

Everything a cache owns is addressed by a page and an offset in it, so what one write leaves alone
is decided by `load_store_page`.  On top of it are the walks of the source, as searches in the list:
`CacheAt.slabTail`, `CacheAt.slabWithFree_full` and `CacheAt.slabWithFree_first`.
-/

namespace MoonOS

open ByteMemory

/-! ## Pages and objects -/

/-- The start of a page, as `arch_alloc_page` answers it. -/
structure PageStart (p : BitVec 64) : Prop where
  aligned : 4096 ∣ p.toNat
  ne_zero : p ≠ 0#64

/-- An object slot of a page. -/
def SlotOf (n : ℕ) (page ptr : BitVec 64) : Prop := ∃ i < 4072 / n, ptr = at' page (n * i)

/-- A slab: its page, the objects on its free list, and its `refcount`. -/
structure SlabView where
  page : BitVec 64
  free : List (BitVec 64)
  refcount : BitVec 32
deriving DecidableEq, Repr

/-- Where the `struct slab` is. -/
def SlabView.addr (v : SlabView) : BitVec 64 := at' v.page 4064

/-- A slab nothing has been taken from. -/
def freshSlab (n : ℕ) (p : BitVec 64) : SlabView :=
  ⟨p, (List.range (4072 / n)).map fun i => at' p (n * i), 0#32⟩

/-- **A slab in memory**: its free list, its count, and in each free object the object's address. -/
structure SlabAt (m : Mem) (v : SlabView) : Prop where
  freelist : Linked m (load m (at' v.page 4080) 8) v.free
  refcount : load m (at' v.page 4088) 4 = v.refcount
  self : ∀ o ∈ v.free, load m (at' o 8) 8 = o

/-- **A cache of objects of `n` bytes in memory**, with its slabs. -/
structure CacheAt (n : ℕ) (cache : BitVec 64) (m : Mem) (slabs : List SlabView) : Prop where
  size : load m (at' cache 0) 4 = BitVec.ofNat 32 n
  objects : load m (at' cache 4) 4 = 4072#32
  nodes : Linked m (load m (at' cache 16) 8) (slabs.map SlabView.addr)
  slab : ∀ v ∈ slabs, SlabAt m v

/-- The pages of a cache are pages, all different, and its free objects are slots of them. -/
structure CacheShape (n : ℕ) (cache : BitVec 64) (slabs : List SlabView) : Prop where
  cachePage : PageStart cache
  page : ∀ v ∈ slabs, PageStart v.page ∧ v.page ≠ cache
  distinct : (slabs.map SlabView.page).Nodup
  slot : ∀ v ∈ slabs, ∀ o ∈ v.free, IsSlot n (slabs.map SlabView.page) o

/-- What is assumed of `arch_alloc_page`: it answers with pages not in use, and with none twice. -/
structure FreshPages (frames used : List (BitVec 64)) : Prop where
  page : ∀ f ∈ frames, f ≠ 0#64 → PageStart f
  unused : ∀ f ∈ frames, f ≠ 0#64 → f ∉ used
  distinct : (frames.filter (· ≠ 0#64)).Nodup

section Pages

variable {p q cache o : BitVec 64} {m m' : Mem} {n i j k l : ℕ} {slabs : List SlabView}
  {frames used : List (BitVec 64)}

theorem PageStart.fits (hp : PageStart p) : p.toNat + 4096 ≤ 2 ^ 64 := by
  obtain ⟨r, hr⟩ := hp.aligned
  have := p.isLt
  omega

theorem PageStart.toNat_at (hp : PageStart p) (hi : i < 4096) : (at' p i).toNat = p.toNat + i := by
  have := hp.fits
  exact toNat_at' (by omega)

theorem PageStart.at_ne_zero (hp : PageStart p) (hi : i < 4096) : at' p i ≠ 0#64 := by
  intro h
  have hnat := congrArg BitVec.toNat h
  rw [hp.toNat_at hi] at hnat
  exact hp.ne_zero (BitVec.eq_of_toNat_eq (Nat.add_eq_zero_iff.mp hnat).1)

theorem PageStart.addr_ne_zero {v : SlabView} (hp : PageStart v.page) : v.addr ≠ 0#64 :=
  hp.at_ne_zero (by decide)

/-- Two addresses on pages are one only if page and offset are. -/
theorem PageStart.at_inj (hp : PageStart p) (hq : PageStart q) (hi : i < 4096) (hj : j < 4096)
    (h : at' p i = at' q j) : p = q ∧ i = j := by
  have hnat := congrArg BitVec.toNat h
  rw [hp.toNat_at hi, hq.toNat_at hj] at hnat
  obtain ⟨r, hr⟩ := hp.aligned
  obtain ⟨t, ht⟩ := hq.aligned
  exact ⟨BitVec.eq_of_toNat_eq (by omega), by omega⟩

/-- **A word on one page is not seen from another**, nor from beside it. -/
theorem load_store_page (hp : PageStart p) (hq : PageStart q) (hi : i + l ≤ 4096)
    (hj : j + k ≤ 4096) (h : p ≠ q ∨ i + l ≤ j ∨ j + k ≤ i) (v : BitVec (8 * l)) :
    load (store m (at' p i) l v) (at' q j) k = load m (at' q j) k :=
  load_store_block (B := 4096) ⟨2 ^ 52, by decide⟩ hp.aligned hq.aligned hi hj h v

/-- What changed one page only is not seen from another. -/
theorem load_of_sameOutside (h : SameOutside p 4096 m m') (hp : PageStart p) (hq : PageStart q)
    (hne : q ≠ p) (hj : j + k ≤ 4096) : load m' (at' q j) k = load m (at' q j) k := by
  have hapart : Apart (at' q j) k (at' p 0) 4096 :=
    apart_blocks (B := 4096) ⟨2 ^ 52, by decide⟩ hq.aligned hp.aligned hne hj (by omega)
  rw [at'_zero] at hapart
  exact h.load hapart

/-- Two objects on one page are an object apart. -/
theorem mul_add_le_of_lt (h : i < j) : n * i + n ≤ n * j := by
  rw [← Nat.mul_succ]
  exact Nat.mul_le_mul_left n h

/-- The slots of a page end before the last 24 bytes. -/
theorem slot_le (hi : i < 4072 / n) : n * i + n ≤ 4072 :=
  (mul_add_le_of_lt hi).trans (Nat.mul_div_le _ _)

theorem SlotOf.ne_zero (h : SlotOf n p o) (hp : PageStart p) (hn : 1 ≤ n) : o ≠ 0#64 := by
  obtain ⟨i, hi, rfl⟩ := h
  have := slot_le hi
  exact hp.at_ne_zero (by omega)

theorem FreshPages.tail (h : FreshPages (p :: frames) used) : FreshPages frames used where
  page f hf := h.page f (List.mem_cons_of_mem p hf)
  unused f hf := h.unused f (List.mem_cons_of_mem p hf)
  distinct := h.distinct.sublist ((List.sublist_cons_self p frames).filter _)

/-- Once a page is taken it is in use. -/
theorem FreshPages.cons (h : FreshPages (p :: frames) used) (hp : p ≠ 0#64) :
    FreshPages frames (p :: used) where
  page := h.tail.page
  unused f hf hf0 := by
    have hnodup := h.distinct
    rw [List.filter_cons_of_pos (by simpa using hp), List.nodup_cons] at hnodup
    rw [List.mem_cons, not_or]
    refine ⟨?_, h.tail.unused f hf hf0⟩
    rintro rfl
    exact hnodup.1 (List.mem_filter.mpr ⟨hf, by simpa using hf0⟩)
  distinct := h.tail.distinct

theorem FreshPages.of_subset {used' : List (BitVec 64)} (h : FreshPages frames used)
    (hsub : used' ⊆ used) : FreshPages frames used' :=
  ⟨h.page, fun f hf hf0 hmem => h.unused f hf hf0 (hsub hmem), h.distinct⟩

/-- The page at hand, where there is one. -/
theorem FreshPages.head (h : FreshPages frames used) (hhead : frames.headD 0#64 ≠ 0#64) :
    ∃ p fs, frames = p :: fs ∧ PageStart p ∧ p ∉ used ∧ FreshPages fs (p :: used) := by
  cases frames with
  | nil => exact absurd rfl hhead
  | cons p fs =>
    have hp : p ≠ 0#64 := hhead
    exact ⟨p, fs, rfl, h.page p List.mem_cons_self hp, h.unused p List.mem_cons_self hp,
      h.cons hp⟩

theorem CacheShape.pageStart (h : CacheShape n cache slabs)
    (hq : q ∈ cache :: slabs.map SlabView.page) : PageStart q := by
  rcases List.mem_cons.mp hq with rfl | hq
  · exact h.cachePage
  · obtain ⟨v, hv, rfl⟩ := List.mem_map.mp hq
    exact (h.page v hv).1

theorem CacheShape.length_lt (h : CacheShape n cache slabs) : slabs.length < 2 ^ 64 := by
  have hnodup : (0#64 :: slabs.map SlabView.page).Nodup := by
    refine List.nodup_cons.mpr ⟨fun hmem => ?_, h.distinct⟩
    obtain ⟨v, hv, hzero⟩ := List.mem_map.mp hmem
    exact (h.page v hv).1.ne_zero hzero
  have hinj : Function.Injective (BitVec.toFin : BitVec 64 → Fin (2 ^ 64)) :=
    fun _ _ h => BitVec.eq_of_toFin_eq h
  have hfin := (hnodup.map hinj).length_le_card
  simp only [List.length_map, List.length_cons, Fintype.card_fin] at hfin
  omega

end Pages

/-! ## Frames -/

section Frames

variable {n : ℕ} {cache : BitVec 64} {m m' : Mem} {v : SlabView} {slabs : List SlabView}

/-- What leaves the words of a slab's header and of its free objects alone keeps the slab. -/
theorem SlabAt.congr (h : SlabAt m v)
    (hfree : load m' (at' v.page 4080) 8 = load m (at' v.page 4080) 8)
    (hcount : load m' (at' v.page 4088) 4 = load m (at' v.page 4088) 4)
    (hobj : ∀ o ∈ v.free, load m' o 8 = load m o 8 ∧ load m' (at' o 8) 8 = load m (at' o 8) 8) :
    SlabAt m' v where
  freelist := by
    rw [hfree]
    exact h.freelist.congr fun o ho => (hobj o ho).1
  refcount := by rw [hcount, h.refcount]
  self o ho := by rw [(hobj o ho).2, h.self o ho]

/-- **What leaves the pages of a cache alone keeps the cache.** -/
theorem CacheAt.congr (h : CacheAt n cache m slabs) (hshape : CacheShape n cache slabs)
    (hn : 1 ≤ n) (hsame : ∀ q ∈ cache :: slabs.map SlabView.page, ∀ j k, j + k ≤ 4096 →
      load m' (at' q j) k = load m (at' q j) k) : CacheAt n cache m' slabs := by
  have hcache : ∀ j k, j + k ≤ 4096 → load m' (at' cache j) k = load m (at' cache j) k :=
    hsame cache List.mem_cons_self
  have hpage : ∀ v ∈ slabs, ∀ j k, j + k ≤ 4096 →
      load m' (at' v.page j) k = load m (at' v.page j) k :=
    fun v hv => hsame v.page (List.mem_cons_of_mem _ (List.mem_map_of_mem hv))
  refine ⟨?_, ?_, ?_, fun v hv => (h.slab v hv).congr ?_ ?_ fun o ho => ?_⟩
  · rw [hcache 0 4 (by omega), h.size]
  · rw [hcache 4 4 (by omega), h.objects]
  · rw [hcache 16 8 (by omega)]
    refine h.nodes.congr fun a ha => ?_
    obtain ⟨v, hv, rfl⟩ := List.mem_map.mp ha
    exact hpage v hv 4064 8 (by omega)
  · exact hpage v hv 4080 8 (by omega)
  · exact hpage v hv 4088 4 (by omega)
  · obtain ⟨q, hq, i, hi, rfl⟩ := hshape.slot v hv o ho
    have hle := slot_le hi
    rw [at'_at']
    exact ⟨hsame q (List.mem_cons_of_mem _ hq) _ 8 (by omega),
      hsame q (List.mem_cons_of_mem _ hq) _ 8 (by omega)⟩

theorem CacheAt.of_sameOutside {p : BitVec 64} (h : CacheAt n cache m slabs)
    (hshape : CacheShape n cache slabs) (hn : 1 ≤ n) (hp : PageStart p)
    (hfresh : p ∉ cache :: slabs.map SlabView.page) (hsame : SameOutside p 4096 m m') :
    CacheAt n cache m' slabs := by
  refine h.congr hshape hn fun q hq j k hj => ?_
  exact load_of_sameOutside hsame hp (hshape.pageStart hq) (by rintro rfl; exact hfresh hq) hj

end Frames

/-! ## Walks -/

section Walks

variable {n : ℕ} {cache a : BitVec 64} {m : Mem} {v : SlabView} {slabs pre post : List SlabView}

/-- Where the walk to the last slab ends, there is a null link. -/
theorem load_slabTail {fuel : ℕ} {tail t : BitVec 64} (ha : a ≠ 0#64)
    (h : slabTail m fuel a tail = some t) : load m t 8 = 0#64 := by
  induction fuel generalizing a tail with
  | zero => cases h
  | succ fuel ih =>
    rw [slabTail, if_neg ha] at h
    by_cases hnext : load m a 8 = 0#64
    · cases fuel with
      | zero => cases h
      | succ fuel =>
        rw [slabTail, if_pos hnext] at h
        obtain rfl := Option.some.inj h
        exact hnext
    · exact ih hnext h

theorem slabTail_of_linked {l : List (BitVec 64)} (h : Linked m a l) {fuel : ℕ}
    (hfuel : l.length < fuel) (tail : BitVec 64) :
    slabTail m fuel a tail = some (l.getLastD tail) := by
  induction l generalizing a fuel tail with
  | nil =>
    obtain ⟨fuel, rfl⟩ := Nat.exists_eq_add_of_lt hfuel
    obtain rfl := h
    simp [slabTail]
  | cons b l ih =>
    obtain ⟨rfl, hb, hrest⟩ := h
    rw [List.length_cons] at hfuel
    obtain ⟨fuel, rfl⟩ : ∃ f, fuel = f + 1 := ⟨fuel - 1, by omega⟩
    rw [slabTail, if_neg hb, ih hrest (by omega), List.getLastD_cons]

/-- **The last slab of a list is found.** -/
theorem CacheAt.slabTail (h : CacheAt n cache m slabs) (hshape : CacheShape n cache slabs) :
    ∃ tail, MoonOS.slabTail m (2 ^ 64) (load m (at' cache 16) 8) 0#64 = some tail := by
  exact ⟨_, slabTail_of_linked h.nodes (by rw [List.length_map]; exact hshape.length_lt) 0#64⟩

theorem slabWithFree_head {slab : BitVec 64} (fuel : ℕ) (h0 : slab ≠ 0#64)
    (h : load m (at' slab 16) 8 ≠ 0#64) : slabWithFree m (fuel + 1) slab = some slab := by
  rw [slabWithFree, if_neg h0, if_pos h]

theorem slabWithFree_next {slab : BitVec 64} (fuel : ℕ) (h0 : slab ≠ 0#64)
    (h : load m (at' slab 16) 8 = 0#64) :
    slabWithFree m (fuel + 1) slab = slabWithFree m fuel (load m slab 8) := by
  rw [slabWithFree, if_neg h0, if_neg (not_not_intro h)]

/-- A slab with an empty free list is passed over. -/
theorem slabWithFree_skip (hfull : ∀ u ∈ pre, u.free = []) (hslab : ∀ u ∈ pre, SlabAt m u)
    {l : List (BitVec 64)} (h : Linked m a (pre.map SlabView.addr ++ l)) (fuel : ℕ) :
    ∃ b, Linked m b l ∧ slabWithFree m (pre.length + fuel) a = slabWithFree m fuel b := by
  induction pre generalizing a with
  | nil => exact ⟨a, h, by simp⟩
  | cons u pre ih =>
    obtain ⟨rfl, hu, hrest⟩ := h
    have hempty : load m (at' u.addr 16) 8 = 0#64 := by
      have hlist := (hslab u List.mem_cons_self).freelist
      rw [hfull u List.mem_cons_self] at hlist
      rw [SlabView.addr, at'_at']
      exact hlist
    obtain ⟨b, hb, hwalk⟩ := ih (fun w hw => hfull w (List.mem_cons_of_mem _ hw))
      (fun w hw => hslab w (List.mem_cons_of_mem _ hw)) hrest
    refine ⟨b, hb, ?_⟩
    rw [List.length_cons, show pre.length + 1 + fuel = pre.length + fuel + 1 by omega,
      slabWithFree_next _ hu hempty, hwalk]

theorem CacheAt.nodes_ne_zero (h : CacheAt n cache m slabs) (hne : slabs ≠ []) :
    load m (at' cache 16) 8 ≠ 0#64 := by
  rw [ne_eq, h.nodes.eq_zero_iff]
  simpa using hne

/-- **On a full cache no slab is found…** -/
theorem CacheAt.slabWithFree_full (h : CacheAt n cache m slabs) (hshape : CacheShape n cache slabs)
    (hfull : ∀ v ∈ slabs, v.free = []) :
    slabWithFree m (2 ^ 64) (load m (at' cache 16) 8) = some 0#64 := by
  have hlen := hshape.length_lt
  obtain ⟨b, hb, hwalk⟩ := slabWithFree_skip (l := []) hfull h.slab (by simpa using h.nodes)
    (2 ^ 64 - slabs.length - 1 + 1)
  obtain rfl := hb
  rw [show 2 ^ 64 = slabs.length + (2 ^ 64 - slabs.length - 1 + 1) by omega, hwalk, slabWithFree,
    if_pos rfl]

/-- …and otherwise the first one with a free object. -/
theorem CacheAt.slabWithFree_first (h : CacheAt n cache m (pre ++ v :: post))
    (hshape : CacheShape n cache (pre ++ v :: post)) (hfull : ∀ u ∈ pre, u.free = [])
    (hfree : v.free ≠ []) :
    slabWithFree m (2 ^ 64) (load m (at' cache 16) 8) = some v.addr := by
  have hlen := hshape.length_lt
  rw [List.length_append, List.length_cons] at hlen
  have hslab : ∀ u ∈ pre, SlabAt m u := fun u hu => h.slab u (by simp [hu])
  have hnodes := h.nodes
  rw [List.map_append] at hnodes
  obtain ⟨b, hb, hwalk⟩ := slabWithFree_skip hfull hslab hnodes (2 ^ 64 - pre.length - 1 + 1)
  obtain ⟨rfl, hv, -⟩ := hb
  have hlist := (h.slab v (by simp)).freelist
  have hsome : load m (at' v.addr 16) 8 ≠ 0#64 := by
    rw [SlabView.addr, at'_at', ne_eq, hlist.eq_zero_iff]
    exact hfree
  rw [show 2 ^ 64 = pre.length + (2 ^ 64 - pre.length - 1 + 1) by omega, hwalk,
    slabWithFree_head _ hv hsome]

/-- A cache is full, or has a first slab with a free object. -/
theorem full_or_first (slabs : List SlabView) : (∀ v ∈ slabs, v.free = [])
    ∨ ∃ pre v post, slabs = pre ++ v :: post ∧ (∀ u ∈ pre, u.free = []) ∧ v.free ≠ [] := by
  induction slabs with
  | nil => exact .inl (by simp)
  | cons v slabs ih =>
    by_cases hv : v.free = []
    · rcases ih with hfull | ⟨pre, w, post, rfl, hpre, hw⟩
      · exact .inl (List.forall_mem_cons.mpr ⟨hv, hfull⟩)
      · exact .inr ⟨v :: pre, w, post, rfl, List.forall_mem_cons.mpr ⟨hv, hpre⟩, hw⟩
    · exact .inr ⟨[], v, slabs, rfl, by simp, hv⟩

end Walks

end MoonOS

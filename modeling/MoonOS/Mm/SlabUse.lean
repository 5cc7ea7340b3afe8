import MoonOS.Mm.SlabGrow

/-!
# Mm/SlabUse — allocating from a slab cache and freeing to it

`kmem_cache_alloc` takes the first object of the first slab that has one, and counts it there.
`kmem_cache_free` counts down and puts the object back at the first slab that has a free object,
whichever slab the object is from; if there is none, the object is not put back at all.

* `CacheInUse` — a cache with any number of slabs, its objects free or handed out;
* `CacheInUse.alloc_cases`, `CacheInUse.free_cases` — what the two calls do to it.
-/

namespace MoonOS

open ByteMemory

/-! ## Objects and pages -/

section Slots

variable {p q o o' : BitVec 64} {n : ℕ}

theorem SlotOf.on_page (h : SlotOf n p o) (hn : 1 ≤ n) : (o - p).toNat < 4096 := by
  obtain ⟨i, hi, rfl⟩ := h
  have := slot_le hi
  rw [toNat_at'_sub _ (by omega)]
  omega

theorem SlotOf.off_page (h : SlotOf n q o) (hp : PageStart p) (hq : PageStart q) (hne : q ≠ p)
    (hn : 1 ≤ n) : ¬ (o - p).toNat < 4096 := by
  obtain ⟨i, hi, rfl⟩ := h
  have := slot_le hi
  have hapart : Apart (at' q (n * i)) 1 (at' p 0) 4096 :=
    apart_blocks (B := 4096) ⟨2 ^ 52, by decide⟩ hq.aligned hp.aligned hne (by omega) (by omega)
  have hfar := hapart 0 (by decide)
  rw [at'_zero, at'_zero] at hfar
  omega

/-- A word of a slab's header, or the first word of an object, is not the address in another. -/
theorem load_slot_self {m : Mem} {j k : ℕ} (hn : 16 ≤ n) (hp : PageStart p) (hq : PageStart q)
    (h : SlotOf n q o) (hj : 4080 ≤ j) (hk : j + k ≤ 4096) (v : BitVec (8 * k)) :
    load (store m (at' p j) k v) o 8 = load m o 8
      ∧ load (store m (at' p j) k v) (at' o 8) 8 = load m (at' o 8) 8 := by
  obtain ⟨i, hi, rfl⟩ := h
  have hle := slot_le hi
  rw [at'_at']
  exact ⟨load_store_page hp hq hk (by omega) (.inr (.inr (by omega))) v,
    load_store_page hp hq hk (by omega) (.inr (.inr (by omega))) v⟩

theorem load_slot_slot {m : Mem} (hn : 16 ≤ n) (hp : PageStart p) (hq : PageStart q)
    (ho : SlotOf n p o) (ho' : SlotOf n q o') (v : BitVec (8 * 8)) :
    (o ≠ o' → load (store m o 8 v) o' 8 = load m o' 8)
      ∧ load (store m o 8 v) (at' o' 8) 8 = load m (at' o' 8) 8 := by
  obtain ⟨i, hi, rfl⟩ := ho
  obtain ⟨j, hj, rfl⟩ := ho'
  have hile := slot_le hi
  have hjle := slot_le hj
  have hapart : p ≠ q ∨ i = j ∨ n * i + n ≤ n * j ∨ n * j + n ≤ n * i := by
    rcases Nat.lt_trichotomy i j with h | h | h
    · exact .inr (.inr (.inl (mul_add_le_of_lt h)))
    · exact .inr (.inl h)
    · exact .inr (.inr (.inr (mul_add_le_of_lt h)))
  constructor
  · intro hne
    refine load_store_page hp hq (by omega) (by omega) ?_ v
    rcases hapart with h | rfl | h | h
    · exact .inl h
    · exact .inl fun hpq => hne (by rw [hpq])
    · exact .inr (.inl (by omega))
    · exact .inr (.inr (by omega))
  · rw [at'_at']
    refine load_store_page hp hq (by omega) (by omega) ?_ v
    rcases hapart with h | rfl | h | h
    · exact .inl h
    · exact .inr (.inl (by omega))
    · exact .inr (.inl (by omega))
    · exact .inr (.inr (by omega))

end Slots

/-! ## Taking and giving back an object -/

/-- The memory after `kmem_cache_free` has put an object back at the slab on `page`. -/
def giveBufctl (m : Mem) (page ptr : BitVec 64) : Mem :=
  let m := store m (at' page 4088) 4 (load m (at' page 4088) 4 - 1#32)
  let m := store m ptr 8 (load m (at' page 4080) 8)
  store m (at' page 4080) 8 ptr

/-- The slab an object was taken from… -/
def SlabView.take (v : SlabView) : SlabView := ⟨v.page, v.free.tail, v.refcount + 1#32⟩

/-- …and one an object was put back to. -/
def SlabView.give (v : SlabView) (ptr : BitVec 64) : SlabView :=
  ⟨v.page, ptr :: v.free, v.refcount - 1#32⟩

section OneSlabView

variable {n : ℕ} {m : Mem} {v : SlabView} {ptr q r x : BitVec 64}

theorem takeBufctl_addr (m : Mem) (v : SlabView) : takeBufctl m v.addr
    = (load m (at' (load m (at' v.page 4080) 8) 8) 8,
      store (store m (at' v.page 4080) 8 (load m (load m (at' v.page 4080) 8) 8))
        (at' v.page 4088) 4 (load m (at' v.page 4088) 4 + 1#32)) := by
  simp (disch := omega) only [takeBufctl, SlabView.addr, at'_at', load_store_at']

theorem sameOutside_takeBufctl (m : Mem) (v : SlabView) :
    SameOutside v.page 4096 m (takeBufctl m v.addr).2 := by
  rw [takeBufctl_addr]
  exact ((SameOutside.refl _ _ m).store (by decide) _).store (by decide) _

theorem sameOutside_giveBufctl (m : Mem) (hslot : SlotOf n v.page ptr) (hn : 16 ≤ n) :
    SameOutside v.page 4096 m (giveBufctl m v.page ptr) := by
  obtain ⟨i, hi, rfl⟩ := hslot
  have := slot_le hi
  exact (((SameOutside.refl _ _ m).store (by decide) _).store (by omega) _).store (by decide) _

/-- Neither word of an object is touched when one is taken… -/
theorem load_takeBufctl (hn : 16 ≤ n) (hp : PageStart v.page) (hq : PageStart q)
    (hx : SlotOf n q x) : load (takeBufctl m v.addr).2 x 8 = load m x 8
      ∧ load (takeBufctl m v.addr).2 (at' x 8) 8 = load m (at' x 8) 8 := by
  rw [takeBufctl_addr]
  obtain ⟨h₁, h₂⟩ := load_slot_self (m := m) hn hp hq hx (j := 4080) (k := 8) (by decide)
    (by decide) (load m (load m (at' v.page 4080) 8) 8)
  obtain ⟨h₃, h₄⟩ := load_slot_self hn hp hq hx (j := 4088) (k := 4) (by decide) (by decide) _
  exact ⟨h₃.trans h₁, h₄.trans h₂⟩

/-- …and only the first word of the one put back when one is. -/
theorem load_giveBufctl (hn : 16 ≤ n) (hp : PageStart v.page) (hr : PageStart r)
    (hslot : SlotOf n r ptr) (hq : PageStart q) (hx : SlotOf n q x) :
    (ptr ≠ x → load (giveBufctl m v.page ptr) x 8 = load m x 8)
      ∧ load (giveBufctl m v.page ptr) (at' x 8) 8 = load m (at' x 8) 8 := by
  obtain ⟨h₁, h₂⟩ := load_slot_self (m := m) hn hp hq hx (j := 4088) (k := 4) (by decide)
    (by decide) (load m (at' v.page 4088) 4 - 1#32)
  obtain ⟨h₃, h₄⟩ := load_slot_slot hn hr hq hslot hx _
  obtain ⟨h₅, h₆⟩ := load_slot_self hn hp hq hx (j := 4080) (k := 8) (by decide) (by decide) ptr
  exact ⟨fun hne => h₅.trans ((h₃ hne).trans h₁), h₆.trans (h₄.trans h₂)⟩

/-- The header of the slab an object is put back to. -/
theorem load_giveBufctl_header (hn : 16 ≤ n) (hp : PageStart v.page) (hr : PageStart r)
    (hslot : SlotOf n r ptr) : load (giveBufctl m v.page ptr) (at' v.page 4080) 8 = ptr
      ∧ load (giveBufctl m v.page ptr) (at' v.page 4088) 4 = load m (at' v.page 4088) 4 - 1#32
      ∧ load (giveBufctl m v.page ptr) ptr 8 = load m (at' v.page 4080) 8 := by
  have hfar : ∀ (m : Mem) w, load (store m (at' v.page 4080) 8 w) ptr 8 = load m ptr 8 :=
    fun m w => (load_slot_self hn hp hr hslot (by decide) (by decide) w).1
  obtain ⟨i, hi, rfl⟩ := hslot
  have hle := slot_le hi
  refine ⟨load_store_same _ _ (by decide) _, ?_, ?_⟩
  · rw [giveBufctl, load_store_at' _ (by decide) (by decide) (by decide),
      load_store_page hr hp (by omega) (by omega) (.inr (.inl (by omega))),
      load_store_same _ _ (by decide)]
  · rw [giveBufctl, hfar, load_store_same _ _ (by decide),
      load_store_at' _ (by decide) (by decide) (by decide)]

/-- No slab's link is touched, whichever slab the object is from. -/
theorem load_giveBufctl_link (hn : 16 ≤ n) (hp : PageStart v.page) (hr : PageStart r)
    (hslot : SlotOf n r ptr) (hq : PageStart q) :
    load (giveBufctl m v.page ptr) (at' q 4064) 8 = load m (at' q 4064) 8 := by
  obtain ⟨i, hi, rfl⟩ := hslot
  have hle := slot_le hi
  rw [giveBufctl, load_store_page hp hq (by decide) (by decide) (.inr (.inr (by decide))),
    load_store_page hr hq (by omega) (by decide) (.inr (.inl (by omega))),
    load_store_page hp hq (by decide) (by decide) (.inr (.inr (by decide)))]

theorem load_giveBufctl_cache {cache : BitVec 64} {j k : ℕ} (hp : PageStart v.page)
    (hr : PageStart r) (hslot : SlotOf n r ptr) (hcache : PageStart cache) (hvc : v.page ≠ cache)
    (hrc : r ≠ cache) (hn : 16 ≤ n) (hj : j + k ≤ 4096) :
    load (giveBufctl m v.page ptr) (at' cache j) k = load m (at' cache j) k := by
  obtain ⟨i, hi, rfl⟩ := hslot
  have hle := slot_le hi
  rw [giveBufctl, load_store_page hp hcache (by decide) hj (.inl hvc),
    load_store_page hr hcache (by omega) hj (.inl hrc),
    load_store_page hp hcache (by decide) hj (.inl hvc)]

/-- **The first free object is taken**: what is returned is its address, and the others are left. -/
theorem SlabAt.take (h : SlabAt m v) (hn : 16 ≤ n) (hp : PageStart v.page)
    (hhome : ∀ o ∈ v.free, SlotOf n v.page o) {rest : List (BitVec 64)}
    (hfree : v.free = x :: rest) :
    (takeBufctl m v.addr).1 = x ∧ SlabAt (takeBufctl m v.addr).2 v.take := by
  have hlist := h.freelist
  rw [hfree] at hlist
  obtain ⟨hhead, -, hrest⟩ := hlist
  have hmem : ∀ o ∈ rest, o ∈ v.free := fun o ho => hfree ▸ List.mem_cons_of_mem x ho
  have hword := fun o ho => load_takeBufctl (m := m) hn hp hp (hhome o (hmem o ho))
  refine ⟨?_, ?_, ?_, ?_⟩
  · rw [takeBufctl_addr, hhead]
    exact h.self x (hfree ▸ List.mem_cons_self)
  · rw [SlabView.take, hfree, List.tail_cons]
    have hnext : load (takeBufctl m v.addr).2 (at' v.page 4080) 8 = load m x 8 := by
      rw [takeBufctl_addr, load_store_at' _ (by decide) (by decide) (by decide),
        load_store_same _ _ (by decide), hhead]
    rw [hnext]
    exact hrest.congr fun o ho => (hword o ho).1
  · rw [SlabView.take, takeBufctl_addr, load_store_same _ _ (by decide), h.refcount]
  · rw [SlabView.take, hfree, List.tail_cons]
    intro o ho
    rw [(hword o ho).2, h.self o (hmem o ho)]

/-- **An object is put back** at the head of the free list of its own slab. -/
theorem SlabAt.give (h : SlabAt m v) (hn : 16 ≤ n) (hp : PageStart v.page)
    (hhome : ∀ o ∈ v.free, SlotOf n v.page o) (hslot : SlotOf n v.page ptr) (hout : ptr ∉ v.free)
    (hself : load m (at' ptr 8) 8 = ptr) : SlabAt (giveBufctl m v.page ptr) (v.give ptr) := by
  obtain ⟨hhead, hcount, hnext⟩ := load_giveBufctl_header (m := m) hn hp hp hslot
  have hword := fun o ho => load_giveBufctl (m := m) hn hp hp hslot hp (hhome o ho)
  refine ⟨⟨hhead, hslot.ne_zero hp (by omega), ?_⟩, ?_, ?_⟩
  · rw [hnext]
    exact h.freelist.congr fun o ho => (hword o ho).1 fun heq => hout (heq ▸ ho)
  · rw [SlabView.give, hcount, h.refcount]
  · rintro o ho
    rcases List.mem_cons.mp ho with rfl | ho
    · rw [(load_giveBufctl hn hp hp hslot hp hslot).2, hself]
    · rw [(hword o ho).2, h.self o ho]

end OneSlabView

/-! ## A cache in use -/

/-- **A cache in use**: any number of slabs, each with free objects of its own page, and objects
handed out, all of them different and each with its address in it. -/
structure CacheInUse (n : ℕ) (cache : BitVec 64) (t : SlabState) (slabs : List SlabView) :
    Prop where
  cacheAt : CacheAt n cache t.vm.mem slabs
  shape : CacheShape n cache slabs
  home : ∀ v ∈ slabs, ∀ o ∈ v.free, SlotOf n v.page o
  live : ∀ o ∈ t.live, IsSlot n (slabs.map SlabView.page) o ∧ load t.vm.mem (at' o 8) 8 = o
  distinct : (slabs.flatMap SlabView.free ++ t.live).Nodup
  fresh : FreshPages t.vm.frames (cache :: slabs.map SlabView.page)

section InUse

variable {n : ℕ} {cache ptr o : BitVec 64} {m m' : Mem} {t : SlabState} {v v' : SlabView}
  {slabs slabs' pre post : List SlabView} {s' : Vm}

/-- **Memory determines the slabs.** -/
theorem CacheAt.unique (h : CacheAt n cache m slabs) (h' : CacheAt n cache m slabs') :
    slabs = slabs' := by
  have hmap := h.nodes.unique h'.nodes
  have hslab := h.slab
  have hslab' := h'.slab
  clear h h'
  induction slabs generalizing slabs' with
  | nil => simpa using hmap.symm
  | cons v slabs ih =>
    cases slabs' with
    | nil => cases hmap
    | cons w slabs' =>
      obtain ⟨haddr, hrest⟩ := List.cons_eq_cons.mp hmap
      have hpage : v.page = w.page := (BitVec.add_left_inj _).mp haddr
      have hv := hslab v List.mem_cons_self
      have hw := hslab' w List.mem_cons_self
      have hlist := hv.freelist
      have hcount := hv.refcount
      rw [hpage] at hlist hcount
      obtain rfl : v = w := by
        obtain ⟨page, free, refcount⟩ := v
        obtain ⟨page', free', refcount'⟩ := w
        obtain rfl : page = page' := hpage
        obtain rfl : free = free' := hlist.unique hw.freelist
        obtain rfl : refcount = refcount' := hcount.symm.trans hw.refcount
        rfl
      rw [ih hrest (fun u hu => hslab u (List.mem_cons_of_mem v hu))
        (fun u hu => hslab' u (List.mem_cons_of_mem v hu))]

/-- The other slabs are on other pages. -/
theorem CacheShape.other (h : CacheShape n cache (pre ++ v :: post)) {u : SlabView}
    (hu : u ∈ pre ∨ u ∈ post) : u ∈ pre ++ v :: post ∧ u.page ≠ v.page := by
  have hdistinct := h.distinct
  rw [List.map_append, List.map_cons, List.nodup_middle, List.nodup_cons, ← List.map_append]
    at hdistinct
  refine ⟨by simp only [List.mem_append, List.mem_cons]; tauto, fun heq => hdistinct.1 ?_⟩
  rw [← heq]
  exact List.mem_map_of_mem (List.mem_append.mpr hu)

/-- **What changes one slab's page only changes that slab only.** -/
theorem CacheAt.update (h : CacheAt n cache m (pre ++ v :: post))
    (hshape : CacheShape n cache (pre ++ v :: post)) (hn : 1 ≤ n)
    (hhome : ∀ u ∈ pre ++ v :: post, ∀ o ∈ u.free, SlotOf n u.page o)
    (hsame : SameOutside v.page 4096 m m') (hlink : load m' v.addr 8 = load m v.addr 8)
    (hpage : v'.page = v.page) (hslab : SlabAt m' v') : CacheAt n cache m' (pre ++ v' :: post) := by
  have hv : v ∈ pre ++ v :: post := by simp
  have hvp := (hshape.page v hv).1
  have hword : ∀ q, PageStart q → q ≠ v.page → ∀ j k, j + k ≤ 4096 →
      load m' (at' q j) k = load m (at' q j) k := fun q hq hne j k hj =>
    load_of_sameOutside hsame hvp hq hne hj
  have hcache := hword cache hshape.cachePage (hshape.page v hv).2.symm
  have hkeep : ∀ u, u ∈ pre ∨ u ∈ post → SlabAt m' u := by
    intro u hu
    obtain ⟨hmem, hne⟩ := hshape.other hu
    have hw := hword u.page (hshape.page u hmem).1 hne
    refine (h.slab u hmem).congr (hw 4080 8 (by decide)) (hw 4088 4 (by decide)) fun o ho => ?_
    obtain ⟨i, hi, rfl⟩ := hhome u hmem o ho
    have hle := slot_le hi
    rw [at'_at']
    exact ⟨hw _ 8 (by omega), hw _ 8 (by omega)⟩
  have haddr : (pre ++ v' :: post).map SlabView.addr = (pre ++ v :: post).map SlabView.addr := by
    simp only [List.map_append, List.map_cons, SlabView.addr, hpage]
  refine ⟨?_, ?_, ?_, fun u hu => ?_⟩
  · rw [hcache 0 4 (by decide), h.size]
  · rw [hcache 4 4 (by decide), h.objects]
  · rw [hcache 16 8 (by decide), haddr]
    refine h.nodes.congr fun a ha => ?_
    obtain ⟨u, hu, rfl⟩ := List.mem_map.mp ha
    by_cases hpu : u.page = v.page
    · rw [SlabView.addr, hpu]
      exact hlink
    · exact hword u.page (hshape.page u hu).1 hpu 4064 8 (by decide)
  · simp only [List.mem_append, List.mem_cons] at hu
    rcases hu with hu | rfl | hu
    · exact hkeep u (.inl hu)
    · exact hslab
    · exact hkeep u (.inr hu)

theorem map_page_update (hpage : v'.page = v.page) :
    (pre ++ v' :: post).map SlabView.page = (pre ++ v :: post).map SlabView.page := by
  simp only [List.map_append, List.map_cons, hpage]

/-- A slab is exchanged for one on the same page. -/
theorem forall_mem_update {P : SlabView → Prop} (h : ∀ u ∈ pre ++ v :: post, P u) (hv' : P v') :
    ∀ u ∈ pre ++ v' :: post, P u := by
  simp only [List.mem_append, List.mem_cons] at h ⊢
  rintro u (hu | rfl | hu)
  · exact h u (.inl hu)
  · exact hv'
  · exact h u (.inr (.inr hu))

theorem CacheShape.update (h : CacheShape n cache (pre ++ v :: post)) (hpage : v'.page = v.page)
    (hhome : ∀ o ∈ v'.free, SlotOf n v.page o) : CacheShape n cache (pre ++ v' :: post) where
  cachePage := h.cachePage
  page := forall_mem_update h.page (by rw [hpage]; exact h.page v (by simp))
  distinct := by
    rw [map_page_update hpage]
    exact h.distinct
  slot := by
    rw [map_page_update hpage]
    exact forall_mem_update h.slot fun o ho =>
      ⟨v.page, List.mem_map_of_mem (by simp), hhome o ho⟩

/-- Pages that are lost do not matter to a cache in use. -/
theorem CacheInUse.lose (h : CacheInUse n cache t slabs) (hn : 1 ≤ n) (hw : WritesFresh t.vm s')
    (pages : List (BitVec 64)) : CacheInUse n cache ⟨s', pages, t.live⟩ slabs where
  cacheAt := h.cacheAt.of_writesFresh h.shape hn h.fresh hw
  shape := h.shape
  home := h.home
  live o ho := by
    obtain ⟨⟨q, hq, i, hi, rfl⟩, hself⟩ := h.live o ho
    have hle := slot_le hi
    refine ⟨⟨q, hq, i, hi, rfl⟩, ?_⟩
    have hstart := h.shape.pageStart (List.mem_cons_of_mem cache hq)
    rw [at'_at'] at hself ⊢
    rw [hw.same q hstart (h.fresh.not_mem (List.mem_cons_of_mem _ hq) hstart.ne_zero) _ 8
      (by omega), hself]
  distinct := h.distinct
  fresh := h.fresh.suffix hw.suffix

/-- **An object is taken from a cache in use…** -/
theorem CacheInUse.take (h : CacheInUse n cache t (pre ++ v :: post)) (hn : 16 ≤ n)
    {rest : List (BitVec 64)} (hfree : v.free = o :: rest) (pages : List (BitVec 64)) :
    CacheInUse n cache ⟨{ t.vm with mem := (takeBufctl t.vm.mem v.addr).2 }, pages, o :: t.live⟩
      (pre ++ v.take :: post) := by
  have hv : v ∈ pre ++ v :: post := by simp
  have hvp := (h.shape.page v hv).1
  have hhome : ∀ x ∈ v.take.free, SlotOf n v.page x := fun x hx =>
    h.home v hv x (List.mem_of_mem_tail hx)
  obtain ⟨-, hslab⟩ := (h.cacheAt.slab v hv).take hn hvp (h.home v hv) hfree
  have hlink : load (takeBufctl t.vm.mem v.addr).2 v.addr 8 = load t.vm.mem v.addr 8 := by
    rw [takeBufctl_addr, SlabView.addr]
    simp (disch := omega) only [load_store_at']
  have hpages : (pre ++ v.take :: post).map SlabView.page = (pre ++ v :: post).map SlabView.page :=
    map_page_update rfl
  refine ⟨h.cacheAt.update h.shape (by omega) h.home (sameOutside_takeBufctl _ v) hlink rfl hslab,
    h.shape.update rfl hhome, forall_mem_update h.home hhome, fun x hx => ?_, ?_, ?_⟩
  · rw [hpages]
    have hx' : IsSlot n ((pre ++ v :: post).map SlabView.page) x
        ∧ load t.vm.mem (at' x 8) 8 = x := by
      rcases List.mem_cons.mp hx with rfl | hx
      · have hmem : x ∈ v.free := hfree ▸ List.mem_cons_self
        exact ⟨h.shape.slot v hv x hmem, (h.cacheAt.slab v hv).self x hmem⟩
      · exact h.live x hx
    obtain ⟨⟨q, hq, hslot⟩, hself⟩ := hx'
    have hstart := h.shape.pageStart (List.mem_cons_of_mem cache hq)
    exact ⟨⟨q, hq, hslot⟩, ((load_takeBufctl hn hvp hstart hslot).2).trans hself⟩
  · refine (List.Perm.nodup_iff ?_).mp h.distinct
    rw [List.perm_iff_count]
    intro x
    simp only [List.flatMap_append, List.flatMap_cons, List.count_append, SlabView.take, hfree,
      List.tail_cons, List.count_cons]
    omega
  · rw [hpages]
    exact h.fresh

/-- **…and one is put back** to its own slab. -/
theorem CacheInUse.give (h : CacheInUse n cache t (pre ++ v :: post)) (hn : 16 ≤ n)
    (hptr : ptr ∈ t.live) (hslot : SlotOf n v.page ptr) (pages : List (BitVec 64)) :
    CacheInUse n cache
      ⟨{ t.vm with mem := giveBufctl t.vm.mem v.page ptr }, pages, t.live.erase ptr⟩
      (pre ++ v.give ptr :: post) := by
  have hv : v ∈ pre ++ v :: post := by simp
  have hvp := (h.shape.page v hv).1
  have hhome : ∀ x ∈ (v.give ptr).free, SlotOf n v.page x := by
    intro x hx
    rcases List.mem_cons.mp hx with rfl | hx
    · exact hslot
    · exact h.home v hv x hx
  have hout : ptr ∉ v.free := fun hmem =>
    (List.disjoint_of_nodup_append h.distinct) (List.mem_flatMap.mpr ⟨v, hv, hmem⟩) hptr
  have hslab := (h.cacheAt.slab v hv).give hn hvp (h.home v hv) hslot hout (h.live ptr hptr).2
  have hlink : load (giveBufctl t.vm.mem v.page ptr) v.addr 8 = load t.vm.mem v.addr 8 :=
    load_giveBufctl_link hn hvp hvp hslot hvp
  have hpages : (pre ++ v.give ptr :: post).map SlabView.page
      = (pre ++ v :: post).map SlabView.page := map_page_update rfl
  refine ⟨h.cacheAt.update h.shape (by omega) h.home (sameOutside_giveBufctl _ hslot hn) hlink rfl
    hslab, h.shape.update rfl hhome, forall_mem_update h.home hhome, fun x hx => ?_, ?_, ?_⟩
  · rw [hpages]
    obtain ⟨⟨q, hq, hslot'⟩, hself⟩ := h.live x (List.mem_of_mem_erase hx)
    have hstart := h.shape.pageStart (List.mem_cons_of_mem cache hq)
    exact ⟨⟨q, hq, hslot'⟩, ((load_giveBufctl hn hvp hvp hslot hstart hslot').2).trans hself⟩
  · refine (List.Perm.nodup_iff ?_).mp h.distinct
    refine ((List.perm_cons_erase hptr).append_left _).trans ?_
    rw [List.perm_iff_count]
    intro x
    simp only [List.flatMap_append, List.flatMap_cons, List.count_append, SlabView.give,
      List.count_cons]
    omega
  · rw [hpages]
    exact h.fresh

end InUse

/-! ## Calls -/

/-- What a client calls. -/
inductive CacheCall
  | alloc (flags : BitVec 32)
  | free (ptr : BitVec 64)

/-- One call, of which a client frees only what it holds. -/
def CacheCall.apply (cache : BitVec 64) (t : SlabState) : CacheCall → Option SlabState
  | .alloc flags => ((SlabEvent.alloc flags).apply cache t).map Prod.snd
  | .free ptr => if ptr ∈ t.live then ((SlabEvent.free ptr).apply cache t).map Prod.snd else none

section Calls

variable {n : ℕ} {cache ptr o : BitVec 64} {flags : BitVec 32} {t t' : SlabState} {v : SlabView}
  {slabs pre post : List SlabView}

/-- The object an allocation returns. -/
theorem CacheInUse.kmemCacheAlloc_first (h : CacheInUse n cache t (pre ++ v :: post)) (hn : 16 ≤ n)
    (hfull : ∀ u ∈ pre, u.free = []) {rest : List (BitVec 64)} (hfree : v.free = o :: rest) :
    kmemCacheAlloc cache flags t.vm
      = some (o, { t.vm with mem := (takeBufctl t.vm.mem v.addr).2 }) := by
  have hv : v ∈ pre ++ v :: post := by simp
  have hvp := (h.shape.page v hv).1
  obtain ⟨hptr, -⟩ := (h.cacheAt.slab v hv).take hn hvp (h.home v hv) hfree
  rw [kmemCacheAlloc, kmemCacheAllocFuel, if_neg h.shape.cachePage.ne_zero,
    if_neg (h.cacheAt.nodes_ne_zero (by simp)),
    h.cacheAt.slabWithFree_first h.shape hfull (by simp [hfree]), Option.bind_some,
    if_pos hvp.addr_ne_zero]
  simp only [hptr]

/-- The slab an object is put back to. -/
theorem CacheInUse.kmemCacheFree_first (h : CacheInUse n cache t (pre ++ v :: post))
    (hfull : ∀ u ∈ pre, u.free = []) (hfree : v.free ≠ []) (hptr : ptr ≠ 0#64) :
    kmemCacheFree cache ptr t.vm = some { t.vm with mem := giveBufctl t.vm.mem v.page ptr } := by
  have hvp := (h.shape.page v (by simp)).1
  rw [kmemCacheFree, if_neg (by simp [hptr, h.shape.cachePage.ne_zero]),
    h.cacheAt.slabWithFree_first h.shape hfull hfree, Option.map_some,
    if_neg hvp.addr_ne_zero]
  simp only [giveBufctl, SlabView.addr, at'_at']

theorem CacheInUse.kmemCacheFree_full (h : CacheInUse n cache t slabs)
    (hfull : ∀ v ∈ slabs, v.free = []) : kmemCacheFree cache ptr t.vm = some t.vm := by
  rw [kmemCacheFree, h.cacheAt.slabWithFree_full h.shape hfull, Option.map_some, if_pos rfl,
    ite_self]

theorem pagesTaken_of_eq {s s' : Vm} (h : s'.frames = s.frames) : pagesTaken s s' = [] := by
  simp [pagesTaken, h]

/-- The pages taken are pages that were not in use, and are now. -/
theorem FreshPages.taken {s s' : Vm} {used : List (BitVec 64)} (h : FreshPages s.frames used)
    (hsuffix : s'.frames <:+ s.frames) : FreshPages s'.frames (pagesTaken s s' ++ used)
      ∧ (pagesTaken s s').Nodup ∧ ∀ q ∈ pagesTaken s s', PageStart q ∧ q ∉ used := by
  obtain ⟨front, hfront⟩ := hsuffix
  have htaken : pagesTaken s s' = front.filter (· ≠ 0#64) := by
    rw [pagesTaken, ← hfront, List.length_append, Nat.add_sub_cancel, List.take_left]
  have hdistinct := h.distinct
  rw [← hfront, List.filter_append, ← htaken] at hdistinct
  have hmem : ∀ q ∈ pagesTaken s s', q ∈ s.frames ∧ q ≠ 0#64 := by
    intro q hq
    rw [htaken, List.mem_filter] at hq
    exact ⟨hfront ▸ List.mem_append_left _ hq.1, by simpa using hq.2⟩
  have hrest := h.suffix ⟨front, hfront⟩
  refine ⟨⟨hrest.page, fun f hf hf0 => ?_, hrest.distinct⟩, (List.nodup_append.mp hdistinct).1,
    fun q hq => ⟨h.page q (hmem q hq).1 (hmem q hq).2, h.unused q (hmem q hq).1 (hmem q hq).2⟩⟩
  rw [List.mem_append, not_or]
  refine ⟨fun hf' => ?_, hrest.unused f hf hf0⟩
  exact (List.disjoint_of_nodup_append hdistinct) hf'
    (List.mem_filter.mpr ⟨hf, by simpa using hf0⟩)

theorem CacheInUse.apply_alloc (h : CacheInUse n cache t (pre ++ v :: post)) (hn : 16 ≤ n)
    (hfull : ∀ u ∈ pre, u.free = []) {rest : List (BitVec 64)} (hfree : v.free = o :: rest) :
    (CacheCall.alloc flags).apply cache t
      = some ⟨{ t.vm with mem := (takeBufctl t.vm.mem v.addr).2 }, t.pages, o :: t.live⟩ := by
  have hv : v ∈ pre ++ v :: post := by simp
  have ho : o ≠ 0#64 := (h.home v hv o (hfree ▸ List.mem_cons_self)).ne_zero
    (h.shape.page v hv).1 (by omega)
  rw [CacheCall.apply, SlabEvent.apply, h.kmemCacheAlloc_first hn hfull hfree]
  simp [ho, pagesTaken_of_eq]

/-- **What an allocation does**: on a full cache it loses pages, and else it takes an object. -/
theorem CacheInUse.alloc_cases (h : CacheInUse n cache t slabs) (hn : 16 ≤ n) (hn' : n ≤ 512)
    (hcall : (CacheCall.alloc flags).apply cache t = some t') :
    (∀ v ∈ slabs, v.free = []) ∧ (∃ s', WritesFresh t.vm s'
        ∧ kmemCacheAlloc cache flags t.vm = some (0#64, s')
        ∧ t' = ⟨s', t.pages ++ pagesTaken t.vm s', t.live⟩)
      ∨ ∃ pre v post o rest, slabs = pre ++ v :: post ∧ (∀ u ∈ pre, u.free = [])
        ∧ v.free = o :: rest
        ∧ t' = ⟨{ t.vm with mem := (takeBufctl t.vm.mem v.addr).2 }, t.pages, o :: t.live⟩ := by
  rcases full_or_first slabs with hfull | ⟨pre, v, post, rfl, hpre, hfree⟩
  · rw [CacheCall.apply, SlabEvent.apply, Option.map_map] at hcall
    obtain ⟨⟨ptr, s'⟩, halloc, rfl⟩ := Option.map_eq_some_iff.mp hcall
    obtain ⟨rfl, hw⟩ := h.cacheAt.alloc_full h.shape (by omega) hn' h.fresh hfull halloc
    exact .inl ⟨hfull, s', hw, halloc, by simp⟩
  · obtain ⟨o, rest, ho⟩ := List.exists_cons_of_ne_nil hfree
    rw [h.apply_alloc hn hpre ho] at hcall
    exact .inr ⟨pre, v, post, o, rest, rfl, hpre, ho, (Option.some.inj hcall).symm⟩

/-- **What freeing does**: on a full cache nothing, and else it puts the object back to the first
slab that has a free one. -/
theorem CacheInUse.free_cases (h : CacheInUse n cache t slabs) (hn : 16 ≤ n)
    (hcall : (CacheCall.free ptr).apply cache t = some t') :
    ptr ∈ t.live ∧ ((∀ v ∈ slabs, v.free = []) ∧ t' = ⟨t.vm, t.pages, t.live.erase ptr⟩
      ∨ ∃ pre v post, slabs = pre ++ v :: post ∧ (∀ u ∈ pre, u.free = []) ∧ v.free ≠ []
        ∧ t' = ⟨{ t.vm with mem := giveBufctl t.vm.mem v.page ptr }, t.pages,
          t.live.erase ptr⟩) := by
  rw [CacheCall.apply] at hcall
  split at hcall
  · rename_i hlive
    refine ⟨hlive, ?_⟩
    have hptr : ptr ≠ 0#64 := by
      obtain ⟨q, hq, hslot⟩ := (h.live ptr hlive).1
      exact SlotOf.ne_zero hslot (h.shape.pageStart (List.mem_cons_of_mem cache hq)) (by omega)
    rw [SlabEvent.apply, Option.map_map] at hcall
    obtain ⟨s', hfreed, rfl⟩ := Option.map_eq_some_iff.mp hcall
    rcases full_or_first slabs with hfull | ⟨pre, v, post, rfl, hpre, hfree⟩
    · rw [h.kmemCacheFree_full hfull] at hfreed
      obtain rfl := Option.some.inj hfreed
      exact .inl ⟨hfull, rfl⟩
    · rw [h.kmemCacheFree_first hpre hfree hptr] at hfreed
      obtain rfl := Option.some.inj hfreed
      exact .inr ⟨pre, v, post, rfl, hpre, hfree, rfl⟩
  · cases hcall

end Calls

/-! ## A new cache -/

/-- **A cache just made**: `kmem_cache_create` answered with it, and took pages nobody held. -/
structure CacheMade (size : BitVec 64) (alignment : BitVec 32) (held : List (BitVec 64)) (s : Vm)
    (cache : BitVec 64) (s₀ : Vm) : Prop where
  heldPage : ∀ q ∈ held, PageStart q
  heldDistinct : held.Nodup
  fresh : FreshPages s.frames held
  made : ∃ name, kmemCacheCreate name size alignment s = some (cache, s₀)
  ne_zero : cache ≠ 0#64

/-- The state it is in. -/
def madeState (s : Vm) (cache : BitVec 64) (s₀ : Vm) : SlabState :=
  ⟨s₀, (pagesTaken s s₀).erase cache, []⟩

section NewSlab

variable {n : ℕ} {cache p size : BitVec 64} {alignment : BitVec 32} {m : Mem} {s s₀ : Vm}
  {fs held : List (BitVec 64)}

theorem nodup_slots (hp : PageStart p) (hn : 1 ≤ n) : (freshSlab n p).free.Nodup := by
  refine List.Nodup.map_on (fun i hi j hj h => ?_) List.nodup_range
  have hile := slot_le (List.mem_range.mp hi)
  have hjle := slot_le (List.mem_range.mp hj)
  exact Nat.eq_of_mul_eq_mul_left hn (hp.at_inj hp (by omega) (by omega) h).2

/-- A cache without slabs is in use… -/
theorem cacheInUse_nil (h : CacheAt n cache m []) (hcache : PageStart cache)
    (hfresh : FreshPages fs [cache]) (lock : Bool) (pages : List (BitVec 64)) :
    CacheInUse n cache ⟨⟨m, fs, lock⟩, pages, []⟩ [] where
  cacheAt := h
  shape := ⟨hcache, by simp, by simp, by simp⟩
  home := by simp
  live := by simp
  distinct := by simp
  fresh := hfresh

/-- …and so is one with a new slab. -/
theorem cacheInUse_freshSlab (hfit : HeadersFit n) (hn' : n ≤ 512) (h : CacheAt n cache m [])
    (hcache : PageStart cache) (hp : PageStart p) (hne : cache ≠ p)
    (hfresh : FreshPages fs [cache, p]) (pages : List (BitVec 64)) :
    CacheInUse n cache ⟨⟨grownMem n cache p m, fs, false⟩, pages, []⟩ [freshSlab n p] where
  cacheAt := cacheAt_grownMem hfit hn' h hcache hp hne
  shape := cacheShape_freshSlab hcache hp hne
  home v hv o ho := by
    obtain rfl := List.mem_singleton.mp hv
    obtain ⟨i, hi, rfl⟩ := List.mem_map.mp ho
    exact ⟨i, List.mem_range.mp hi, rfl⟩
  live o ho := absurd ho List.not_mem_nil
  distinct := by
    simpa using nodup_slots hp (le_trans (by decide) hfit.1)
  fresh := hfresh

/-- **What making a cache does**: the first page is the cache's, and it is grown by one. -/
theorem CacheMade.cases (h : CacheMade size alignment held s cache s₀)
    (hsize : objectSize size alignment = n) : n ≤ 512 ∧ PageStart cache ∧ cache ∉ held
      ∧ ∃ m m₀ fs b, s = ⟨m, cache :: fs, false⟩ ∧ FreshPages fs (cache :: held)
        ∧ CacheAt n cache m₀ [] ∧ slabCacheGrow cache 1 ⟨m₀, fs, false⟩ = some (b, s₀) := by
  subst hsize
  obtain ⟨name, hmade⟩ := h.made
  have h0 : size ≠ 0#64 := by
    rintro rfl
    rw [kmemCacheCreate, if_pos rfl] at hmade
    exact h.ne_zero (Prod.mk.inj (Option.some.inj hmade)).1.symm
  have hle : ¬ 512#64 < slabSize size (kmemAlignment alignment) := by
    intro hlarge
    rw [kmemCacheCreate, if_neg h0, slabCreateCache, if_pos hlarge] at hmade
    cases hmade
  have hn' : objectSize size alignment ≤ 512 := by
    rwa [BitVec.lt_def, not_lt] at hle
  have hlock : s.pmmLock = false := by
    by_contra hlock
    rw [kmemCacheCreate, if_neg h0, slabCreateCache, archAllocPage,
      if_pos (show s.pmmLock = true by simpa using hlock)] at hmade
    simp only [if_neg hle, Option.bind_none] at hmade
    cases hmade
  have hhead : s.frames.headD 0#64 ≠ 0#64 := by
    intro hhead
    rw [kmemCacheCreate, if_neg h0, slabCreateCache, archAllocPage_refused hlock hhead] at hmade
    simp only [if_neg hle, Option.bind_some, if_true] at hmade
    exact h.ne_zero (Prod.mk.inj (Option.some.inj hmade)).1.symm
  obtain ⟨m, frames, lock⟩ := s
  obtain rfl : lock = false := hlock
  obtain ⟨c, fs, rfl, hc, hout, hfs⟩ := h.fresh.head hhead
  obtain ⟨m₀, hbare, -, hpage⟩ := kmemCacheCreate_page name size alignment m fs hc h0 hn'
  rw [hpage] at hmade
  obtain ⟨⟨b, s₁⟩, hgrow, heq⟩ := Option.map_eq_some_iff.mp hmade
  obtain ⟨rfl, hs⟩ := Prod.mk.inj heq
  obtain rfl : s₁ = s₀ := hs
  exact ⟨hn', hc, hout, m, m₀, fs, b, rfl, hfs, hbare, hgrow⟩

/-- **A cache just made is in use**, if the headers of its objects fit. -/
theorem CacheMade.cacheInUse (h : CacheMade size alignment held s cache s₀)
    (hsize : objectSize size alignment = n) (hfit : HeadersFit n) :
    ∃ slabs, CacheInUse n cache (madeState s cache s₀) slabs
      ∧ (slabs = [] ∨ ∃ p, slabs = [freshSlab n p]) := by
  obtain ⟨hn', hc, -, m, m₀, fs, b, -, hfresh, hbare, hgrow⟩ := h.cases hsize
  have hfresh' : FreshPages fs [cache] := hfresh.of_subset (by simp)
  by_cases hhead : fs.headD 0#64 = 0#64
  · rw [slabCacheGrow_refused rfl hhead] at hgrow
    obtain ⟨-, rfl⟩ := Prod.mk.inj (Option.some.inj hgrow)
    exact ⟨[], cacheInUse_nil hbare hc (hfresh'.suffix (List.tail_suffix _)) _ _, .inl rfl⟩
  · obtain ⟨p, fs, rfl, hp, hout, hfs⟩ := hfresh'.head hhead
    rw [hbare.slabCacheGrow ⟨hc, by simp, by simp, by simp⟩ (le_trans (by decide) hfit.1) hn' hp
      hout] at hgrow
    obtain ⟨-, rfl⟩ := Prod.mk.inj (Option.some.inj hgrow)
    exact ⟨_, cacheInUse_freshSlab hfit hn' hbare hc hp
      (fun h => hout (List.mem_singleton.mpr h.symm)) (hfs.of_subset (by simp)) _, .inr ⟨p, rfl⟩⟩

/-- A cache of 512-byte objects, just made. -/
theorem kmemCacheCreate_highPage (hfresh : FreshPages fs [highPage 1, highPage 2]) : ∃ s,
    kmemCacheCreate 0#64 512#64 0#32 ⟨fun _ => 0#8, highPage 1 :: highPage 2 :: fs, false⟩
        = some (highPage 1, s)
      ∧ s.frames = fs ∧ s.pmmLock = false
      ∧ CacheInUse 512 (highPage 1) ⟨s, [highPage 2], []⟩ [freshSlab 512 (highPage 2)] := by
  have h₁ := pageStart_highPage (i := 1) (by decide)
  have h₂ := pageStart_highPage (i := 2) (by decide)
  obtain ⟨m₀, hbare, -, hcreate⟩ := kmemCacheCreate_page 0#64 512#64 0#32 (fun _ => 0#8)
    (highPage 2 :: fs) h₁ (by decide) (by decide)
  have hbare' : CacheAt 512 (highPage 1) m₀ [] := hbare
  rw [hbare'.slabCacheGrow ⟨h₁, by simp, by simp, by simp⟩ (by decide) (by decide) h₂ (by decide)]
    at hcreate
  exact ⟨_, hcreate, rfl, rfl,
    cacheInUse_freshSlab (by decide) (by decide) hbare' h₁ h₂ (by decide) hfresh _⟩

end NewSlab

end MoonOS

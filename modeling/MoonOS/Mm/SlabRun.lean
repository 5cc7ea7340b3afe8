import MoonOS.Lib.GuardedRun
import MoonOS.Mm.SlabUse

/-!
# Mm/SlabRun — runs of one slab cache

A free object keeps its address in its second word, `bufctl->ptr`, and `kmem_cache_alloc` returns
what it finds there.  `slab_cache_grow` writes that word and nothing else of the kernel does, so
what an object is put back with is what its holder left in it.

A cache has one slab at most, so its words are those of `OneSlab`, whatever the client writes; what
the addresses in the free objects promise is `Named`, and that is for the client to keep.

* `OneSlab.alloc_cases`, `OneSlab.free_cases`, `OneSlab.write` — what the events of a run do;
* `SlabUsed.handsOutFree` — as long as nothing is put back, a cache that is named hands out free
  slots;
* `OneSlab.not_handsOutFree` — it does not after an object was put back with another address in it
  than a free one.
-/

namespace MoonOS

open ByteMemory GuardedRun

/-! ## Runs -/

instance (n : ℕ) (t : SlabState) (e : SlabEvent) : Decidable (e.Allowed n t) := by
  cases e with
  | alloc => exact instDecidableTrue
  | free ptr => exact decidable_of_iff (t.live.contains ptr = true) List.contains_iff_mem
  | write addr k _ => exact t.live.decidableBEx fun ptr => (addr - ptr).toNat + k ≤ n

/-- One event of a run, if the client may do it. -/
def SlabEvent.step (n : ℕ) (cache : BitVec 64) (t : SlabState) (e : SlabEvent) :
    Option SlabState :=
  if e.Allowed n t then (e.apply cache t).map Prod.snd else none

/-- **An allocation is safe now**: what it returns is null, or a slot of one of the cache's pages
that nobody holds. -/
def AllocSafe (n : ℕ) (cache : BitVec 64) (t : SlabState) : Prop :=
  ∀ flags ptr t', (SlabEvent.alloc flags).apply cache t = some (ptr, t') → ptr ≠ 0#64 →
    IsSlot n t'.pages ptr ∧ ptr ∉ t.live

/-- An event that puts nothing back. -/
def SlabEvent.Keeps : SlabEvent → Prop
  | .free _ => False
  | _ => True

/-- **A cache hands out free slots**: allocations are safe, now and as long as the client only
allocates and writes. -/
def HandsOutFree (n : ℕ) (cache : BitVec 64) (t : SlabState) : Prop :=
  ∀ events, (∀ e ∈ events, e.Keeps) → Always (SlabEvent.step n cache) (AllocSafe n cache) events t

/-- The address in an object, `bufctl->ptr`. -/
def bufctlPtr (m : Mem) (o : BitVec 64) : BitVec 64 := load m (at' o 8) 8

/-- A slot nobody holds, that is not on the free list, and that no object on it has for its
address. -/
structure Unclaimed (n : ℕ) (t : SlabState) (free : List (BitVec 64)) (a : BitVec 64) : Prop where
  slot : IsSlot n t.pages a
  held : a ∉ t.live
  free : ∀ o ∈ free, a ≠ o ∧ a ≠ bufctlPtr t.vm.mem o

/-- **What is put back has a good address in it**: null, or a slot that is unclaimed once the object
is given up, such as its own.  An object freed to a cache without a free one is not put back. -/
def PutsBackFree (n : ℕ) (cache : BitVec 64) (t : SlabState) : SlabEvent → Prop
  | .free ptr => ∀ free,
      Linked t.vm.mem (load t.vm.mem (at' (load t.vm.mem (at' cache 16) 8) 16) 8) free →
      free ≠ [] → bufctlPtr t.vm.mem ptr ≠ 0#64 →
      Unclaimed n { t with live := t.live.erase ptr } free (bufctlPtr t.vm.mem ptr)
  | _ => True

section Runs

variable {n : ℕ} {cache : BitVec 64} {t t' : SlabState} {e : SlabEvent} {events : List SlabEvent}

theorem SlabEvent.Keeps.putsBackFree (he : e.Keeps) : PutsBackFree n cache t e := by
  cases e with
  | free => exact he.elim
  | alloc => trivial
  | write => trivial

theorem SlabEvent.step_eq_some : e.step n cache t = some t' ↔
    e.Allowed n t ∧ ∃ ptr, e.apply cache t = some (ptr, t') := by
  rw [SlabEvent.step]
  split
  · rename_i hallowed
    rw [Option.map_eq_some_iff, and_iff_right hallowed]
    constructor
    · rintro ⟨⟨ptr, t₁⟩, happly, rfl⟩
      exact ⟨ptr, happly⟩
    · rintro ⟨ptr, happly⟩
      exact ⟨_, happly, rfl⟩
  · rename_i hnot
    exact iff_of_false (by simp) fun h => hnot h.1

theorem HandsOutFree.allocSafe (h : HandsOutFree n cache t) : AllocSafe n cache t :=
  (h [] (by simp)).now

/-- What hands out free slots does so after an allocation or a write. -/
theorem HandsOutFree.step (h : HandsOutFree n cache t) (hstep : e.step n cache t = some t')
    (he : e.Keeps) : HandsOutFree n cache t' := fun events hkeep =>
  (h (e :: events) (List.forall_mem_cons.mpr ⟨he, hkeep⟩)).2 t' hstep

theorem keeps_replicate (k : ℕ) (flags : BitVec 32) :
    ∀ e ∈ List.replicate k (SlabEvent.alloc flags), e.Keeps := by
  intro e he
  rw [List.eq_of_mem_replicate he]
  trivial

theorem HandsOutFree.run (h : HandsOutFree n cache t) (hkeep : ∀ e ∈ events, e.Keeps)
    (hrun : events.foldlM (SlabEvent.step n cache) t = some t') : HandsOutFree n cache t' := by
  induction events generalizing t with
  | nil =>
    obtain rfl := Option.some.inj hrun
    exact h
  | cons e events ih =>
    rw [List.foldlM_cons] at hrun
    obtain ⟨t₁, hstep, hrest⟩ := Option.bind_eq_some_iff.mp hrun
    rw [List.forall_mem_cons] at hkeep
    exact ih (h.step hstep hkeep.1) hkeep.2 hrest

end Runs

/-! ## The words of a cache with one slab -/

/-- **A cache with one slab**: the slab on `p`, its link, and the objects on its free list, which
are slots of the pages the cache took. -/
structure OneSlab (n : ℕ) (cache p link : BitVec 64) (t : SlabState) (free : List (BitVec 64)) :
    Prop where
  size : load t.vm.mem (at' cache 0) 4 = BitVec.ofNat 32 n
  objects : load t.vm.mem (at' cache 4) 4 = 4072#32
  nodes : load t.vm.mem (at' cache 16) 8 = at' p 4064
  link : load t.vm.mem (at' p 4064) 8 = link
  freelist : Linked t.vm.mem (load t.vm.mem (at' p 4080) 8) free
  slot : ∀ o ∈ free, IsSlot n t.pages o
  cachePage : PageStart cache
  pages : ∀ q ∈ t.pages, PageStart q ∧ q ≠ cache
  page : p ∈ t.pages
  fresh : FreshPages t.vm.frames (cache :: t.pages)

section Words

variable {n i j k l d : ℕ} {cache p q r link o a addr ptr : BitVec 64} {flags : BitVec 32}
  {m : Mem} {t t' : SlabState} {free rest pre : List (BitVec 64)} {s s' : Vm}
  {used live : List (BitVec 64)}

theorem OneSlab.pageStart (h : OneSlab n cache p link t free) : PageStart p := (h.pages p h.page).1

theorem OneSlab.ne_cache (h : OneSlab n cache p link t free) : p ≠ cache := (h.pages p h.page).2

/-- **The words a cache with one slab is made of.**  What leaves all but the free list alone, and
takes pages nobody held, keeps them. -/
theorem OneSlab.update (h : OneSlab n cache p link t free)
    (hcache : ∀ j k, j + k ≤ 4096 → load t'.vm.mem (at' cache j) k = load t.vm.mem (at' cache j) k)
    (hlink : load t'.vm.mem (at' p 4064) 8 = load t.vm.mem (at' p 4064) 8)
    (hfree : Linked t'.vm.mem (load t'.vm.mem (at' p 4080) 8) rest)
    (hslot : ∀ o ∈ rest, IsSlot n t.pages o) (hframes : t'.vm.frames <:+ t.vm.frames)
    (hpages : t'.pages = t.pages ++ pagesTaken t.vm t'.vm) : OneSlab n cache p link t' rest := by
  obtain ⟨hfresh, -, htaken⟩ := h.fresh.taken hframes
  refine ⟨(hcache 0 4 (by decide)).trans h.size, (hcache 4 4 (by decide)).trans h.objects,
    (hcache 16 8 (by decide)).trans h.nodes, hlink.trans h.link, hfree, fun o ho => ?_, h.cachePage,
    fun q hq => ?_, hpages ▸ List.mem_append_left _ h.page, hfresh.of_subset (by simp [hpages])⟩
  · obtain ⟨q, hq, hslot⟩ := hslot o ho
    exact ⟨q, hpages ▸ List.mem_append_left _ hq, hslot⟩
  · rw [hpages, List.mem_append] at hq
    rcases hq with hq | hq
    · exact h.pages q hq
    · obtain ⟨hstart, hout⟩ := htaken q hq
      exact ⟨hstart, fun heq => hout (heq ▸ List.mem_cons_self)⟩

/-- A walk from the slab on finds no other: it ends there, or never does. -/
def NoNext (p link : BitVec 64) : Prop := link = 0#64 ∨ link = at' p 4064

theorem OneSlab.slabWithFree_cons (h : OneSlab n cache p link t (o :: rest)) :
    slabWithFree t.vm.mem (2 ^ 64) (load t.vm.mem (at' cache 16) 8) = some (at' p 4064) := by
  rw [h.nodes]
  refine slabWithFree_head _ (h.pageStart.at_ne_zero (by decide)) ?_
  rw [at'_at', ne_eq, h.freelist.eq_zero_iff]
  exact List.cons_ne_nil o rest

theorem OneSlab.slabWithFree_nil (h : OneSlab n cache p link t []) (fuel : ℕ) :
    slabWithFree t.vm.mem (fuel + 1) (at' p 4064) = slabWithFree t.vm.mem fuel link := by
  rw [slabWithFree_next _ (h.pageStart.at_ne_zero (by decide)) (by rw [at'_at']; exact h.freelist),
    h.link]

/-- A slab without free objects that is linked to itself is walked along for ever. -/
theorem OneSlab.slabWithFree_self (h : OneSlab n cache p (at' p 4064) t []) (fuel : ℕ) :
    slabWithFree t.vm.mem fuel (at' p 4064) = none := by
  induction fuel with
  | zero => rfl
  | succ fuel ih => rw [h.slabWithFree_nil, ih]

/-! ## Taking, putting back, writing -/

/-- The state after the first free object of the slab on `p` was taken, which has the address `a` in
it… -/
def SlabState.take (t : SlabState) (p a : BitVec 64) : SlabState :=
  ⟨{ t.vm with mem := (takeBufctl t.vm.mem (at' p 4064)).2 }, t.pages,
    if a = 0#64 then t.live else a :: t.live⟩

/-- …after an object was put back there… -/
def SlabState.give (t : SlabState) (p ptr : BitVec 64) : SlabState :=
  ⟨{ t.vm with mem := giveBufctl t.vm.mem p ptr }, t.pages, t.live.erase ptr⟩

/-- …and after the client wrote. -/
def SlabState.write (t : SlabState) (addr : BitVec 64) (k : ℕ) (v : BitVec (8 * k)) : SlabState :=
  { t with vm := { t.vm with mem := store t.vm.mem addr k v } }

@[simp] theorem SlabState.mem_write (t : SlabState) (addr : BitVec 64) (k : ℕ)
    (v : BitVec (8 * k)) : (t.write addr k v).vm.mem = store t.vm.mem addr k v := rfl

theorem SlabState.mem_take (t : SlabState) (p : BitVec 64) (ha : a ≠ 0#64) :
    a ∈ (t.take p a).live := by
  rw [SlabState.take, if_neg ha]
  exact List.mem_cons_self

theorem SlabState.mem_take_of_mem (p a : BitVec 64) (ho : o ∈ t.live) : o ∈ (t.take p a).live := by
  rw [SlabState.take]
  split
  · exact ho
  · exact List.mem_cons_of_mem a ho

theorem OneSlab.take_of_links (h : OneSlab n cache p link t (o :: rest)) (a : BitVec 64)
    (hlinks : ∀ x ∈ rest, load (t.take p a).vm.mem x 8 = load t.vm.mem x 8) :
    OneSlab n cache p link (t.take p a) rest := by
  have hp := h.pageStart
  obtain ⟨hhead, -, hrest⟩ := h.freelist
  have hsame := sameOutside_takeBufctl t.vm.mem ⟨p, [], 0#32⟩
  refine h.update (fun j k hj => load_of_sameOutside hsame hp h.cachePage h.ne_cache.symm hj) ?_ ?_
    (fun x hx => h.slot x (List.mem_cons_of_mem o hx)) List.suffix_rfl
    (by simp [SlabState.take, pagesTaken])
  · simp (disch := omega) only [SlabState.take, takeBufctl, at'_at', load_store_at']
  · have hnext : load (t.take p a).vm.mem (at' p 4080) 8 = load t.vm.mem o 8 := by
      simp (disch := omega) only [SlabState.take, takeBufctl, at'_at', load_store_at',
        load_store_same, hhead]
    rw [hnext]
    exact hrest.congr hlinks

theorem OneSlab.take (h : OneSlab n cache p link t (o :: rest)) (hn : 16 ≤ n) (a : BitVec 64) :
    OneSlab n cache p link (t.take p a) rest := by
  refine h.take_of_links a fun x hx => ?_
  obtain ⟨q, hq, hslot⟩ := h.slot x (List.mem_cons_of_mem o hx)
  exact (load_takeBufctl (v := ⟨p, [], 0#32⟩) hn h.pageStart (h.pages q hq).1 hslot).1

/-- No object's address is touched when one is taken… -/
theorem OneSlab.bufctlPtr_take (h : OneSlab n cache p link t free) (hn : 16 ≤ n) (a : BitVec 64)
    (ho : IsSlot n t.pages o) : bufctlPtr (t.take p a).vm.mem o = bufctlPtr t.vm.mem o := by
  obtain ⟨q, hq, hslot⟩ := ho
  exact (load_takeBufctl (v := ⟨p, [], 0#32⟩) hn h.pageStart (h.pages q hq).1 hslot).2

/-- …or put back. -/
theorem OneSlab.bufctlPtr_give (h : OneSlab n cache p link t free) (hn : 16 ≤ n)
    (hptr : IsSlot n t.pages ptr) (ho : IsSlot n t.pages o) :
    bufctlPtr (t.give p ptr).vm.mem o = bufctlPtr t.vm.mem o := by
  obtain ⟨r, hr, hslot⟩ := hptr
  obtain ⟨q, hq, hslot'⟩ := ho
  exact (load_giveBufctl (v := ⟨p, [], 0#32⟩) hn h.pageStart (h.pages r hr).1 hslot
    (h.pages q hq).1 hslot').2

theorem OneSlab.give (h : OneSlab n cache p link t free) (hn : 16 ≤ n)
    (hptr : IsSlot n t.pages ptr) (hout : ptr ∉ free) :
    OneSlab n cache p link (t.give p ptr) (ptr :: free) := by
  have hp := h.pageStart
  obtain ⟨r, hr, hslot⟩ := hptr
  obtain ⟨hr', hrc⟩ := h.pages r hr
  obtain ⟨hhead, -, hnext⟩ := load_giveBufctl_header (m := t.vm.mem) (v := ⟨p, [], 0#32⟩) hn hp hr'
    hslot
  refine h.update (fun j k hj => load_giveBufctl_cache (v := ⟨p, [], 0#32⟩) hp hr' hslot
    h.cachePage h.ne_cache hrc hn hj) (load_giveBufctl_link (v := ⟨p, [], 0#32⟩) hn hp hr' hslot hp)
    ⟨hhead, SlotOf.ne_zero hslot hr' (by omega), ?_⟩
    (List.forall_mem_cons.mpr ⟨⟨r, hr, hslot⟩, h.slot⟩) List.suffix_rfl
    (by simp [SlabState.give, pagesTaken])
  · have hnext' : load (t.give p ptr).vm.mem ptr 8 = load t.vm.mem (at' p 4080) 8 := hnext
    rw [hnext']
    refine h.freelist.congr fun x hx => ?_
    obtain ⟨q, hq, hslot'⟩ := h.slot x hx
    exact (load_giveBufctl (v := ⟨p, [], 0#32⟩) hn hp hr' hslot (h.pages q hq).1 hslot').1
      fun heq => hout (heq ▸ hx)

/-- **A write inside an object is seen nowhere else.** -/
theorem load_write_slot (hq : PageStart q) (ho : o = at' q (n * i)) (hi : i < 4072 / n)
    (hin : (addr - o).toNat + k ≤ n) (hr : PageStart r) (hj : j + l ≤ 4096)
    (hapart : q ≠ r ∨ n * i + n ≤ j ∨ j + l ≤ n * i) (v : BitVec (8 * k)) :
    load (store m addr k v) (at' r j) l = load m (at' r j) l := by
  have hle := slot_le hi
  rw [← at'_toNat_sub o addr, ho, at'_at', ← ho]
  refine load_store_page hq hr (by omega) hj ?_ v
  rcases hapart with h | h | h
  · exact .inl h
  · exact .inr (.inl (by omega))
  · exact .inr (.inr (by omega))

/-- The words of a free object are not in another. -/
theorem load_write_other (hn : 16 ≤ n) (hq : PageStart q) (ho : SlotOf n q o)
    (hin : (addr - o).toNat + k ≤ n) (hr : PageStart r) (ha : SlotOf n r a) (hne : a ≠ o)
    (v : BitVec (8 * k)) : load (store m addr k v) a 8 = load m a 8
      ∧ bufctlPtr (store m addr k v) a = bufctlPtr m a := by
  obtain ⟨i, hi, ho⟩ := ho
  obtain ⟨j, hj, rfl⟩ := ha
  have hle := slot_le hj
  have hapart : q ≠ r ∨ n * i + n ≤ n * j ∨ n * j + n ≤ n * i := by
    rcases Nat.lt_trichotomy i j with h | rfl | h
    · exact .inr (.inl (mul_add_le_of_lt h))
    · refine .inl fun hqr => hne ?_
      rw [ho, hqr]
    · exact .inr (.inr (mul_add_le_of_lt h))
  rw [bufctlPtr, bufctlPtr, at'_at']
  constructor
  · refine load_write_slot hq ho hi hin hr (by omega) ?_ v
    rcases hapart with h | h | h
    · exact .inl h
    · exact .inr (.inl h)
    · exact .inr (.inr (by omega))
  · refine load_write_slot hq ho hi hin hr (by omega) ?_ v
    rcases hapart with h | h | h
    · exact .inl h
    · exact .inr (.inl (by omega))
    · exact .inr (.inr (by omega))

/-- **A write inside an object that ends before the slab** keeps the cache, if it keeps the links of
the free objects. -/
theorem OneSlab.write (h : OneSlab n cache p link t free) (hend : n * (4072 / n) ≤ 4064)
    (ho : IsSlot n t.pages o) (hin : (addr - o).toNat + k ≤ n) (v : BitVec (8 * k))
    (hlinks : ∀ x ∈ free, load (t.write addr k v).vm.mem x 8 = load t.vm.mem x 8) :
    OneSlab n cache p link (t.write addr k v) free := by
  obtain ⟨q, hq, i, hi, ho⟩ := ho
  obtain ⟨hq', hqc⟩ := h.pages q hq
  have hle : n * i + n ≤ 4064 := (mul_add_le_of_lt hi).trans hend
  have hheader : ∀ j, 4064 ≤ j → j + 8 ≤ 4096 →
      load (t.write addr k v).vm.mem (at' p j) 8 = load t.vm.mem (at' p j) 8 := fun j hj hj' =>
    load_write_slot hq' ho hi hin h.pageStart hj' (.inr (.inl (by omega))) v
  refine h.update (fun j k hj => load_write_slot hq' ho hi hin h.cachePage hj (.inl hqc) v)
    (hheader 4064 (by decide) (by decide)) ?_ h.slot List.suffix_rfl
    (by simp [SlabState.write, pagesTaken])
  rw [hheader 4080 (by decide) (by decide)]
  exact h.freelist.congr hlinks

/-! ## Events -/

/-- **An allocation from the slab a walk stops at** returns the address in its first free object. -/
theorem apply_alloc_of_slabWithFree {slab : BitVec 64} (hcache : cache ≠ 0#64)
    (hnodes : load t.vm.mem (at' cache 16) 8 ≠ 0#64) (hslab : slab ≠ 0#64)
    (hwalk : slabWithFree t.vm.mem (2 ^ 64) (load t.vm.mem (at' cache 16) 8) = some slab)
    (ha : bufctlPtr t.vm.mem (load t.vm.mem (at' slab 16) 8) = a) (flags : BitVec 32) :
    (SlabEvent.alloc flags).apply cache t
      = some (a, ⟨{ t.vm with mem := (takeBufctl t.vm.mem slab).2 }, t.pages,
        if a = 0#64 then t.live else a :: t.live⟩) := by
  have halloc : kmemCacheAlloc cache flags t.vm
      = some (a, { t.vm with mem := (takeBufctl t.vm.mem slab).2 }) := by
    rw [kmemCacheAlloc, kmemCacheAllocFuel, if_neg hcache, if_neg hnodes, hwalk, Option.bind_some,
      if_pos hslab, ← ha]
    rfl
  rw [SlabEvent.apply, halloc]
  simp [pagesTaken]

theorem OneSlab.apply_alloc (h : OneSlab n cache p link t (o :: rest)) (flags : BitVec 32) :
    (SlabEvent.alloc flags).apply cache t
      = some (bufctlPtr t.vm.mem o, t.take p (bufctlPtr t.vm.mem o)) := by
  have hslab := h.pageStart.at_ne_zero (i := 4064) (by decide)
  refine apply_alloc_of_slabWithFree h.cachePage.ne_zero (by rwa [h.nodes]) hslab
    h.slabWithFree_cons ?_ flags
  rw [at'_at', h.freelist.1]

theorem OneSlab.step_alloc (h : OneSlab n cache p link t (o :: rest)) (flags : BitVec 32) :
    (SlabEvent.alloc flags).step n cache t = some (t.take p (bufctlPtr t.vm.mem o)) :=
  SlabEvent.step_eq_some.mpr ⟨trivial, _, h.apply_alloc flags⟩

theorem step_write (ho : o ∈ t.live) (hin : (addr - o).toNat + k ≤ n) (v : BitVec (8 * k)) :
    (SlabEvent.write addr k v).step n cache t = some (t.write addr k v) :=
  SlabEvent.step_eq_some.mpr ⟨⟨o, ho, hin⟩, 0#64, rfl⟩

/-- A slab that is full and the only one, as `CacheAt` has it. -/
theorem OneSlab.cacheAt_full (h : OneSlab n cache p 0#64 t []) :
    CacheAt n cache t.vm.mem [⟨p, [], load t.vm.mem (at' p 4088) 4⟩]
      ∧ CacheShape n cache [⟨p, [], load t.vm.mem (at' p 4088) 4⟩] := by
  have hp := h.pageStart
  refine ⟨⟨h.size, h.objects, ⟨h.nodes, hp.at_ne_zero (by decide), h.link⟩, fun v hv => ?_⟩,
    ⟨h.cachePage, by simpa using ⟨hp, h.ne_cache⟩, by simp, by simp⟩⟩
  obtain rfl := List.mem_singleton.mp hv
  exact ⟨h.freelist, rfl, by simp⟩

/-- **What an allocation does**: from a slab without a free object it loses pages, if it ever
returns, and else it takes the first. -/
theorem OneSlab.alloc_cases (h : OneSlab n cache p link t free) (hn : 16 ≤ n) (hn' : n ≤ 512)
    (hlink : NoNext p link) (happly : (SlabEvent.alloc flags).apply cache t = some (ptr, t')) :
    free = [] ∧ ptr = 0#64 ∧ OneSlab n cache p link t' [] ∧ t'.live = t.live
        ∧ (∀ o, IsSlot n t.pages o → IsSlot n t'.pages o)
      ∨ ∃ o rest, free = o :: rest ∧ ptr = bufctlPtr t.vm.mem o ∧ t' = t.take p ptr := by
  cases free with
  | cons o rest =>
    rw [h.apply_alloc] at happly
    obtain ⟨rfl, rfl⟩ := Prod.mk.inj (Option.some.inj happly)
    exact .inr ⟨o, rest, rfl, rfl, rfl⟩
  | nil =>
    rw [SlabEvent.apply] at happly
    obtain ⟨⟨a, s'⟩, halloc, heq⟩ := Option.map_eq_some_iff.mp happly
    obtain ⟨rfl, rfl⟩ := Prod.mk.inj heq
    rcases hlink with rfl | rfl
    · -- the slab is the only one, and pages given to the cache now are lost
      obtain ⟨hcache, hshape⟩ := h.cacheAt_full
      have hfresh : FreshPages t.vm.frames [cache, p] :=
        h.fresh.of_subset (by simp [h.page])
      obtain ⟨rfl, hw⟩ := hcache.alloc_full hshape (by omega) hn' hfresh (by simp) halloc
      have hsame : ∀ q ∈ [cache, p], ∀ j k, j + k ≤ 4096 →
          load s'.mem (at' q j) k = load t.vm.mem (at' q j) k := fun q hq =>
        hw.same q (hshape.pageStart hq) (hfresh.not_mem hq (hshape.pageStart hq).ne_zero)
      refine .inl ⟨rfl, rfl, ?_, by simp, fun o ho => ?_⟩
      · refine h.update (hsame cache (by simp)) (hsame p (by simp) 4064 8 (by decide)) ?_ (by simp)
          hw.suffix rfl
        exact (hsame p (by simp) 4080 8 (by decide)).trans h.freelist
      · obtain ⟨q, hq, hslot⟩ := ho
        exact ⟨q, List.mem_append_left _ hq, hslot⟩
    · rw [kmemCacheAlloc, kmemCacheAllocFuel, if_neg h.cachePage.ne_zero,
        if_neg (by rw [h.nodes]; exact h.pageStart.at_ne_zero (by decide)), h.nodes,
        h.slabWithFree_self] at halloc
      cases halloc

theorem OneSlab.apply_free (h : OneSlab n cache p link t (o :: rest)) (hptr : ptr ≠ 0#64) :
    (SlabEvent.free ptr).apply cache t = some (0#64, t.give p ptr) := by
  rw [SlabEvent.apply, kmemCacheFree, if_neg (by simp [hptr, h.cachePage.ne_zero]),
    h.slabWithFree_cons, Option.map_some, if_neg (h.pageStart.at_ne_zero (by decide))]
  simp only [at'_at']
  rfl

theorem OneSlab.step_free (h : OneSlab n cache p link t (o :: rest)) (hptr : ptr ≠ 0#64)
    (hlive : ptr ∈ t.live) : (SlabEvent.free ptr).step n cache t = some (t.give p ptr) :=
  SlabEvent.step_eq_some.mpr ⟨hlive, 0#64, h.apply_free hptr⟩

/-- **What freeing does**: nothing if the slab has no free object, and else it puts the object
back. -/
theorem OneSlab.free_cases (h : OneSlab n cache p link t free) (hlink : NoNext p link)
    (hptr : ptr ≠ 0#64) (happly : (SlabEvent.free ptr).apply cache t = some (a, t')) :
    free = [] ∧ t' = ⟨t.vm, t.pages, t.live.erase ptr⟩ ∨ free ≠ [] ∧ t' = t.give p ptr := by
  cases free with
  | cons o rest =>
    rw [h.apply_free hptr] at happly
    obtain ⟨-, rfl⟩ := Prod.mk.inj (Option.some.inj happly)
    exact .inr ⟨List.cons_ne_nil o rest, rfl⟩
  | nil =>
    rw [SlabEvent.apply] at happly
    obtain ⟨s', hfreed, heq⟩ := Option.map_eq_some_iff.mp happly
    obtain ⟨-, rfl⟩ := Prod.mk.inj heq
    rw [kmemCacheFree, if_neg (by simp [hptr, h.cachePage.ne_zero])] at hfreed
    rcases hlink with rfl | rfl
    · have hwalk : slabWithFree t.vm.mem (2 ^ 64) (at' p 4064) = some 0#64 :=
        (h.slabWithFree_nil _).trans rfl
      rw [h.nodes, hwalk, Option.map_some, if_pos rfl] at hfreed
      obtain rfl := Option.some.inj hfreed
      exact .inl ⟨rfl, rfl⟩
    · rw [h.nodes, h.slabWithFree_self] at hfreed
      cases hfreed

/-- **All the objects up to one can be taken**, and each address in them is then held, or null. -/
theorem OneSlab.allocs (h : OneSlab n cache p link t (pre ++ rest)) (hn : 16 ≤ n) :
    ∃ t', (List.replicate pre.length (SlabEvent.alloc 0#32)).foldlM (SlabEvent.step n cache) t
        = some t' ∧ OneSlab n cache p link t' rest ∧ t'.pages = t.pages
      ∧ SameOutside p 4096 t.vm.mem t'.vm.mem
      ∧ (∀ o, IsSlot n t.pages o → bufctlPtr t'.vm.mem o = bufctlPtr t.vm.mem o)
      ∧ (∀ a ∈ t.live, a ∈ t'.live)
      ∧ ∀ o ∈ pre, bufctlPtr t.vm.mem o ≠ 0#64 → bufctlPtr t.vm.mem o ∈ t'.live := by
  induction pre generalizing t with
  | nil => exact ⟨t, rfl, h, rfl, SameOutside.refl _ _ _, fun _ _ => rfl, fun _ ha => ha, by simp⟩
  | cons o pre ih =>
    rw [List.cons_append] at h
    have hptr := fun x hx => h.bufctlPtr_take (o := x) hn (bufctlPtr t.vm.mem o) hx
    obtain ⟨t', hrun, hone, hpages, hsame, hkeep, hlive, hnew⟩ :=
      ih (h.take hn (bufctlPtr t.vm.mem o))
    have hmem : ∀ x ∈ pre, IsSlot n t.pages x := fun x hx => h.slot x (by simp [hx])
    refine ⟨t', ?_, hone, hpages,
      (sameOutside_takeBufctl t.vm.mem ⟨p, [], 0#32⟩).trans hsame,
      fun x hx => (hkeep x hx).trans (hptr x hx),
      fun x hx => hlive x (SlabState.mem_take_of_mem _ _ hx),
      List.forall_mem_cons.mpr ⟨fun h0 => hlive _ (t.mem_take p h0), fun x hx h0 => ?_⟩⟩
    · rw [List.length_cons, List.replicate_succ, List.foldlM_cons, h.step_alloc]
      exact hrun
    · rw [← hptr x (hmem x hx)] at h0 ⊢
      exact hnew x hx h0

end Words

/-! ## The addresses in the objects -/

/-- **The objects of a cache have good addresses in them**: those held are slots, all different and
not on the free list, and the address in each free one is null or claimed by no other. -/
structure Named (n : ℕ) (t : SlabState) (free : List (BitVec 64)) : Prop where
  live : ∀ o ∈ t.live, IsSlot n t.pages o ∧ o ∉ free
  distinct : t.live.Nodup
  free : ∀ o ∈ free, bufctlPtr t.vm.mem o ≠ 0#64 →
    Unclaimed n t (free.filter (· ≠ o)) (bufctlPtr t.vm.mem o)

/-- A cache that got no page for its first slab. -/
structure NoSlab (cache : BitVec 64) (t : SlabState) : Prop where
  ne_zero : cache ≠ 0#64
  nodes : load t.vm.mem (at' cache 16) 8 = 0#64
  live : t.live = []

/-- **A cache as runs leave it**: without a slab, or with one slab, no other behind it, and good
addresses in the objects. -/
def SlabUsed (n : ℕ) (cache : BitVec 64) (t : SlabState) : Prop :=
  NoSlab cache t ∨ ∃ p link free, NoNext p link ∧ OneSlab n cache p link t free ∧ Named n t free

section Names

variable {n k : ℕ} {cache p link o a addr ptr : BitVec 64} {flags : BitVec 32} {t t' : SlabState}
  {free free' rest : List (BitVec 64)} {e : SlabEvent} {events : List SlabEvent}

theorem Unclaimed.congr (h : Unclaimed n t free a)
    (hslot : ∀ o, IsSlot n t.pages o → IsSlot n t'.pages o) (hheld : a ∉ t'.live)
    (hfree : ∀ o ∈ free', o ∈ free ∧ bufctlPtr t'.vm.mem o = bufctlPtr t.vm.mem o) :
    Unclaimed n t' free' a where
  slot := hslot a h.slot
  held := hheld
  free o ho := by
    obtain ⟨hmem, hptr⟩ := hfree o ho
    rw [hptr]
    exact h.free o hmem

/-- With its own address in each free object and nothing held, a cache is named. -/
theorem OneSlab.named (h : OneSlab n cache p link t free) (hlive : t.live = [])
    (hself : ∀ o ∈ free, bufctlPtr t.vm.mem o = o) : Named n t free := by
  refine ⟨by simp [hlive], by simp [hlive], fun o ho _ => ?_⟩
  rw [hself o ho]
  refine ⟨h.slot o ho, by simp [hlive], fun x hx => ?_⟩
  obtain ⟨hx, hxo⟩ := List.mem_filter.mp hx
  have hox : o ≠ x := fun heq => by simp [heq] at hxo
  exact ⟨hox, by rwa [hself x hx]⟩

theorem Named.take (hnamed : Named n t (o :: rest)) (h : OneSlab n cache p link t (o :: rest))
    (hn : 16 ≤ n) : Named n (t.take p (bufctlPtr t.vm.mem o)) rest := by
  have hnodup := List.nodup_cons.mp h.freelist.nodup
  have hother : ∀ x ∈ rest, x ∈ (o :: rest).filter (· ≠ o) := fun x hx =>
    List.mem_filter.mpr ⟨List.mem_cons_of_mem o hx, by
      simpa using fun heq : x = o => hnodup.1 (heq ▸ hx)⟩
  have hself := hnamed.free o List.mem_cons_self
  have hptr : ∀ x ∈ rest, bufctlPtr (t.take p (bufctlPtr t.vm.mem o)).vm.mem x
      = bufctlPtr t.vm.mem x := fun x hx =>
    h.bufctlPtr_take hn _ (h.slot x (List.mem_cons_of_mem o hx))
  refine ⟨fun x hx => ?_, ?_, fun x hx h0 => ?_⟩
  · have hold : x ∈ t.live → IsSlot n t.pages x ∧ x ∉ rest := fun hx =>
      ⟨(hnamed.live x hx).1, fun hmem => (hnamed.live x hx).2 (List.mem_cons_of_mem o hmem)⟩
    rw [SlabState.take] at hx
    split at hx
    · exact hold hx
    · rename_i h0
      rcases List.mem_cons.mp hx with rfl | hx
      · exact ⟨(hself h0).slot, fun hmem => ((hself h0).free _ (hother _ hmem)).1 rfl⟩
      · exact hold hx
  · rw [SlabState.take]
    split
    · exact hnamed.distinct
    · rename_i h0
      exact List.nodup_cons.mpr ⟨(hself h0).held, hnamed.distinct⟩
  · rw [hptr x hx] at h0 ⊢
    have hx' := hnamed.free x (List.mem_cons_of_mem o hx) h0
    have ho : o ∈ (o :: rest).filter (· ≠ x) := List.mem_filter.mpr
      ⟨List.mem_cons_self, by simpa using fun heq : o = x => hnodup.1 (heq ▸ hx)⟩
    refine hx'.congr (fun _ hslot => hslot) ?_ fun y hy => ?_
    · rw [SlabState.take]
      split
      · exact hx'.held
      · rw [List.mem_cons, not_or]
        exact ⟨(hx'.free o ho).2, hx'.held⟩
    · obtain ⟨hy, hyx⟩ := List.mem_filter.mp hy
      exact ⟨List.mem_filter.mpr ⟨List.mem_cons_of_mem o hy, hyx⟩, hptr y hy⟩

/-- An object put back with a good address in it. -/
theorem Named.give (hnamed : Named n t free) (h : OneSlab n cache p link t free) (hn : 16 ≤ n)
    (hptr : ptr ∈ t.live) (hgood : bufctlPtr t.vm.mem ptr ≠ 0#64 →
      Unclaimed n { t with live := t.live.erase ptr } free (bufctlPtr t.vm.mem ptr)) :
    Named n (t.give p ptr) (ptr :: free) := by
  obtain ⟨hslot, hout⟩ := hnamed.live ptr hptr
  have hkeep : ∀ x, IsSlot n t.pages x → bufctlPtr (t.give p ptr).vm.mem x
      = bufctlPtr t.vm.mem x := fun x hx => h.bufctlPtr_give hn hslot hx
  refine ⟨fun x hx => ?_, hnamed.distinct.erase ptr, List.forall_mem_cons.mpr ⟨fun h0 => ?_,
    fun x hx h0 => ?_⟩⟩
  · obtain ⟨hne, hx⟩ := (hnamed.distinct.mem_erase_iff).mp hx
    rw [List.mem_cons, not_or]
    exact ⟨(hnamed.live x hx).1, hne, (hnamed.live x hx).2⟩
  · rw [hkeep ptr hslot] at h0 ⊢
    refine (hgood h0).congr (fun _ hslot => hslot) (hgood h0).held fun x hx => ?_
    obtain ⟨hx, hne⟩ := List.mem_filter.mp hx
    rcases List.mem_cons.mp hx with rfl | hx
    · simp at hne
    · exact ⟨hx, hkeep x (h.slot x hx)⟩
  · have hxs := h.slot x hx
    rw [hkeep x hxs] at h0 ⊢
    have hold := hnamed.free x hx h0
    refine ⟨hold.slot, fun hmem => hold.held (List.mem_of_mem_erase hmem), fun y hy => ?_⟩
    obtain ⟨hy, hyx⟩ := List.mem_filter.mp hy
    rcases List.mem_cons.mp hy with rfl | hy
    · rw [hkeep y hslot]
      refine ⟨fun heq => hold.held (heq ▸ hptr), fun heq => ?_⟩
      exact ((hgood (heq ▸ h0)).free x hx).2 heq.symm
    · rw [hkeep y (h.slot y hy)]
      exact hold.free y (List.mem_filter.mpr ⟨hy, hyx⟩)

/-- The client writes inside what it holds. -/
theorem Named.write (hnamed : Named n t free) (h : OneSlab n cache p link t free) (hn : 16 ≤ n)
    (ho : o ∈ t.live) (hin : (addr - o).toNat + k ≤ n) (v : BitVec (8 * k)) :
    (∀ x ∈ free, load (t.write addr k v).vm.mem x 8 = load t.vm.mem x 8)
      ∧ Named n (t.write addr k v) free := by
  obtain ⟨⟨q, hq, hslot⟩, hout⟩ := hnamed.live o ho
  have hkeep : ∀ x ∈ free, load (t.write addr k v).vm.mem x 8 = load t.vm.mem x 8
      ∧ bufctlPtr (t.write addr k v).vm.mem x = bufctlPtr t.vm.mem x := by
    intro x hx
    obtain ⟨r, hr, hslot'⟩ := h.slot x hx
    exact load_write_other hn (h.pages q hq).1 hslot hin (h.pages r hr).1 hslot'
      (fun heq => hout (heq ▸ hx)) v
  refine ⟨fun x hx => (hkeep x hx).1, hnamed.live, hnamed.distinct, fun x hx h0 => ?_⟩
  rw [(hkeep x hx).2] at h0 ⊢
  have hold := hnamed.free x hx h0
  exact hold.congr (fun _ hslot => hslot) hold.held fun y hy =>
    ⟨hy, (hkeep y (List.mem_filter.mp hy).1).2⟩

/-- **What is put back, in a cache with one slab.** -/
theorem OneSlab.putsBackFree_iff (h : OneSlab n cache p link t free) :
    PutsBackFree n cache t (.free ptr) ↔ (free ≠ [] → bufctlPtr t.vm.mem ptr ≠ 0#64 →
      Unclaimed n { t with live := t.live.erase ptr } free (bufctlPtr t.vm.mem ptr)) := by
  rw [PutsBackFree, h.nodes, at'_at']
  constructor
  · intro hgood
    exact hgood free h.freelist
  · intro hgood free' hfree'
    rw [hfree'.unique h.freelist]
    exact hgood

/-- **An object with its own address in it may be put back.** -/
theorem Named.putsBackFree (hnamed : Named n t free) (h : OneSlab n cache p link t free)
    (hptr : ptr ∈ t.live) (hself : bufctlPtr t.vm.mem ptr = ptr) :
    PutsBackFree n cache t (.free ptr) := by
  obtain ⟨hslot, hout⟩ := hnamed.live ptr hptr
  rw [h.putsBackFree_iff, hself]
  intro _ h0
  refine ⟨hslot, fun hmem => (hnamed.distinct.mem_erase_iff.mp hmem).1 rfl, fun o ho => ?_⟩
  refine ⟨fun heq => hout (heq ▸ ho), fun heq => ?_⟩
  exact (hnamed.free o ho (heq ▸ h0)).held (heq ▸ hptr)

/-- A cache without a slab hands out nothing… -/
theorem NoSlab.alloc (h : NoSlab cache t)
    (happly : (SlabEvent.alloc flags).apply cache t = some (ptr, t')) :
    ptr = 0#64 ∧ t'.vm = t.vm ∧ t'.live = t.live := by
  obtain ⟨⟨a, s'⟩, halloc, heq⟩ := Option.map_eq_some_iff.mp happly
  obtain ⟨rfl, rfl⟩ := Prod.mk.inj heq
  have hnull : some (0#64, t.vm) = some (a, s') := by
    rw [kmemCacheAlloc, kmemCacheAllocFuel, if_neg h.ne_zero, if_pos h.nodes] at halloc
    split at halloc
    · cases halloc
    · exact halloc
  obtain ⟨rfl, rfl⟩ := Prod.mk.inj (Option.some.inj hnull)
  exact ⟨rfl, rfl, by simp⟩

theorem NoSlab.allocSafe (h : NoSlab cache t) : AllocSafe n cache t := fun _ _ _ happly hptr =>
  absurd (h.alloc happly).1 hptr

/-- …and stays as it is. -/
theorem NoSlab.step (h : NoSlab cache t) (hstep : e.step n cache t = some t') :
    NoSlab cache t' := by
  obtain ⟨hallowed, ptr, happly⟩ := SlabEvent.step_eq_some.mp hstep
  cases e with
  | alloc flags =>
    obtain ⟨-, hvm, hlive⟩ := h.alloc happly
    exact ⟨h.ne_zero, by rw [hvm, h.nodes], by rw [hlive, h.live]⟩
  | free ptr =>
    rw [SlabEvent.Allowed, h.live] at hallowed
    cases hallowed
  | write addr k v =>
    obtain ⟨o, ho, -⟩ := hallowed
    rw [h.live] at ho
    cases ho

theorem SlabUsed.allocSafe (h : SlabUsed n cache t) (hn : 16 ≤ n) (hn' : n ≤ 512) :
    AllocSafe n cache t := by
  intro flags ptr t' happly hptr
  rcases h with hnone | ⟨p, link, free, hlink, hone, hnamed⟩
  · exact hnone.allocSafe flags ptr t' happly hptr
  · rcases hone.alloc_cases hn hn' hlink happly with ⟨-, h0, -⟩ | ⟨o, rest, rfl, rfl, rfl⟩
    · exact absurd h0 hptr
    · have hgood := hnamed.free o List.mem_cons_self hptr
      exact ⟨hgood.slot, hgood.held⟩

/-- **Allocations and writes keep the addresses good.** -/
theorem SlabUsed.step (h : SlabUsed n cache t) (hn : 16 ≤ n) (hn' : n ≤ 512)
    (hend : n * (4072 / n) ≤ 4064) (he : e.Keeps) (hstep : e.step n cache t = some t') :
    SlabUsed n cache t' := by
  rcases h with hnone | ⟨p, link, free, hlink, hone, hnamed⟩
  · exact .inl (hnone.step hstep)
  obtain ⟨hallowed, ptr, happly⟩ := SlabEvent.step_eq_some.mp hstep
  cases e with
  | free => exact he.elim
  | alloc flags =>
    rcases hone.alloc_cases hn hn' hlink happly with
      ⟨rfl, -, hone', hlive, hslot⟩ | ⟨o, rest, rfl, rfl, rfl⟩
    · refine .inr ⟨p, link, [], hlink, hone', fun x hx => ?_, ?_, by simp⟩
      · rw [hlive] at hx
        exact ⟨hslot x (hnamed.live x hx).1, List.not_mem_nil⟩
      · rw [hlive]
        exact hnamed.distinct
    · exact .inr ⟨p, link, rest, hlink, hone.take hn _, hnamed.take hone hn⟩
  | write addr k v =>
    obtain ⟨o, ho, hin⟩ := hallowed
    obtain ⟨-, rfl⟩ := Prod.mk.inj (Option.some.inj happly)
    obtain ⟨hlinks, hnamed'⟩ := hnamed.write hone hn ho hin v
    exact .inr ⟨p, link, free, hlink, hone.write hend (hnamed.live o ho).1 hin v hlinks, hnamed'⟩

/-- **As long as nothing is put back, a cache with good addresses hands out free slots.** -/
theorem SlabUsed.handsOutFree (h : SlabUsed n cache t) (hn : 16 ≤ n) (hn' : n ≤ 512)
    (hend : n * (4072 / n) ≤ 4064) : HandsOutFree n cache t := fun _ hkeep =>
  always_of_guarded (G := fun _ e => e.Keeps) (fun _ h => h.allocSafe hn hn')
    (fun _ _ _ h he hstep => h.step hn hn' hend he hstep) h
    (guarded_of_forall fun e he _ => hkeep e he)

/-- A free object with an address in it that the client holds. -/
theorem OneSlab.not_handsOutFree_of_named (h : OneSlab n cache p link t free) (hn : 16 ≤ n)
    (ho : o ∈ free) (h0 : bufctlPtr t.vm.mem o ≠ 0#64) (hheld : bufctlPtr t.vm.mem o ∈ t.live) :
    ¬ HandsOutFree n cache t := by
  intro hfree
  have hslot := h.slot o ho
  obtain ⟨pre, post, rfl⟩ := List.append_of_mem ho
  obtain ⟨t', hrun, hone, -, -, hkeep, hlive, -⟩ := h.allocs hn
  have hsafe := (hfree.run (keeps_replicate _ _) hrun).allocSafe 0#32 _ _ (hone.apply_alloc 0#32)
  rw [hkeep o hslot] at hsafe
  exact (hsafe h0).2 (hlive _ hheld)

/-- A free object that the client holds: it writes the cache's address into it, and gets the
cache. -/
theorem OneSlab.not_handsOutFree_of_held (h : OneSlab n cache p link t free) (hn : 16 ≤ n)
    (hend : n * (4072 / n) ≤ 4064) (ho : o ∈ free) (hheld : o ∈ t.live) :
    ¬ HandsOutFree n cache t := by
  intro hfree
  have hslot := h.slot o ho
  have hin : (at' o 8 - o).toNat + 8 ≤ n := by
    rw [toNat_at'_sub _ (by decide)]
    exact hn
  have hlinks : ∀ x ∈ free,
      load (t.write (at' o 8) 8 cache).vm.mem x 8 = load t.vm.mem x 8 := by
    intro x hx
    by_cases hxo : x = o
    · rw [hxo, SlabState.write, ← at'_zero o, at'_at',
        load_store_at' _ (by decide) (by decide) (by decide)]
    · obtain ⟨q, hq, hqslot⟩ := hslot
      obtain ⟨r, hr, hrslot⟩ := h.slot x hx
      exact (load_write_other hn (h.pages q hq).1 hqslot hin (h.pages r hr).1 hrslot hxo _).1
  have hone := h.write hend hslot hin cache hlinks
  obtain ⟨pre, post, rfl⟩ := List.append_of_mem ho
  obtain ⟨t', hrun, hone', -, -, hkeep, -⟩ := hone.allocs hn
  have hcache : bufctlPtr t'.vm.mem o = cache := by
    rw [hkeep o hslot, SlabState.write, bufctlPtr, load_store_same _ _ (by decide)]
  have hsafe := ((hfree.step (step_write hheld hin cache) trivial).run
    (keeps_replicate _ _) hrun).allocSafe 0#32 _ _ (hone'.apply_alloc 0#32)
  rw [hcache] at hsafe
  obtain ⟨q, hq, i, hi, heq⟩ := (hsafe h.cachePage.ne_zero).1
  have hle := slot_le hi
  obtain ⟨hq', hqc⟩ := hone'.pages q hq
  rw [← at'_zero cache] at heq
  exact hqc (h.cachePage.at_inj hq' (by decide) (by omega) heq).1.symm

/-- **A cache whose first free object has a claimed address in it does not hand out free
objects.** -/
theorem OneSlab.not_handsOutFree (h : OneSlab n cache p link t (o :: rest)) (hn : 16 ≤ n)
    (hend : n * (4072 / n) ≤ 4064) (h0 : bufctlPtr t.vm.mem o ≠ 0#64)
    (hclaimed : ¬ Unclaimed n t rest (bufctlPtr t.vm.mem o)) : ¬ HandsOutFree n cache t := by
  intro hfree
  generalize ha : bufctlPtr t.vm.mem o = a at h0 hclaimed
  have happly := h.apply_alloc 0#32
  have hstep := h.step_alloc 0#32
  have hone := h.take hn a
  rw [ha] at happly hstep
  obtain ⟨hslot, hheld⟩ := hfree.allocSafe 0#32 a _ happly h0
  have hnext := hfree.step hstep trivial
  have hlive : a ∈ (t.take p a).live := t.mem_take p h0
  -- so another free object is at that address, or has it in it
  obtain ⟨x, hx, hxa⟩ : ∃ x ∈ rest, a = x ∨ a = bufctlPtr t.vm.mem x := by
    by_contra hnone
    push Not at hnone
    exact hclaimed ⟨hslot, hheld, hnone⟩
  rcases hxa with rfl | hxa
  · exact hone.not_handsOutFree_of_held hn hend hx hlive hnext
  · rw [← h.bufctlPtr_take hn a (h.slot x (List.mem_cons_of_mem o hx))] at hxa
    exact hone.not_handsOutFree_of_named hn hx (hxa ▸ h0) (hxa ▸ hlive) hnext

/-- **An object put back with a claimed address in it.** -/
theorem OneSlab.not_handsOutFree_give (h : OneSlab n cache p link t free) (hn : 16 ≤ n)
    (hend : n * (4072 / n) ≤ 4064) (hptr : IsSlot n t.pages ptr) (hout : ptr ∉ free)
    (h0 : bufctlPtr t.vm.mem ptr ≠ 0#64) (hclaimed : ¬ Unclaimed n
      { t with live := t.live.erase ptr } free (bufctlPtr t.vm.mem ptr)) :
    ¬ HandsOutFree n cache (t.give p ptr) := by
  have hself := h.bufctlPtr_give hn hptr hptr
  refine (h.give hn hptr hout).not_handsOutFree hn hend (by rwa [hself]) fun hunclaimed =>
    hclaimed ?_
  rw [hself] at hunclaimed
  exact hunclaimed.congr (fun _ hslot => hslot) hunclaimed.held fun x hx =>
    ⟨hx, (h.bufctlPtr_give hn hptr (h.slot x hx)).symm⟩

/-- **An object is put back**: the cache goes on handing out free objects, and keeps to `SlabUsed`,
exactly when the address in it is one to be handed out. -/
theorem SlabUsed.step_free (h : SlabUsed n cache t) (hn : 16 ≤ n) (hn' : n ≤ 512)
    (hend : n * (4072 / n) ≤ 4064) (hstep : (SlabEvent.free ptr).step n cache t = some t') :
    (HandsOutFree n cache t' → SlabUsed n cache t')
      ∧ (HandsOutFree n cache t' ↔ PutsBackFree n cache t (.free ptr)) := by
  obtain ⟨hptr, a, happly⟩ := SlabEvent.step_eq_some.mp hstep
  rcases h with hnone | ⟨p, link, free, hlink, hone, hnamed⟩
  · rw [SlabEvent.Allowed, hnone.live] at hptr
    cases hptr
  obtain ⟨hslot, hout⟩ := hnamed.live ptr hptr
  have hne : ptr ≠ 0#64 := by
    obtain ⟨q, hq, hslot⟩ := hslot
    exact SlotOf.ne_zero hslot (hone.pages q hq).1 (by omega)
  rw [hone.putsBackFree_iff]
  rcases hone.free_cases hlink hne happly with ⟨rfl, rfl⟩ | ⟨hsome, rfl⟩
  · have h' : SlabUsed n cache ⟨t.vm, t.pages, t.live.erase ptr⟩ := by
      refine .inr ⟨p, link, [], hlink, ?_, fun x hx => ?_, hnamed.distinct.erase ptr, by simp⟩
      · exact hone.update (fun _ _ _ => rfl) rfl hone.freelist hone.slot List.suffix_rfl
          (by simp [pagesTaken])
      · exact hnamed.live x (List.mem_of_mem_erase hx)
    exact ⟨fun _ => h', iff_of_true (h'.handsOutFree hn hn' hend) fun hnil => absurd rfl hnil⟩
  · by_cases hgood : bufctlPtr t.vm.mem ptr ≠ 0#64 →
        Unclaimed n { t with live := t.live.erase ptr } free (bufctlPtr t.vm.mem ptr)
    · have h' : SlabUsed n cache (t.give p ptr) :=
        .inr ⟨p, link, _, hlink, hone.give hn hslot hout, hnamed.give hone hn hptr hgood⟩
      exact ⟨fun _ => h', iff_of_true (h'.handsOutFree hn hn' hend) fun _ => hgood⟩
    · have hbad : ¬ HandsOutFree n cache (t.give p ptr) := by
        obtain ⟨h0, hclaimed⟩ := Classical.not_imp.mp hgood
        exact hone.not_handsOutFree_give hn hend hslot hout h0 hclaimed
      exact ⟨fun h => absurd h hbad, iff_of_false hbad fun h => hgood (h hsome)⟩

/-- **When a cache hands out free slots all along a run**: exactly when everything that is put back
has a good address in it. -/
theorem SlabUsed.always_handsOutFree_iff (h : SlabUsed n cache t) (hn : 16 ≤ n) (hn' : n ≤ 512)
    (hend : n * (4072 / n) ≤ 4064) (events : List SlabEvent) :
    Always (SlabEvent.step n cache) (HandsOutFree n cache) events t
      ↔ Guarded (SlabEvent.step n cache) (PutsBackFree n cache) events t := by
  -- the invariant is kept as long as the cache hands out free objects
  refine always_iff_guarded (I := fun t => HandsOutFree n cache t → SlabUsed n cache t) ?_
    (fun _ => h) (h.handsOutFree hn hn' hend)
  clear h
  intro t e t' hinv hfree hstep
  have h := hinv hfree
  by_cases hkeeps : e.Keeps
  · have h' := h.step hn hn' hend hkeeps hstep
    exact ⟨fun _ => h', iff_of_true (h'.handsOutFree hn hn' hend) hkeeps.putsBackFree⟩
  · cases e with
    | alloc => exact absurd trivial hkeeps
    | write => exact absurd trivial hkeeps
    | free ptr => exact h.step_free hn hn' hend hstep

end Names

end MoonOS

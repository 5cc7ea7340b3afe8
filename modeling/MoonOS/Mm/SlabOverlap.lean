import MoonOS.Mm.SlabUse

/-!
# Mm/SlabOverlap — objects whose headers reach into the slab

The last object of a page is at `n * (4072 / n - 1)`, and its header has 24 bytes.  With 21 of the
sizes (1 to 19, 22 and 23 bytes) they end behind the first byte of the `struct slab`, and what
`slab_cache_grow` leaves there are parts of the addresses of the object and of the slab.

* `exists_walk_broken` — whichever of these sizes a cache is made for, in a memory full of ones no
  walk along its slabs finds the free objects: the slab counts objects, or its free list leads out
  of the page, or its link does or comes back to it.  With 8 bytes the walk ends, and finds one
  object, which is the slab.
-/

namespace MoonOS

open ByteMemory

/-! ## The header of the slab -/

/-- A word that lies neither in the page of a cache nor in that of its slab. -/
def OffPages (a : BitVec 64) (k : ℕ) : Prop := ∀ i < k, 8192 ≤ (at' a i - highPage 1).toNat

instance (a : BitVec 64) (k : ℕ) : Decidable (OffPages a k) :=
  inferInstanceAs (Decidable (∀ i < k, _))

/-- With 1 to 5 bytes the slab counts objects… -/
theorem headerMem_count : ∀ n < 6, 1 ≤ n →
    load (headerMem (highPage 2) n) (at' (highPage 2) 4088) 4 ≠ 0#32 := by decide

/-- …with 6 to 11 but 8 its free list leads out of the page… -/
theorem headerMem_free : ∀ n < 12, 6 ≤ n → n ≠ 8 →
    load (headerMem (highPage 2) n) (at' (highPage 2) 4080) 8 ≠ 0#64
      ∧ OffPages (load (headerMem (highPage 2) n) (at' (highPage 2) 4080) 8) 8 := by decide

/-- …with 8 it is the slab itself… -/
theorem headerMem_eight : load (headerMem (highPage 2) 8) (at' (highPage 2) 4064) 8 = 0#64
    ∧ load (headerMem (highPage 2) 8) (at' (highPage 2) 4080) 8 = at' (highPage 2) 4064 := by decide

/-- …with 12 and 13 the next slab is the last object, and the low half of the free list its
count… -/
theorem headerMem_object : ∀ n < 14, 12 ≤ n →
    load (headerMem (highPage 2) n) (at' (highPage 2) 4064) 8 = at' (highPage 2) 4056
      ∧ load (headerMem (highPage 2) n) (at' (highPage 2) 4080) 4 ≠ 0#32 := by decide

/-- …and with the others it is out of the page, or the slab itself. -/
theorem headerMem_link : ∀ n < 24, 14 ≤ n → ¬ HeadersFit n →
    load (headerMem (highPage 2) n) (at' (highPage 2) 4064) 8 = at' (highPage 2) 4064
      ∨ load (headerMem (highPage 2) n) (at' (highPage 2) 4064) 8 ≠ 0#64
        ∧ OffPages (at' (load (headerMem (highPage 2) n) (at' (highPage 2) 4064) 8) 24) 4 := by
  decide

/-! ## Walks -/

/-- **A walk along slabs that count no objects**: the slabs, each with its free list. -/
structure SlabWalk (m : Mem) (a : BitVec 64) (walk : List (BitVec 64 × List (BitVec 64))) :
    Prop where
  nodes : Linked m a (walk.map Prod.fst)
  unused : ∀ w ∈ walk, load m (at' w.1 24) 4 = 0#32
  free : ∀ w ∈ walk, Linked m (load m (at' w.1 16) 8) w.2

section Walks

variable {n : ℕ} {m : Mem} {a : BitVec 64} {walk : List (BitVec 64 × List (BitVec 64))}

/-- The first slab of a walk. -/
theorem SlabWalk.exists_cons (h : SlabWalk m a walk) (ha : a ≠ 0#64) : ∃ free rest,
    walk = (a, free) :: rest ∧ load m (at' a 24) 4 = 0#32 ∧ Linked m (load m (at' a 16) 8) free
      ∧ SlabWalk m (load m a 8) rest := by
  cases walk with
  | nil => exact absurd h.nodes ha
  | cons w rest =>
    obtain ⟨slab, free⟩ := w
    have hcount := h.unused (slab, free) List.mem_cons_self
    have hlist := h.free (slab, free) List.mem_cons_self
    obtain ⟨rfl, -, hnodes⟩ := h.nodes
    exact ⟨free, rest, rfl, hcount, hlist, hnodes,
      fun w hw => h.unused w (List.mem_cons_of_mem _ hw),
      fun w hw => h.free w (List.mem_cons_of_mem _ hw)⟩

theorem SlabWalk.cons {free : List (BitVec 64)} (h : SlabWalk m (load m a 8) walk) (ha : a ≠ 0#64)
    (hcount : load m (at' a 24) 4 = 0#32) (hfree : Linked m (load m (at' a 16) 8) free) :
    SlabWalk m a ((a, free) :: walk) where
  nodes := ⟨rfl, ha, h.nodes⟩
  unused := List.forall_mem_cons.mpr ⟨hcount, h.unused⟩
  free := List.forall_mem_cons.mpr ⟨hfree, h.free⟩

/-- Slabs that count no objects are a walk. -/
theorem CacheAt.slabWalk {cache : BitVec 64} {slabs : List SlabView} (h : CacheAt n cache m slabs)
    (hcount : ∀ v ∈ slabs, v.refcount = 0#32) : SlabWalk m (load m (at' cache 16) 8)
      (slabs.map fun v => (v.addr, v.free)) where
  nodes := by
    rw [List.map_map]
    exact h.nodes
  unused w hw := by
    obtain ⟨v, hv, rfl⟩ := List.mem_map.mp hw
    rw [SlabView.addr, at'_at']
    exact (h.slab v hv).refcount.trans (hcount v hv)
  free w hw := by
    obtain ⟨v, hv, rfl⟩ := List.mem_map.mp hw
    rw [SlabView.addr, at'_at']
    exact (h.slab v hv).freelist

/-- Memory is full of ones, but for the pages of the cache and its slab. -/
def OnesOutside (m : Mem) : Prop := ∀ x, 8192 ≤ (x - highPage 1).toNat → m x = 0xff#8

theorem OnesOutside.load_eq (h : OnesOutside m) (ha : OffPages a 8) :
    load m a 8 = BitVec.allOnes 64 := by
  refine load_eq_of_bytes fun i hi => ?_
  rw [h _ (ha i hi)]
  interval_cases i <;> rfl

/-- A list that leads out of the pages does not end… -/
theorem OnesOutside.not_linked (h : OnesOutside m) (ha : a ≠ 0#64) (hoff : OffPages a 8)
    {l : List (BitVec 64)} : ¬ Linked m a l := by
  intro hl
  cases l with
  | nil => exact ha hl
  | cons b l =>
    obtain ⟨rfl, -, hrest⟩ := hl
    rw [h.load_eq hoff] at hrest
    exact not_linked_self (by decide) (h.load_eq (by decide)) hrest

/-- …and a slab that is not on them counts objects. -/
theorem OnesOutside.not_walk (h : OnesOutside m) (ha : a ≠ 0#64) (hoff : OffPages (at' a 24) 4) :
    ¬ SlabWalk m a walk := by
  intro hw
  obtain ⟨-, -, -, hcount, -⟩ := hw.exists_cons ha
  have hones : load m (at' a 24) 4 = BitVec.allOnes 32 := by
    refine load_eq_of_bytes fun i hi => ?_
    rw [h _ (hoff i hi)]
    interval_cases i <;> rfl
  rw [hones] at hcount
  exact absurd hcount (by decide)

/-- Sizes whose headers do not fit are small. -/
theorem lt_of_not_headersFit (hn : 1 ≤ n) (hn' : n ≤ 512) (hfit : ¬ HeadersFit n) : n < 24 := by
  rcases Nat.lt_or_ge n 16 with h | h
  · omega
  · rcases headersFit_or h hn' with h | h
    · exact absurd h hfit
    · omega

theorem last_le : ∀ n < 24, 6 ≤ n → n * (4072 / n - 1) ≤ 4064 := by decide

/-- **A walk along the slabs of a cache whose objects' headers do not fit.** -/
theorem walk_linkedPage (hn : 1 ≤ n) (hn' : n ≤ 512) (hfit : ¬ HeadersFit n)
    (hlink : load m (at' (highPage 2) 4064) 8 = 0#64)
    (hfree : load m (at' (highPage 2) 4080) 8 = highPage 2)
    (hcount : load m (at' (highPage 2) 4088) 4 = 0#32)
    (hones : OnesOutside (linkedPage n (highPage 2) m))
    (hw : SlabWalk (linkedPage n (highPage 2) m) (at' (highPage 2) 4064) walk) :
    walk = [(at' (highPage 2) 4064, [at' (highPage 2) 4064])] := by
  have hlt := lt_of_not_headersFit hn hn' hfit
  have hlast := mul_pred_elements hn hn'
  have hle := Nat.mul_div_le 4072 n
  have hword : ∀ i k, n * (4072 / n - 1) ≤ i →
      4064 ≤ i ∧ i + k ≤ 4072 ∨ 4080 ≤ i ∧ i + k ≤ 4092 →
      load (linkedPage n (highPage 2) m) (at' (highPage 2) i) k
        = load (headerMem (highPage 2) n) (at' (highPage 2) i) k :=
    fun i k => load_header hn hn' hlink hfree hcount
  obtain ⟨free, rest, rfl, hrefcount, hlist, hrest⟩ := hw.exists_cons (by decide)
  rw [at'_at', hword _ 4 (by omega) (by omega)] at hrefcount
  rw [at'_at', hword _ 8 (by omega) (by omega)] at hlist
  rcases Nat.lt_or_ge n 6 with hsmall | hsix
  · exact absurd hrefcount (headerMem_count n hsmall hn)
  have hnext := hword 4064 8 (last_le n hlt hsix) (by omega)
  rw [hnext] at hrest
  rcases Nat.lt_or_ge n 12 with hsmall | htwelve
  · by_cases height : n = 8
    · subst height
      obtain ⟨hnull, hhead⟩ := headerMem_eight
      rw [hnull] at hrest hnext
      rw [hhead] at hlist
      obtain rfl : rest = [] := by simpa using hrest.nodes.eq_zero_iff.mp rfl
      have hslab : Linked (linkedPage 8 (highPage 2) m) (at' (highPage 2) 4064)
          [at' (highPage 2) 4064] := ⟨rfl, by decide, hnext⟩
      rw [hlist.unique hslab]
    · obtain ⟨hne, hoff⟩ := headerMem_free n hsmall hsix height
      exact absurd hlist (hones.not_linked hne hoff)
  rcases Nat.lt_or_ge n 14 with hsmall | hlarge
  · obtain ⟨hobject, hne⟩ := headerMem_object n hsmall htwelve
    rw [hobject] at hrest
    obtain ⟨-, -, -, hcount', -⟩ := hrest.exists_cons (by decide)
    rw [at'_at', hword _ 4 (by omega) (by omega)] at hcount'
    exact absurd hcount' hne
  · rcases headerMem_link n hlt hlarge hfit with hself | ⟨hne, hoff⟩
    · rw [hself] at hrest hnext
      exact absurd hrest.nodes (not_linked_self (by decide) hnext)
    · exact absurd hrest (hones.not_walk hne hoff)

/-- The pages are the only memory that is written. -/
theorem onesOutside_grownMem (hn : 1 ≤ n) (hn' : n ≤ 512)
    (hnull : load m (at' (highPage 1) 16) 8 = 0#64)
    (hm : SameOutside (highPage 1) 4096 (fun _ => 0xff#8) m) :
    OnesOutside (grownMem n (highPage 1) (highPage 2) m) := by
  intro x hx
  have hoff : 4096 ≤ (x - highPage 2).toNat := by
    rw [show highPage 2 = highPage 1 + 4096#64 by decide]
    bv_omega
  have hcell : SameOutside (highPage 1) 4096 (createdPage (highPage 2) m)
      (store (createdPage (highPage 2) m) (at' (highPage 1) 16) 8 (at' (highPage 2) 4064)) :=
    (SameOutside.refl _ _ _).store (by decide) _
  rw [grownMem, if_pos hnull, sameOutside_linkedPage hn hn' _ _ x hoff, hcell x (by omega),
    sameOutside_createdPage _ m x hoff, hm x (by omega)]

/-- A cache made of the first two pages of the upper half, in a memory full of ones. -/
theorem exists_made_ones {size : BitVec 64} {alignment : BitVec 32}
    (hsize : objectSize size alignment = n) (hn : 1 ≤ n) (hn' : n ≤ 512) :
    ∃ m₀, CacheAt n (highPage 1) m₀ [] ∧ OnesOutside (grownMem n (highPage 1) (highPage 2) m₀)
      ∧ CacheMade size alignment [] ⟨fun _ => 0xff#8, [highPage 1, highPage 2], false⟩ (highPage 1)
        ⟨grownMem n (highPage 1) (highPage 2) m₀, [], false⟩ := by
  subst hsize
  have h0 : size ≠ 0#64 := by
    rintro rfl
    simp [objectSize, slabSize] at hn
  have h₁ := pageStart_highPage (i := 1) (by decide)
  have h₂ := pageStart_highPage (i := 2) (by decide)
  obtain ⟨m₀, hbare, hsame, hcreate⟩ := kmemCacheCreate_page 0#64 size alignment (fun _ => 0xff#8)
    [highPage 2] h₁ h0 hn'
  rw [hbare.slabCacheGrow ⟨h₁, by simp, by simp, by simp⟩ hn hn' h₂ (by decide)] at hcreate
  have hfresh : FreshPages [highPage 1, highPage 2] [] :=
    ((freshPages_nil _).push h₂ (by decide)).push h₁ (by simp)
  exact ⟨m₀, hbare, onesOutside_grownMem hn hn' hbare.nodes hsame,
    by simp, List.nodup_nil, hfresh, ⟨_, hcreate⟩, by decide⟩

/-- **A cache whose objects' headers do not fit, just made**: no walk finds its objects. -/
theorem exists_walk_broken {size : BitVec 64} {alignment : BitVec 32}
    (hsize : objectSize size alignment = n) (hn : 1 ≤ n) (hn' : n ≤ 512) (hfit : ¬ HeadersFit n) :
    ∃ m, CacheMade size alignment [] ⟨fun _ => 0xff#8, [highPage 1, highPage 2], false⟩ (highPage 1)
        ⟨m, [], false⟩
      ∧ ∀ walk, SlabWalk m (load m (at' (highPage 1) 16) 8) walk →
        walk = [(at' (highPage 2) 4064, [at' (highPage 2) 4064])] := by
  have h₁ := pageStart_highPage (i := 1) (by decide)
  have h₂ := pageStart_highPage (i := 2) (by decide)
  have hne : highPage 1 ≠ highPage 2 := by decide
  obtain ⟨m₀, hbare, hones, hmade⟩ := exists_made_ones hsize hn hn'
  refine ⟨_, hmade, fun walk hw => ?_⟩
  obtain ⟨m', hm', hlink, hfree, hcount⟩ := load_grownMem (n := n) (m := m₀) h₁ h₂ hne
  rw [(load_grownMem_first hn hn' hbare h₁ h₂ hne).2.2] at hw
  rw [hm'] at hw hones
  exact walk_linkedPage hn hn' hfit hlink hfree hcount hones hw

end Walks

end MoonOS

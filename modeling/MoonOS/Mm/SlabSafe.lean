import MoonOS.Mm.SlabOverlap
import MoonOS.Mm.SlabRun

/-!
# Mm/SlabSafe — for which sizes a slab cache is safe

A new cache is in order if its objects end before the `struct slab` on their page, and so do their
headers, or with 16 bytes the slab's link comes back to the slab (`CacheMade.slabUsed`).  With every
other size some run of allocations and writes, in some memory, gets an address that is no slot: the
free list leads out of the page (1 to 11 bytes but 8), the first object's address is written over
(12 to 15), the slab's link is (17 to 19), or the last object lies on it (8, and the others).

* `slabSafe_iff` — what is put back with a good address in it is handed out safely exactly with
  those sizes, and with them a run is safe exactly when all that is put back is.
-/

namespace MoonOS

open ByteMemory GuardedRun

/-! ## Sizes that are safe -/

/-- **The objects end before the slab, and what is behind it is no other slab**: the headers fit, or
they are of 16 bytes and the link is the slab's own address. -/
def SafeSize (n : ℕ) : Prop := n * (4072 / n) ≤ 4064 ∧ (HeadersFit n ∨ n = 16)

instance (n : ℕ) : Decidable (SafeSize n) := inferInstanceAs (Decidable (_ ∧ _))

theorem SafeSize.sixteen_le {n : ℕ} (h : SafeSize n) : 16 ≤ n := by
  rcases h.2 with hfit | rfl
  · exact hfit.1
  · exact le_rfl

section Safe

variable {n : ℕ} {cache p size : BitVec 64} {alignment : BitVec 32} {m : Mem} {s s₀ : Vm}
  {fs held : List (BitVec 64)}

/-- **A new slab, with objects of 16 bytes or more**: whatever became of its link, each object is on
the free list with its own address in it. -/
theorem oneSlab_grownMem (hn : 16 ≤ n) (hn' : n ≤ 512) (h : CacheAt n cache m [])
    (hcache : PageStart cache) (hp : PageStart p) (hne : cache ≠ p)
    (hfresh : FreshPages fs [cache, p]) :
    OneSlab n cache p (load (grownMem n cache p m) (at' p 4064) 8)
        ⟨⟨grownMem n cache p m, fs, false⟩, [p], []⟩ (freshSlab n p).free
      ∧ ∀ o ∈ (freshSlab n p).free, bufctlPtr (grownMem n cache p m) o = o := by
  obtain ⟨hsize, hobjs, hnodes⟩ := load_grownMem_first (by omega) hn' h hcache hp hne
  have hslab := slabAt_grownMem (m := m) hn hn' hcache hp hne
  refine ⟨⟨hsize, hobjs, hnodes, rfl, hslab.freelist, fun o ho => ?_, hcache,
    by simpa using ⟨hp, hne.symm⟩, List.mem_singleton_self p, hfresh⟩, hslab.self⟩
  obtain ⟨i, hi, rfl⟩ := List.mem_map.mp ho
  exact ⟨p, List.mem_singleton_self p, i, List.mem_range.mp hi, rfl⟩

theorem noNext_grownMem (hsafe : HeadersFit n ∨ n = 16) (hn' : n ≤ 512) (hcache : PageStart cache)
    (hp : PageStart p) (hne : cache ≠ p) :
    NoNext p (load (grownMem n cache p m) (at' p 4064) 8) := by
  obtain ⟨m', hm', hlink, -⟩ := load_grownMem (n := n) (m := m) hcache hp hne
  rw [hm']
  rcases hsafe with hfit | rfl
  · have hn : 1 ≤ n := le_trans (by decide) hfit.1
    exact .inl (by rw [load_linkedPage_of_le hn hn' hfit.2 (by decide), hlink])
  · exact .inr (load_linkedPage_last (n := 16) (by decide) (by decide)).2

/-- **A cache just made**, with objects of a safe size or of none. -/
theorem CacheMade.slabUsed (h : CacheMade size alignment held s cache s₀)
    (hsize : objectSize size alignment = n) :
    NoSlab cache (madeState s cache s₀)
      ∨ 1 ≤ n ∧ (SafeSize n → SlabUsed n cache (madeState s cache s₀)) := by
  obtain ⟨hn', hc, -, m, m₀, fs, b, rfl, hfresh, hbare, hgrow⟩ := h.cases hsize
  have hfresh' : FreshPages fs [cache] := hfresh.of_subset (by simp)
  by_cases hhead : fs.headD 0#64 = 0#64
  · rw [slabCacheGrow_refused rfl hhead] at hgrow
    obtain ⟨-, rfl⟩ := Prod.mk.inj (Option.some.inj hgrow)
    exact .inl ⟨hc.ne_zero, hbare.nodes, rfl⟩
  · obtain ⟨p, fs, rfl, hp, hout, hfs⟩ := hfresh'.head hhead
    have hne : cache ≠ p := fun h => hout (List.mem_singleton.mpr h.symm)
    rcases Nat.eq_zero_or_pos n with rfl | hn
    · rw [slabCacheGrow_zero hbare hc hp hne] at hgrow
      cases hgrow
    refine .inr ⟨hn, fun hsafe => .inr ?_⟩
    rw [hbare.slabCacheGrow ⟨hc, by simp, by simp, by simp⟩ hn hn' hp hout] at hgrow
    obtain ⟨-, rfl⟩ := Prod.mk.inj (Option.some.inj hgrow)
    obtain ⟨hone, hself⟩ := oneSlab_grownMem hsafe.sixteen_le hn' hbare hc hp hne
      (hfs.of_subset (by simp))
    have hstate : madeState ⟨m, cache :: p :: fs, false⟩ cache
        ⟨grownMem n cache p m₀, fs, false⟩ = ⟨⟨grownMem n cache p m₀, fs, false⟩, [p], []⟩ := by
      have hlen : fs.length + 1 + 1 - fs.length = 2 := by omega
      simp [madeState, pagesTaken, hlen, hc.ne_zero, hp.ne_zero]
    rw [hstate]
    exact ⟨p, _, _, noNext_grownMem hsafe.2 hn' hc hp hne, hone, hone.named rfl hself⟩

end Safe

/-! ## Sizes that are not -/

section Unsafe

variable {n k : ℕ} {cache p link a slab ptr size : BitVec 64} {alignment : BitVec 32} {m : Mem}
  {t : SlabState}

/-- What lies apart from the objects of a page is no slot of it. -/
theorem not_isSlot (h : 4072 ≤ (a - p).toNat) : ¬ IsSlot n [p] a := by
  rintro ⟨q, hq, i, hi, rfl⟩
  obtain rfl := List.mem_singleton.mp hq
  have hn : 0 < n := by
    rcases Nat.eq_zero_or_pos n with rfl | hn
    · simp at hi
    · exact hn
  have hlt : n * i < 4072 :=
    lt_of_lt_of_le ((Nat.mul_lt_mul_left hn).mpr hi) (Nat.mul_div_le _ _)
  rw [toNat_at'_sub _ (by omega)] at h
  omega

/-- A walk that stops at a slab whose first free object has no slot for its address. -/
theorem not_allocSafe_of_walk (hcache : cache ≠ 0#64)
    (hnodes : load t.vm.mem (at' cache 16) 8 ≠ 0#64) (hslab : slab ≠ 0#64)
    (hwalk : slabWithFree t.vm.mem (2 ^ 64) (load t.vm.mem (at' cache 16) 8) = some slab)
    (ha : bufctlPtr t.vm.mem (load t.vm.mem (at' slab 16) 8) = a) (h0 : a ≠ 0#64)
    (hout : ¬ IsSlot n t.pages a) : ¬ AllocSafe n cache t := fun hsafe =>
  hout (hsafe 0#32 a _ (apply_alloc_of_slabWithFree hcache hnodes hslab hwalk ha 0#32) h0).1

/-- **A slab without free objects whose link leads out of the pages**: in a memory full of ones what
is there has free objects, and the address in them is all ones. -/
theorem OneSlab.not_allocSafe (h : OneSlab n (highPage 1) (highPage 2) link t [])
    (hpages : t.pages = [highPage 2]) (hones : OnesOutside t.vm.mem) (hlink : link ≠ 0#64)
    (hoff : OffPages (at' link 16) 8) : ¬ AllocSafe n (highPage 1) t := by
  have hfirst : load t.vm.mem (at' link 16) 8 = BitVec.allOnes 64 := hones.load_eq hoff
  have hwalk : slabWithFree t.vm.mem (2 ^ 64) (at' (highPage 2) 4064) = some link :=
    (h.slabWithFree_nil _).trans (slabWithFree_head _ hlink (by rw [hfirst]; decide))
  refine not_allocSafe_of_walk (by decide) (by rw [h.nodes]; decide) hlink
    (by rw [h.nodes]; exact hwalk) ?_ (by decide : BitVec.allOnes 64 ≠ 0#64) ?_
  · rw [hfirst]
    exact hones.load_eq (by decide)
  · rw [hpages]
    exact not_isSlot (by decide)

/-- The last of the slots lies on the link, and what a client writes there is the link. -/
theorem OneSlab.relink (h : OneSlab n cache p link t []) (hk : k ≤ 8) (v : BitVec (8 * k)) :
    OneSlab n cache p (load (store t.vm.mem (at' p 4064) k v) (at' p 4064) 8)
      (t.write (at' p 4064) k v) [] := by
  have hp := h.pageStart
  have hword : ∀ j l, j + l ≤ 4096 → load (store t.vm.mem (at' p 4064) k v) (at' cache j) l
      = load t.vm.mem (at' cache j) l := fun j l hj =>
    load_store_page hp h.cachePage (by omega) hj (.inl h.ne_cache) v
  refine ⟨(hword 0 4 (by decide)).trans h.size, (hword 4 4 (by decide)).trans h.objects,
    (hword 16 8 (by decide)).trans h.nodes, rfl, ?_, by simp, h.cachePage, h.pages, h.page, h.fresh⟩
  exact (load_store_at' p (.inl (by omega)) (by omega) (by decide) v).trans h.freelist

theorem OnesOutside.of_sameOutside {m' : Mem} (h : OnesOutside m)
    (hsame : SameOutside (highPage 2) 4096 m m') : OnesOutside m' := by
  intro x hx
  rw [hsame x ?_, h x hx]
  rw [show highPage 2 = highPage 1 + 4096#64 by decide]
  bv_omega

/-- **Once all objects are taken, a walk goes on at the slab's link.** -/
theorem OneSlab.not_handsOutFree_of_link {free : List (BitVec 64)} (hn : 16 ≤ n)
    (h : OneSlab n (highPage 1) (highPage 2) link t free) (hpages : t.pages = [highPage 2])
    (hones : OnesOutside t.vm.mem) (hlink : link ≠ 0#64) (hoff : OffPages (at' link 16) 8) :
    ¬ HandsOutFree n (highPage 1) t := by
  intro hfree
  rw [← List.append_nil free] at h
  obtain ⟨t', hrun, hone, hpages', hsame, -⟩ := h.allocs hn
  exact hone.not_allocSafe (hpages'.trans hpages) (hones.of_sameOutside hsame) hlink hoff
    (hfree.run (keeps_replicate _ _) hrun).allocSafe

/-- A link whose first `r` bytes a client has set to 1. -/
def relinked (link : BitVec 64) (r : ℕ) : BitVec 64 :=
  load (store (store (fun _ => 0#8) (at' (highPage 2) 4064) 8 link) (at' (highPage 2) 4064) r
    1#(8 * r)) (at' (highPage 2) 4064) 8

/-- **…or, where the last object lies on the link, at what the client wrote there.** -/
theorem OneSlab.not_handsOutFree_of_overlap (hn : 16 ≤ n) (hn' : n ≤ 512)
    (h : OneSlab n (highPage 1) (highPage 2) link t (freshSlab n (highPage 2)).free)
    (hself : ∀ o ∈ (freshSlab n (highPage 2)).free, bufctlPtr t.vm.mem o = o)
    (hpages : t.pages = [highPage 2]) (hones : OnesOutside t.vm.mem)
    (hover : 4064 < n * (4072 / n)) (hlink : relinked link (n * (4072 / n) - 4064) ≠ 0#64)
    (hoff : OffPages (at' (relinked link (n * (4072 / n) - 4064)) 16) 8) :
    ¬ HandsOutFree n (highPage 1) t := by
  intro hfree
  have hp := h.pageStart
  have hmul := mul_pred_elements (by omega) hn'
  have hle := Nat.mul_div_le 4072 n
  have hmany : 7 ≤ 4072 / n := (Nat.le_div_iff_mul_le (by omega)).mpr (by omega)
  have hlast : at' (highPage 2) (n * (4072 / n - 1)) ∈ (freshSlab n (highPage 2)).free :=
    List.mem_map_of_mem (List.mem_range.mpr (by omega))
  rw [← List.append_nil (freshSlab n (highPage 2)).free] at h
  obtain ⟨t', hrun, hone, hpages', hsame, -, -, hheld⟩ := h.allocs hn
  have hlive : at' (highPage 2) (n * (4072 / n - 1)) ∈ t'.live := by
    have hmem := hheld _ hlast
    rw [hself _ hlast] at hmem
    exact hmem (hp.at_ne_zero (by omega))
  have hallowed : (at' (highPage 2) 4064 - at' (highPage 2) (n * (4072 / n - 1))).toNat
      + (n * (4072 / n) - 4064) ≤ n := by
    rw [show 4064 = n * (4072 / n - 1) + (4064 - n * (4072 / n - 1)) by omega, ← at'_at',
      toNat_at'_sub _ (by omega)]
    omega
  have hword : load t'.vm.mem (at' (highPage 2) 4064) 8
      = load (store (fun _ => 0#8) (at' (highPage 2) 4064) 8 link) (at' (highPage 2) 4064) 8 := by
    rw [hone.link, load_store_same _ _ (by decide)]
  generalize hr : n * (4072 / n) - 4064 = r at hlink hoff hallowed
  have hone' := hone.relink (show r ≤ 8 by omega) 1#(8 * r)
  rw [load_store_congr hword, ← relinked] at hone'
  refine hone'.not_allocSafe (hpages'.trans hpages) ?_ hlink hoff
    ((hfree.run (keeps_replicate _ _) hrun).step
      (step_write hlive hallowed _) trivial).allocSafe
  exact hones.of_sameOutside (hsame.store (by omega) _)

/-- With 8 bytes the last object is the slab, and the only one on the free list. -/
theorem not_handsOutFree_of_eight (h : OneSlab 8 (highPage 1) (highPage 2) 0#64 t
      [at' (highPage 2) 4064])
    (hself : bufctlPtr t.vm.mem (at' (highPage 2) 4064) = at' (highPage 2) 4064)
    (hpages : t.pages = [highPage 2]) (hones : OnesOutside t.vm.mem) :
    ¬ HandsOutFree 8 (highPage 1) t := by
  intro hfree
  have hstep := h.step_alloc 0#32
  rw [hself] at hstep
  have hone := (h.take_of_links (at' (highPage 2) 4064) (by simp)).relink (k := 8) le_rfl 1#64
  rw [load_store_same _ _ (by decide)] at hone
  have hlive : at' (highPage 2) 4064 ∈ (t.take (highPage 2) (at' (highPage 2) 4064)).live :=
    List.mem_cons_self
  refine hone.not_allocSafe hpages ?_ (by decide) (by decide)
    ((hfree.step hstep trivial).step (step_write hlive (by decide) _) trivial).allocSafe
  have hsame := sameOutside_takeBufctl t.vm.mem ⟨highPage 2, [], 0#32⟩
  exact hones.of_sameOutside (hsame.store (by decide) _)

/-- With 1 to 11 bytes but 8 the free list leads out of the pages. -/
theorem headerMem_free_small : ∀ n < 12, 1 ≤ n → n ≠ 8 →
    load (headerMem (highPage 2) n) (at' (highPage 2) 4080) 8 ≠ 0#64
      ∧ OffPages (at' (load (headerMem (highPage 2) n) (at' (highPage 2) 4080) 8) 8) 8 := by decide

/-- With 12 to 15 bytes the second object's link is written over the first one's address. -/
theorem bufctls_head : ∀ n < 16, 12 ≤ n →
    load (bufctls (highPage 2) (at' (highPage 2) 4064) n (fun _ => 0#8) 3) (at' (highPage 2) 8) 8
        ≠ 0#64
      ∧ 4072 ≤ (load (bufctls (highPage 2) (at' (highPage 2) 4064) n (fun _ => 0#8) 3)
        (at' (highPage 2) 8) 8 - highPage 2).toNat := by decide

/-- Whatever was there before. -/
theorem load_bufctls_head (p slab : BitVec 64) (m m' : Mem) :
    load (bufctls p slab n m 3) (at' p 8) 8 = load (bufctls p slab n m' 3) (at' p 8) 8 := by
  have hfirst : load (bufctls p slab n m 1) (at' p 8) 8
      = load (bufctls p slab n m' 1) (at' p 8) 8 := by
    refine load_store_congr ?_ _ _
    rw [Nat.mul_zero, Nat.zero_add, load_store_same _ _ (by decide),
      load_store_same _ _ (by decide)]
  have hround : ∀ i, load (bufctls p slab n m i) (at' p 8) 8
      = load (bufctls p slab n m' i) (at' p 8) 8 →
      load (bufctls p slab n m (i + 1)) (at' p 8) 8
        = load (bufctls p slab n m' (i + 1)) (at' p 8) 8 := fun i hi =>
    load_store_congr (load_store_congr (load_store_congr hi _ _) _ _) _ _
  exact hround 2 (hround 1 hfirst)

/-- **With fewer than 16 bytes the first allocation goes wrong**, with 8 the second. -/
theorem not_allocSafe_of_small (hn : 1 ≤ n) (hn' : n < 16) (h8 : n ≠ 8)
    (hbare : CacheAt n (highPage 1) m [])
    (hones : OnesOutside (grownMem n (highPage 1) (highPage 2) m)) :
    ¬ AllocSafe n (highPage 1)
      ⟨⟨grownMem n (highPage 1) (highPage 2) m, [], false⟩, [highPage 2], []⟩ := by
  have h₁ := pageStart_highPage (i := 1) (by decide)
  have h₂ := pageStart_highPage (i := 2) (by decide)
  obtain ⟨-, -, hnodes⟩ := load_grownMem_first hn (by omega) hbare h₁ h₂ (by decide)
  obtain ⟨m', hm', hlink, hfree, hcount⟩ := load_grownMem (n := n) (m := m) h₁ h₂ (by decide)
  have hmul := mul_pred_elements hn (by omega)
  have hle := Nat.mul_div_le 4072 n
  have hwalk : ∀ first, load (grownMem n (highPage 1) (highPage 2) m) (at' (highPage 2) 4080) 8
      = first → first ≠ 0#64 → slabWithFree (grownMem n (highPage 1) (highPage 2) m) (2 ^ 64)
        (load (grownMem n (highPage 1) (highPage 2) m) (at' (highPage 1) 16) 8)
        = some (at' (highPage 2) 4064) := by
    intro first hfirst h0
    rw [hnodes]
    exact slabWithFree_head _ (by decide) (by rwa [at'_at', hfirst])
  rcases Nat.lt_or_ge n 12 with hsmall | hlarge
  · obtain ⟨h0, hoff⟩ := headerMem_free_small n hsmall hn h8
    have hfirst : load (grownMem n (highPage 1) (highPage 2) m) (at' (highPage 2) 4080) 8
        = load (headerMem (highPage 2) n) (at' (highPage 2) 4080) 8 := by
      rw [hm']
      exact load_header hn (by omega) hlink hfree hcount (by omega) (by omega)
    refine not_allocSafe_of_walk (by decide) (by rw [hnodes]; decide) (by decide)
      (hwalk _ hfirst h0) ?_ (by decide : BitVec.allOnes 64 ≠ 0#64) (not_isSlot (by decide))
    rw [at'_at', hfirst]
    exact hones.load_eq hoff
  · obtain ⟨h0, hout⟩ := bufctls_head n hn' hlarge
    have hclear : n * (4072 / n - 1) + 24 ≤ 4080 := by
      interval_cases n <;> decide
    have hmany : 271 ≤ 4072 / n := (Nat.le_div_iff_mul_le (by omega)).mpr (by omega)
    have hlast : n * 2 ≤ n * (4072 / n - 1) := Nat.mul_le_mul_left _ (by omega)
    obtain ⟨r, hr⟩ : ∃ r, 4072 / n = r + 3 := ⟨4072 / n - 3, by omega⟩
    have hfirst : load (grownMem n (highPage 1) (highPage 2) m) (at' (highPage 2) 4080) 8
        = highPage 2 := by
      rw [hm', load_linkedPage_of_le hn (by omega) hclear (by decide), hfree]
    refine not_allocSafe_of_walk (by decide) (by rw [hnodes]; decide) (by decide)
      (hwalk _ hfirst (by decide)) ?_ h0 (not_isSlot hout)
    rw [at'_at', hfirst, bufctlPtr, hm', linkedPage,
      load_store_at' _ (.inr (by omega)) (by omega) (by decide), hr,
      load_bufctls_low (by decide) (by omega) r (by rw [← hr]; exact hle)]
    exact load_bufctls_head _ _ _ _

/-- The link of a slab with 17 bytes leads out of the pages… -/
theorem headerMem_seventeen :
    load (headerMem (highPage 2) 17) (at' (highPage 2) 4064) 8 ≠ 0#64
      ∧ OffPages (at' (load (headerMem (highPage 2) 17) (at' (highPage 2) 4064) 8) 16) 8 := by
  decide

/-- …and so do the others once the client has written to the last object… -/
theorem relinked_headerMem : ∀ n < 24, 18 ≤ n → ¬ HeadersFit n → 4064 < n * (4072 / n)
    ∧ relinked (load (headerMem (highPage 2) n) (at' (highPage 2) 4064) 8) (n * (4072 / n) - 4064)
      ≠ 0#64
    ∧ OffPages (at' (relinked (load (headerMem (highPage 2) n) (at' (highPage 2) 4064) 8)
      (n * (4072 / n) - 4064)) 16) 8 := by decide

/-- …and a null link too. -/
theorem relinked_zero : ∀ r < 9, 1 ≤ r →
    relinked 0#64 r ≠ 0#64 ∧ OffPages (at' (relinked 0#64 r) 16) 8 := by decide

/-- **With 16 bytes or more, of no safe size**, the slab's link leads out of the pages, or the
client can make it. -/
theorem not_handsOutFree_of_large (hn : 16 ≤ n) (hn' : n ≤ 512) (hother : ¬ SafeSize n)
    (hbare : CacheAt n (highPage 1) m [])
    (hones : OnesOutside (grownMem n (highPage 1) (highPage 2) m)) :
    ¬ HandsOutFree n (highPage 1)
      ⟨⟨grownMem n (highPage 1) (highPage 2) m, [], false⟩, [highPage 2], []⟩ := by
  have h₁ := pageStart_highPage (i := 1) (by decide)
  have h₂ := pageStart_highPage (i := 2) (by decide)
  obtain ⟨hone, hself⟩ := oneSlab_grownMem hn hn' hbare h₁ h₂ (by decide) (freshPages_nil _)
  obtain ⟨m', hm', hlink, hfree, hcount⟩ := load_grownMem (n := n) (m := m) h₁ h₂ (by decide)
  by_cases hfit : HeadersFit n
  · have hover : 4064 < n * (4072 / n) := by
      by_contra hle
      exact hother ⟨by omega, .inl hfit⟩
    have hle := Nat.mul_div_le 4072 n
    obtain ⟨hne, hoff⟩ := relinked_zero (n * (4072 / n) - 4064) (by omega) (by omega)
    have hnull : load (grownMem n (highPage 1) (highPage 2) m) (at' (highPage 2) 4064) 8
        = 0#64 := by
      rw [hm', load_linkedPage_of_le (by omega) hn' hfit.2 (by decide), hlink]
    rw [hnull] at hone
    exact hone.not_handsOutFree_of_overlap hn hn' hself rfl hones hover hne hoff
  · have hlt := lt_of_not_headersFit (by omega) hn' hfit
    have hword : load (grownMem n (highPage 1) (highPage 2) m) (at' (highPage 2) 4064) 8
        = load (headerMem (highPage 2) n) (at' (highPage 2) 4064) 8 := by
      rw [hm']
      exact load_header (by omega) hn' hlink hfree hcount (last_le n hlt (by omega)) (by omega)
    rw [hword] at hone
    rcases Nat.lt_or_ge n 18 with hsmall | hlarge
    · obtain rfl : n = 17 := by
        have hne : n ≠ 16 := by
          rintro rfl
          exact hother (by decide)
        omega
      exact hone.not_handsOutFree_of_link hn rfl hones headerMem_seventeen.1 headerMem_seventeen.2
    · obtain ⟨hover, hne, hoff⟩ := relinked_headerMem n hlt hlarge hfit
      exact hone.not_handsOutFree_of_overlap hn hn' hself rfl hones hover hne hoff

/-- The slab of a new cache with 8 bytes. -/
theorem oneSlab_eight (hbare : CacheAt 8 (highPage 1) m []) :
    OneSlab 8 (highPage 1) (highPage 2) 0#64
        ⟨⟨grownMem 8 (highPage 1) (highPage 2) m, [], false⟩, [highPage 2], []⟩
        [at' (highPage 2) 4064]
      ∧ bufctlPtr (grownMem 8 (highPage 1) (highPage 2) m) (at' (highPage 2) 4064)
        = at' (highPage 2) 4064 := by
  have h₁ := pageStart_highPage (i := 1) (by decide)
  have h₂ := pageStart_highPage (i := 2) (by decide)
  obtain ⟨hsize, hobjs, hnodes⟩ := load_grownMem_first (by decide) (by decide) hbare h₁ h₂
    (by decide)
  obtain ⟨m', hm', hlink, hfree, hcount⟩ := load_grownMem (n := 8) (m := m) h₁ h₂ (by decide)
  obtain ⟨hnull, hhead⟩ := headerMem_eight
  have hword : ∀ i, i = 4064 ∨ i = 4080 →
      load (grownMem 8 (highPage 1) (highPage 2) m) (at' (highPage 2) i) 8
        = load (headerMem (highPage 2) 8) (at' (highPage 2) i) 8 := by
    intro i hi
    rw [hm']
    exact load_header (by decide) (by decide) hlink hfree hcount (by omega) (by omega)
  have hnext := (hword 4064 (.inl rfl)).trans hnull
  refine ⟨⟨hsize, hobjs, hnodes, hnext, ?_, ?_, h₁, ?_, List.mem_singleton_self _,
    freshPages_nil _⟩, ?_⟩
  · exact ⟨(hword 4080 (.inr rfl)).trans hhead, by decide, hnext⟩
  · simp only [List.mem_singleton, forall_eq]
    exact ⟨_, List.mem_singleton_self _, 508, by decide, rfl⟩
  · simp only [List.mem_singleton, forall_eq]
    exact ⟨h₂, by decide⟩
  · rw [bufctlPtr, at'_at', hm']
    exact (load_linkedPage_last (n := 8) (by decide) (by decide)).1

/-- **With every other size some cache hands out what is no slot**, and nothing needs to be put back
for it. -/
theorem exists_not_handsOutFree (hsize : objectSize size alignment = n) (hn : 1 ≤ n) (hn' : n ≤ 512)
    (hother : ¬ SafeSize n) : ∃ s cache s₀, CacheMade size alignment [] s cache s₀
      ∧ ¬ HandsOutFree n cache (madeState s cache s₀) := by
  obtain ⟨m, hbare, hones, hmade⟩ := exists_made_ones hsize hn hn'
  refine ⟨_, _, _, hmade, ?_⟩
  change ¬ HandsOutFree n (highPage 1)
    ⟨⟨grownMem n (highPage 1) (highPage 2) m, [], false⟩, [highPage 2], []⟩
  rcases Nat.lt_or_ge n 16 with hsmall | hlarge
  · by_cases h8 : n = 8
    · subst h8
      obtain ⟨hone, hself⟩ := oneSlab_eight hbare
      exact not_handsOutFree_of_eight hone hself rfl hones
    · exact fun h => not_allocSafe_of_small hn hsmall h8 hbare hones h.allocSafe
  · exact not_handsOutFree_of_large hlarge hn' hother hbare hones

end Unsafe

/-! ## Runs of a new cache -/

section Main

variable {n : ℕ} {size : BitVec 64} {alignment : BitVec 32}

/-- **When a slab cache is safe**: from its making on, whatever the client does but put back objects
with claimed addresses in them, every allocation returns null or a slot that nobody holds — exactly
with the safe sizes, or where no cache has an object.  With those sizes an object that is put back
otherwise is the only thing that goes wrong: some allocation after it does. -/
theorem slabSafe_iff (hsize : objectSize size alignment = n) :
    ((∀ held s cache s₀ events, CacheMade size alignment held s cache s₀ →
        Guarded (SlabEvent.step n cache) (PutsBackFree n cache) events (madeState s cache s₀) →
        Always (SlabEvent.step n cache) (AllocSafe n cache) events (madeState s cache s₀))
      ↔ n = 0 ∨ 512 < n ∨ SafeSize n)
    ∧ (SafeSize n → ∀ held s cache s₀ events, CacheMade size alignment held s cache s₀ →
      (Always (SlabEvent.step n cache) (HandsOutFree n cache) events (madeState s cache s₀)
        ↔ Guarded (SlabEvent.step n cache) (PutsBackFree n cache) events
          (madeState s cache s₀))) := by
  have hruns : SafeSize n → ∀ held s cache s₀ events, CacheMade size alignment held s cache s₀ →
      (Always (SlabEvent.step n cache) (HandsOutFree n cache) events (madeState s cache s₀)
        ↔ Guarded (SlabEvent.step n cache) (PutsBackFree n cache) events
          (madeState s cache s₀)) := by
    intro hsafe held s cache s₀ events hmade
    have hsixteen := hsafe.sixteen_le
    have hused : SlabUsed n cache (madeState s cache s₀) := by
      rcases hmade.slabUsed hsize with hnone | ⟨-, hused⟩
      · exact .inl hnone
      · exact hused hsafe
    exact hused.always_handsOutFree_iff hsixteen (hmade.cases hsize).1 hsafe.1 events
  refine ⟨⟨fun hall => ?_, fun hcases held s cache s₀ events hmade hguarded => ?_⟩, hruns⟩
  · by_contra hother
    simp only [not_or] at hother
    obtain ⟨h0, hlarge, hother⟩ := hother
    obtain ⟨s, cache, s₀, hmade, hnot⟩ :=
      exists_not_handsOutFree hsize (by omega) (by omega) hother
    refine hnot fun events hkeeps => hall [] s cache s₀ events hmade ?_
    exact guarded_of_forall fun e he t => (hkeeps e he).putsBackFree
  · rcases hmade.slabUsed hsize with hnone | ⟨hn, -⟩
    · exact always_of_guarded (fun _ h => h.allocSafe) (fun _ _ _ h _ hstep => h.step hstep) hnone
        hguarded
    · have hle := (hmade.cases hsize).1
      have hsafe : SafeSize n := by
        rcases hcases with h | h | h
        · omega
        · omega
        · exact h
      exact ((hruns hsafe held s cache s₀ events hmade).mpr hguarded).mono
        fun _ h => h.allocSafe

/-- A client that writes behind an object's header may put the object back… -/
theorem OneSlab.guarded_putBack {cache p link o o' : BitVec 64} {t : SlabState}
    {rest : List (BitVec 64)} (h : OneSlab n cache p link t (o :: o' :: rest)) (hn : 24 ≤ n)
    (hend : n * (4072 / n) ≤ 4064) (hlive : t.live = [])
    (hself : ∀ x ∈ o :: o' :: rest, bufctlPtr t.vm.mem x = x) (v : BitVec 64) :
    Guarded (SlabEvent.step n cache) (PutsBackFree n cache)
      [.alloc 0#32, .alloc 0#32, .write (at' o 16) 8 v, .free o, .alloc 0#32] t := by
  have hslot : IsSlot n t.pages o := h.slot o List.mem_cons_self
  have ho : bufctlPtr t.vm.mem o = o := hself o List.mem_cons_self
  have hne : o ≠ 0#64 := h.freelist.2.1
  have hnamed := (h.named hlive hself).take h (by omega)
  have hone := h.take (by omega) (bufctlPtr t.vm.mem o)
  have hmem : o ∈ (t.take p (bufctlPtr t.vm.mem o)).live := by
    rw [ho]
    exact t.mem_take p hne
  have hkeep := h.bufctlPtr_take (by omega) (bufctlPtr t.vm.mem o) hslot
  have hstep := h.step_alloc 0#32
  have hslot' : IsSlot n (t.take p (bufctlPtr t.vm.mem o)).pages o := hslot
  generalize t.take p (bufctlPtr t.vm.mem o) = t₁ at hnamed hone hmem hkeep hstep hslot'
  have hnamed₂ := hnamed.take hone (by omega)
  have hone₂ := hone.take (by omega) (bufctlPtr t₁.vm.mem o')
  have hmem₂ : o ∈ (t₁.take p (bufctlPtr t₁.vm.mem o')).live := SlabState.mem_take_of_mem _ _ hmem
  have hkeep₂ := hone.bufctlPtr_take (by omega) (bufctlPtr t₁.vm.mem o') hslot'
  have hstep₂ := hone.step_alloc 0#32
  generalize t₁.take p (bufctlPtr t₁.vm.mem o') = t₂ at hnamed₂ hone₂ hmem₂ hkeep₂ hstep₂
  have hin : (at' o 16 - o).toNat + 8 ≤ n := by
    rw [toNat_at'_sub _ (by decide)]
    exact hn
  obtain ⟨hlinks, hnamed₃⟩ := hnamed₂.write hone₂ (by omega) hmem₂ hin v
  have hone₃ := hone₂.write hend (hnamed₂.live o hmem₂).1 hin v hlinks
  have hself₃ : bufctlPtr (t₂.write (at' o 16) 8 v).vm.mem o = o := by
    rw [bufctlPtr, SlabState.mem_write, load_store_at' o (by decide) (by decide) (by decide),
      ← bufctlPtr, hkeep₂, hkeep, ho]
  exact Guarded.cons hstep trivial <| Guarded.cons hstep₂ trivial <|
    Guarded.cons (step_write hmem₂ hin v) trivial fun _ _ =>
      ⟨hnamed₃.putsBackFree hone₃ hmem₂ hself₃, fun _ _ => ⟨trivial, trivial⟩⟩

/-- …and one that writes into it chooses what is handed out next. -/
theorem OneSlab.forge {cache p link o o' : BitVec 64} {t : SlabState} {rest : List (BitVec 64)}
    (h : OneSlab n cache p link t (o :: o' :: rest)) (hn : 16 ≤ n)
    (hend : n * (4072 / n) ≤ 4064) (hlive : t.live = [])
    (hself : ∀ x ∈ o :: o' :: rest, bufctlPtr t.vm.mem x = x) (a : BitVec 64) :
    ∃ t', [SlabEvent.alloc 0#32, .write (at' o 8) 8 a, .free o].foldlM (SlabEvent.step n cache) t
        = some t'
      ∧ t'.pages = t.pages ∧ (SlabEvent.alloc 0#32).apply cache t' = some (a, t'.take p a) := by
  have hslot : IsSlot n t.pages o := h.slot o List.mem_cons_self
  have ho : bufctlPtr t.vm.mem o = o := hself o List.mem_cons_self
  have hne : o ≠ 0#64 := h.freelist.2.1
  have hnamed := (h.named hlive hself).take h hn
  have hone := h.take hn (bufctlPtr t.vm.mem o)
  have hmem : o ∈ (t.take p (bufctlPtr t.vm.mem o)).live := by
    rw [ho]
    exact t.mem_take p hne
  have hstep := h.step_alloc 0#32
  have hpages : (t.take p (bufctlPtr t.vm.mem o)).pages = t.pages := rfl
  generalize t.take p (bufctlPtr t.vm.mem o) = t₁ at hnamed hone hmem hstep hpages
  have hin : (at' o 8 - o).toNat + 8 ≤ n := by
    rw [toNat_at'_sub _ (by decide)]
    exact hn
  obtain ⟨hlinks, hnamed₂⟩ := hnamed.write hone hn hmem hin a
  have hone₂ := hone.write hend (hnamed.live o hmem).1 hin a hlinks
  obtain ⟨hslot₂, hout⟩ := hnamed₂.live o hmem
  have hwritten : bufctlPtr (t₁.write (at' o 8) 8 a).vm.mem o = a := by
    rw [bufctlPtr, SlabState.mem_write, load_store_same _ _ (by decide)]
  have hforged := (hone₂.bufctlPtr_give hn hslot₂ hslot₂).trans hwritten
  have halloc := (hone₂.give hn hslot₂ hout).apply_alloc 0#32
  rw [hforged] at halloc
  have hfree := hone₂.step_free hne hmem
  refine ⟨(t₁.write (at' o 8) 8 a).give p o, ?_, hpages, halloc⟩
  simp only [List.foldlM_cons, List.foldlM_nil, hstep, step_write hmem hin, hfree,
    Option.bind_eq_bind, Option.bind_some, Option.pure_def]

/-- A cache of 64-byte objects, just made of two pages. -/
theorem cacheMade_sixtyFour : ∃ s,
    CacheMade 64#64 8#32 [] ⟨fun _ => 0#8, [highPage 1, highPage 2], false⟩ (highPage 1) s
      ∧ madeState ⟨fun _ => 0#8, [highPage 1, highPage 2], false⟩ (highPage 1) s
        = ⟨s, [highPage 2], []⟩
      ∧ ∃ link rest, OneSlab 64 (highPage 1) (highPage 2) link ⟨s, [highPage 2], []⟩
          (highPage 2 :: at' (highPage 2) 64 :: rest)
        ∧ ∀ o ∈ highPage 2 :: at' (highPage 2) 64 :: rest, bufctlPtr s.mem o = o := by
  have h₁ := pageStart_highPage (i := 1) (by decide)
  have h₂ := pageStart_highPage (i := 2) (by decide)
  obtain ⟨m₀, hbare, -, hcreate⟩ := kmemCacheCreate_page 0#64 64#64 8#32 (fun _ => 0#8)
    [highPage 2] h₁ (by decide) (by decide)
  have hbare' : CacheAt 64 (highPage 1) m₀ [] := hbare
  rw [hbare'.slabCacheGrow ⟨h₁, by simp, by simp, by simp⟩ (by decide) (by decide) h₂ (by decide)]
    at hcreate
  have hfresh : FreshPages [highPage 1, highPage 2] [] :=
    ((freshPages_nil _).push h₂ (by decide)).push h₁ (by simp)
  obtain ⟨hone, hself⟩ := oneSlab_grownMem (by decide) (by decide) hbare' h₁ h₂ (by decide)
    (freshPages_nil _)
  have hfree : (freshSlab 64 (highPage 2)).free
      = highPage 2 :: at' (highPage 2) 64 :: (freshSlab 64 (highPage 2)).free.drop 2 := by decide
  rw [hfree] at hone hself
  exact ⟨_, ⟨by simp, List.nodup_nil, hfresh, ⟨_, hcreate⟩, by decide⟩, rfl, _, _, hone, hself⟩

/-- Two objects taken, one written to behind its header, freed and taken again… -/
theorem slabSafe_sixtyFour : ∃ s,
    CacheMade 64#64 8#32 [] ⟨fun _ => 0#8, [highPage 1, highPage 2], false⟩ (highPage 1) s
      ∧ Always (SlabEvent.step 64 (highPage 1)) (AllocSafe 64 (highPage 1))
        [.alloc 0#32, .alloc 0#32, .write (at' (highPage 2) 16) 8 0x4d4f4f4e#64,
          .free (highPage 2), .alloc 0#32] ⟨s, [highPage 2], []⟩ := by
  obtain ⟨s, hmade, hstate, link, rest, hone, hself⟩ := cacheMade_sixtyFour
  have hguarded := hone.guarded_putBack (by decide) (by decide) rfl hself 0x4d4f4f4e#64
  refine ⟨s, hmade, ?_⟩
  rw [← hstate] at hguarded ⊢
  exact (slabSafe_iff (show objectSize 64#64 8#32 = 64 by decide)).1.mpr
    (.inr (.inr (by decide))) [] _ _ _ _ hmade hguarded

/-- …and one written to at its second word, freed and taken again: that is the cache. -/
theorem not_slabSafe_sixtyFour : ∃ s t t',
    CacheMade 64#64 8#32 [] ⟨fun _ => 0#8, [highPage 1, highPage 2], false⟩ (highPage 1) s
      ∧ [SlabEvent.alloc 0#32, .write (at' (highPage 2) 8) 8 (highPage 1),
          .free (highPage 2)].foldlM (SlabEvent.step 64 (highPage 1)) ⟨s, [highPage 2], []⟩ = some t
      ∧ (SlabEvent.alloc 0#32).apply (highPage 1) t = some (highPage 1, t')
      ∧ ¬ AllocSafe 64 (highPage 1) t := by
  obtain ⟨s, hmade, -, link, rest, hone, hself⟩ := cacheMade_sixtyFour
  obtain ⟨t, hrun, hpages, halloc⟩ := hone.forge (by decide) (by decide) rfl hself (highPage 1)
  refine ⟨s, t, _, hmade, hrun, halloc, fun hsafe => ?_⟩
  obtain ⟨hslot, -⟩ := hsafe _ _ _ halloc (by decide)
  have hslot' : IsSlot 64 t.pages (highPage 1) := hslot
  rw [hpages] at hslot'
  exact not_isSlot (by decide) hslot'

end Main

end MoonOS

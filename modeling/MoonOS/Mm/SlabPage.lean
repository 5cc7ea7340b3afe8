import MoonOS.Mm.InitPaging
import MoonOS.Mm.SlabList

/-!
# Mm/SlabPage — the page of a new slab

`slab_cache_grow` threads its list of objects through the objects: each round writes the object's
slab, its address, and the link of the object before.  `grownMem` is the memory after one page.

With objects of 16 bytes or more the link and the address of an object are its own, and the free
list is as intended (`slabAt_linkedPage`); with smaller ones the null link of the last object is
written over the address of the one before (`not_self_of_lt_sixteen`).  The slab's own link survives
only if the last header ends before it (`headersFit_of_link`).

* `slabCacheGrow_page` — one page of `slab_cache_grow`;
* `CacheAt.slabCacheGrow` — …for a cache whose list of slabs is in order.
-/

namespace MoonOS

open ByteMemory

/-! ## One page -/

/-- **The headers of the objects end before the `struct slab`**, and the words an object needs while
it is free are its own. -/
def HeadersFit (n : ℕ) : Prop := 16 ≤ n ∧ n * (4072 / n - 1) + 24 ≤ 4064

instance (n : ℕ) : Decidable (HeadersFit n) := inferInstanceAs (Decidable (_ ∧ _))

/-- A page cleared, with its `struct slab` at the end. -/
def createdPage (p : BitVec 64) (m : Mem) : Mem :=
  let m := fill m p 4096 0#8
  let m := store m (at' p 0) 8 0#64
  let m := store m (at' p 4064) 8 0#64
  let m := store m (at' p 4088) 4 0#32
  store m (at' p 4080) 8 p

/-- …its objects linked, and in a cache without slabs it is the cache's first.  A cache that has
slabs keeps them. -/
def grownMem (n : ℕ) (cache p : BitVec 64) (m : Mem) : Mem :=
  linkedPage n p <|
    if load m (at' cache 16) 8 = 0#64 then store (createdPage p m) (at' cache 16) 8 (at' p 4064)
    else createdPage p m

section Page

variable {cache p : BitVec 64} {n count : ℕ} {m : Mem} {fs : List (BitVec 64)}

theorem sameOutside_createdPage (p : BitVec 64) (m : Mem) :
    SameOutside p 4096 m (createdPage p m) := by
  have hfill : SameOutside p 4096 m (fill m p 4096 0#8) := fun x hx => if_neg (by omega)
  exact (((hfill.store (by decide) _).store (by decide) _).store (by decide) _).store (by decide) _

theorem sameOutside_linkedPage (hn : 1 ≤ n) (hn' : n ≤ 512) (p : BitVec 64) (m : Mem) :
    SameOutside p 4096 m (linkedPage n p m) := by
  have hmul := mul_pred_elements hn hn'
  have hle := Nat.mul_div_le 4072 n
  have hobjs : SameOutside p 4096 m (bufctls p (at' p 4064) n m (4072 / n)) :=
    fun x hx => bufctls_of_le hx _ (by omega)
  exact hobjs.store (by omega) _

/-- The header of a slab, as `create_slab` writes it. -/
theorem load_createdPage (p : BitVec 64) (m : Mem) :
    load (createdPage p m) (at' p 4064) 8 = 0#64 ∧ load (createdPage p m) (at' p 4080) 8 = p
      ∧ load (createdPage p m) (at' p 4088) 4 = 0#32 := by
  refine ⟨?_, ?_, ?_⟩
  all_goals simp (disch := omega) only [createdPage, load_store_at', load_store_same]

/-- **`create_slab`** — a cache that has slabs is left as it is. -/
theorem createSlab_page (hcache : PageStart cache) (hp : PageStart p) (hne : cache ≠ p) :
    createSlab cache ⟨m, p :: fs, false⟩
      = if load m (at' cache 16) 8 = 0#64
        then some (at' p 4064, ⟨store (createdPage p m) (at' cache 16) 8 (at' p 4064), fs, false⟩)
        else (slabTail (createdPage p m) (2 ^ 64) (load m (at' cache 16) 8) 0#64).map fun _ =>
          (at' p 4064, ⟨createdPage p m, fs, false⟩) := by
  have hslab : p + 4096#64 - 32#64 = at' p 4064 := by grind
  have hnodes : load (createdPage p m) (at' cache 16) 8 = load m (at' cache 16) 8 :=
    load_of_sameOutside (sameOutside_createdPage p m) hp hcache hne (by decide)
  rw [createSlab, archAllocPage, if_neg Bool.false_ne_true]
  simp only [if_neg hp.ne_zero, Option.bind_some, hslab, memset_eq_fill, pageSize, at'_at']
  have hmem : store (store (store (store (fill m p 4096 0#8) p 8 0#64) (at' p 4064) 8 0#64)
      (at' p (4064 + 24)) 4 0#32) (at' p (4064 + 16)) 8 p = createdPage p m := by
    rw [createdPage, at'_zero]
  rw [hmem, hnodes]
  split
  · rfl
  · rename_i hsome
    refine Option.map_congr fun tail htail => ?_
    -- the last slab's link is null, so setting it and clearing it again changes nothing
    rw [store_store, store_load (load_slabTail hsome htail)]

/-- **One page of `slab_cache_grow`.** -/
theorem slabCacheGrow_page (hn : 1 ≤ n) (hn' : n ≤ 512) (hcache : PageStart cache)
    (hp : PageStart p) (hne : cache ≠ p) (hsize : load m (at' cache 0) 4 = BitVec.ofNat 32 n)
    (hobjs : load m (at' cache 4) 4 = 4072#32) :
    slabCacheGrow cache (count + 1) ⟨m, p :: fs, false⟩
      = (if load m (at' cache 16) 8 = 0#64 then some 0#64
          else slabTail (createdPage p m) (2 ^ 64) (load m (at' cache 16) 8) 0#64).bind fun _ =>
        slabCacheGrow cache count ⟨grownMem n cache p m, fs, false⟩ := by
  have hs : at' p 4064 ≠ 0#64 := hp.at_ne_zero (by decide)
  have hn0 : BitVec.ofNat 32 n ≠ 0#32 := by bv_omega
  obtain ⟨-, hfree, -⟩ := load_createdPage p m
  have hword : ∀ j k, j + k ≤ 4096 →
      load (createdPage p m) (at' cache j) k = load m (at' cache j) k := fun j k hj =>
    load_of_sameOutside (sameOutside_createdPage p m) hp hcache hne hj
  have hloop : ∀ m', (List.range (4072 / n)).foldl (initBufctl (at' p 4064) (BitVec.ofNat 32 n))
      (m', p, p) = (bufctls p (at' p 4064) n m' (4072 / n), p, at' p (n * (4072 / n - 1))) :=
    fun m' => foldl_initBufctl hp.ne_zero hp.fits _ (Nat.mul_div_le _ _)
  rw [slabCacheGrow, createSlab_page hcache hp hne, grownMem]
  -- whichever way the slab is linked, the loop reads the same sizes and the same list head
  split
  · have hcell : ∀ j k, j + k ≤ 16 → load (store (createdPage p m) (at' cache 16) 8 (at' p 4064))
        (at' cache j) k = load m (at' cache j) k := fun j k hj => by
      rw [load_store_at' _ (by omega) (by omega) (by omega), hword j k (by omega)]
    have hsize' := hcell 0 4 (by omega)
    rw [hsize, at'_zero] at hsize'
    have hfree' : load (store (createdPage p m) (at' cache 16) 8 (at' p 4064)) (at' p 4080) 8
        = p := by
      rw [load_store_page hcache hp (by omega) (by omega) (.inl hne), hfree]
    simp only [Option.bind_some, if_neg hs, at'_at', hfree', hsize', hcell 4 4 (by omega), hobjs,
      if_neg hn0, toNat_elements hn', hloop, linkedPage]
  · rw [Option.bind_map]
    refine congrArg (Option.bind _) (funext fun _ => ?_)
    have hsize' := hword 0 4 (by omega)
    rw [hsize, at'_zero] at hsize'
    simp only [Function.comp_apply, if_neg hs, at'_at', hfree, hsize', hword 4 4 (by omega), hobjs,
      if_neg hn0, toNat_elements hn', hloop, linkedPage]

end Page

/-! ## Objects of 16 bytes or more -/

section Objects

variable {p slab : BitVec 64} {n i : ℕ} {m : Mem}

/-- **The words of an object are its own**: after any number of rounds each object has its address
and each but the last its link. -/
theorem load_bufctls (p slab : BitVec 64) (m : Mem) (hn : 16 ≤ n) : ∀ k, n * k ≤ 4072 →
    (∀ i < k, load (bufctls p slab n m k) (at' p (n * i + 8)) 8 = at' p (n * i))
      ∧ ∀ i, i + 1 < k → load (bufctls p slab n m k) (at' p (n * i)) 8 = at' p (n * (i + 1))
  | 0, _ => ⟨by simp, by simp⟩
  | k + 1, h => by
      rw [Nat.mul_succ] at h
      obtain ⟨hself, hnext⟩ := load_bufctls p slab m hn k (by omega)
      have hpred : n * (k - 1) ≤ n * k := Nat.mul_le_mul_left n (Nat.sub_le k 1)
      rw [bufctls]
      constructor
      · intro i hi
        rcases Nat.lt_succ_iff_lt_or_eq.mp hi with hi | rfl
        · have hik : n * i + n ≤ n * k := mul_add_le_of_lt hi
          have hprev : n * i + n ≤ n * (k - 1) ∨ i = k - 1 := by
            rcases Nat.lt_or_ge i (k - 1) with h | h
            · exact .inl (mul_add_le_of_lt h)
            · exact .inr (by omega)
          have hlink : n * (k - 1) + 8 ≤ n * i + 8 ∨ n * i + 8 + 8 ≤ n * (k - 1) := by
            rcases hprev with h | rfl
            · exact .inr (by omega)
            · exact .inl le_rfl
          rw [load_store_at' _ hlink (by omega) (by omega)]
          simp (disch := omega) only [load_store_at']
          exact hself i hi
        · simp (disch := omega) only [load_store_at', load_store_same]
      · intro i hi
        rcases Nat.lt_succ_iff_lt_or_eq.mp hi with hi | rfl
        · have hik : n * i + n ≤ n * (k - 1) := mul_add_le_of_lt (by omega)
          simp (disch := omega) only [load_store_at']
          exact hnext i hi
        · rw [Nat.add_sub_cancel, load_store_same _ _ (by decide)]

/-- **The free list of a new page**, with objects of 16 bytes or more. -/
theorem slabAt_linkedPage (hn : 16 ≤ n) (hn' : n ≤ 512) (hp : PageStart p)
    (hfree : load m (at' p 4080) 8 = p) (hcount : load m (at' p 4088) 4 = 0#32) :
    SlabAt (linkedPage n p m) (freshSlab n p) := by
  have hmul := mul_pred_elements (by omega) hn'
  have hle := Nat.mul_div_le 4072 n
  have hpos : 0 < 4072 / n := Nat.div_pos (by omega) (by omega)
  obtain ⟨hself, hnext⟩ := load_bufctls p (at' p 4064) m hn (4072 / n) hle
  have hlast : ∀ i < 4072 / n, n * i ≤ n * (4072 / n - 1) :=
    fun i hi => Nat.mul_le_mul_left n (by omega)
  refine ⟨?_, ?_, ?_⟩
  · rw [freshSlab, load_linkedPage_of_le (by omega) hn' (by omega) (by omega), hfree]
    have hlinked := linked_range (m := linkedPage n p m) (f := fun i => at' p (n * i)) hpos
      (fun i hi => hp.at_ne_zero (by have := slot_le hi; omega)) (fun i hi => ?_) (fun i hi => ?_)
    · rwa [Nat.mul_zero, at'_zero] at hlinked
    · have hbefore : n * i + n ≤ n * (4072 / n - 1) := mul_add_le_of_lt (by omega)
      rw [linkedPage, load_store_at' _ (.inr (by omega)) (by omega) (by omega), hnext i hi]
    · rw [linkedPage, show i = 4072 / n - 1 by omega, load_store_same _ _ (by decide)]
  · rw [freshSlab, load_linkedPage_of_le (by omega) hn' (by omega) (by omega), hcount]
  · rintro o ho
    obtain ⟨i, hi, rfl⟩ := List.mem_map.mp ho
    rw [List.mem_range] at hi
    have hclear : n * (4072 / n - 1) + 8 ≤ n * i + 8 ∨ n * i + 8 + 8 ≤ n * (4072 / n - 1) := by
      rcases Nat.lt_or_ge i (4072 / n - 1) with h | h
      · have := mul_add_le_of_lt (n := n) h
        exact .inr (by omega)
      · rw [show i = 4072 / n - 1 by omega]
        exact .inl le_rfl
    have := slot_le hi
    rw [at'_at', linkedPage, load_store_at' _ hclear (by omega) (by omega), hself i hi]

end Objects

/-! ## Smaller objects, and the slab's link -/

section Overlap

variable {p q : BitVec 64} {n i j k : ℕ} {m : Mem}

/-- The lowest byte of an address on a page. -/
theorem lowByte_at (hp : PageStart p) (hi : i < 4096) :
    (at' p i).extractLsb' (8 * 0) 8 = BitVec.ofNat 8 i := by
  refine BitVec.eq_of_toNat_eq ?_
  obtain ⟨r, hr⟩ := hp.aligned
  rw [BitVec.extractLsb'_toNat, hp.toNat_at hi, BitVec.toNat_ofNat, Nat.mul_zero,
    Nat.shiftRight_zero]
  omega

/-- The higher bytes are the same all over the last 256 bytes of a page. -/
theorem highByte_at (hp : PageStart p) (hi : 3840 ≤ i) (hi' : i < 4096) (hj : 3840 ≤ j)
    (hj' : j < 4096) (hk : 1 ≤ k) :
    (at' p i).extractLsb' (8 * k) 8 = (at' p j).extractLsb' (8 * k) 8 := by
  refine BitVec.eq_of_toNat_eq ?_
  obtain ⟨r, hr⟩ := hp.aligned
  have hshift : 8 * k = 8 + 8 * (k - 1) := by omega
  have hhigh : (p.toNat + i) >>> 8 = (p.toNat + j) >>> 8 := by
    rw [Nat.shiftRight_eq_div_pow, Nat.shiftRight_eq_div_pow]
    omega
  rw [BitVec.extractLsb'_toNat, BitVec.extractLsb'_toNat, hp.toNat_at hi', hp.toNat_at hj', hshift,
    Nat.shiftRight_add, Nat.shiftRight_add, hhigh]

/-- The first byte of the link of the last object but one. -/
theorem linkedPage_link (hn : 1 ≤ n) (hn' : n ≤ 512) :
    linkedPage n p m (at' p (n * (4072 / n - 2)))
      = (at' p (n * (4072 / n - 1))).extractLsb' (8 * 0) 8 := by
  have hmul := mul_pred_elements hn hn'
  have hprev := mul_pred_pred_elements hn hn'
  have hle := Nat.mul_div_le 4072 n
  rw [linkedPage_eq hn hn', store_at'_of_not_mem _ _ (.inl (by omega)) (by omega) (by omega),
    store_at'_of_mem _ _ le_rfl (by omega) (by omega), Nat.sub_self]

theorem lowByte_ne_of_le_eight :
    ∀ n < 9, 1 ≤ n → BitVec.ofNat 8 (n * (4072 / n - 2)) ≠ 0#8 := by decide

theorem lowByte_ne_of_lt_sixteen : ∀ n < 16, 9 ≤ n →
    BitVec.ofNat 8 (n * (4072 / n - 1)) ≠ 0#8 ∧ 3840 ≤ n * (4072 / n - 3) := by decide

/-- **With objects of fewer than 16 bytes some object has not its own address**: the null link of
the last one lies over the address of the one before. -/
theorem not_self_of_lt_sixteen (hp : PageStart p) (hn : 1 ≤ n) (hn' : n < 16) :
    ¬ ∀ i < 4072 / n, load (linkedPage n p m) (at' p (n * i + 8)) 8 = at' p (n * i) := by
  intro hself
  have hmul := mul_pred_elements hn (by omega)
  have hle := Nat.mul_div_le 4072 n
  have hmany : 271 ≤ 4072 / n := (Nat.le_div_iff_mul_le (by omega)).mpr (by omega)
  have hprev := mul_pred_pred_elements hn (by omega)
  have hprev' : n * (4072 / n - 3) + n = n * (4072 / n - 2) := by
    rw [← Nat.mul_succ]
    congr 1
    omega
  -- a byte of the address an object keeps
  have hbyte : ∀ i < 4072 / n, ∀ k < 8, linkedPage n p m (at' p (n * i + 8 + k))
      = (at' p (n * i)).extractLsb' (8 * k) 8 :=
    fun i hi k hk => byte_of_load (hself i hi) hk
  rcases Nat.lt_or_ge n 9 with hsmall | hlarge
  · have h := hbyte (4072 / n - 2) (by omega) 0 (by omega)
    rw [linkedPage_null (by omega) (by omega) (by omega), lowByte_at hp (by omega)] at h
    exact lowByte_ne_of_le_eight n hsmall hn h.symm
  · obtain ⟨hoff, hhigh⟩ := lowByte_ne_of_lt_sixteen n hn' hlarge
    have h := hbyte (4072 / n - 2) (by omega) (n - 8) (by omega)
    have h' := hbyte (4072 / n - 3) (by omega) (n - 8) (by omega)
    rw [linkedPage_null (by omega) (by omega) (by omega)] at h
    rw [show n * (4072 / n - 3) + 8 + (n - 8) = n * (4072 / n - 2) by omega,
      linkedPage_link hn (by omega), lowByte_at hp (by omega)] at h'
    rw [highByte_at (j := n * (4072 / n - 3)) hp (by omega) (by omega) hhigh (by omega) (by omega),
      ← h'] at h
    exact hoff h.symm

/-- The two highest bytes of an address in the upper half. -/
theorem topByte_at (hp : PageStart p) (hup : UpperHalf p) (hi : i < 4096) (hk : k = 6 ∨ k = 7) :
    (at' p i).extractLsb' (8 * k) 8 = 0xff#8 := by
  refine BitVec.eq_of_toNat_eq ?_
  rw [UpperHalf] at hup
  have hfits := hp.fits
  rw [BitVec.extractLsb'_toNat, hp.toNat_at hi, Nat.shiftRight_eq_div_pow]
  rcases hk with rfl | rfl
  · norm_num
    omega
  · norm_num
    omega

theorem headersFit_or (hn : 16 ≤ n) (hn' : n ≤ 512) :
    HeadersFit n ∨ n = 16 ∨ n = 17 ∨ n = 18 ∨ n = 19 ∨ n = 22 ∨ n = 23 := by
  rcases Nat.lt_or_ge n 32 with h | h
  · interval_cases n <;> simp [HeadersFit]
  · have hmul := mul_pred_elements (by omega) hn'
    have hle := Nat.mul_div_le 4072 n
    exact .inl ⟨hn, by omega⟩

/-- What the link of the slab on `p` may be: null, or another slab in the upper half. -/
def SlabLink (p a : BitVec 64) : Prop :=
  a = 0#64 ∨ ∃ q, PageStart q ∧ UpperHalf q ∧ p ≠ q ∧ a = at' q 4064

/-- A link by its bytes. -/
theorem SlabLink.bytes {a : BitVec 64} (h : SlabLink p a) (hp : PageStart p) :
    a ≠ at' p 4064 ∧ a.extractLsb' (8 * 0) 8 ≠ 0xff#8
      ∧ (a.extractLsb' (8 * 7) 8 = 0#8 → a = 0#64) := by
  rcases h with rfl | ⟨q, hq, hqup, hne, rfl⟩
  · exact ⟨(hp.at_ne_zero (by decide)).symm, by decide, fun _ => rfl⟩
  · refine ⟨fun h => hne (hp.at_inj hq (by decide) (by decide) h.symm).1, ?_, ?_⟩
    · rw [lowByte_at hq (by decide)]
      decide
    · rw [topByte_at hq hqup (by decide) (.inr rfl)]
      exact fun h => absurd h (by decide)

/-- **Only where the headers fit is the slab's link one**: elsewhere the last object's header is
written over it. -/
theorem headersFit_of_link (hn : 16 ≤ n) (hn' : n ≤ 512) (hp : PageStart p) (hup : UpperHalf p)
    (hnull : load m (at' p 4064) 8 = 0#64)
    (hlink : SlabLink p (load (linkedPage n p m) (at' p 4064) 8)) : HeadersFit n := by
  obtain ⟨hself, hslab⟩ := load_linkedPage_last (p := p) (m := m) (by omega : 1 ≤ n) hn'
  obtain ⟨hne, hlow, htop⟩ := hlink.bytes hp
  have hbyte : ∀ k < 8, (load (linkedPage n p m) (at' p 4064) 8).extractLsb' (8 * k) 8
      = linkedPage n p m (at' p (4064 + k)) := fun k hk => (byte_of_load rfl hk).symm
  -- the slab's address a byte or two too early: the link has its highest byte but is not null
  have hshifted : ∀ k < 7, n * (4072 / n - 1) + 16 + 7 ≠ 4064 + k := by
    intro k hk h
    have hend : (load (linkedPage n p m) (at' p 4064) 8).extractLsb' (8 * 7) 8 = 0#8 := by
      rw [hbyte 7 (by decide), linkedPage_of_le (by omega) hn' (by omega) (by decide),
        byte_of_load hnull (by decide)]
      simp
    have hslab7 := hbyte k (by omega)
    rw [htop hend, ← h, byte_of_load hslab (by decide), topByte_at hp hup (by decide) (.inr rfl)]
      at hslab7
    simp at hslab7
  rcases headersFit_or hn hn' with h | rfl | rfl | rfl | rfl | rfl | rfl
  · exact h
  · exact absurd hslab hne
  · exact absurd rfl (hshifted 5 (by decide))
  · -- 18 bytes: the link starts with the highest bytes of the last object's address
    refine absurd ?_ hlow
    rw [hbyte 0 (by decide), show 4064 + 0 = 18 * (4072 / 18 - 1) + 8 + 6 from rfl,
      byte_of_load hself (by decide), topByte_at hp hup (by decide) (.inl rfl)]
  · exact absurd rfl (hshifted 6 (by decide))
  · exact absurd hslab hne
  · exact absurd hslab hne

end Overlap

/-! ## Growing a cache that is in order -/

section Grow

variable {cache p q : BitVec 64} {n count j k : ℕ} {m : Mem} {fs : List (BitVec 64)}
  {slabs : List SlabView}

/-- **A cache whose list ends takes every page it is given.** -/
theorem CacheAt.slabCacheGrow (h : CacheAt n cache m slabs) (hshape : CacheShape n cache slabs)
    (hn : 1 ≤ n) (hn' : n ≤ 512) (hp : PageStart p)
    (hfresh : p ∉ cache :: slabs.map SlabView.page) (count : ℕ) (fs : List (BitVec 64)) :
    slabCacheGrow cache (count + 1) ⟨m, p :: fs, false⟩
      = slabCacheGrow cache count ⟨grownMem n cache p m, fs, false⟩ := by
  have hne : cache ≠ p := by
    rintro rfl
    exact hfresh List.mem_cons_self
  rw [slabCacheGrow_page hn hn' hshape.cachePage hp hne h.size h.objects]
  split
  · rfl
  · have hcreated := h.of_sameOutside hshape hn hp hfresh (sameOutside_createdPage p m)
    obtain ⟨tail, htail⟩ := hcreated.slabTail hshape
    rw [load_of_sameOutside (sameOutside_createdPage p m) hp hshape.cachePage hne (by decide)]
      at htail
    rw [htail, Option.bind_some]

/-- The page of the new slab, whether or not the slab is the cache's first. -/
theorem load_grownMem (hcache : PageStart cache) (hp : PageStart p) (hne : cache ≠ p) :
    ∃ m', grownMem n cache p m = linkedPage n p m' ∧ load m' (at' p 4064) 8 = 0#64
      ∧ load m' (at' p 4080) 8 = p ∧ load m' (at' p 4088) 4 = 0#32 := by
  obtain ⟨hlink, hfree, hcount⟩ := load_createdPage p m
  rw [grownMem]
  split
  · refine ⟨_, rfl, ?_, ?_, ?_⟩
    · rw [load_store_page hcache hp (by decide) (by decide) (.inl hne), hlink]
    · rw [load_store_page hcache hp (by decide) (by decide) (.inl hne), hfree]
    · rw [load_store_page hcache hp (by decide) (by decide) (.inl hne), hcount]
  · exact ⟨_, rfl, hlink, hfree, hcount⟩

/-- With objects of 16 bytes or more the new slab has all of them to give. -/
theorem slabAt_grownMem (hn : 16 ≤ n) (hn' : n ≤ 512) (hcache : PageStart cache) (hp : PageStart p)
    (hne : cache ≠ p) : SlabAt (grownMem n cache p m) (freshSlab n p) := by
  obtain ⟨m', hm', -, hfree, hcount⟩ := load_grownMem (n := n) (m := m) hcache hp hne
  rw [hm']
  exact slabAt_linkedPage hn hn' hp hfree hcount

end Grow

end MoonOS

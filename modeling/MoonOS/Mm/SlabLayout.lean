import MoonOS.Mm.Phys
import MoonOS.Mm.SlabPage

/-!
# Mm/SlabLayout — for which sizes and alignments a slab's page is laid out as intended

`align` masks where it means to round, the objects keep a list in their first two words, and their
number is computed from the size of a `struct slab_cache`, not of the `struct slab` on the page.  So
`laysOut_iff`: the alignment divides the rounded size only where mask and remainder agree
(`RoundsUp`), and a page is as intended with objects of 16 bytes or more that end before the slab.
-/

namespace MoonOS

open ByteMemory

/-! ## Sizes and alignments -/

/-- **A page as intended**: the free list has every object in the order of their addresses, each
with its address, and the objects keep to themselves, to the page, and off the `struct slab`. -/
structure PageLayout (n : ℕ) (p : BitVec 64) (m : Mem) : Prop where
  freelist : Linked m (load m (at' p 4080) 8) ((List.range (4072 / n)).map fun i => at' p (n * i))
  self : ∀ i < 4072 / n, load m (at' p (n * i + 8)) 8 = at' p (n * i)
  disjoint : ∀ i < 4072 / n, ∀ j < 4072 / n, i ≠ j →
    Disjoint (⟨at' p (n * i), n⟩ : Region).bytes (⟨at' p (n * j), n⟩ : Region).bytes
  inside : ∀ i < 4072 / n, (⟨at' p (n * i), n⟩ : Region).bytes ⊆ (⟨p, 4096⟩ : Region).bytes
  offSlab : ∀ i < 4072 / n,
    Disjoint (⟨at' p (n * i), n⟩ : Region).bytes (⟨at' p 4064, 32⟩ : Region).bytes

/-- The size of the objects of a cache made with these arguments. -/
def objectSize (size : BitVec 64) (alignment : BitVec 32) : ℕ :=
  (slabSize size (kmemAlignment alignment)).toNat

/-- **A size and an alignment are served**: the objects' size is a multiple of the alignment, and
whatever page a cache of such objects grows by comes out as intended. -/
structure LaysOut (size : BitVec 64) (alignment : BitVec 32) : Prop where
  multiple : (kmemAlignment alignment).toNat ∣ objectSize size alignment
  layout : ∀ cache p m slabs fs, CacheAt (objectSize size alignment) cache m slabs →
    CacheShape (objectSize size alignment) cache slabs → PageStart p →
    p ∉ cache :: slabs.map SlabView.page →
    ∃ m', slabCacheGrow cache 1 ⟨m, p :: fs, false⟩ = some (true, ⟨m', fs, false⟩)
      ∧ PageLayout (objectSize size alignment) p m'

/-- The mask of `align` rounds the size: it already is a multiple, or what is masked off is the
remainder.  So it is for powers of two. -/
def RoundsUp (size : BitVec 64) (alignment : BitVec 32) : Prop :=
  size.toNat % alignment.toNat = 0 ∨
    ((size.setWidth 32 + alignment - 1#32) &&& (alignment - 1#32)).toNat
      = (size.setWidth 32 + alignment - 1#32).toNat % alignment.toNat

section Layout

variable {size : BitVec 64} {alignment : BitVec 32} {cache p : BitVec 64} {n : ℕ} {m : Mem}

/-- A power of two rounds every size. -/
theorem roundsUp_two_pow {k : ℕ} (hk : k < 32) (size : BitVec 64) :
    RoundsUp size (BitVec.ofNat 32 (2 ^ k)) := by
  refine .inr ?_
  have hlt : 2 ^ k < 2 ^ 32 := Nat.pow_lt_pow_right (by decide) hk
  have hpos : 0 < 2 ^ k := Nat.two_pow_pos k
  have hmask : (BitVec.ofNat 32 (2 ^ k) - 1#32).toNat = 2 ^ k - 1 := by
    rw [BitVec.toNat_sub, BitVec.toNat_ofNat, BitVec.toNat_ofNat, Nat.mod_eq_of_lt hlt]
    omega
  rw [BitVec.toNat_and, hmask, Nat.and_two_pow_sub_one_eq_mod, BitVec.toNat_ofNat,
    Nat.mod_eq_of_lt hlt]

/-- A word is what a mask leaves and what it takes away. -/
theorem toNat_and_add_and_not (x u : BitVec 32) :
    (x &&& u).toNat + (x &&& ~~~u).toNat = x.toNat := by
  have hdisj : (x &&& u) &&& (x &&& ~~~u) = 0#32 := by
    ext i hi
    simp
    grind
  rw [← BitVec.toNat_add_of_and_eq_zero hdisj, BitVec.add_eq_or_of_and_eq_zero _ _ hdisj]
  congr 1
  ext i hi
  simp
  grind

/-- **When the rounded size is a multiple of the alignment.** -/
theorem dvd_slabSize_iff (hpos : 0 < alignment.toInt) (hsmall : slabSize size alignment ≤ 512#64) :
    alignment.toNat ∣ (slabSize size alignment).toNat ↔ RoundsUp size alignment := by
  have hmsb : alignment.msb = false := by
    rw [BitVec.toInt_eq_msb_cond] at hpos
    by_contra hmsb
    rw [Bool.not_eq_false] at hmsb
    rw [if_pos hmsb] at hpos
    have := alignment.isLt
    omega
  have hwide : (alignment.signExtend 64).toNat = alignment.toNat := by
    rw [BitVec.signExtend_eq_setWidth_of_msb_false hmsb, BitVec.toNat_setWidth]
    have := alignment.isLt
    omega
  have ha : 0 < alignment.toNat := by
    rw [BitVec.toInt_eq_msb_cond, hmsb] at hpos
    simpa using hpos
  have hmod : size % alignment.signExtend 64 = 0#64 ↔ size.toNat % alignment.toNat = 0 := by
    rw [← BitVec.toNat_inj, BitVec.toNat_umod, hwide]
    rfl
  rw [slabSize] at hsmall ⊢
  by_cases h0 : size.toNat % alignment.toNat = 0
  · rw [if_neg (not_not_intro (hmod.mpr h0))]
    exact iff_of_true (Nat.dvd_of_mod_eq_zero h0) (.inl h0)
  · rw [if_pos (fun h => h0 (hmod.mp h)), align] at hsmall ⊢
    have hparts := toNat_and_add_and_not (size.setWidth 32 + alignment - 1#32) (alignment - 1#32)
    rw [RoundsUp, or_iff_right h0]
    generalize size.setWidth 32 + alignment - 1#32 = x at hsmall hparts ⊢
    have hrest : (x &&& (alignment - 1#32)).toNat < alignment.toNat := by
      have hle : (x &&& (alignment - 1#32)).toNat ≤ (alignment - 1#32).toNat := by
        rw [BitVec.toNat_and]
        exact Nat.and_le_right
      have hpred : (alignment - 1#32).toNat = alignment.toNat - 1 := by bv_omega
      omega
    have hlow : ((x &&& ~~~(alignment - 1#32)).signExtend 64).toNat
        = (x &&& ~~~(alignment - 1#32)).toNat := by
      have hle : ((x &&& ~~~(alignment - 1#32)).signExtend 64).toNat ≤ 512 := hsmall
      rw [BitVec.toNat_signExtend, BitVec.toNat_setWidth] at hle ⊢
      have := (x &&& ~~~(alignment - 1#32)).isLt
      cases hneg : (x &&& ~~~(alignment - 1#32)).msb with
      | false =>
        rw [if_neg Bool.false_ne_true]
        omega
      | true =>
        rw [hneg, if_pos rfl] at hle
        omega
    rw [hlow]
    constructor
    · rintro ⟨c, hc⟩
      rw [← hparts, hc, Nat.add_mul_mod_self_left, Nat.mod_eq_of_lt hrest]
    · intro h
      rw [show (x &&& ~~~(alignment - 1#32)).toNat = x.toNat - x.toNat % alignment.toNat by omega]
      exact Nat.dvd_sub_mod _

theorem toInt_kmemAlignment_pos (h : 0 ≤ alignment.toInt) :
    0 < (kmemAlignment alignment).toInt := by
  rw [kmemAlignment]
  split
  · decide
  · rename_i hne
    refine lt_of_le_of_ne h fun h0 => hne ?_
    rw [← BitVec.toInt_inj, ← h0]
    rfl

/-- A memory with a cache at the second page that has no slab yet. -/
def bareCache (n : ℕ) : Mem :=
  store (store (fun _ => 0#8) (at' 0x1000#64 0) 4 (BitVec.ofNat 32 n)) (at' 0x1000#64 4) 4 4072#32

theorem cacheAt_bareCache (n : ℕ) : CacheAt n 0x1000#64 (bareCache n) [] := by
  refine ⟨?_, ?_, ?_, by simp⟩
  · simp (disch := omega) only [bareCache, load_store_at', load_store_same]
  · simp (disch := omega) only [bareCache, load_store_same]
  · simp (disch := omega) only [bareCache, load_store_at']
    rfl

theorem pageStart_second : PageStart 0x1000#64 := ⟨⟨1, rfl⟩, by decide⟩

theorem pageStart_third : PageStart 0x2000#64 := ⟨⟨2, rfl⟩, by decide⟩

theorem cacheShape_bareCache (n : ℕ) : CacheShape n 0x1000#64 [] :=
  ⟨pageStart_second, by simp, by simp, by simp⟩

/-- An object size of 0 makes the number of objects a division by zero. -/
theorem slabCacheGrow_zero {fs : List (BitVec 64)} (h : CacheAt 0 cache m [])
    (hcache : PageStart cache) (hp : PageStart p) (hne : cache ≠ p) :
    slabCacheGrow cache 1 ⟨m, p :: fs, false⟩ = none := by
  have hnodes : load m (at' cache 16) 8 = 0#64 := h.nodes
  have hsize : load (store (createdPage p m) (at' cache 16) 8 (at' p 4064)) (at' cache 0) 4
      = 0#32 := by
    rw [load_store_at' _ (by decide) (by decide) (by decide),
      load_of_sameOutside (sameOutside_createdPage p m) hp hcache hne (by decide), h.size]
  rw [at'_zero] at hsize
  rw [slabCacheGrow, createSlab_page hcache hp hne, if_pos hnodes]
  simp only [Option.bind_some, hsize, if_true]
  exact if_neg (hp.at_ne_zero (by decide))

/-- What is served is served in particular on the third page of memory. -/
theorem LaysOut.page (h : LaysOut size alignment) (hn' : objectSize size alignment ≤ 512) :
    1 ≤ objectSize size alignment ∧ ∃ m, PageLayout (objectSize size alignment) 0x2000#64
      (linkedPage (objectSize size alignment) 0x2000#64 m) := by
  obtain ⟨m', hgrow, hpage⟩ := h.layout _ 0x2000#64 _ [] [] (cacheAt_bareCache _)
    (cacheShape_bareCache _) pageStart_third (by decide)
  generalize objectSize size alignment = n at *
  have hn : 1 ≤ n := by
    rcases Nat.eq_zero_or_pos n with rfl | hn
    · rw [slabCacheGrow_zero (cacheAt_bareCache 0) pageStart_second pageStart_third (by decide)]
        at hgrow
      cases hgrow
    · exact hn
  rw [(cacheAt_bareCache n).slabCacheGrow (cacheShape_bareCache n) hn hn' pageStart_third
    (by decide)] at hgrow
  obtain ⟨m₁, hm₁, -⟩ := load_grownMem (n := n) (m := bareCache n) pageStart_second
    pageStart_third (by decide)
  simp only [slabCacheGrow, Option.some.injEq, Prod.mk.injEq, Vm.mk.injEq] at hgrow
  refine ⟨hn, m₁, ?_⟩
  rwa [← hm₁, hgrow.2.1]

/-- On a page as intended the last object ends before the `struct slab`. -/
theorem PageLayout.mul_le (h : PageLayout n p m) (hn : 16 ≤ n) (hn' : n ≤ 512) :
    n * (4072 / n) ≤ 4064 := by
  by_contra hover
  have hmul := mul_pred_elements (by omega) hn'
  have hle := Nat.mul_div_le 4072 n
  have hsome : 0 < 4072 / n := Nat.div_pos (by omega) (by omega)
  have hin : (at' p 4064 - at' p (n * (4072 / n - 1))).toNat < n := by
    rw [show 4064 = n * (4072 / n - 1) + (4064 - n * (4072 / n - 1)) by omega, ← at'_at',
      toNat_at'_sub _ (by omega)]
    omega
  refine Set.disjoint_left.mp (h.offSlab (4072 / n - 1) (by omega)) hin ?_
  show (at' p 4064 - at' p 4064).toNat < 32
  simp

/-- **Which sizes and alignments are served**: those `align` rounds, of 16 bytes or more, whose
objects end before the `struct slab`. -/
theorem laysOut_iff (hpos : 0 ≤ alignment.toInt)
    (hsmall : slabSize size (kmemAlignment alignment) ≤ 512#64) :
    LaysOut size alignment ↔ RoundsUp size (kmemAlignment alignment)
      ∧ 16 ≤ objectSize size alignment
      ∧ objectSize size alignment * (4072 / objectSize size alignment) ≤ 4064 := by
  have hdvd := dvd_slabSize_iff (toInt_kmemAlignment_pos hpos) hsmall
  have hn' : objectSize size alignment ≤ 512 := hsmall
  rw [← hdvd]
  change LaysOut size alignment ↔ (kmemAlignment alignment).toNat ∣ objectSize size alignment ∧ _
  constructor
  · intro h
    obtain ⟨hn, m, hpage⟩ := h.page hn'
    have hsixteen : 16 ≤ objectSize size alignment := by
      by_contra hlt
      exact not_self_of_lt_sixteen pageStart_third hn (by omega) hpage.self
    exact ⟨h.multiple, hsixteen, hpage.mul_le hsixteen hn'⟩
  · rintro ⟨hmultiple, hn, hfit⟩
    refine ⟨hmultiple, fun cache p m slabs fs hcache hshape hp hfresh => ?_⟩
    generalize objectSize size alignment = n at *
    have hne : cache ≠ p := by
      rintro rfl
      exact hfresh List.mem_cons_self
    rw [hcache.slabCacheGrow hshape (by omega) hn' hp hfresh]
    refine ⟨grownMem n cache p m, rfl, ?_⟩
    have hslab := slabAt_grownMem (m := m) hn hn' hshape.cachePage hp hne
    refine ⟨hslab.freelist, fun i hi => ?_, fun i hi j hj hij => ?_, fun i hi => ?_, fun i hi => ?_⟩
    · have := hslab.self (at' p (n * i)) (List.mem_map_of_mem (List.mem_range.mpr hi))
      rwa [at'_at'] at this
    · have hihi := slot_le hi
      have hjhi := slot_le hj
      rcases Nat.lt_or_gt_of_ne hij with h | h
      · exact Region.disjoint_of_le (mul_add_le_of_lt h) (by omega)
      · exact (Region.disjoint_of_le (mul_add_le_of_lt h) (by omega)).symm
    · exact Region.bytes_subset (by have := slot_le hi; omega)
    · exact Region.disjoint_of_le ((mul_add_le_of_lt hi).trans hfit) (by omega)

/-- Objects of 64 bytes are served… -/
theorem laysOut_sixtyFour : LaysOut 64#64 0#32 :=
  (laysOut_iff (by decide) (by decide)).mpr
    ⟨roundsUp_two_pow (k := 3) (by decide) 64#64, by decide, by decide⟩

/-- …and objects of 8 bytes are not. -/
theorem not_laysOut_eight : ¬ LaysOut 8#64 8#32 := by
  intro h
  obtain ⟨-, m, hpage⟩ := h.page (by decide)
  exact not_self_of_lt_sixteen pageStart_third (by decide) (by decide) hpage.self

end Layout

end MoonOS

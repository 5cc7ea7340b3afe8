import MoonOS.Service.InitTask

/-!
# Service/RegionCaps — what the memory-region capabilities of init say about their entries

Each usable or framebuffer entry gives init one capability for its memory.  The length of the entry
goes through the `int` parameter of `capability_create_memory_region` on its way, and 16 MiB are
taken off it afterwards if the entry is carved.

`describesMap_iff`: the capabilities describe the whole of their entries exactly when every such
length is the same after the `int`, and the carved entry starts more than 16 MiB below `2 ^ 64`.
-/

namespace MoonOS

/-- What a capability should say of its entry: where it starts and how long it is… -/
def MemmapEntry.whole (e : MemmapEntry) : ℕ × ℕ := (e.base.toNat, e.length.toNat)

/-- …or, of the entry the pool is carved out of, what is left of it. -/
def MemmapEntry.rest (e : MemmapEntry) : ℕ × ℕ :=
  (e.base.toNat + carveSize.toNat, e.length.toNat - carveSize.toNat)

/-- What the memory-region capabilities should say, in map order; `carved` tells whether the pool
has been carved already. -/
def describedRegions (carved : Bool) : List MemmapEntry → List (ℕ × ℕ)
  | [] => []
  | e :: mmap =>
    if e.granted = false then describedRegions carved mmap
    else if carveSize ≤ e.length ∧ carved = false then e.rest :: describedRegions true mmap
    else e.whole :: describedRegions carved mmap

/-- The ranges of the memory-region capabilities in a list. -/
def regionRanges (caps : List Capability) : List (ℕ × ℕ) :=
  (caps.filter (·.hasAccess capMemoryRegion)).map fun c =>
    (c.range.base.toNat, c.range.limit.toNat)

/-- A length that an `int` leaves as it is. -/
def IntLength (n : BitVec 64) : Prop := n.toNat < 2 ^ 31 ∨ 2 ^ 64 - 2 ^ 31 ≤ n.toNat

/-- **What is asked of the map**: lengths that fit an `int`, and no wrap-around where it is
carved. -/
structure RegionsFit (mmap : List MemmapEntry) : Prop where
  length : ∀ e ∈ mmap, e.granted = true → IntLength e.length
  carved : ∀ e, carvedEntry mmap = some e → e.base.toNat + carveSize.toNat < 2 ^ 64

/-! ## One entry -/

section Entry

variable {e : MemmapEntry}

/-- The `int` keeps the low 31 bits, and repeats the next one above. -/
theorem toNat_carveLimit (e : MemmapEntry) :
    e.carveLimit.toNat = e.length.toNat % 2 ^ 32
      + if e.length.toNat % 2 ^ 32 < 2 ^ 31 then 0 else 2 ^ 64 - 2 ^ 32 := by
  rw [MemmapEntry.carveLimit, BitVec.toNat_signExtend, BitVec.toNat_setWidth, BitVec.msb_eq_decide,
    BitVec.toNat_setWidth]
  by_cases h : e.length.toNat % 2 ^ 32 < 2 ^ 31
  · rw [if_pos h, if_neg (by simpa using h)]
    omega
  · rw [if_neg h, if_pos (by simpa using h)]
    omega

theorem carveLimit_eq_iff : e.carveLimit = e.length ↔ IntLength e.length := by
  rw [← BitVec.toNat_inj, toNat_carveLimit, IntLength]
  split <;> omega

theorem whole_eq_iff :
    (e.regionCap.range.base.toNat, e.regionCap.range.limit.toNat) = e.whole
      ↔ IntLength e.length := by
  rw [← carveLimit_eq_iff, ← BitVec.toNat_inj]
  exact Prod.mk_right_inj

theorem range_restCap (e : MemmapEntry) :
    e.restCap.range = ⟨e.base + carveSize, e.carveLimit - carveSize⟩ := by
  rw [MemmapEntry.restCap, Capability.range, MemmapEntry.carveLimit]
  rfl

/-- What is left of a carved entry is described if neither end wraps around. -/
theorem rest_eq_iff (hlong : carveSize ≤ e.length) :
    (e.restCap.range.base.toNat, e.restCap.range.limit.toNat) = e.rest
      ↔ e.base.toNat + carveSize.toNat < 2 ^ 64 ∧ IntLength e.length := by
  have hle := BitVec.le_def.mp hlong
  have hsixteen : carveSize.toNat = 2 ^ 24 := by decide
  rw [hsixteen] at hle
  rw [← carveLimit_eq_iff, ← BitVec.toNat_inj, MemmapEntry.rest, Prod.mk.injEq, range_restCap,
    BitVec.toNat_add, BitVec.toNat_sub, hsixteen]
  have := e.carveLimit.isLt
  have := e.length.isLt
  omega

theorem hasAccess_regionCap_memory (e : MemmapEntry) :
    e.regionCap.hasAccess capMemoryRegion = true :=
  (by decide : (6#32 ||| capMemoryRegion) &&& capMemoryRegion == capMemoryRegion)

end Entry

/-! ## The whole map -/

section Map

variable {hhdm : BitVec 64} {buddyEmbed : BitVec 64 → BitVec 64 → BitVec 64} {metaLen : ℕ → ℕ}
  {mmap : List MemmapEntry}

theorem regionRanges_append (l l' : List Capability) :
    regionRanges (l ++ l') = regionRanges l ++ regionRanges l' := by
  rw [regionRanges, List.filter_append, List.map_append, regionRanges, regionRanges]

theorem regionRanges_regionCaps (mmap : List MemmapEntry) :
    regionRanges (regionCaps mmap) = (mmap.filter (·.granted)).map fun e =>
      (e.regionCap.range.base.toNat, e.regionCap.range.limit.toNat) := by
  have hall : ∀ c ∈ regionCaps mmap, c.hasAccess capMemoryRegion = true := by
    intro c hc
    obtain ⟨e, -, -, rfl⟩ := mem_regionCaps.mp hc
    exact hasAccess_regionCap_memory e
  rw [regionRanges, List.filter_eq_self.mpr hall, regionCaps, List.map_map]
  rfl

/-- The pool is no memory region, and the rest of its entry is one. -/
theorem regionRanges_pool (e : MemmapEntry) :
    regionRanges [e.allocatableCap hhdm buddyEmbed, e.restCap]
      = [(e.restCap.range.base.toNat, e.restCap.range.limit.toNat)] := by
  have hpool : (e.allocatableCap hhdm buddyEmbed).hasAccess capMemoryRegion = false :=
    (by decide : (22#32 &&& capMemoryRegion == capMemoryRegion) = false)
  have hrest : e.restCap.hasAccess capMemoryRegion = true := by
    rw [MemmapEntry.restCap, Capability.hasAccess]
    exact hasAccess_regionCap_memory e
  rw [regionRanges, List.filter_cons_of_neg (by simp [hpool]),
    List.filter_cons_of_pos (by simp [hrest])]
  rfl

/-- Where nothing is left to carve, each entry is described as a whole… -/
theorem describedRegions_keep {carved : Bool}
    (h : carved = true ∨ ∀ e ∈ mmap, (e.granted && decide (carveSize ≤ e.length)) = false) :
    describedRegions carved mmap = (mmap.filter (·.granted)).map MemmapEntry.whole := by
  induction mmap with
  | nil => rfl
  | cons e mmap ih =>
    have hrest := ih (h.imp_right fun hall a ha => hall a (List.mem_cons_of_mem e ha))
    rw [describedRegions]
    by_cases hgranted : e.granted = true
    · have hnot : ¬(carveSize ≤ e.length ∧ carved = false) := by
        rintro ⟨hlong, hfalse⟩
        have := (h.resolve_left (by simp [hfalse])) e List.mem_cons_self
        simp [hgranted, hlong] at this
      rw [if_neg (by simp [hgranted]), if_neg hnot, hrest, List.filter_cons_of_pos hgranted,
        List.map_cons]
    · rw [if_pos (by simpa using hgranted), hrest, List.filter_cons_of_neg hgranted]

/-- …and else the first long one is described without its pool. -/
theorem describedRegions_carve {pre post : List MemmapEntry} {e : MemmapEntry}
    (hpre : ∀ a ∈ pre, (a.granted && decide (carveSize ≤ a.length)) = false)
    (he : (e.granted && decide (carveSize ≤ e.length)) = true) :
    describedRegions false (pre ++ e :: post)
      = (pre.filter (·.granted)).map MemmapEntry.whole
        ++ e.rest :: (post.filter (·.granted)).map MemmapEntry.whole := by
  obtain ⟨hgranted, hlong⟩ := Bool.and_eq_true_iff.mp he
  induction pre with
  | nil =>
    rw [List.nil_append, describedRegions, if_neg (by simp [hgranted]),
      if_pos ⟨of_decide_eq_true hlong, rfl⟩, describedRegions_keep (.inl rfl)]
    rfl
  | cons a pre ih =>
    have hrest := ih fun b hb => hpre b (List.mem_cons_of_mem a hb)
    have ha := hpre a List.mem_cons_self
    rw [List.cons_append, describedRegions]
    by_cases hg : a.granted = true
    · have hnot : ¬(carveSize ≤ a.length ∧ false = false) := fun h => by simp [hg, h.1] at ha
      rw [if_neg (by simp [hg]), if_neg hnot, hrest, List.filter_cons_of_pos hg, List.map_cons,
        List.cons_append]
    · rw [if_pos (by simpa using hg), hrest, List.filter_cons_of_neg hg]

/-- Entries that are described as a whole. -/
theorem map_whole_iff (mmap : List MemmapEntry) :
    regionRanges (regionCaps mmap) = (mmap.filter (·.granted)).map MemmapEntry.whole
      ↔ ∀ e ∈ mmap, e.granted = true → IntLength e.length := by
  rw [regionRanges_regionCaps, List.map_inj_left]
  simp only [List.mem_filter, and_imp, whole_eq_iff]

/-- **The memory-region capabilities of init describe the whole of their entries exactly when every
length fits an `int`** and the carved entry does not wrap around. -/
theorem describesMap_iff (hhdm : BitVec 64) (buddyEmbed : BitVec 64 → BitVec 64 → BitVec 64)
    (metaLen : ℕ → ℕ) (mmap : List MemmapEntry) (zones : List Zone) :
    (∃ s, setupInitTaskCapabilities hhdm buddyEmbed metaLen mmap zones = some s
        ∧ regionRanges s.caps = describedRegions false mmap) ↔ RegionsFit mmap := by
  rw [setupInitTaskCapabilities]
  cases hcarved : carvedEntry mmap with
  | none =>
    have hnone := carvedEntry_eq_none hcarved
    have hrun := foldlM_grantEntry_keep hhdm buddyEmbed metaLen mmap
      (s := ⟨[], zones, [], false⟩) (.inr hnone)
    have hfit : RegionsFit mmap ↔ ∀ e ∈ mmap, e.granted = true → IntLength e.length :=
      ⟨fun h => h.length, fun h => ⟨h, fun e he => by rw [hcarved] at he; cases he⟩⟩
    rw [hrun, describedRegions_keep (.inr hnone), hfit, ← map_whole_iff]
    simp only [Option.some.injEq, exists_eq_left', List.nil_append]
  | some e =>
    obtain ⟨he, pre, post, rfl, hpre⟩ := carvedEntry_eq_some hcarved
    obtain ⟨hgranted, hlong⟩ := Bool.and_eq_true_iff.mp he
    have hrun := foldlM_grantEntry_carve hhdm buddyEmbed metaLen pre post
      (s := ⟨[], zones, [], false⟩) rfl hpre he
    -- both lists have one member for each granted entry, so they agree member by member
    have hlen : (regionRanges (regionCaps pre)).length
        = ((pre.filter (·.granted)).map MemmapEntry.whole).length := by
      rw [regionRanges_regionCaps, List.length_map, List.length_map]
    have hsplit : regionRanges (regionCaps pre ++ [e.allocatableCap hhdm buddyEmbed, e.restCap]
          ++ regionCaps post) = describedRegions false (pre ++ e :: post)
        ↔ RegionsFit (pre ++ e :: post) := by
      rw [describedRegions_carve hpre he, List.append_assoc, regionRanges_append,
        regionRanges_append, regionRanges_pool, List.singleton_append]
      constructor
      · intro heq
        obtain ⟨hpre', hpost'⟩ := List.append_inj heq hlen
        obtain ⟨hrest, hpost'⟩ := List.cons_eq_cons.mp hpost'
        obtain ⟨hbase, hint⟩ := (rest_eq_iff (of_decide_eq_true hlong)).mp hrest
        refine ⟨fun a ha hg => ?_, fun a ha => ?_⟩
        · rcases List.mem_append.mp ha with ha | ha
          · exact (map_whole_iff pre).mp hpre' a ha hg
          · rcases List.mem_cons.mp ha with rfl | ha
            · exact hint
            · exact (map_whole_iff post).mp hpost' a ha hg
        · obtain rfl := Option.some.inj (hcarved.symm.trans ha)
          exact hbase
      · intro hfit
        have hrest := (rest_eq_iff (of_decide_eq_true hlong)).mpr
          ⟨hfit.carved e hcarved, hfit.length e (by simp) hgranted⟩
        rw [(map_whole_iff pre).mpr fun a ha => hfit.length a (by simp [ha]), hrest,
          (map_whole_iff post).mpr fun a ha => hfit.length a (by simp [ha])]
    rw [hrun, ← hsplit]
    simp only [Option.some.injEq, exists_eq_left', List.nil_append]

end Map

/-- 16 MiB of memory at 16 MiB, and 4 GiB of it at 4 GiB. -/
def fourGiBMap : List MemmapEntry :=
  [⟨0x1000000#64, 0x1000000#64, .usable⟩, ⟨0x100000000#64, 0x100000000#64, .usable⟩]

/-- **4 GiB of memory are described as none**: the length is `0` as an `int`. -/
theorem regionRanges_fourGiBMap :
    ∃ s, setupInitTaskCapabilities 0xffff800000000000#64 (fun ptr _ => ptr) (fun n => n / 64)
        fourGiBMap [] = some s
      ∧ regionRanges s.caps = [(0x2000000, 0), (0x100000000, 0)]
      ∧ regionRanges s.caps ≠ describedRegions false fourGiBMap := by
  have hrun := foldlM_grantEntry_carve 0xffff800000000000#64 (fun ptr _ => ptr) (fun n => n / 64)
    [] [⟨0x100000000#64, 0x100000000#64, .usable⟩] (e := ⟨0x1000000#64, 0x1000000#64, .usable⟩)
    (s := ⟨[], [], [], false⟩) rfl (by simp) (by decide)
  exact ⟨_, hrun, by decide, by decide⟩

end MoonOS

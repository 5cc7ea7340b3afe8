import MoonOS.Mm.UserView

/-!
# Mm/MapRange — `arch_map_range`, and the ramdisk it maps for init

The loop of `arch_map_range` ends on `base != limit`, so it ends because both bounds are multiples
of its step.  `mapRangeLoop` is the loop round by round; `mapRangeLoop_eq_archMapRange` says how
many rounds it takes.

* `archMapRange_exact` — below `2 ^ 47` the range is translated and no other page changes;
* `ramdiskVisible_iff` — `kern_main` hands the loop the *end* of the ramdisk, so it gets past the
  assertion only for a ramdisk of whole pages.

The engine is `mapped_of_archMapPages`: after a run of mappings a page is served by its last call,
and a page without a call ends where it did.
-/

namespace MoonOS

open ByteMemory TableForest

/-- The loop of `arch_map_range`, with a bound on the rounds. -/
def mapRangeLoop (hhdm pml4 limit : BitVec 64) (flags : BitVec 32) (offset : BitVec 64) :
    ℕ → BitVec 64 → Vm → Option Vm
  | 0, _, _ => none
  | fuel + 1, base, s =>
    if base = limit then some s
    else
      (archMapPage hhdm pml4 (base + offset) base flags s).bind
        (mapRangeLoop hhdm pml4 limit flags offset fuel (base + BitVec.ofNat 64 pageSize))

/-- The call of one round… -/
def rangeCall (base : BitVec 64) (flags : BitVec 32) (offset : BitVec 64) (i : ℕ) : MapCall :=
  ⟨base + BitVec.ofNat 64 (pageSize * i) + offset, base + BitVec.ofNat 64 (pageSize * i), flags⟩

/-- …and the calls of all rounds. -/
def rangeCalls (base limit : BitVec 64) (flags : BitVec 32) (offset : BitVec 64) : List MapCall :=
  (List.range ((limit - base).toNat / pageSize)).map (rangeCall base flags offset)

/-! ## The loop -/

section Loop

variable {hhdm pml4 base limit offset : BitVec 64} {flags : BitVec 32} {s s' : Vm}

theorem add_pageSize_mul (base : BitVec 64) (i : ℕ) :
    base + BitVec.ofNat 64 pageSize + BitVec.ofNat 64 (pageSize * i)
      = base + BitVec.ofNat 64 (pageSize * (i + 1)) := by
  rw [BitVec.add_assoc, ← BitVec.ofNat_add, Nat.mul_succ, Nat.add_comm]

/-- The loop from a base that meets the limit after `n` pages and not before. -/
theorem mapRangeLoop_eq_foldlM {n k : ℕ}
    (hend : base + BitVec.ofNat 64 (pageSize * n) = limit)
    (hgo : ∀ i < n, base + BitVec.ofNat 64 (pageSize * i) ≠ limit) :
    mapRangeLoop hhdm pml4 limit flags offset (n + 1 + k) base s
      = (List.range n).foldlM (fun s i =>
          archMapPage hhdm pml4 (base + BitVec.ofNat 64 (pageSize * i) + offset)
            (base + BitVec.ofNat 64 (pageSize * i)) flags s) s := by
  induction n generalizing base s with
  | zero =>
    have hbase : base = limit := by simpa using hend
    rw [Nat.zero_add, Nat.add_comm, mapRangeLoop, if_pos hbase]
    rfl
  | succ n ih =>
    have hbase : base ≠ limit := by simpa using hgo 0 (by omega)
    rw [show n + 1 + 1 + k = n + 1 + k + 1 by omega, mapRangeLoop, if_neg hbase,
      List.range_succ_eq_map, List.foldlM_cons]
    simp only [Nat.mul_zero, BitVec.add_zero, bind]
    congr 1
    funext s
    rw [List.foldlM_map, ih (by rw [add_pageSize_mul]; exact hend)
      fun i hi => by rw [add_pageSize_mul]; exact hgo (i + 1) (by omega)]
    simp only [add_pageSize_mul]

/-- **Both ends are multiples of the step, so the loop meets its limit** — after the pages between
them. -/
theorem mapRangeLoop_eq_archMapRange (hbase : base.toNat % pageSize = 0)
    (hlimit : limit.toNat % pageSize = 0) {fuel : ℕ}
    (hfuel : (limit - base).toNat / pageSize < fuel) :
    mapRangeLoop hhdm pml4 limit flags offset fuel base s
      = archMapRange hhdm pml4 base limit flags offset s := by
  obtain ⟨k, rfl⟩ := Nat.exists_eq_add_of_lt hfuel
  rw [show (limit - base).toNat / pageSize + k + 1 = (limit - base).toNat / pageSize + 1 + k by
    omega, archMapRange, if_pos ⟨hbase, hlimit⟩]
  rw [pageSize] at *
  have hsub := BitVec.toNat_sub limit base
  refine mapRangeLoop_eq_foldlM (BitVec.eq_of_toNat_eq ?_) fun i hi heq => ?_
  · rw [pageSize, BitVec.toNat_add, BitVec.toNat_ofNat]
    omega
  · have hnat := congrArg BitVec.toNat heq
    rw [pageSize, BitVec.toNat_add, BitVec.toNat_ofNat] at hnat
    omega

theorem archMapRange_eq_archMapPages (hbase : base.toNat % pageSize = 0)
    (hlimit : limit.toNat % pageSize = 0) :
    archMapRange hhdm pml4 base limit flags offset s
      = archMapPages hhdm pml4 (rangeCalls base limit flags offset) s := by
  rw [archMapRange, if_pos ⟨hbase, hlimit⟩, archMapPages, rangeCalls, List.foldlM_map]
  rfl

end Loop

/-! ## A run of mappings -/

section Run

variable {hhdm kernelPagemap pml4 o : BitVec 64} {s s' : Vm} {lab : Labels} {calls : List MapCall}

/-- **A run of calls, page by page**: the last call for a page serves it, and a page without a call
ends where it did. -/
theorem mapped_of_archMapPages (hT : Tables hhdm kernelPagemap s lab)
    (hroot : lab pml4 = some (o, [])) (hpml4 : pml4 ≠ 0#64)
    (hflags : ∀ c ∈ calls, checkFlag c.flags 0 = true)
    (h : archMapPages hhdm pml4 calls s = some s') :
    ∃ lab', Tables hhdm kernelPagemap s' lab' ∧ lab' pml4 = some (o, [])
      ∧ (∀ v c, AddrSpace.ofCalls calls (pageKey v) = some c →
          Serves (pathEntries hhdm pml4 v s'.mem) (some c))
      ∧ ∀ v, AddrSpace.ofCalls calls (pageKey v) = none →
          (pathEntries hhdm pml4 v s'.mem).bind List.getLast?
            = (pathEntries hhdm pml4 v s.mem).bind List.getLast? := by
  induction calls using List.reverseRecOn generalizing s' with
  | nil =>
    obtain rfl : s = s' := Option.some.inj h
    exact ⟨lab, hT, hroot, fun v c hc => absurd hc (by simp [AddrSpace.ofCalls]),
      fun v _ => rfl⟩
  | append_singleton calls c ih =>
    rw [archMapPages, List.foldlM_append] at h
    obtain ⟨s₁, h₁, h⟩ := Option.bind_eq_some_iff.mp h
    obtain ⟨lab₁, hT₁, hroot₁, hserved, hkept⟩ := ih (fun c hc => hflags c (by simp [hc])) h₁
    have hmap : archMapPage hhdm pml4 c.vaddr c.paddr c.flags s₁ = some s' := by simpa using h
    obtain ⟨lab', hT', hmono, hself, hother, -⟩ :=
      mapped_of_archMapPage hT₁ hroot₁ hpml4 (hflags c (by simp)) hmap
    have hstep : ∀ v, AddrSpace.ofCalls (calls ++ [c]) (pageKey v)
        = if pageKey v = pageKey c.vaddr then some c
          else AddrSpace.ofCalls calls (pageKey v) := fun v => by
      rw [AddrSpace.ofCalls, List.foldl_append, List.foldl_cons, List.foldl_nil, AddrSpace.map,
        Function.update_apply, AddrSpace.ofCalls]
    refine ⟨lab', hT', hmono hroot₁, fun v d hd => ?_, fun v hv => ?_⟩
    · rw [hstep] at hd
      split at hd
      · obtain rfl := Option.some.inj hd
        exact hself v ‹_›
      · exact (hserved v d hd).up (hother v ‹_›)
    · rw [hstep] at hv
      split at hv
      · cases hv
      · exact (getLast?_of_walkRel (hother v ‹_›)).trans (hkept v hv)

end Run

/-! ## A range -/

/-- **A range is mapped exactly**: each of its pages to its own frame, and every other page as
before. -/
structure MapsExactly (hhdm pml4 base limit offset : BitVec 64) (m m' : Mem) : Prop where
  mapped : ∀ i, base.toNat + pageSize * i < limit.toNat → ∀ v,
    pageKey v = pageKey (base + BitVec.ofNat 64 (pageSize * i) + offset) →
    archTranslate hhdm pml4 v m'
      = some (va hhdm (base + BitVec.ofNat 64 (pageSize * i)) + (v &&& 0xfff#64))
  others : ∀ v,
    (∀ i, base.toNat + pageSize * i < limit.toNat →
      pageKey v ≠ pageKey (base + BitVec.ofNat 64 (pageSize * i) + offset)) →
    archTranslate hhdm pml4 v m' = archTranslate hhdm pml4 v m

section Range

variable {hhdm kernelPagemap pml4 o base limit offset : BitVec 64} {flags : BitVec 32} {s s' : Vm}
  {lab : Labels}

theorem toNat_pageKey_range (base offset : BitVec 64) (i : ℕ) :
    (pageKey (base + BitVec.ofNat 64 (pageSize * i) + offset)).toNat
      = ((base + offset).toNat / 4096 + i) % 2 ^ 36 := by
  rw [BitVec.add_assoc, BitVec.add_comm (BitVec.ofNat 64 _), ← BitVec.add_assoc, toNat_pageKey,
    BitVec.toNat_add (base + offset), BitVec.toNat_ofNat, pageSize]
  omega

/-- A range of at most `2 ^ 48` bytes has one call for a page. -/
theorem nodup_rangeCalls (hshort : (limit - base).toNat ≤ 2 ^ 48) :
    ((rangeCalls base limit flags offset).map fun c => pageKey c.vaddr).Nodup := by
  rw [rangeCalls, List.map_map]
  refine List.Nodup.map_on (fun i hi j hj heq => ?_) List.nodup_range
  have hkeys := congrArg BitVec.toNat heq
  simp only [Function.comp, rangeCall, toNat_pageKey_range] at hkeys
  rw [List.mem_range, pageSize] at hi hj
  omega

/-- …so that call serves it. -/
theorem ofCalls_rangeCalls {v : BitVec 64} {i : ℕ} (hshort : (limit - base).toNat ≤ 2 ^ 48)
    (hi : i < (limit - base).toNat / pageSize)
    (hv : pageKey v = pageKey (base + BitVec.ofNat 64 (pageSize * i) + offset)) :
    AddrSpace.ofCalls (rangeCalls base limit flags offset) (pageKey v)
      = some (rangeCall base flags offset i) := by
  rw [hv]
  exact AddrSpace.foldl_map_of_nodup (c := rangeCall base flags offset i) (nodup_rangeCalls hshort)
    (List.mem_map_of_mem (List.mem_range.mpr hi))

/-- The calls of a longer range come round to its first page again, the last of them for a frame
that is not the first. -/
theorem ofCalls_rangeCalls_round (flags : BitVec 32) (offset : BitVec 64)
    (hlong : 2 ^ 36 < (limit - base).toNat / pageSize) :
    ∃ q, 0 < q ∧ 2 ^ 36 * q < (limit - base).toNat / pageSize
      ∧ AddrSpace.ofCalls (rangeCalls base limit flags offset) (pageKey (base + offset))
        = some (rangeCall base flags offset (2 ^ 36 * q)) := by
  generalize hn : (limit - base).toNat / pageSize = n at hlong ⊢
  have hkey : ∀ i, pageKey (rangeCall base flags offset i).vaddr = pageKey (base + offset)
      ↔ i % 2 ^ 36 = 0 := fun i => by
    rw [← BitVec.toNat_inj, rangeCall, toNat_pageKey_range, toNat_pageKey]
    omega
  obtain ⟨q, rest, hq, hrest, rfl⟩ :
      ∃ q rest, 0 < q ∧ rest < 2 ^ 36 ∧ n = 2 ^ 36 * q + (rest + 1) :=
    ⟨(n - 1) / 2 ^ 36, (n - 1) % 2 ^ 36, by omega, by omega, by omega⟩
  -- the calls before the last one for the page, that one, and those after it
  have hsplit : List.range (2 ^ 36 * q + (rest + 1))
      = List.range (2 ^ 36 * q) ++ 2 ^ 36 * q :: List.range' (2 ^ 36 * q + 1) rest := by
    rw [List.range_eq_range', List.range_eq_range', ← List.range'_append_1, Nat.zero_add,
      List.range'_succ]
  refine ⟨q, hq, by omega, ?_⟩
  rw [rangeCalls, hn, hsplit, List.map_append, List.map_cons, AddrSpace.ofCalls,
    ← (hkey (2 ^ 36 * q)).mpr (by omega)]
  refine AddrSpace.foldl_last fun hin => ?_
  obtain ⟨c, hc, heq⟩ := List.mem_map.mp hin
  obtain ⟨i, hi, rfl⟩ := List.mem_map.mp hc
  rw [List.mem_range'_1] at hi
  rw [(hkey (2 ^ 36 * q)).mpr (by omega), hkey] at heq
  omega

theorem checkFlag_of_mem_rangeCalls (hflags : flags.getLsbD 0 = true) {c : MapCall}
    (hc : c ∈ rangeCalls base limit flags offset) : checkFlag c.flags 0 = true := by
  obtain ⟨i, -, rfl⟩ := List.mem_map.mp hc
  exact (checkFlag_eq (by decide)).trans hflags

/-- What a mapped page of a range of whole pages is translated to. -/
theorem Serves.archTranslate_of_aligned {m : Mem} {v : BitVec 64} {c : MapCall}
    (h : Serves (pathEntries hhdm pml4 v m) (some c)) (hpml4 : pml4 ≠ 0#64)
    (hpage : c.paddr.toNat % 4096 = 0) (hlow : c.paddr.toNat < 2 ^ 52) :
    archTranslate hhdm pml4 v m = some (va hhdm c.paddr + (v &&& 0xfff#64)) := by
  have hor : c.paddr ||| v &&& 0xfff#64 = c.paddr + (v &&& 0xfff#64) := by
    refine (BitVec.add_eq_or_of_and_eq_zero _ _ ?_).symm
    rw [← and_not_pageMask hpage, BitVec.and_assoc]
    exact BitVec.eq_of_getLsbD_eq fun i hi => by
      simp only [BitVec.getLsbD_and, BitVec.getLsbD_not, BitVec.getLsbD_zero]
      cases (0xfff#64).getLsbD i <;> simp
  rw [archTranslate_eq hpml4, h.getLast?, Option.map_some]
  dsimp only
  rw [shiftLeft_address_setWidth hlow, and_not_pageMask hpage, hor, va, va, BitVec.add_assoc,
    BitVec.add_comm (v &&& 0xfff#64), ← BitVec.add_assoc]

/-- **`arch_map_range` maps exactly its range**: the loop ends, three blocks a page are all it
needs, and whenever it returns the pages of the range and no others have changed. -/
theorem archMapRange_exact (offset : BitVec 64) (hT : Tables hhdm kernelPagemap s lab)
    (hroot : lab pml4 = some (o, [])) (hpml4 : pml4 ≠ 0#64) (hbase : base.toNat % 4096 = 0)
    (hlimit : limit.toNat % 4096 = 0) (hle : base.toNat ≤ limit.toNat)
    (hlow : limit.toNat < 2 ^ 47) (hflags : flags.getLsbD 0 = true) :
    (∀ fuel, (limit.toNat - base.toNat) / 4096 < fuel →
      mapRangeLoop hhdm pml4 limit flags offset fuel base s
        = archMapRange hhdm pml4 base limit flags offset s)
    ∧ (Supplies hhdm s (3 * ((limit.toNat - base.toNat) / 4096)) →
        ∃ s', archMapRange hhdm pml4 base limit flags offset s = some s')
    ∧ ∀ s', archMapRange hhdm pml4 base limit flags offset s = some s' →
        MapsExactly hhdm pml4 base limit offset s.mem s'.mem := by
  have hpages : (limit - base).toNat = limit.toNat - base.toNat := by
    rw [BitVec.toNat_sub]
    omega
  refine ⟨fun fuel hfuel => mapRangeLoop_eq_archMapRange hbase hlimit
      (by rwa [hpages, pageSize]), fun hs => ?_, fun s' h => ?_⟩
  · rw [archMapRange_eq_archMapPages hbase hlimit]
    refine archMapPages_isSome hhdm pml4 _ ?_
    rwa [rangeCalls, List.length_map, List.length_range, hpages, pageSize]
  rw [archMapRange_eq_archMapPages hbase hlimit] at h
  obtain ⟨-, -, -, hserved, hkept⟩ := mapped_of_archMapPages hT hroot hpml4
    (fun c hc => checkFlag_of_mem_rangeCalls hflags hc) h
  refine ⟨fun i hi v hv => ?_, fun v hv => ?_⟩
  · rw [pageSize] at hi
    have hcall : AddrSpace.ofCalls (rangeCalls base limit flags offset) (pageKey v)
        = some (rangeCall base flags offset i) :=
      ofCalls_rangeCalls (by omega) (by rw [hpages, pageSize]; omega) hv
    have hframe : (rangeCall base flags offset i).paddr.toNat = base.toNat + 4096 * i := by
      rw [rangeCall, BitVec.toNat_add, BitVec.toNat_ofNat, pageSize]
      omega
    exact (hserved v _ hcall).archTranslate_of_aligned hpml4 (by omega) (by omega)
  · refine archTranslate_congr (hkept v (AddrSpace.foldl_of_not_mem fun hin => ?_))
    obtain ⟨c, hc, hkey⟩ := List.mem_map.mp hin
    obtain ⟨i, hi, rfl⟩ := List.mem_map.mp hc
    rw [List.mem_range, hpages, pageSize] at hi
    exact hv i (by rw [pageSize]; omega) hkey.symm

/-- A new pagemap is a tree of its own. -/
theorem FreshBlocks.newPagemap (hfresh : FreshBlocks hhdm s.frames)
    (hnew : archCreateNewPagemap s = some (pml4, s')) (hpml4 : pml4 ≠ 0#64) :
    Tables hhdm pml4 s' (Function.update (fun _ => none) pml4 (some (pml4, []))) :=
  ((hfresh.tables pml4).archAllocPage hnew hpml4 (pml4, [])).2.1

end Range

/-- One page at `0x400000`, in a new pagemap. -/
theorem archMapRange_exact_fourPages :
    ∃ s', archMapRange 0xffff800000000000#64 0xffff800000001000#64 0x7000#64 0x8000#64 mapUserRw
        0x3f9000#64 fourPages.served = some s'
      ∧ archTranslate 0xffff800000000000#64 0xffff800000001000#64 0x400abc#64 s'.mem
          = some 0xffff800000007abc#64 := by
  obtain ⟨-, hruns, hexact⟩ := archMapRange_exact 0x3f9000#64
    (freshBlocks_fourPages.newPagemap archCreateNewPagemap_fourPages (by decide))
    (Function.update_self ..) (by decide) (show (0x7000#64).toNat % 4096 = 0 by decide)
    (show (0x8000#64).toNat % 4096 = 0 by decide) (by decide) (by decide)
    (show mapUserRw.getLsbD 0 = true by decide)
  obtain ⟨s', hs'⟩ := hruns supplies_fourPages
  exact ⟨s', hs', (hexact s' hs').mapped 0 (by decide) 0x400abc#64 (by decide)⟩

/-! ## The ramdisk -/

/-- The step of `kern_main` that maps the ramdisk for init, from its physical address on.  `pa`
returns a `virt_t *`, so what is added to it for the limit is `size` words, not `size` bytes. -/
def mapRamdisk (hhdm vmSpace address size : BitVec 64) (s : Vm) : Option Vm :=
  archMapRange hhdm vmSpace (pa hhdm address) (pa hhdm address + 8#64 * size) mapUserRo 0#64 s

/-- **Every byte of the ramdisk can be read and not written by init**, at its physical address. -/
def RamdiskVisible (hhdm vmSpace address size : BitVec 64) (m : Mem) : Prop :=
  ∀ i < size.toNat, HwCanonical (at' (pa hhdm address) i)
    ∧ archTranslate hhdm vmSpace (at' (pa hhdm address) i) m
        = some (va hhdm (at' (pa hhdm address) i))
    ∧ effective hhdm vmSpace (at' (pa hhdm address) i) m = some (false, true)

section Ramdisk

variable {hhdm kernelPagemap vmSpace address size o : BitVec 64} {s s' : Vm} {lab : Labels}
  {m : Mem}

/-- An entry names a frame below `2 ^ 52`, so no mapped address is translated to itself above. -/
theorem toNat_lt_of_archTranslate {v : BitVec 64} {p : Bool × Bool} (hvm : vmSpace ≠ 0#64)
    (heff : effective hhdm vmSpace v m = some p)
    (htrans : archTranslate hhdm vmSpace v m = some (va hhdm v)) : v.toNat < 2 ^ 52 := by
  obtain ⟨es, hes, -⟩ := Option.map_eq_some_iff.mp heff
  have hne : es ≠ [] := by
    rintro rfl
    exact (pteView hhdm).walk_cons_ne hes
  obtain ⟨pte, hlast⟩ := Option.ne_none_iff_exists'.mp (mt List.getLast?_eq_none_iff.mp hne)
  rw [archTranslate_eq hvm, hes, Option.bind_some, hlast] at htrans
  have hself : (pte.address <<< 12).setWidth 64 ||| v &&& 0xfff#64 = v :=
    (BitVec.add_left_inj hhdm).mp (Option.some.inj htrans)
  rw [← hself, BitVec.toNat_or]
  refine Nat.or_lt_two_pow ?_ ?_
  · rw [BitVec.toNat_setWidth]
    have := (pte.address <<< 12).isLt
    omega
  · rw [toNat_and_pageMask]
    omega

theorem toNat_pa_mod (hhhdm : hhdm.toNat % 4096 = 0) (haddress : address.toNat % 4096 = 0) :
    (pa hhdm address).toNat % 4096 = 0 := by
  rw [pa]
  split
  · rfl
  · rw [BitVec.toNat_sub]
    omega

/-- **Whole pages that are mapped to themselves for reading are seen so**, below `2 ^ 47`. -/
theorem visible_of_archMapRange {base len : BitVec 64} (hT : Tables hhdm kernelPagemap s lab)
    (hroot : lab vmSpace = some (o, [])) (hvm : vmSpace ≠ 0#64) (hbase : base.toNat % 4096 = 0)
    (hlen : len.toNat % 4096 = 0) (hshort : len.toNat ≤ 2 ^ 48)
    (h : archMapRange hhdm vmSpace base (base + len) mapUserRo 0#64 s = some s') {i : ℕ}
    (hi : i < len.toNat) (hlow : base.toNat + i < 2 ^ 47) :
    HwCanonical (at' base i)
      ∧ archTranslate hhdm vmSpace (at' base i) s'.mem = some (va hhdm (at' base i))
      ∧ effective hhdm vmSpace (at' base i) s'.mem = some (false, true) := by
  have hlimit : (base + len).toNat % pageSize = 0 := by
    rw [BitVec.toNat_add, pageSize]
    omega
  have hpages : (base + len - base).toNat = len.toNat := by
    rw [BitVec.add_comm, BitVec.add_sub_cancel]
  have hv : (at' base i).toNat = base.toNat + i := toNat_at' (by omega)
  rw [archMapRange_eq_archMapPages hbase hlimit] at h
  obtain ⟨-, -, -, hserved, -⟩ := mapped_of_archMapPages hT hroot hvm
    (fun c hc => checkFlag_of_mem_rangeCalls (by decide) hc) h
  -- the byte is in page `i / 4096` of the range
  have hkey : pageKey (at' base i)
      = pageKey (base + BitVec.ofNat 64 (pageSize * (i / 4096)) + 0#64) := by
    rw [← BitVec.toNat_inj, toNat_pageKey_range, toNat_pageKey, hv, BitVec.add_zero]
    omega
  have hcall : AddrSpace.ofCalls (rangeCalls base (base + len) mapUserRo 0#64)
      (pageKey (at' base i)) = some (rangeCall base mapUserRo 0#64 (i / 4096)) :=
    ofCalls_rangeCalls (by omega) (by rw [hpages, pageSize]; omega) hkey
  have hframe : (rangeCall base mapUserRo 0#64 (i / 4096)).paddr.toNat
      = base.toNat + 4096 * (i / 4096) := by
    rw [rangeCall, BitVec.toNat_add, BitVec.toNat_ofNat, pageSize]
    omega
  have hbyte : (rangeCall base mapUserRo 0#64 (i / 4096)).paddr + (at' base i &&& 0xfff#64)
      = at' base i := by
    refine BitVec.eq_of_toNat_eq ?_
    rw [BitVec.toNat_add, hframe, toNat_and_pageMask, hv]
    omega
  have hserves := hserved _ _ hcall
  have hperm : (mapUserRo.getLsbD 1, mapUserRo.getLsbD 2) = (false, true) := by decide
  refine ⟨.inl (by omega), ?_, hserves.permission.trans (congrArg some hperm)⟩
  rw [hserves.archTranslate_of_aligned hvm (by omega) (by omega)]
  simp only [va]
  rw [BitVec.add_assoc, BitVec.add_comm hhdm, ← BitVec.add_assoc, hbyte]

/-- A range of more than `2 ^ 48` bytes does not leave its first page mapped to itself. -/
theorem archTranslate_ne_of_long {base len : BitVec 64} (hT : Tables hhdm kernelPagemap s lab)
    (hroot : lab vmSpace = some (o, [])) (hvm : vmSpace ≠ 0#64) (hbase : base.toNat % 4096 = 0)
    (hlen : len.toNat % 4096 = 0) (hlong : 2 ^ 48 < len.toNat)
    (hlow : base.toNat + len.toNat < 2 ^ 52)
    (h : archMapRange hhdm vmSpace base (base + len) mapUserRo 0#64 s = some s') :
    archTranslate hhdm vmSpace base s'.mem ≠ some (va hhdm base) := by
  have hlimit : (base + len).toNat % pageSize = 0 := by
    rw [BitVec.toNat_add, pageSize]
    omega
  have hpages : (base + len - base).toNat = len.toNat := by
    rw [BitVec.add_comm, BitVec.add_sub_cancel]
  rw [archMapRange_eq_archMapPages hbase hlimit] at h
  obtain ⟨-, -, -, hserved, -⟩ := mapped_of_archMapPages hT hroot hvm
    (fun c hc => checkFlag_of_mem_rangeCalls (by decide) hc) h
  obtain ⟨q, hq, hlt, hcall⟩ := @ofCalls_rangeCalls_round base (base + len) mapUserRo 0#64
    (by rw [hpages, pageSize]; omega)
  rw [BitVec.add_zero] at hcall
  rw [hpages, pageSize] at hlt
  have hframe : (rangeCall base mapUserRo 0#64 (2 ^ 36 * q)).paddr.toNat
      = base.toNat + 2 ^ 48 * q := by
    rw [rangeCall, BitVec.toNat_add, BitVec.toNat_ofNat, pageSize]
    omega
  rw [(hserved _ _ hcall).archTranslate_of_aligned hvm (by omega) (by omega)]
  intro heq
  have hoffset : base &&& 0xfff#64 = 0#64 := BitVec.eq_of_toNat_eq (by
    rw [toNat_and_pageMask, hbase]
    rfl)
  rw [hoffset, BitVec.add_zero, Option.some.injEq, va, va, BitVec.add_left_inj] at heq
  rw [heq] at hframe
  omega

/-- **The ramdisk is fully visible to init exactly when its size is a multiple of 512**, it ends
below `2 ^ 47` and has `2 ^ 45` bytes at most — with another size the assertion of `arch_map_range`
halts the boot, and behind a longer one the eightfold range comes round to its start.  Three blocks
a page are assumed to be at hand. -/
theorem ramdiskVisible_iff (hT : Tables hhdm kernelPagemap s lab)
    (hroot : lab vmSpace = some (o, [])) (hvm : vmSpace ≠ 0#64) (hhhdm : hhdm.toNat % 4096 = 0)
    (haddress : address.toNat % 4096 = 0)
    (hs : Supplies hhdm s (3 * ((8#64 * size).toNat / 4096))) :
    (∃ s', mapRamdisk hhdm vmSpace address size s = some s'
        ∧ RamdiskVisible hhdm vmSpace address size s'.mem)
      ↔ size.toNat % 512 = 0
        ∧ (size = 0#64 ∨ (pa hhdm address).toNat + size.toNat ≤ 2 ^ 47 ∧ size.toNat ≤ 2 ^ 45) := by
  have hbase := toNat_pa_mod hhhdm haddress
  have hwords : (8#64 * size).toNat = 8 * size.toNat % 2 ^ 64 := BitVec.toNat_mul ..
  constructor
  · rintro ⟨s', hmap, hvis⟩
    have haligned : (pa hhdm address + 8#64 * size).toNat % pageSize = 0 := by
      by_contra hodd
      rw [mapRamdisk, archMapRange, if_neg fun h => hodd h.2] at hmap
      cases hmap
    rw [BitVec.toNat_add, hwords, pageSize] at haligned
    refine ⟨by omega, or_iff_not_imp_left.mpr fun hsize => ?_⟩
    have hpos : 0 < size.toNat := Nat.pos_of_ne_zero fun h => hsize (BitVec.eq_of_toNat_eq h)
    have hbyte : ∀ i < size.toNat, (at' (pa hhdm address) i).toNat < 2 ^ 47 := fun i hi => by
      obtain ⟨hcanon, htrans, heff⟩ := hvis i hi
      have hframe := toNat_lt_of_archTranslate hvm heff htrans
      rcases hcanon with hcanon | hcanon <;> omega
    have hfirst := hbyte 0 hpos
    rw [at'_zero] at hfirst
    have hfit : (pa hhdm address).toNat + size.toNat ≤ 2 ^ 47 := by
      by_contra hlong
      -- the first byte at or above `2 ^ 47`
      have hout := hbyte (2 ^ 47 - (pa hhdm address).toNat) (by omega)
      rw [toNat_at' (by omega)] at hout
      omega
    refine ⟨hfit, ?_⟩
    by_contra hlong
    have htrans := (hvis 0 hpos).2.1
    rw [at'_zero] at htrans
    exact archTranslate_ne_of_long hT hroot hvm hbase (by omega) (by omega) (by omega) hmap htrans
  · rintro ⟨hsize, hlow⟩
    have hlimit : (pa hhdm address + 8#64 * size).toNat % pageSize = 0 := by
      rw [BitVec.toNat_add, hwords, pageSize]
      omega
    have hpages : (pa hhdm address + 8#64 * size - pa hhdm address).toNat
        = (8#64 * size).toNat := by
      rw [BitVec.add_comm, BitVec.add_sub_cancel]
    obtain ⟨s', hs'⟩ := archMapPages_isSome hhdm vmSpace
      (rangeCalls (pa hhdm address) (pa hhdm address + 8#64 * size) mapUserRo 0#64)
      (by rwa [rangeCalls, List.length_map, List.length_range, hpages, pageSize])
    rw [← archMapRange_eq_archMapPages hbase hlimit] at hs'
    refine ⟨s', hs', fun i hi => ?_⟩
    obtain ⟨hfit, hshort⟩ := hlow.resolve_left fun h => by simp [h] at hi
    exact visible_of_archMapRange hT hroot hvm hbase (by omega) (by omega) hs' (by omega)
      (by omega)

end Ramdisk

/-- A ramdisk of 512 bytes at 1 MiB, of which the whole page is mapped. -/
theorem ramdiskVisible_fourPages :
    ∃ s', mapRamdisk 0xffff800000000000#64 0xffff800000001000#64 0xffff800000100000#64 512#64
        fourPages.served = some s'
      ∧ RamdiskVisible 0xffff800000000000#64 0xffff800000001000#64 0xffff800000100000#64 512#64
          s'.mem :=
  (ramdiskVisible_iff (freshBlocks_fourPages.newPagemap archCreateNewPagemap_fourPages (by decide))
    (Function.update_self ..) (by decide) (by decide) (by decide)
    (supplies_fourPages.mono (by decide))).mpr ⟨by decide, .inr (by decide)⟩

/-- **A ramdisk of 4097 bytes at 1 MiB halts the boot**: the limit it is mapped to is `0x108008`,
which is not the end of a page. -/
theorem mapRamdisk_oddSize :
    mapRamdisk 0xffff800000000000#64 0xffff800000001000#64 0xffff800000100000#64 4097#64
      fourPages.served = none := by
  rw [mapRamdisk, archMapRange, if_neg (by decide)]

end MoonOS

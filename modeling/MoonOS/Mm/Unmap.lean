import MoonOS.Mm.PhysRun
import MoonOS.Mm.Refine

/-!
# Mm/Unmap — taking a mapping away

`arch_unmap_page` is the third walk through the tables, after those of `arch_map_page` and
`arch_translate`, and not the same one: `GET_PMLx` takes the frame an entry names for a pointer,
where the other two go through the direct map, and no present bit is looked at.  What it gives to
`arch_free_page` is the *number* of the frame it has found.

Direct map and zones lie in the upper half of the address space, frames and their numbers do not:

* `returned_archUnmapPage` — the page allocator gets nothing back, whatever was mapped;
* `not_unmapsSoundly` — no address of any pagemap is unmapped as it should be: the second table that
  is accessed never is one.
-/

namespace MoonOS

open ByteMemory TableForest

/-- `GET_PMLx`. -/
def getPmlx (vaddr pml : BitVec 64) (level : ℕ) (m : Mem) : BitVec 64 :=
  (readPte m pml (indexOf vaddr level)).address.setWidth 64 <<< 12

/-- What a call of `arch_unmap_page` does: the tables it accesses, the memory it leaves, and what it
gives to `arch_free_page`. -/
structure Unmapping where
  accessed : List (BitVec 64)
  mem : Mem
  freed : Option (BitVec 64)

/-- `arch_unmap_page`, but for the `invlpg`. -/
def archUnmapPage (pml4 vaddr : BitVec 64) (m : Mem) : Unmapping :=
  if pml4 = 0#64 then { accessed := [], mem := m, freed := none }
  else
    let pml3 := getPmlx vaddr pml4 4 m
    let pml2 := getPmlx vaddr pml3 3 m
    let pml1 := getPmlx vaddr pml2 2 m
    let addr := (readPte m pml1 (indexOf vaddr 1)).address.setWidth 64
    { accessed := [pml4, pml3, pml2, pml1]
      mem := writePte m pml1 (indexOf vaddr 1) pagingPurgeEntry
      freed := some addr }

/-- The block `arch_free_page` gives to a buddy. -/
def handedBack (zones : List Zone) (page : BitVec 64) : Option (BitVec 64) :=
  if page = 0#64 then none else (zoneOf page zones).map fun _ => page

/-- What the page allocator gets back from an unmapping. -/
def Unmapping.returned (u : Unmapping) (zones : List Zone) : Option (BitVec 64) :=
  u.freed.bind (handedBack zones)

/-- A table of a pagemap, at the address of its frame in the direct map. -/
def IsTable (hhdm pml4 : BitVec 64) (m : Mem) (t : BitVec 64) : Prop :=
  ∃ n < 4, (pteView hhdm).TableAt (readPte m) pml4 n t

/-- **Unmap undoes map**, at one address.  A frame that is none of the page allocator's is not owed
to it. -/
structure UnmapsSoundly (hhdm : BitVec 64) (zones : List Zone) (pml4 vaddr : BitVec 64) (m : Mem) :
    Prop where
  tables : ∀ t ∈ (archUnmapPage pml4 vaddr m).accessed, IsTable hhdm pml4 m t
  mapped : ∀ es leaf, pathEntries hhdm pml4 vaddr m = some (es ++ [leaf]) →
    archTranslate hhdm pml4 vaddr (archUnmapPage pml4 vaddr m).mem = some 0#64
      ∧ (archUnmapPage pml4 vaddr m).returned zones
        = handedBack zones (va hhdm (leaf.address.setWidth 64 <<< 12))
  others : ∀ v, pageKey v ≠ pageKey vaddr →
    archTranslate hhdm pml4 v (archUnmapPage pml4 vaddr m).mem = archTranslate hhdm pml4 v m
  unmapped : pathEntries hhdm pml4 vaddr m = none →
    (archUnmapPage pml4 vaddr m).mem = m ∧ (archUnmapPage pml4 vaddr m).returned zones = none

/-! ## What is freed -/

section Freed

variable {zones : List Zone} {pml4 vaddr page : BitVec 64} {m : Mem}

/-- No zone of the upper half holds an address of the lower one. -/
theorem zoneOf_eq_none (hzones : ∀ z ∈ zones, 2 ^ 63 ≤ z.start.toNat)
    (hpage : page.toNat < 2 ^ 63) : zoneOf page zones = none := by
  refine List.find?_eq_none.mpr fun z hz hfound => ?_
  have hstart : z.start.toNat ≤ page.toNat := (of_decide_eq_true hfound).1
  have hzone := hzones z hz
  omega

/-- A frame number has 52 bits. -/
theorem freed_lt (h : (archUnmapPage pml4 vaddr m).freed = some page) : page.toNat < 2 ^ 52 := by
  rw [archUnmapPage] at h
  split at h
  case isTrue => cases h
  case isFalse =>
    obtain rfl := Option.some.inj h
    rw [BitVec.toNat_setWidth]
    omega

/-- **The page allocator gets nothing back.** -/
theorem returned_archUnmapPage (hzones : ∀ z ∈ zones, 2 ^ 63 ≤ z.start.toNat)
    (pml4 vaddr : BitVec 64) (m : Mem) : (archUnmapPage pml4 vaddr m).returned zones = none := by
  rw [Unmapping.returned]
  cases h : (archUnmapPage pml4 vaddr m).freed with
  | none => rfl
  | some page =>
    have hlt := freed_lt h
    have hzone : zoneOf page zones = none := zoneOf_eq_none hzones (by omega)
    simp [handedBack, hzone]

end Freed

/-! ## What is accessed -/

/-- **A pagemap made of blocks of the direct map**: its tables lie above `hhdm`, and the frames its
top-level entries name are the physical addresses of such blocks, or zero. -/
structure DirectTables (hhdm pml4 : BitVec 64) (s : Vm) (lab : Labels) : Prop where
  tables : Tables hhdm pml4 s lab
  root : lab pml4 = some (pml4, [])
  above : ∀ c, lab c ≠ none → hhdm.toNat ≤ c.toNat
  blocks : ∀ f ∈ s.frames, f ≠ 0#64 → hhdm.toNat ≤ f.toNat
  entry : ∀ i, ((readPte s.mem pml4 i).address.setWidth 64 <<< 12).toNat < 2 ^ 64 - hhdm.toNat

section Accessed

variable {hhdm pml4 b : BitVec 64} {i : BitVec 9} {flags : BitVec 32} {s₀ s s₁ s' : Vm}
  {lab : Labels} {c : MapCall} {calls : List MapCall} {zones : List Zone}

/-- A step down makes a top-level entry name a block, or leaves the frame it names. -/
theorem DirectTables.entry_advance (h : DirectTables hhdm pml4 s lab)
    (hadvance : vmmPmlAdvance hhdm pml4 i flags s = some (b, s₁)) (j : BitVec 9) :
    ((readPte s₁.mem pml4 j).address.setWidth 64 <<< 12).toNat < 2 ^ 64 - hhdm.toNat := by
  have hlab : lab pml4 ≠ none := by simp [h.root]
  obtain ⟨hrow, hentry⟩ := h.tables.advance_cases hlab hadvance
  by_cases hj : j = i
  · subst hj
    obtain ⟨-, -, -, he⟩ | ⟨-, hb0, hfs, he, -⟩ := hentry
    · rw [he]
      exact h.entry j
    · have habove := h.blocks b (by simp [hfs]) hb0
      obtain ⟨hbpage, -⟩ := h.tables.fresh b (by simp [hfs]) hb0
      rw [he, setWidth_shiftLeft_address, and_not_pageMask hbpage]
      bv_omega
  · rw [hrow pml4 j hlab (by simp [hj])]
    exact h.entry j

/-- **One call keeps a pagemap so**… -/
theorem DirectTables.map (h : DirectTables hhdm pml4 s lab) (hpml4 : pml4 ≠ 0#64)
    (hmap : archMapPage hhdm pml4 c.vaddr c.paddr c.flags s = some s') :
    ∃ lab', DirectTables hhdm pml4 s' lab' := by
  by_cases hflags : c.flags = 0#32
  · exact eq_of_archMapPage hflags hmap ▸ ⟨lab, h⟩
  obtain ⟨pml3, s₃, lab', hadvance, htop, hT', hins, hgrown⟩ :=
    archMapPage_descend_grown h.tables h.root hpml4 hflags hmap
  refine ⟨lab', hT', hins.mono h.root, fun t ht => ?_, fun f hf => h.blocks f (hgrown.frames hf),
    fun j => ?_⟩
  · rcases hgrown.table t ht with ht | ⟨hmem, hne⟩
    · exact h.above t ht
    · exact h.blocks t hmem hne
  · rw [htop]
    exact h.entry_advance hadvance j

/-- …and so does a run of them. -/
theorem DirectTables.mapAll (h : DirectTables hhdm pml4 s lab) (hpml4 : pml4 ≠ 0#64)
    (hrun : archMapPages hhdm pml4 calls s = some s') : ∃ lab', DirectTables hhdm pml4 s' lab' := by
  induction calls generalizing s lab with
  | nil =>
    obtain rfl : s = s' := Option.some.inj hrun
    exact ⟨lab, h⟩
  | cons c calls ih =>
    obtain ⟨s₁, h₁, hrun⟩ := Option.bind_eq_some_iff.mp hrun
    obtain ⟨lab₁, hd⟩ := h.map hpml4 h₁
    exact ih hd hrun

/-- A new pagemap is so. -/
theorem DirectTables.new (hfresh : FreshBlocks hhdm s₀.frames)
    (hblocks : ∀ f ∈ s₀.frames, f ≠ 0#64 → hhdm.toNat ≤ f.toNat)
    (hnew : archCreateNewPagemap s₀ = some (pml4, s)) (hpml4 : pml4 ≠ 0#64) :
    ∃ lab, DirectTables hhdm pml4 s lab := by
  obtain ⟨-, hT, -, -⟩ := (hfresh.tables pml4).archAllocPage hnew hpml4 (pml4, [])
  obtain ⟨fs, hfs, rfl⟩ := archAllocPage_of_ne_zero hnew hpml4
  refine ⟨_, hT, Function.update_self .., fun t ht => ?_, fun g hg => hblocks g (by simp [hfs, hg]),
    fun i => ?_⟩
  · by_cases htf : t = pml4
    · exact htf ▸ hblocks pml4 (by simp [hfs]) hpml4
    · simp [Function.update_of_ne htf] at ht
  · have hlt := hhdm.isLt
    rw [readPte_fill_zero]
    simpa [Pte.ofWord] using hlt

/-- **The tables of such a pagemap lie above `hhdm`.** -/
theorem DirectTables.le_of_isTable (h : DirectTables hhdm pml4 s lab) {t : BitVec 64}
    (ht : IsTable hhdm pml4 s.mem t) : hhdm.toNat ≤ t.toNat := by
  obtain ⟨n, hn, ht⟩ := ht
  obtain ⟨o, p, hlab, -⟩ := h.tables.labelled.tableAt h.root ht hn
  exact h.above t (by simp [hlab])

/-- **What is taken for the second table is none.** -/
theorem DirectTables.not_isTable_getPmlx (h : DirectTables hhdm pml4 s lab)
    (hhhdm : 2 ^ 63 ≤ hhdm.toNat) (vaddr : BitVec 64) :
    ¬ IsTable hhdm pml4 s.mem (getPmlx vaddr pml4 4 s.mem) := by
  intro ht
  have habove := h.le_of_isTable ht
  have hbelow : (getPmlx vaddr pml4 4 s.mem).toNat < 2 ^ 64 - hhdm.toNat := h.entry _
  omega

/-- **No address is unmapped as it should be**, whatever has been mapped, if the direct map and the
page allocator's blocks are in the upper half. -/
theorem not_unmapsSoundly (hhhdm : 2 ^ 63 ≤ hhdm.toNat) (hfresh : FreshBlocks hhdm s₀.frames)
    (hblocks : ∀ f ∈ s₀.frames, f ≠ 0#64 → hhdm.toNat ≤ f.toNat)
    (hnew : archCreateNewPagemap s₀ = some (pml4, s)) (hpml4 : pml4 ≠ 0#64)
    (hrun : archMapPages hhdm pml4 calls s = some s') (zones : List Zone) (vaddr : BitVec 64) :
    ¬ UnmapsSoundly hhdm zones pml4 vaddr s'.mem := by
  intro hsound
  obtain ⟨lab, hd⟩ := DirectTables.new hfresh hblocks hnew hpml4
  obtain ⟨lab', hd'⟩ := hd.mapAll hpml4 hrun
  refine hd'.not_isTable_getPmlx hhhdm vaddr (hsound.tables _ ?_)
  simp [archUnmapPage, hpml4]

end Accessed

/-- One page mapped in a new pagemap. -/
theorem archMapPages_fourPages : ∃ s', archMapPages 0xffff800000000000#64 0xffff800000001000#64
    [⟨0x400123#64, 0x7000#64, mapUserRw⟩] fourPages.served = some s' :=
  archMapPages_isSome _ _ _ supplies_fourPages

theorem not_unmapsSoundly_fourPages :
    ∃ s', archMapPages 0xffff800000000000#64 0xffff800000001000#64
        [⟨0x400123#64, 0x7000#64, mapUserRw⟩] fourPages.served = some s'
      ∧ ¬ UnmapsSoundly 0xffff800000000000#64 [] 0xffff800000001000#64 0x400123#64 s'.mem := by
  obtain ⟨s', hrun⟩ := archMapPages_fourPages
  exact ⟨s', hrun, not_unmapsSoundly (by decide) freshBlocks_fourPages (by simp [fourPages])
    archCreateNewPagemap_fourPages (by decide) hrun [] _⟩

/-- A zone with the frame `0x7000` in it. -/
def lowZone : Zone where
  header := 0xffff800000000000#64
  start := 0xffff800000001000#64
  len := 0x9000#64
  reserved := []

/-- The frame `0x7000` does not come back. -/
theorem not_unmapsSoundly_lowZone :
    ∃ s', archMapPages 0xffff800000000000#64 0xffff800000001000#64
        [⟨0x400123#64, 0x7000#64, mapUserRw⟩] fourPages.served = some s'
      ∧ handedBack [lowZone] 0xffff800000007000#64 = some 0xffff800000007000#64
      ∧ (archUnmapPage 0xffff800000001000#64 0x400123#64 s'.mem).returned [lowZone] = none
      ∧ ¬ UnmapsSoundly 0xffff800000000000#64 [lowZone] 0xffff800000001000#64 0x400123#64
          s'.mem := by
  obtain ⟨s', hrun⟩ := archMapPages_fourPages
  have hback : handedBack [lowZone] 0xffff800000007000#64 = some 0xffff800000007000#64 := by decide
  have hzones : ∀ z ∈ [lowZone], 2 ^ 63 ≤ z.start.toNat := by simp [lowZone]
  have hnone := returned_archUnmapPage hzones 0xffff800000001000#64 0x400123#64 s'.mem
  refine ⟨s', hrun, hback, hnone, fun hsound => ?_⟩
  obtain ⟨-, -, -, hM⟩ := represents_archMapPages freshBlocks_fourPages
    archCreateNewPagemap_fourPages (by decide) (by simp [mapUserRw]) hrun
  obtain ⟨es, hes, -⟩ := hM 0x400123#64
  have hreturned := (hsound.mapped es _ hes).2
  rw [setWidth_shiftLeft_address, hnone] at hreturned
  exact absurd (hreturned.trans hback) (by simp)

end MoonOS

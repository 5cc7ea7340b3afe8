import MoonOS.Mm.Spaces
import MoonOS.Mm.Phys

/-!
# Mm/InitPaging — the kernel's first pagemap

`arch_init_paging` maps every entry of the memory map at its direct-map address and then the kernel
image at its own.  It is one run of `arch_map_page` calls, `initCalls`, so what the pagemap says is
what the last call for each page says.

The loop over an entry makes `length / PAGE_SIZE` calls from `base` on, and a call maps the whole
page its address lies in; the loop over the image makes `kernel_size` calls, one for each *byte*.

* `kernelMapped_iff` — the image is mapped where it should be and nothing in the lower half is,
  exactly when `kernel_size` *pages* from `kernel_virt_start` on end before `2 ^ 64`, and the image
  lies below `2 ^ 52`;
* `directMapped_iff` — every byte of the memory map is reached through the direct map exactly when
  it is on one of these pages, below `2 ^ 52`, and neither another entry nor the image has taken its
  place (`DirectMapFits`).
-/

namespace MoonOS

open ByteMemory

/-- What `arch_init_paging` reads of the handover. -/
structure BootHandover where
  kernelVirtStart : BitVec 64
  kernelPhysStart : BitVec 64
  kernelSize : BitVec 64
  memoryMap : List MemmapEntry

/-- The flags an entry of the memory map is mapped with. -/
def entryFlags (type : MemmapType) : BitVec 32 :=
  if type = .reserved ∨ type = .badMemory ∨ type = .kernelAndModules then mapReadonly else mapKern

/-- `arch_init_paging`, with `kernel_pagemap`.  A null page fails the assertion. -/
def archInitPaging (hhdm : BitVec 64) (handover : BootHandover) (s : Vm) :
    Option (BitVec 64 × Vm) :=
  (archAllocPage s).bind fun (kernelPagemap, s) =>
  if kernelPagemap = 0#64 then none
  else do
    let s ← handover.memoryMap.foldlM (fun s entry =>
      (List.range (entry.length.toNat / pageSize)).foldlM (fun s j =>
        archMapPage hhdm kernelPagemap (va hhdm (entry.base + BitVec.ofNat 64 (j * pageSize)))
          (entry.base + BitVec.ofNat 64 (j * pageSize)) (entryFlags entry.type) s) s) s
    let s ← (List.range handover.kernelSize.toNat).foldlM (fun s i =>
      archMapPage hhdm kernelPagemap (handover.kernelVirtStart + BitVec.ofNat 64 (i * pageSize))
        (handover.kernelPhysStart + BitVec.ofNat 64 (i * pageSize)) mapKern s) s
    some (kernelPagemap, s)

/-! ## The calls -/

/-- The `j`-th call for an entry. -/
def entryCall (hhdm : BitVec 64) (e : MemmapEntry) (j : ℕ) : MapCall :=
  ⟨va hhdm (e.base + BitVec.ofNat 64 (j * pageSize)), e.base + BitVec.ofNat 64 (j * pageSize),
    entryFlags e.type⟩

/-- The `i`-th call for the kernel image. -/
def kernelCall (h : BootHandover) (i : ℕ) : MapCall :=
  ⟨h.kernelVirtStart + BitVec.ofNat 64 (i * pageSize),
    h.kernelPhysStart + BitVec.ofNat 64 (i * pageSize), mapKern⟩

/-- The calls for the memory map. -/
def directCalls (hhdm : BitVec 64) (h : BootHandover) : List MapCall :=
  h.memoryMap.flatMap fun e => (List.range (e.length.toNat / pageSize)).map (entryCall hhdm e)

/-- All calls of `arch_init_paging`. -/
def initCalls (hhdm : BitVec 64) (h : BootHandover) : List MapCall :=
  directCalls hhdm h ++ (List.range h.kernelSize.toNat).map (kernelCall h)

/-- An address in an entry of the memory map. -/
def MemmapEntry.Has (e : MemmapEntry) (x : BitVec 64) : Prop := (x - e.base).toNat < e.length.toNat

/-- An address of the upper half. -/
def UpperHalf (v : BitVec 64) : Prop := 2 ^ 64 - 2 ^ 47 ≤ v.toNat

section Calls

variable {hhdm pml4 : BitVec 64} {h : BootHandover} {s₀ s s' : Vm} {c : MapCall} {k : BitVec 36}

theorem mem_directCalls :
    c ∈ directCalls hhdm h
      ↔ ∃ e ∈ h.memoryMap, ∃ j < e.length.toNat / pageSize, entryCall hhdm e j = c := by
  simp [directCalls]

/-- A page that is mapped for an entry starts in it. -/
theorem MemmapEntry.has_of_lt {e : MemmapEntry} {j : ℕ} (hj : j < e.length.toNat / pageSize) :
    e.Has (e.base + BitVec.ofNat 64 (j * pageSize)) := by
  have hlt := e.length.isLt
  rw [pageSize] at hj
  rw [MemmapEntry.Has, BitVec.add_comm, BitVec.add_sub_cancel, BitVec.toNat_ofNat, pageSize]
  omega

theorem getLsbD_entryFlags (type : MemmapType) : (entryFlags type).getLsbD 0 = true := by
  cases type <;> decide

/-- Every call is for a present page. -/
theorem flags_initCalls (hc : c ∈ initCalls hhdm h) : c.flags.getLsbD 0 = true := by
  rcases List.mem_append.mp hc with hc | hc
  · obtain ⟨e, -, j, -, rfl⟩ := mem_directCalls.mp hc
    exact getLsbD_entryFlags e.type
  · obtain ⟨i, -, rfl⟩ := List.mem_map.mp hc
    exact (by decide : mapKern.getLsbD 0 = true)

theorem archMapPages_append (calls calls' : List MapCall) (s : Vm) :
    archMapPages hhdm pml4 (calls ++ calls') s
      = (archMapPages hhdm pml4 calls s).bind (archMapPages hhdm pml4 calls') :=
  List.foldlM_append

/-- The loop over the memory map makes the calls for it. -/
theorem archMapPages_directCalls (hhdm pml4 : BitVec 64) (h : BootHandover) (s : Vm) :
    h.memoryMap.foldlM (fun s entry =>
        (List.range (entry.length.toNat / pageSize)).foldlM (fun s j =>
          archMapPage hhdm pml4 (va hhdm (entry.base + BitVec.ofNat 64 (j * pageSize)))
            (entry.base + BitVec.ofNat 64 (j * pageSize)) (entryFlags entry.type) s) s) s
      = archMapPages hhdm pml4 (directCalls hhdm h) s := by
  rw [directCalls]
  induction h.memoryMap generalizing s with
  | nil => rfl
  | cons e entries ih =>
    rw [List.flatMap_cons, archMapPages_append, List.foldlM_cons, archMapPages, List.foldlM_map]
    exact congrArg _ (funext ih)

/-- **`arch_init_paging` is a run of mappings in a new pagemap.** -/
theorem archInitPaging_eq (hnew : archCreateNewPagemap s₀ = some (pml4, s)) (hpml4 : pml4 ≠ 0#64) :
    archInitPaging hhdm h s₀ = (archMapPages hhdm pml4 (initCalls hhdm h) s).map (pml4, ·) := by
  rw [archInitPaging, show archAllocPage s₀ = some (pml4, s) from hnew, Option.bind_some]
  dsimp only
  rw [if_neg hpml4, archMapPages_directCalls, initCalls, archMapPages_append]
  cases archMapPages hhdm pml4 (directCalls hhdm h) s with
  | none => rfl
  | some s₁ =>
    rw [Option.bind_some, archMapPages, List.foldlM_map]
    exact (Option.map_eq_bind ..).symm

/-- What a run leaves. -/
theorem represents_archInitPaging (hfresh : FreshBlocks hhdm s₀.frames)
    (hrun : archInitPaging hhdm h s₀ = some (pml4, s')) :
    pml4 ≠ 0#64 ∧ Represents hhdm pml4 s'.mem (AddrSpace.ofCalls (initCalls hhdm h)) := by
  obtain ⟨⟨p, s⟩, hnew, hrest⟩ := Option.bind_eq_some_iff.mp hrun
  by_cases hp : p = 0#64
  · dsimp only at hrest
    rw [if_pos hp] at hrest
    cases hrest
  · rw [archInitPaging_eq hnew hp] at hrun
    obtain ⟨s₁, hmap, heq⟩ := Option.map_eq_some_iff.mp hrun
    obtain ⟨rfl, rfl⟩ := Prod.mk.inj heq
    refine ⟨hp, ?_⟩
    obtain ⟨-, -, -, hM⟩ :=
      represents_archMapPages hfresh hnew hp (fun c hc => flags_initCalls hc) hmap
    exact hM

/-- Three pages a call and one for the pagemap are enough. -/
theorem archInitPaging_isSome (hs : Supplies hhdm s₀ (3 * (initCalls hhdm h).length + 1)) :
    ∃ pml4 s, archInitPaging hhdm h s₀ = some (pml4, s) := by
  obtain ⟨f, s₁, hnew, hf, -, hs₁⟩ := hs.page
  obtain ⟨s, hmap⟩ := archMapPages_isSome hhdm f (initCalls hhdm h) hs₁
  exact ⟨f, s, by rw [archInitPaging_eq hnew hf, hmap, Option.map_some]⟩

/-- The address of a leaf entry: its frame, cut to 40 bits, and the offset in the page. -/
theorem toNat_leaf (paddr v : BitVec 64) (flags : BitVec 32) :
    (((pagingCreateEntry paddr flags).address <<< 12).setWidth 64 ||| v &&& 0xfff#64).toNat
      = paddr.toNat / 4096 % 2 ^ 40 * 4096 + v.toNat % 4096 := by
  have hmask : (0xfff#64).toNat = 2 ^ 12 - 1 := by decide
  have hframe : (((pagingCreateEntry paddr flags).address <<< 12).setWidth 64).toNat
      = (paddr.toNat / 4096 % 2 ^ 40) <<< 12 := by
    simp only [pagingCreateEntry, BitVec.toNat_setWidth, BitVec.toNat_shiftLeft,
      BitVec.toNat_ushiftRight, Nat.shiftRight_eq_div_pow, Nat.shiftLeft_eq]
    omega
  rw [BitVec.toNat_or, hframe, BitVec.toNat_and, hmask, Nat.and_two_pow_sub_one_eq_mod,
    ← Nat.shiftLeft_add_eq_or_of_lt (by omega), Nat.shiftLeft_eq]

/-- What `arch_translate` makes of a mapped page. -/
theorem Represents.archTranslate_of_some {M : AddrSpace} {m : Mem} {v : BitVec 64}
    (hM : Represents hhdm pml4 m M) (hpml4 : pml4 ≠ 0#64) (hc : M (pageKey v) = some c)
    (x : BitVec 64) :
    MoonOS.archTranslate hhdm pml4 v m = some (va hhdm x)
      ↔ c.paddr.toNat / 4096 % 2 ^ 40 * 4096 + v.toNat % 4096 = x.toNat := by
  rw [archTranslate_eq hpml4, (hM v).getLast?, hc, Option.map_some]
  simp only [Option.some.injEq, va, BitVec.add_left_inj]
  rw [← toNat_leaf c.paddr v c.flags, BitVec.toNat_inj]

/-- The page some pages behind an address. -/
theorem toNat_pageKey_add (a : BitVec 64) (i : ℕ) :
    (pageKey (a + BitVec.ofNat 64 (i * pageSize))).toNat = (a.toNat / 4096 + i) % 2 ^ 36 := by
  rw [toNat_pageKey, BitVec.toNat_add, BitVec.toNat_ofNat, pageSize]
  omega

/-- The last call for the image that falls on a page decides about it. -/
theorem ofCalls_kernelCall (hhdm : BitVec 64) {i : ℕ} (hi : i < h.kernelSize.toNat)
    (hlast : ∀ i', i < i' → i' < h.kernelSize.toNat →
      pageKey (kernelCall h i').vaddr ≠ pageKey (kernelCall h i).vaddr) :
    AddrSpace.ofCalls (initCalls hhdm h) (pageKey (kernelCall h i).vaddr)
      = some (kernelCall h i) := by
  obtain ⟨n, hn⟩ := Nat.exists_eq_add_of_lt hi
  have hsplit : (List.range h.kernelSize.toNat).map (kernelCall h)
      = (List.range i).map (kernelCall h) ++ kernelCall h i
        :: (List.range n).map fun j => kernelCall h (i + 1 + j) := by
    rw [show h.kernelSize.toNat = i + 1 + n by omega, List.range_add, List.range_succ]
    simp
  rw [AddrSpace.ofCalls, initCalls, hsplit, ← List.append_assoc]
  refine AddrSpace.foldl_last fun hmem => ?_
  simp only [List.map_map, List.mem_map, List.mem_range, Function.comp_apply] at hmem
  obtain ⟨j, hj, hkey⟩ := hmem
  exact hlast (i + 1 + j) (by omega) (by omega) hkey

end Calls

/-! ## The kernel image -/

/-- **The kernel image is mapped**: every byte of it at its place, and nothing in the lower half. -/
structure KernelMapped (hhdm : BitVec 64) (h : BootHandover) (pml4 : BitVec 64) (m : Mem) :
    Prop where
  image : ∀ o < h.kernelSize.toNat, archTranslate hhdm pml4 (at' h.kernelVirtStart o) m
    = some (va hhdm (at' h.kernelPhysStart o))
  lower : ∀ v, LowerHalf v → pathEntries hhdm pml4 v m = none

/-- **The image fits**: as many pages as it has bytes end before the end of the address space, and
its frames are below the 40 bits that a translation keeps. -/
structure KernelFits (h : BootHandover) : Prop where
  virt : h.kernelVirtStart.toNat + 4096 * h.kernelSize.toNat ≤ 2 ^ 64
  phys : ∀ o < h.kernelSize.toNat, (at' h.kernelPhysStart o).toNat < 2 ^ 52

section Image

variable {hhdm pml4 : BitVec 64} {h : BootHandover} {s₀ s : Vm} {m : Mem}

/-- The image's pages are distinct where they fit, and each byte is on its own. -/
theorem ofCalls_image (hfit : h.kernelVirtStart.toNat + 4096 * h.kernelSize.toNat ≤ 2 ^ 64)
    (hvirt : h.kernelVirtStart.toNat % 4096 = 0) (hupper : UpperHalf h.kernelVirtStart) {o : ℕ}
    (ho : o < h.kernelSize.toNat) :
    AddrSpace.ofCalls (initCalls hhdm h) (pageKey (at' h.kernelVirtStart o))
      = some (kernelCall h (o / 4096)) := by
  have hkey : pageKey (at' h.kernelVirtStart o) = pageKey (kernelCall h (o / 4096)).vaddr := by
    rw [← BitVec.toNat_inj, kernelCall, toNat_pageKey_add, toNat_pageKey, toNat_at' (by omega)]
    omega
  rw [hkey]
  refine ofCalls_kernelCall hhdm (by omega) fun i' hlt hi' heq => ?_
  rw [← BitVec.toNat_inj, kernelCall, kernelCall, toNat_pageKey_add, toNat_pageKey_add] at heq
  rw [UpperHalf] at hupper
  omega

/-- A byte of the image is translated to its own frame exactly when that is below `2 ^ 52`. -/
theorem Represents.image_iff
    (hM : Represents hhdm pml4 m (AddrSpace.ofCalls (initCalls hhdm h))) (hpml4 : pml4 ≠ 0#64)
    (hfit : h.kernelVirtStart.toNat + 4096 * h.kernelSize.toNat ≤ 2 ^ 64)
    (hvirt : h.kernelVirtStart.toNat % 4096 = 0) (hphys : h.kernelPhysStart.toNat % 4096 = 0)
    (hupper : UpperHalf h.kernelVirtStart) {o : ℕ} (ho : o < h.kernelSize.toNat) :
    MoonOS.archTranslate hhdm pml4 (at' h.kernelVirtStart o) m
        = some (va hhdm (at' h.kernelPhysStart o))
      ↔ (at' h.kernelPhysStart o).toNat < 2 ^ 52 := by
  rw [hM.archTranslate_of_some hpml4 (ofCalls_image hfit hvirt hupper ho), toNat_at' (by omega),
    kernelCall, at', BitVec.toNat_add, BitVec.toNat_ofNat, BitVec.toNat_add, BitVec.toNat_ofNat,
    pageSize]
  omega

/-- What the code maps stays in the upper half where the image fits. -/
theorem ofCalls_lower (hfit : h.kernelVirtStart.toNat + 4096 * h.kernelSize.toNat ≤ 2 ^ 64)
    (hupper : UpperHalf h.kernelVirtStart)
    (hmap : ∀ e ∈ h.memoryMap, ∀ x, e.Has x → UpperHalf (va hhdm x)) {v : BitVec 64}
    (hv : LowerHalf v) : AddrSpace.ofCalls (initCalls hhdm h) (pageKey v) = none := by
  refine AddrSpace.foldl_of_not_mem fun hmem => ?_
  obtain ⟨c, hc, hkey⟩ := List.mem_map.mp hmem
  rw [LowerHalf, toNat_indexOf] at hv
  rw [← BitVec.toNat_inj, toNat_pageKey, toNat_pageKey] at hkey
  have hlt := c.vaddr.isLt
  suffices hup : UpperHalf c.vaddr by
    rw [UpperHalf] at hup
    omega
  rcases List.mem_append.mp hc with hc | hc
  · obtain ⟨e, he, j, hj, rfl⟩ := mem_directCalls.mp hc
    exact hmap e he _ (MemmapEntry.has_of_lt hj)
  · obtain ⟨i, hi, rfl⟩ := List.mem_map.mp hc
    rw [List.mem_range] at hi
    rw [UpperHalf] at hupper ⊢
    rw [kernelCall, BitVec.toNat_add, BitVec.toNat_ofNat, pageSize]
    omega

/-- The page behind the last of the address space is page `0`. -/
theorem exists_kernelCall_zero (hhdm : BitVec 64) (hvirt : h.kernelVirtStart.toNat % 4096 = 0)
    (hlong : 2 ^ 64 < h.kernelVirtStart.toNat + 4096 * h.kernelSize.toNat) :
    AddrSpace.ofCalls (initCalls hhdm h) (pageKey 0#64) ≠ none := by
  have hlt := h.kernelVirtStart.isLt
  refine AddrSpace.foldl_ne_none (.inl (List.mem_map.mpr
    ⟨kernelCall h ((2 ^ 64 - h.kernelVirtStart.toNat) / 4096), ?_, ?_⟩))
  · exact List.mem_append_right _ (List.mem_map_of_mem (List.mem_range.mpr (by omega)))
  · rw [← BitVec.toNat_inj, kernelCall, toNat_pageKey_add, toNat_pageKey, BitVec.toNat_zero]
    omega

theorem not_kernelMapped_of_lt (hfresh : FreshBlocks hhdm s₀.frames)
    (hrun : archInitPaging hhdm h s₀ = some (pml4, s))
    (hvirt : h.kernelVirtStart.toNat % 4096 = 0)
    (hlong : 2 ^ 64 < h.kernelVirtStart.toNat + 4096 * h.kernelSize.toNat) :
    ¬ KernelMapped hhdm h pml4 s.mem := by
  intro hmapped
  obtain ⟨-, hM⟩ := represents_archInitPaging hfresh hrun
  obtain ⟨c, hc⟩ := Option.ne_none_iff_exists'.mp (exists_kernelCall_zero hhdm hvirt hlong)
  obtain ⟨es, hes, -⟩ := hc ▸ hM 0#64
  rw [hmapped.lower 0#64 (by decide)] at hes
  cases hes

/-- **The kernel image is mapped, and nothing in the lower half, exactly when it fits**; and with
three pages a call the run does not stop. -/
theorem kernelMapped_iff (hfresh : FreshBlocks hhdm s₀.frames)
    (hvirt : h.kernelVirtStart.toNat % 4096 = 0) (hphys : h.kernelPhysStart.toNat % 4096 = 0)
    (hupper : UpperHalf h.kernelVirtStart)
    (hmap : ∀ e ∈ h.memoryMap, ∀ x, e.Has x → UpperHalf (va hhdm x)) :
    (∀ pml4 s, archInitPaging hhdm h s₀ = some (pml4, s) →
      (KernelMapped hhdm h pml4 s.mem ↔ KernelFits h))
    ∧ (Supplies hhdm s₀ (3 * (initCalls hhdm h).length + 1) →
      ∃ pml4 s, archInitPaging hhdm h s₀ = some (pml4, s)) := by
  refine ⟨fun pml4 s hrun => ?_, archInitPaging_isSome⟩
  obtain ⟨hpml4, hM⟩ := represents_archInitPaging hfresh hrun
  constructor
  · intro hmapped
    have hend : h.kernelVirtStart.toNat + 4096 * h.kernelSize.toNat ≤ 2 ^ 64 := by
      by_contra hlong
      exact not_kernelMapped_of_lt hfresh hrun hvirt (by omega) hmapped
    exact ⟨hend, fun o ho =>
      (hM.image_iff hpml4 hend hvirt hphys hupper ho).mp (hmapped.image o ho)⟩
  · intro hfits
    refine ⟨fun o ho => ?_, fun v hv => ?_⟩
    · exact (hM.image_iff hpml4 hfits.virt hvirt hphys hupper ho).mpr (hfits.phys o ho)
    · have hserves := hM v
      rwa [ofCalls_lower hfits.virt hupper hmap hv] at hserves

end Image

/-- A page allocator just booted, with `n` pages. -/
def bootVm (n : ℕ) : Vm where
  mem _ := 0xff#8
  frames := (List.range n).map fun i => BitVec.ofNat 64 (0xffff800000001000 + 4096 * i)
  pmmLock := false

theorem freshBlocks_bootVm {n : ℕ} (hn : n < 2 ^ 30) :
    FreshBlocks 0xffff800000000000#64 (bootVm n).frames := by
  refine ⟨fun f hf _ => ?_, List.Nodup.filter _ (List.Nodup.map_on ?_ List.nodup_range)⟩
  · obtain ⟨i, hi, rfl⟩ := List.mem_map.mp hf
    rw [List.mem_range] at hi
    rw [OnPage]
    bv_omega
  · intro i hi j hj heq
    rw [List.mem_range] at hi hj
    bv_omega

theorem supplies_bootVm {n k : ℕ} (hn : n < 2 ^ 30) (hk : k ≤ n) :
    Supplies 0xffff800000000000#64 (bootVm n) k where
  unlocked := rfl
  good f hf := by
    obtain ⟨i, hi, rfl⟩ := List.mem_map.mp hf
    rw [List.mem_range] at hi
    constructor <;> bv_omega
  enough := by simpa [bootVm] using hk

/-- A kernel at the usual place, 64 KiB of memory at 1 MiB. -/
def usualKernel (size : BitVec 64) : BootHandover where
  kernelVirtStart := 0xffffffff80000000#64
  kernelPhysStart := 0x200000#64
  kernelSize := size
  memoryMap := [⟨0x100000#64, 0x10000#64, .usable⟩]

theorem length_usualKernel (size : BitVec 64) :
    (initCalls 0xffff800000000000#64 (usualKernel size)).length = 16 + size.toNat := by
  simp [initCalls, directCalls, usualKernel, pageSize]

theorem upperHalf_usualKernel (size : BitVec 64) : ∀ e ∈ (usualKernel size).memoryMap,
    ∀ x, e.Has x → UpperHalf (va 0xffff800000000000#64 x) := by
  intro e he x hx
  obtain rfl := List.mem_singleton.mp he
  rw [MemmapEntry.Has] at hx
  rw [UpperHalf, va]
  bv_omega

/-- One of a page is mapped. -/
theorem kernelMapped_usualKernel : ∃ pml4 s,
    archInitPaging 0xffff800000000000#64 (usualKernel 4096#64) (bootVm 20000) = some (pml4, s)
      ∧ KernelMapped 0xffff800000000000#64 (usualKernel 4096#64) pml4 s.mem := by
  obtain ⟨hiff, hruns⟩ := kernelMapped_iff (h := usualKernel 4096#64)
    (freshBlocks_bootVm (n := 20000) (by decide)) (by decide) (by decide)
    (by rw [UpperHalf]; decide) (upperHalf_usualKernel _)
  obtain ⟨pml4, s, hrun⟩ := hruns (supplies_bootVm (by decide) (by rw [length_usualKernel]; simp))
  refine ⟨pml4, s, hrun, (hiff pml4 s hrun).mpr ⟨by simp [usualKernel], fun o ho => ?_⟩⟩
  have ho' : o < 4096 := ho
  show (at' 0x200000#64 o).toNat < 2 ^ 52
  rw [toNat_at' (by simp; omega)]
  simp
  omega

/-- **One of 1 MiB has page `0` mapped besides.** -/
theorem not_kernelMapped_usualKernel :
    (usualKernel 0x100000#64).kernelVirtStart.toNat + (usualKernel 0x100000#64).kernelSize.toNat
        ≤ 2 ^ 64
      ∧ ∃ pml4 s, archInitPaging 0xffff800000000000#64 (usualKernel 0x100000#64)
          (bootVm 4000000) = some (pml4, s)
        ∧ ¬ KernelMapped 0xffff800000000000#64 (usualKernel 0x100000#64) pml4 s.mem := by
  refine ⟨by decide, ?_⟩
  obtain ⟨pml4, s, hrun⟩ := archInitPaging_isSome (h := usualKernel 0x100000#64)
    (supplies_bootVm (n := 4000000) (by decide) (by rw [length_usualKernel]; simp))
  exact ⟨pml4, s, hrun, not_kernelMapped_of_lt (freshBlocks_bootVm (by decide)) hrun (by decide)
    (by simp [usualKernel])⟩

/-! ## The direct map -/

/-- An address in the memory map. -/
def BootHandover.Lists (h : BootHandover) (x : BitVec 64) : Prop := ∃ e ∈ h.memoryMap, e.Has x

/-- **Every address in the memory map is reached through the direct map.** -/
def DirectMapped (hhdm : BitVec 64) (h : BootHandover) (pml4 : BitVec 64) (m : Mem) : Prop :=
  ∀ x, h.Lists x → (pathEntries hhdm pml4 (va hhdm x) m).isSome = true
    ∧ archTranslate hhdm pml4 (va hhdm x) m = some (va hhdm x)

/-- **The memory map fits the loop over it**: every address has a frame of 40 bits and is on a page
that is mapped, no two share the 36 bits of a page number without being on one page, and where the
image is mapped over it the last such page is its own. -/
structure DirectMapFits (hhdm : BitVec 64) (h : BootHandover) : Prop where
  small : ∀ x, h.Lists x → x.toNat < 2 ^ 52
  covered : ∀ x, h.Lists x →
    (∃ e ∈ h.memoryMap, ∃ j < e.length.toNat / pageSize,
      (e.base + BitVec.ofNat 64 (j * pageSize)).toNat / 4096 = x.toNat / 4096)
    ∨ ∃ i < h.kernelSize.toNat, pageKey (kernelCall h i).vaddr = pageKey (va hhdm x)
  apart : ∀ x y, h.Lists x → h.Lists y → x.toNat / 4096 % 2 ^ 36 = y.toNat / 4096 % 2 ^ 36 →
    x.toNat / 4096 = y.toNat / 4096
  image : ∀ x, h.Lists x → ∀ i < h.kernelSize.toNat,
    pageKey (kernelCall h i).vaddr = pageKey (va hhdm x) →
    (∀ i', i < i' → i' < h.kernelSize.toNat →
      pageKey (kernelCall h i').vaddr ≠ pageKey (va hhdm x)) →
    (kernelCall h i).paddr.toNat / 4096 % 2 ^ 40 = x.toNat / 4096

section Direct

variable {hhdm pml4 : BitVec 64} {h : BootHandover} {s₀ s : Vm} {m : Mem} {x y : BitVec 64}

/-- The page of a direct-map address. -/
theorem toNat_pageKey_va (hhhdm : hhdm.toNat % 4096 = 0) (x : BitVec 64) :
    (pageKey (va hhdm x)).toNat = (x.toNat / 4096 + hhdm.toNat / 4096) % 2 ^ 36 := by
  rw [toNat_pageKey, va, BitVec.toNat_add]
  omega

theorem pageKey_va_inj (hhhdm : hhdm.toNat % 4096 = 0) :
    pageKey (va hhdm x) = pageKey (va hhdm y)
      ↔ x.toNat / 4096 % 2 ^ 36 = y.toNat / 4096 % 2 ^ 36 := by
  rw [← BitVec.toNat_inj, toNat_pageKey_va hhhdm, toNat_pageKey_va hhhdm]
  omega

/-- An address is reached through the direct map exactly when its page is mapped to its frame. -/
theorem Represents.reached_iff {M : AddrSpace} (hM : Represents hhdm pml4 m M)
    (hpml4 : pml4 ≠ 0#64) (hhhdm : hhdm.toNat % 4096 = 0) (x : BitVec 64) :
    (pathEntries hhdm pml4 (va hhdm x) m).isSome = true
        ∧ MoonOS.archTranslate hhdm pml4 (va hhdm x) m = some (va hhdm x)
      ↔ ∃ c, M (pageKey (va hhdm x)) = some c
        ∧ c.paddr.toNat / 4096 % 2 ^ 40 = x.toNat / 4096 := by
  cases hc : M (pageKey (va hhdm x)) with
  | none =>
    have hserves := hM (va hhdm x)
    rw [hc, Serves] at hserves
    simp [hserves]
  | some c =>
    obtain ⟨es, hes, -⟩ := hc ▸ hM (va hhdm x)
    have hoffset : (va hhdm x).toNat % 4096 = x.toNat % 4096 := by
      rw [va, BitVec.toNat_add]
      omega
    rw [hM.archTranslate_of_some hpml4 hc, hes, hoffset]
    simp only [Option.isSome_some, true_and, Option.some.injEq, exists_eq_left']
    omega

/-- A page the image is mapped over has a last call for it. -/
theorem exists_last_kernelCall {k : BitVec 36}
    (hk : ∃ i < h.kernelSize.toNat, pageKey (kernelCall h i).vaddr = k) :
    ∃ i < h.kernelSize.toNat, pageKey (kernelCall h i).vaddr = k
      ∧ ∀ i', i < i' → i' < h.kernelSize.toNat → pageKey (kernelCall h i').vaddr ≠ k := by
  obtain ⟨i, hi, hkey⟩ := hk
  have hbound : i ≤ h.kernelSize.toNat - 1 := by omega
  let P : ℕ → Prop := fun i => pageKey (kernelCall h i).vaddr = k
  have hspec : P (Nat.findGreatest P (h.kernelSize.toNat - 1)) :=
    Nat.findGreatest_spec hbound hkey
  have hle : Nat.findGreatest P (h.kernelSize.toNat - 1) ≤ h.kernelSize.toNat - 1 :=
    Nat.findGreatest_le _
  exact ⟨_, by omega, hspec, fun i' hlt hi' =>
    Nat.findGreatest_is_greatest (P := P) hlt (by omega)⟩

/-- A page the image is not mapped over is as the memory map leaves it. -/
theorem ofCalls_initCalls_of_not {k : BitVec 36}
    (hk : ¬ ∃ i < h.kernelSize.toNat, pageKey (kernelCall h i).vaddr = k) :
    AddrSpace.ofCalls (initCalls hhdm h) k = AddrSpace.ofCalls (directCalls hhdm h) k := by
  rw [AddrSpace.ofCalls, initCalls, List.foldl_append]
  refine AddrSpace.foldl_of_not_mem fun hmem => hk ?_
  obtain ⟨c, hc, hkey⟩ := List.mem_map.mp hmem
  obtain ⟨i, hi, rfl⟩ := List.mem_map.mp hc
  exact ⟨i, List.mem_range.mp hi, hkey⟩

/-- The frame an address of a fitting map gets is its own. -/
theorem DirectMapFits.ofCalls (hfits : DirectMapFits hhdm h) (hhhdm : hhdm.toNat % 4096 = 0)
    (hx : h.Lists x) : ∃ c, AddrSpace.ofCalls (initCalls hhdm h) (pageKey (va hhdm x)) = some c
      ∧ c.paddr.toNat / 4096 % 2 ^ 40 = x.toNat / 4096 := by
  by_cases hk : ∃ i < h.kernelSize.toNat, pageKey (kernelCall h i).vaddr = pageKey (va hhdm x)
  · obtain ⟨i, hi, hkey, hlast⟩ := exists_last_kernelCall hk
    refine ⟨kernelCall h i, ?_, hfits.image x hx i hi hkey hlast⟩
    rw [← hkey]
    exact ofCalls_kernelCall hhdm hi fun i' hlt hi' => by rw [hkey]; exact hlast i' hlt hi'
  · obtain ⟨e, he, j, hj, hframe⟩ := (hfits.covered x hx).resolve_right hk
    rw [ofCalls_initCalls_of_not hk]
    have hsome : AddrSpace.ofCalls (directCalls hhdm h) (pageKey (va hhdm x)) ≠ none := by
      refine AddrSpace.foldl_ne_none (.inl (List.mem_map.mpr
        ⟨entryCall hhdm e j, mem_directCalls.mpr ⟨e, he, j, hj, rfl⟩, ?_⟩))
      exact (pageKey_va_inj hhhdm).mpr (by rw [hframe])
    obtain ⟨c, hc⟩ := Option.ne_none_iff_exists'.mp hsome
    refine ⟨c, hc, ?_⟩
    -- Whichever entry the page was last mapped for, it is mapped to the same frame.
    obtain ⟨hmem, hkey⟩ := AddrSpace.mem_of_ofCalls hc
    obtain ⟨e', he', j', hj', rfl⟩ := mem_directCalls.mp hmem
    have hlists : h.Lists (e'.base + BitVec.ofNat 64 (j' * pageSize)) :=
      ⟨e', he', MemmapEntry.has_of_lt hj'⟩
    have hsame := hfits.apart _ x hlists hx ((pageKey_va_inj hhhdm).mp hkey)
    have hsmall := hfits.small x hx
    rw [entryCall, hsame]
    omega

/-- A map that is reached fits. -/
theorem DirectMapped.fits (hfresh : FreshBlocks hhdm s₀.frames) (hhhdm : hhdm.toNat % 4096 = 0)
    (hrun : archInitPaging hhdm h s₀ = some (pml4, s)) (hmapped : DirectMapped hhdm h pml4 s.mem) :
    DirectMapFits hhdm h := by
  obtain ⟨hpml4, hM⟩ := represents_archInitPaging hfresh hrun
  have hframe : ∀ x, h.Lists x →
      ∃ c, AddrSpace.ofCalls (initCalls hhdm h) (pageKey (va hhdm x)) = some c
        ∧ c.paddr.toNat / 4096 % 2 ^ 40 = x.toNat / 4096 := fun x hx =>
    (hM.reached_iff hpml4 hhhdm x).mp (hmapped x hx)
  have hsmall : ∀ x, h.Lists x → x.toNat < 2 ^ 52 := fun x hx => by
    obtain ⟨c, -, hc⟩ := hframe x hx
    omega
  refine ⟨hsmall, fun x hx => ?_, fun x y hx hy hkey => ?_, fun x hx i hi hkey hlast => ?_⟩
  · obtain ⟨c, hc, heq⟩ := hframe x hx
    obtain ⟨hmem, hkey⟩ := AddrSpace.mem_of_ofCalls hc
    rcases List.mem_append.mp hmem with hmem | hmem
    · -- The page's own address is in the map too, so its frame has 40 bits as well.
      obtain ⟨e, he, j, hj, rfl⟩ := mem_directCalls.mp hmem
      have hpage := hsmall _ ⟨e, he, MemmapEntry.has_of_lt hj⟩
      refine .inl ⟨e, he, j, hj, ?_⟩
      rw [entryCall] at heq
      dsimp only at heq
      omega
    · obtain ⟨i, hi, rfl⟩ := List.mem_map.mp hmem
      exact .inr ⟨i, List.mem_range.mp hi, hkey⟩
  · obtain ⟨c, hc, heq⟩ := hframe x hx
    obtain ⟨c', hc', heq'⟩ := hframe y hy
    rw [(pageKey_va_inj hhhdm).mpr hkey] at hc
    obtain rfl := Option.some.inj (hc.symm.trans hc')
    rw [← heq, ← heq']
  · obtain ⟨c, hc, heq⟩ := hframe x hx
    have hcall := ofCalls_kernelCall hhdm hi fun i' hlt hi' => by rw [hkey]; exact hlast i' hlt hi'
    rw [hkey] at hcall
    obtain rfl := Option.some.inj (hc.symm.trans hcall)
    exact heq

/-- **The memory map is reached through the direct map exactly when it fits the loop over it**; and
with three pages a call the run does not stop. -/
theorem directMapped_iff (hfresh : FreshBlocks hhdm s₀.frames) (hhhdm : hhdm.toNat % 4096 = 0) :
    (∀ pml4 s, archInitPaging hhdm h s₀ = some (pml4, s) →
      (DirectMapped hhdm h pml4 s.mem ↔ DirectMapFits hhdm h))
    ∧ (Supplies hhdm s₀ (3 * (initCalls hhdm h).length + 1) →
      ∃ pml4 s, archInitPaging hhdm h s₀ = some (pml4, s)) := by
  refine ⟨fun pml4 s hrun => ⟨fun hmapped => hmapped.fits hfresh hhhdm hrun, fun hfits x hx => ?_⟩,
    archInitPaging_isSome⟩
  obtain ⟨hpml4, hM⟩ := represents_archInitPaging hfresh hrun
  exact (hM.reached_iff hpml4 hhhdm x).mpr (hfits.ofCalls hhhdm hx)

end Direct

/-- The pages of a small kernel at the usual place are off the direct map of low memory. -/
theorem pageKey_kernelCall_ne {h : BootHandover} {i : ℕ} {x : BitVec 64}
    (hvirt : h.kernelVirtStart = 0xffffffff80000000#64) (hi : i < 4096) (hx : x.toNat < 2 ^ 30) :
    pageKey (kernelCall h i).vaddr ≠ pageKey (va 0xffff800000000000#64 x) := by
  rw [Ne, ← BitVec.toNat_inj, kernelCall, toNat_pageKey_add, toNat_pageKey_va (by decide), hvirt]
  simp only [BitVec.toNat_ofNat]
  omega

/-- The 64 KiB at 1 MiB are reached. -/
theorem directMapped_usualKernel : ∃ pml4 s,
    archInitPaging 0xffff800000000000#64 (usualKernel 4096#64) (bootVm 20000) = some (pml4, s)
      ∧ DirectMapped 0xffff800000000000#64 (usualKernel 4096#64) pml4 s.mem := by
  obtain ⟨hiff, hruns⟩ := directMapped_iff (h := usualKernel 4096#64)
    (freshBlocks_bootVm (n := 20000) (by decide)) (by decide)
  obtain ⟨pml4, s, hrun⟩ := hruns (supplies_bootVm (by decide) (by rw [length_usualKernel]; simp))
  have hlists : ∀ x, (usualKernel 4096#64).Lists x → 0x100000 ≤ x.toNat ∧ x.toNat < 0x110000 := by
    rintro x ⟨e, he, hx⟩
    obtain rfl := List.mem_singleton.mp he
    rw [MemmapEntry.Has] at hx
    bv_omega
  refine ⟨pml4, s, hrun, (hiff pml4 s hrun).mpr ⟨fun x hx => ?_, fun x hx => .inl ?_,
    fun x y hx hy _ => ?_, fun x hx i hi hkey _ => ?_⟩⟩
  · have := hlists x hx
    omega
  · have hx' := hlists x hx
    refine ⟨_, List.mem_singleton_self _, x.toNat / 4096 - 0x100, ?_, ?_⟩
    · simp [pageSize]
      omega
    · rw [BitVec.toNat_add, BitVec.toNat_ofNat, pageSize]
      simp
      omega
  · have := hlists x hx
    have := hlists y hy
    omega
  · have := hlists x hx
    exact absurd hkey (pageKey_kernelCall_ne rfl hi (by omega))

/-- The last kilobyte below 640 KiB, reserved, as firmware lists it. -/
def reservedKilobyte : BootHandover :=
  { usualKernel 4096#64 with memoryMap := [⟨0x9fc00#64, 0x400#64, .reserved⟩] }

/-- **A kilobyte is less than a page, so it is not mapped.** -/
theorem not_directMapped_reservedKilobyte : ∃ pml4 s,
    archInitPaging 0xffff800000000000#64 reservedKilobyte (bootVm 20000) = some (pml4, s)
      ∧ ¬ DirectMapped 0xffff800000000000#64 reservedKilobyte pml4 s.mem := by
  obtain ⟨pml4, s, hrun⟩ := archInitPaging_isSome (h := reservedKilobyte)
    (supplies_bootVm (n := 20000) (by decide)
      (by simp [initCalls, directCalls, reservedKilobyte, usualKernel, pageSize]))
  refine ⟨pml4, s, hrun, fun hmapped => ?_⟩
  have hfits := hmapped.fits (freshBlocks_bootVm (by decide)) (by decide) hrun
  rcases hfits.covered 0x9fc00#64 ⟨_, List.mem_singleton_self _, by rw [MemmapEntry.Has]; decide⟩
    with ⟨e, he, j, hj, -⟩ | ⟨i, hi, hkey⟩
  · obtain rfl := List.mem_singleton.mp he
    simp [pageSize] at hj
  · exact pageKey_kernelCall_ne rfl hi (by decide) hkey

end MoonOS

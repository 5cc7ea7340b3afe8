import MoonOS.Base.Mem
import MoonOS.Mm.Paging

/-!
# Mm/Virt — the page-table code of `kernel/arch/x86/mm/virt.c`

Functions are the source's, on an explicit state: the kernel's view of memory, the answers
`arch_alloc_page` is going to give, and `pmm_lock`.  A null answer is the page allocator's refusal.
It leaves by the early return of `arch_alloc_page_sz`, in front of the `release_lock`, so whoever
asks for a page after it waits for the lock for ever.  A panic, a failed assertion and that wait are
`none`.

Which blocks the page allocator hands out is not this file's business, so `frames` is an arbitrary
list: a property proved for every such list holds for every allocator.
-/

namespace MoonOS

open ByteMemory

/-- The memory the page-table code works on, the blocks `arch_alloc_page` will answer with (null
behind the last one), and whether `pmm_lock` is held. -/
structure Vm where
  mem : Mem
  frames : List (BitVec 64)
  pmmLock : Bool

/-- `arch_alloc_page()`: the next answer, its page cleared unless it is null.  A null answer leaves
`pmm_lock` held, and with the lock held `acquire_lock` spins. -/
def archAllocPage (s : Vm) : Option (BitVec 64 × Vm) :=
  if s.pmmLock then none
  else match s.frames with
    | [] => some (0#64, { s with pmmLock := true })
    | block :: frames =>
      if block = 0#64 then some (0#64, { s with frames, pmmLock := true })
      else some (block, { s with mem := memset s.mem block 0#8 pageSize, frames })

/-- The next answer of the page allocator. -/
abbrev Vm.nextPage (s : Vm) : BitVec 64 := s.frames.headD 0#64

/-- The state behind an answer that is a block. -/
def Vm.served (s : Vm) : Vm :=
  { s with mem := memset s.mem (s.frames.headD 0#64) 0#8 pageSize, frames := s.frames.tail }

/-- The state behind a null answer. -/
def Vm.refused (s : Vm) : Vm := { s with frames := s.frames.tail, pmmLock := true }

/-- **What `arch_alloc_page` does**: it spins, hands out a block, or refuses and keeps the lock. -/
theorem archAllocPage_eq (s : Vm) :
    archAllocPage s
      = if s.pmmLock then none
        else if s.frames.headD 0#64 = 0#64 then some (0#64, s.refused)
        else some (s.frames.headD 0#64, s.served) := by
  obtain ⟨m, _ | ⟨f, fs⟩, lock⟩ := s <;> rfl

/-- A page of `arch_alloc_page`, read backwards. -/
theorem archAllocPage_cases {s s' : Vm} {block : BitVec 64}
    (h : archAllocPage s = some (block, s')) :
    s.pmmLock = false ∧ block = s.frames.headD 0#64
      ∧ (block = 0#64 ∧ s' = s.refused ∨ block ≠ 0#64 ∧ s' = s.served) := by
  rw [archAllocPage_eq] at h
  split_ifs at h with hlock hnull
  all_goals obtain ⟨rfl, rfl⟩ := Prod.mk.inj (Option.some.inj h)
  · exact ⟨by simpa using hlock, hnull.symm, .inl ⟨rfl, rfl⟩⟩
  · exact ⟨by simpa using hlock, rfl, .inr ⟨hnull, rfl⟩⟩

theorem nextPage_eq_of_archAllocPage {s s' : Vm} {block : BitVec 64}
    (h : archAllocPage s = some (block, s')) : s.nextPage = block :=
  (archAllocPage_cases h).2.1.symm

theorem archAllocPage_served {s : Vm} (hlock : s.pmmLock = false) (h : s.nextPage ≠ 0#64) :
    archAllocPage s = some (s.nextPage, s.served) := by
  rw [archAllocPage_eq, if_neg (by simp [hlock]), if_neg h]

theorem archAllocPage_refused {s : Vm} (hlock : s.pmmLock = false)
    (h : s.frames.headD 0#64 = 0#64) : archAllocPage s = some (0#64, s.refused) := by
  rw [archAllocPage_eq, if_neg (by simp [hlock]), if_pos h]

/-- The page allocator is able to give `n` pages, each at a physical address that is not zero. -/
structure Supplies (hhdm : BitVec 64) (s : Vm) (n : ℕ) : Prop where
  unlocked : s.pmmLock = false
  good : ∀ f ∈ s.frames, f ≠ 0#64 ∧ f ≠ hhdm
  enough : n ≤ s.frames.length

theorem Supplies.mono {hhdm : BitVec 64} {s : Vm} {n k : ℕ} (h : Supplies hhdm s n) (hk : k ≤ n) :
    Supplies hhdm s k :=
  ⟨h.unlocked, h.good, hk.trans h.enough⟩

theorem Supplies.withMem {hhdm : BitVec 64} {s : Vm} {n : ℕ} (h : Supplies hhdm s n) (m : Mem) :
    Supplies hhdm { s with mem := m } n :=
  ⟨h.unlocked, h.good, h.enough⟩

/-- One page of the supply. -/
theorem Supplies.page {hhdm : BitVec 64} {s : Vm} {n : ℕ} (h : Supplies hhdm s (n + 1)) :
    ∃ f s', archAllocPage s = some (f, s') ∧ f ≠ 0#64 ∧ f ≠ hhdm ∧ Supplies hhdm s' n := by
  obtain ⟨m, frames, lock⟩ := s
  obtain ⟨rfl : lock = false, hgood, hlen⟩ := h
  cases frames with
  | nil => simp at hlen
  | cons f fs =>
    obtain ⟨hf, hhdm⟩ := hgood f (by simp)
    refine ⟨f, ⟨memset m f 0#8 pageSize, fs, false⟩, by simp [archAllocPage, hf], hf, hhdm, rfl, ?_,
      by simpa using hlen⟩
    exact fun g hg => hgood g (List.mem_cons_of_mem f hg)

/-- `index_of`. -/
def indexOf (vaddr : BitVec 64) (offset : ℕ) : BitVec 9 :=
  (vaddr >>> (12 + 9 * (offset - 1)) &&& 0x1ff#64).setWidth 9

/-- `vmm_pml_advance`: the next table down, with the entry upgraded or a table allocated. -/
def vmmPmlAdvance (hhdm entry : BitVec 64) (level : BitVec 9) (flags : BitVec 32) (s : Vm) :
    Option (BitVec 64 × Vm) :=
  let pte := readPte s.mem entry level
  if pte.present then
    let (pte, s) :=
      if checkFlag flags 1 && !pte.readwrite then
        let pte := { pte with readwrite := true }
        (pte, { s with mem := writePte s.mem entry level pte })
      else (pte, s)
    let (pte, s) :=
      if checkFlag flags 2 && !pte.supervisor then
        let pte := { pte with supervisor := true }
        (pte, { s with mem := writePte s.mem entry level pte })
      else (pte, s)
    some (va hhdm (pte.address.setWidth 64 <<< 12), s)
  else do
    let (block, s) ← archAllocPage s
    let addr := pa hhdm block
    if addr = 0#64 then none -- "Failed to allocate memory for a pagetable!"
    else
      some (va hhdm addr,
        { s with mem := writePte s.mem entry level (pagingCreateEntry addr flags) })

/-- `arch_map_page`. -/
def archMapPage (hhdm pml4 vaddr paddr : BitVec 64) (flags : BitVec 32) (s : Vm) : Option Vm :=
  if pml4 = 0#64 ∨ flags = 0#32 then some s
  else do
    let (pml3, s) ← vmmPmlAdvance hhdm pml4 (indexOf vaddr 4) flags s
    let (pml2, s) ← vmmPmlAdvance hhdm pml3 (indexOf vaddr 3) flags s
    let (pml1, s) ← vmmPmlAdvance hhdm pml2 (indexOf vaddr 2) flags s
    some { s with mem := writePte s.mem pml1 (indexOf vaddr 1) (pagingCreateEntry paddr flags) }

/-- Without flags nothing is mapped. -/
theorem eq_of_archMapPage {hhdm pml4 vaddr paddr : BitVec 64} {flags : BitVec 32} {s s' : Vm}
    (hflags : flags = 0#32) (h : archMapPage hhdm pml4 vaddr paddr flags s = some s') : s' = s := by
  rw [archMapPage, if_pos (.inr hflags)] at h
  exact (Option.some.inj h).symm

/-- **What `arch_map_page` does**: nothing without a pagemap or flags; else three steps down, and an
entry in the last table. -/
theorem archMapPage_cases {hhdm pml4 vaddr paddr : BitVec 64} {flags : BitVec 32} {s s' : Vm}
    (h : archMapPage hhdm pml4 vaddr paddr flags s = some s') :
    ((pml4 = 0#64 ∨ flags = 0#32) ∧ s' = s)
      ∨ ∃ pml3 s₃ pml2 s₂ pml1 s₁,
        vmmPmlAdvance hhdm pml4 (indexOf vaddr 4) flags s = some (pml3, s₃)
        ∧ vmmPmlAdvance hhdm pml3 (indexOf vaddr 3) flags s₃ = some (pml2, s₂)
        ∧ vmmPmlAdvance hhdm pml2 (indexOf vaddr 2) flags s₂ = some (pml1, s₁)
        ∧ s' = { s₁ with
            mem := writePte s₁.mem pml1 (indexOf vaddr 1) (pagingCreateEntry paddr flags) } := by
  by_cases hguard : pml4 = 0#64 ∨ flags = 0#32
  · rw [archMapPage, if_pos hguard] at h
    exact .inl ⟨hguard, (Option.some.inj h).symm⟩
  · simp only [archMapPage, if_neg hguard, bind, Option.bind_eq_some_iff, Prod.exists,
      Option.some.injEq] at h
    obtain ⟨pml3, s₃, h₃, pml2, s₂, h₂, pml1, s₁, h₁, rfl⟩ := h
    exact .inr ⟨pml3, s₃, pml2, s₂, pml1, s₁, h₃, h₂, h₁, rfl⟩

/-- `arch_map_range`.  Both ends are multiples of the page size, so `base != limit` ends the loop
after as many pages as lie between them, cyclically. -/
def archMapRange (hhdm pml4 base limit : BitVec 64) (flags : BitVec 32) (offset : BitVec 64)
    (s : Vm) : Option Vm :=
  if base.toNat % pageSize = 0 ∧ limit.toNat % pageSize = 0 then
    (List.range ((limit - base).toNat / pageSize)).foldlM (fun s i =>
      let base := base + BitVec.ofNat 64 (pageSize * i)
      archMapPage hhdm pml4 (base + offset) base flags s) s
  else none

/-- `arch_create_new_pagemap`. -/
def archCreateNewPagemap (s : Vm) : Option (BitVec 64 × Vm) := archAllocPage s

/-- `arch_copy_kernel_mappings`: the upper 256 top-level entries, by value. -/
def archCopyKernelMappings (kernelPagemap pagemap : BitVec 64) (s : Vm) : Vm :=
  { s with mem := (List.range' 256 256).foldl (fun m i =>
      writePte m pagemap (BitVec.ofNat 9 i) (readPte m kernelPagemap (BitVec.ofNat 9 i))) s.mem }

/-- `arch_translate`; a null table is a panic.  The shift of the 52-bit field `pte.address` is made
at its own width. -/
def archTranslate (hhdm pml4 vaddr : BitVec 64) (m : Mem) : Option (BitVec 64) :=
  if pml4 = 0#64 then none
  else
    let pml3Entry := readPte m pml4 (indexOf vaddr 4)
    if !pml3Entry.present then some 0#64
    else
      let pml3 := va hhdm (pml3Entry.address.setWidth 64 <<< 12)
      let pml2Entry := readPte m pml3 (indexOf vaddr 3)
      if !pml2Entry.present then some 0#64
      else
        let pml2 := va hhdm (pml2Entry.address.setWidth 64 <<< 12)
        let pml1Entry := readPte m pml2 (indexOf vaddr 2)
        if !pml1Entry.present then some 0#64
        else
          let pml1 := va hhdm (pml1Entry.address.setWidth 64 <<< 12)
          let pte := readPte m pml1 (indexOf vaddr 1)
          if !pte.present then some 0#64
          else some (va hhdm ((pte.address <<< 12).setWidth 64 ||| vaddr &&& 0xfff#64))

end MoonOS

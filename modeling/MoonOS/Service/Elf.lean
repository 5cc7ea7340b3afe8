import MoonOS.Mm.Spaces

/-!
# Service/Elf — `kernel/service/execution-space/loader/elf.c`, and the addresses an image may name

An image is its bytes, by their offset from `elf_pointer`; it lies apart from everything the loader
writes.  The loader maps the pages the image asks for, wherever they are.  With the addresses it
maps on record (`Loading.mapped`),

* `kernelHalfKept_iff` — loading leaves every address outside the user region alone exactly when the
  image asks for none of them.
-/

namespace MoonOS

open ByteMemory TableForest

/-! ## Headers -/

/-- The fields of `Elf64_Ehdr` the loader reads; `magic` is the first four bytes of `e_ident`. -/
structure Elf64Ehdr where
  magic : BitVec 32
  elfClass : BitVec 8
  osabi : BitVec 8
  eType : BitVec 16
  eEntry : BitVec 64
  ePhoff : BitVec 64
  ePhentsize : BitVec 16
  ePhnum : BitVec 16
deriving DecidableEq, Repr

/-- The fields of `Elf64_Phdr` the loader reads. -/
structure Elf64Phdr where
  pType : BitVec 32
  pOffset : BitVec 64
  pVaddr : BitVec 64
  pFilesz : BitVec 64
  pMemsz : BitVec 64
deriving DecidableEq, Repr

/-- `*(Elf64_Ehdr *)elf`. -/
def readEhdr (image : Mem) : Elf64Ehdr where
  magic := load image 0#64 4
  elfClass := load image 4#64 1
  osabi := load image 7#64 1
  eType := load image 16#64 2
  eEntry := load image 24#64 8
  ePhoff := load image 32#64 8
  ePhentsize := load image 54#64 2
  ePhnum := load image 56#64 2

/-- `*phdr`. -/
def readPhdr (image : Mem) (phdr : BitVec 64) : Elf64Phdr where
  pType := load image (at' phdr 0) 4
  pOffset := load image (at' phdr 8) 8
  pVaddr := load image (at' phdr 16) 8
  pFilesz := load image (at' phdr 32) 8
  pMemsz := load image (at' phdr 40) 8

/-- `IS_ELF`: `"\177ELF"`, read as a little-endian word. -/
def isElf (ehdr : Elf64Ehdr) : Bool := ehdr.magic == 0x464c457f#32

/-- `has_valid_attributes`: `ELFCLASS64`, `ELFOSABI_SYSV` and `ET_EXEC`. -/
def hasValidAttributes (ehdr : Elf64Ehdr) : Bool :=
  ehdr.elfClass == 2#8 && ehdr.osabi == 0#8 && ehdr.eType == 2#16

/-- `PT_LOAD`. -/
def ptLoad : BitVec 32 := 1#32

/-- `num_pages` of a segment. -/
def Elf64Phdr.numPages (phdr : Elf64Phdr) : ℕ := (alignUp phdr.pMemsz).toNat / pageSize

/-- Where page `pageNumber` of a segment goes. -/
def Elf64Phdr.vaddr (phdr : Elf64Phdr) (pageNumber : ℕ) : BitVec 64 :=
  phdr.pVaddr + BitVec.ofNat 64 pageNumber * 4096#64

/-! ## The loader -/

/-- The state of the loader, with the addresses it has mapped. -/
structure Loading where
  vm : Vm
  mapped : List (BitVec 64)

/-- What `load_segment` puts into the page at `phys`. -/
def fillSegmentPage (image : Mem) (phdr : Elf64Phdr) (pageNumber : ℕ) (phys : BitVec 64) (m : Mem) :
    Mem :=
  let pageOffset := BitVec.ofNat 64 pageNumber * 4096#64
  if phdr.pFilesz ≤ pageOffset then memset m phys 0#8 pageSize
  else
    let copySize :=
      if phdr.pFilesz < pageOffset + 4096#64 then phdr.pFilesz - pageOffset else 4096#64
    let m := memcpyFrom image m phys (phdr.pOffset + pageOffset) copySize.toNat
    if copySize < 4096#64 then memset m (phys + copySize) 0#8 (4096#64 - copySize).toNat else m

/-- `load_segment`.  It returns nothing, so the error it makes of a null page is lost — and the page
after that is waited for in vain, since `pmm_lock` is still held. -/
def loadSegment (hhdm : BitVec 64) (image : Mem) (space : BitVec 64) (phdr : Elf64Phdr)
    (pageNumber : ℕ) (s : Loading) : Option Loading :=
  (archAllocPage s.vm).bind fun (phys, vm) =>
  if phys = 0#64 then some { s with vm }
  else
    let vaddr := phdr.vaddr pageNumber
    (archMapPage hhdm space vaddr (pa hhdm phys) mapUserRw vm).map fun vm =>
      { vm := { vm with mem := fillSegmentPage image phdr pageNumber phys vm.mem }
        mapped := s.mapped ++ [vaddr] }

/-- The loop of `load_elf`, with `n` rounds left.  Its `continue` skips the step to the next header,
so a header that is not `PT_LOAD` is looked at until the rounds run out. -/
def loadPhdrs (hhdm : BitVec 64) (image : Mem) (space : BitVec 64) :
    ℕ → BitVec 64 → Loading → Option Loading
  | 0, _, s => some s
  | n + 1, phdr, s =>
    if (readPhdr image phdr).pType ≠ ptLoad then loadPhdrs hhdm image space n phdr s
    else
      ((List.range (readPhdr image phdr).numPages).foldlM
          (fun s j => loadSegment hhdm image space (readPhdr image phdr) j s) s).bind
        (loadPhdrs hhdm image space n (phdr + (readEhdr image).ePhentsize.setWidth 64))

/-- `load_elf`: the entry point, or `Error`. -/
def loadElf (hhdm : BitVec 64) (image : Mem) (space : BitVec 64) (vm : Vm) :
    Option (Except String (BitVec 64) × Loading) :=
  let ehdr := readEhdr image
  if !isElf ehdr || !hasValidAttributes ehdr then
    some (.error "ELF file is not valid or is configured incorrectly", ⟨vm, []⟩)
  else
    (loadPhdrs hhdm image space ehdr.ePhnum.toNat ehdr.ePhoff ⟨vm, []⟩).map fun s =>
      (.ok ehdr.eEntry, s)

/-! ## The pages an image asks for -/

/-- The segment pages the loop gets to, in order. -/
def segmentLoads (image : Mem) : ℕ → BitVec 64 → List (Elf64Phdr × ℕ)
  | 0, _ => []
  | n + 1, phdr =>
    if (readPhdr image phdr).pType ≠ ptLoad then segmentLoads image n phdr
    else (List.range (readPhdr image phdr).numPages).map (fun j => (readPhdr image phdr, j))
      ++ segmentLoads image n (phdr + (readEhdr image).ePhentsize.setWidth 64)

/-- The addresses an image asks for. -/
def segmentPages (image : Mem) : List (BitVec 64) :=
  (segmentLoads image (readEhdr image).ePhnum.toNat (readEhdr image).ePhoff).map fun l =>
    l.1.vaddr l.2

/-- An image `load_elf` takes. -/
def Accepted (image : Mem) : Prop :=
  isElf (readEhdr image) = true ∧ hasValidAttributes (readEhdr image) = true

/-- **The kernel half is protected from an image**: loading it returns, every address outside the
user region is translated and protected as before, in the pagemap and in the kernel's, and every
page mapped is in the region. -/
def KernelHalfKept (hhdm kernelPagemap space : BitVec 64) (image : Mem) (vm : Vm) : Prop :=
  ∃ result out, loadElf hhdm image space vm = some (result, out)
    ∧ KeepsOutside hhdm kernelPagemap vm.mem out.vm.mem
    ∧ KeepsOutside hhdm space vm.mem out.vm.mem
    ∧ ∀ vaddr ∈ out.mapped, isUserAddress vaddr = true

section Load

variable {hhdm kernelPagemap space : BitVec 64} {image : Mem} {lab : Labels}
  {spaces : Set (BitVec 64)} {phdr : Elf64Phdr} {j : ℕ} {s out : Loading}
  {loads : List (Elf64Phdr × ℕ)}

/-- The two loops of `load_elf` are one pass over the pages of the image. -/
theorem loadPhdrs_eq (n : ℕ) (phdr : BitVec 64) (s : Loading) :
    loadPhdrs hhdm image space n phdr s
      = (segmentLoads image n phdr).foldlM
        (fun s l => loadSegment hhdm image space l.1 l.2 s) s := by
  induction n generalizing phdr s with
  | zero => rfl
  | succ n ih =>
    rw [loadPhdrs, segmentLoads]
    by_cases hload : (readPhdr image phdr).pType ≠ ptLoad
    · rw [if_pos hload, if_pos hload, ih]
    · rw [if_neg hload, if_neg hload, List.foldlM_append, List.foldlM_map]
      exact congrArg _ (funext fun s => ih _ s)

theorem loadElf_of_accepted (h : Accepted image) (vm : Vm) :
    loadElf hhdm image space vm
      = ((segmentLoads image (readEhdr image).ePhnum.toNat (readEhdr image).ePhoff).foldlM
          (fun s l => loadSegment hhdm image space l.1 l.2 s) ⟨vm, []⟩).map
        fun s => (.ok (readEhdr image).eEntry, s) := by
  rw [loadElf, h.1, h.2, loadPhdrs_eq]
  rfl

/-- **What `load_elf` does**: an image that is none is refused, and any other is passed over. -/
theorem loadElf_cases {vm : Vm} {result : Except String (BitVec 64)}
    (hrun : loadElf hhdm image space vm = some (result, out)) :
    (result = .error "ELF file is not valid or is configured incorrectly" ∧ out = ⟨vm, []⟩)
      ∨ Accepted image ∧ result = .ok (readEhdr image).eEntry
        ∧ (segmentLoads image (readEhdr image).ePhnum.toNat (readEhdr image).ePhoff).foldlM
            (fun s l => loadSegment hhdm image space l.1 l.2 s) ⟨vm, []⟩ = some out := by
  by_cases haccept : Accepted image
  · rw [loadElf_of_accepted haccept] at hrun
    obtain ⟨out', hload, heq⟩ := Option.map_eq_some_iff.mp hrun
    obtain ⟨rfl, rfl⟩ := Prod.mk.inj heq
    exact .inr ⟨haccept, rfl, hload⟩
  · have hbad : (!isElf (readEhdr image) || !hasValidAttributes (readEhdr image)) = true := by
      simpa [Accepted, imp_iff_not_or] using haccept
    rw [loadElf, if_pos hbad] at hrun
    obtain ⟨rfl, rfl⟩ := Prod.mk.inj (Option.some.inj hrun)
    exact .inl ⟨rfl, rfl⟩

/-- Filling a page writes nothing beyond it. -/
theorem fillSegmentPage_of_outside {phys b : BitVec 64} {m : Mem} (h : 4096 ≤ (b - phys).toNat) :
    fillSegmentPage image phdr j phys m b = m b := by
  have hset : ∀ {m : Mem} {a : BitVec 64} {n : ℕ}, n ≤ (b - a).toNat → memset m a 0#8 n b = m b :=
    fun hn => by rw [memset_eq_fill, fill, if_neg (by omega)]
  unfold fillSegmentPage
  dsimp only
  generalize BitVec.ofNat 64 j * 4096#64 = pageOffset
  by_cases hzero : phdr.pFilesz ≤ pageOffset
  · rw [if_pos hzero, hset (show pageSize ≤ _ from h)]
  rw [if_neg hzero]
  have hsize : (if phdr.pFilesz < pageOffset + 4096#64 then phdr.pFilesz - pageOffset
      else 4096#64).toNat ≤ 4096 := by
    split
    · bv_omega
    · decide
  generalize (if phdr.pFilesz < pageOffset + 4096#64 then phdr.pFilesz - pageOffset
    else 4096#64) = copySize at hsize ⊢
  split
  · rw [hset (by bv_omega), memcpyFrom_of_outside (by omega)]
  · rw [memcpyFrom_of_outside (by omega)]

/-- **What `load_segment` does**: nothing without a page; with one it maps the page and fills it. -/
theorem loadSegment_cases (hrun : loadSegment hhdm image space phdr j s = some out) :
    ∃ phys vm, archAllocPage s.vm = some (phys, vm)
      ∧ ((phys = 0#64 ∧ out = { s with vm })
        ∨ phys ≠ 0#64 ∧ ∃ vm',
          archMapPage hhdm space (phdr.vaddr j) (pa hhdm phys) mapUserRw vm = some vm'
          ∧ out =
            { vm := { vm' with mem := fillSegmentPage image phdr j phys vm'.mem }
              mapped := s.mapped ++ [phdr.vaddr j] }) := by
  obtain ⟨⟨phys, vm⟩, hnew, hrun⟩ := Option.bind_eq_some_iff.mp hrun
  refine ⟨phys, vm, hnew, ?_⟩
  dsimp only at hrun
  split at hrun
  case isTrue hnull => exact .inl ⟨hnull, (Option.some.inj hrun).symm⟩
  case isFalse hphys =>
    obtain ⟨vm', hmap, rfl⟩ := Option.map_eq_some_iff.mp hrun
    exact .inr ⟨hphys, vm', hmap, rfl⟩

theorem loadSegment_refused (image : Mem) (space : BitVec 64) (phdr : Elf64Phdr) (j : ℕ)
    (hlock : s.vm.pmmLock = false) (h : s.vm.frames.headD 0#64 = 0#64) :
    loadSegment hhdm image space phdr j s = some { s with vm := s.vm.refused } := by
  rw [loadSegment, archAllocPage_refused hlock h]
  rfl

/-- **One page of a segment keeps the spaces**, and if it goes into the user region nothing outside
is changed. -/
theorem Spaces.loadSegment (h : Spaces hhdm kernelPagemap s.vm lab spaces) (hp : space ∈ spaces)
    (hp0 : space ≠ 0#64) (hrun : loadSegment hhdm image space phdr j s = some out) :
    (∃ lab', Spaces hhdm kernelPagemap out.vm lab' spaces
        ∧ KeepsOthers hhdm space spaces lab lab' s.vm.mem out.vm.mem)
      ∧ (isUserAddress (phdr.vaddr j) = true →
          KeepsOutside hhdm kernelPagemap s.vm.mem out.vm.mem
          ∧ KeepsOutside hhdm space s.vm.mem out.vm.mem) := by
  obtain ⟨phys, vm, hnew, ⟨rfl, rfl⟩ | ⟨hphys, vm', hmap, rfl⟩⟩ := loadSegment_cases hrun
  · obtain ⟨hT, hmem⟩ := h.tables.archAllocPage_null hnew
    refine ⟨⟨lab, ⟨hT, h.kernel, h.root, h.ne_kernel, ?_⟩, id, fun _ _ _ _ _ => ?_⟩, fun _ => ?_⟩
    · simpa only [hmem] using h.lower
    · simp only [hmem]
    · simp only [hmem]
      exact ⟨.refl _ _ _, .refl _ _ _⟩
  · obtain ⟨-, h₁, hmono₁, -, hwalk₁⟩ := h.alloc hnew hphys (phys, [0#9, 0#9, 0#9, 0#9])
    obtain ⟨lab₂, h₂, hkeep₂, -⟩ := h₁.map hp hp0 (by decide) hmap
    have hpage : IsPage lab₂ phys := ⟨_, _, hkeep₂.mono (Function.update_self ..), rfl⟩
    obtain ⟨h₃, hwalk₃⟩ := h₂.rows (h₂.write (m := fillSegmentPage image phdr j phys vm'.mem)
      fun b hb => fillSegmentPage_of_outside (hb phys hpage))
    refine ⟨⟨lab₂, h₃, fun hc => hkeep₂.mono (hmono₁ hc), fun q hq hqp v hv => ?_⟩,
      fun huser => ?_⟩
    · exact ((hwalk₃ (h₂.root q hq) v).trans (hkeep₂.others q hq hqp v hv)).trans
        (hwalk₁ (h.root q hq) v)
    obtain ⟨hkernel, hspace⟩ := h₁.keepsOutside hp hp0 (by decide) huser hmap
    have hkeep : ∀ {root}, lab root = some (root, []) → lab₂ root = some (root, []) →
        KeepsOutside hhdm root vm.mem vm'.mem →
        KeepsOutside hhdm root s.vm.mem (fillSegmentPage image phdr j phys vm'.mem) :=
      fun hroot hroot₂ hk => ((keepsOutside_of_pathEntries (hwalk₁ hroot)).trans hk).trans
        (keepsOutside_of_pathEntries (hwalk₃ hroot₂))
    exact ⟨hkeep h.kernel h₂.kernel hkernel, hkeep (h.root _ hp) (h₂.root _ hp) hspace⟩

/-- …and so does a pass over any pages. -/
theorem Spaces.loadSegments (h : Spaces hhdm kernelPagemap s.vm lab spaces) (hp : space ∈ spaces)
    (hp0 : space ≠ 0#64)
    (hrun : loads.foldlM (fun s l => MoonOS.loadSegment hhdm image space l.1 l.2 s) s = some out) :
    (∃ lab', Spaces hhdm kernelPagemap out.vm lab' spaces
        ∧ KeepsOthers hhdm space spaces lab lab' s.vm.mem out.vm.mem)
      ∧ ((∀ l ∈ loads, isUserAddress (l.1.vaddr l.2) = true) →
          KeepsOutside hhdm kernelPagemap s.vm.mem out.vm.mem
          ∧ KeepsOutside hhdm space s.vm.mem out.vm.mem) := by
  induction loads generalizing s lab with
  | nil =>
    obtain rfl := Option.some.inj hrun
    exact ⟨⟨lab, h, id, fun _ _ _ _ _ => rfl⟩, fun _ => ⟨.refl _ _ _, .refl _ _ _⟩⟩
  | cons l loads ih =>
    obtain ⟨s₁, hstep, hrest⟩ := Option.bind_eq_some_iff.mp hrun
    obtain ⟨⟨lab₁, h₁, hothers₁⟩, hkeep₁⟩ := h.loadSegment hp hp0 hstep
    obtain ⟨⟨lab', h', hothers⟩, hkeep⟩ := ih h₁ hrest
    refine ⟨⟨lab', h', hothers₁.trans hothers⟩, fun huser => ?_⟩
    obtain ⟨hk₁, hs₁⟩ := hkeep₁ (huser l (by simp))
    obtain ⟨hk, hs⟩ := hkeep fun l hl => huser l (by simp [hl])
    exact ⟨hk₁.trans hk, hs₁.trans hs⟩

/-- Four blocks are enough for one page, which is then mapped. -/
theorem loadSegment_isSome (image : Mem) (space : BitVec 64) (phdr : Elf64Phdr) (j : ℕ) {n : ℕ}
    (hs : Supplies hhdm s.vm (n + 4)) :
    ∃ out, loadSegment hhdm image space phdr j s = some out ∧ Supplies hhdm out.vm n
      ∧ out.mapped = s.mapped ++ [phdr.vaddr j] := by
  obtain ⟨phys, vm, hnew, hphys, -, hs₁⟩ := hs.page
  obtain ⟨vm', hmap, hs₂⟩ := archMapPage_isSome space (phdr.vaddr j) (pa hhdm phys) mapUserRw hs₁
  have hload : loadSegment hhdm image space phdr j s
      = some ⟨{ vm' with mem := fillSegmentPage image phdr j phys vm'.mem },
          s.mapped ++ [phdr.vaddr j]⟩ := by
    rw [loadSegment, hnew, Option.bind_some]
    dsimp only
    rw [if_neg hphys, hmap, Option.map_some]
  exact ⟨_, hload, hs₂.withMem _, rfl⟩

theorem loadSegments_isSome (image : Mem) (space : BitVec 64) (loads : List (Elf64Phdr × ℕ)) {n : ℕ}
    (hs : Supplies hhdm s.vm (n + 4 * loads.length)) :
    ∃ out, loads.foldlM (fun s l => loadSegment hhdm image space l.1 l.2 s) s = some out
      ∧ Supplies hhdm out.vm n ∧ out.mapped = s.mapped ++ loads.map fun l => l.1.vaddr l.2 := by
  induction loads generalizing s with
  | nil => exact ⟨s, rfl, hs, by simp⟩
  | cons l loads ih =>
    obtain ⟨s₁, hstep, hs₁, hmapped₁⟩ := loadSegment_isSome image space l.1 l.2
      (n := n + 4 * loads.length) (hs.mono (by rw [List.length_cons]; omega))
    obtain ⟨out, hrest, hs', hmapped⟩ := ih hs₁
    exact ⟨out, Option.bind_eq_some_iff.mpr ⟨s₁, hstep, hrest⟩, hs', by simp [hmapped, hmapped₁]⟩

/-- With four blocks a page, an image that is accepted is loaded, and all its pages are mapped. -/
theorem loadElf_isSome {vm : Vm} {n : ℕ} (haccept : Accepted image)
    (hs : Supplies hhdm vm (n + 4 * (segmentPages image).length)) (space : BitVec 64) :
    ∃ out, loadElf hhdm image space vm = some (.ok (readEhdr image).eEntry, out)
      ∧ Supplies hhdm out.vm n ∧ out.mapped = segmentPages image := by
  obtain ⟨out, hrun, hs', hmapped⟩ := loadSegments_isSome (s := ⟨vm, []⟩) image space
    (segmentLoads image (readEhdr image).ePhnum.toNat (readEhdr image).ePhoff) (n := n)
    (by simpa [segmentPages] using hs)
  exact ⟨out, by rw [loadElf_of_accepted haccept, hrun, Option.map_some], hs', hmapped⟩

/-- **The kernel half is protected from an image exactly when the image asks for user addresses
only.** -/
theorem kernelHalfKept_iff {vm : Vm} (h : Spaces hhdm kernelPagemap vm lab spaces)
    (hp : space ∈ spaces) (hp0 : space ≠ 0#64) (haccept : Accepted image)
    (hs : Supplies hhdm vm (4 * (segmentPages image).length)) :
    KernelHalfKept hhdm kernelPagemap space image vm
      ↔ ∀ vaddr ∈ segmentPages image, isUserAddress vaddr = true := by
  obtain ⟨out, hload, -, hpages⟩ :=
    loadElf_isSome (n := 0) haccept (hs.mono (Nat.zero_add _).le) space
  constructor
  · rintro ⟨result, out', hload', -, -, huser⟩
    obtain ⟨-, rfl⟩ := Prod.mk.inj (Option.some.inj (hload.symm.trans hload'))
    rwa [hpages] at huser
  · intro huser
    have hrun := hload
    rw [loadElf_of_accepted haccept] at hrun
    obtain ⟨out', hfold, heq⟩ := Option.map_eq_some_iff.mp hrun
    obtain rfl : out' = out := (Prod.mk.inj heq).2
    obtain ⟨hkernel, hspace⟩ := (Spaces.loadSegments (s := ⟨vm, []⟩) h hp hp0 hfold).2
      fun l hl => huser _ (List.mem_map_of_mem hl)
    exact ⟨_, _, hload, hkernel, hspace, by rwa [hpages]⟩

end Load

/-- An image with one page at `vaddr`, all of it zero. -/
def onePageElf (vaddr : BitVec 64) : Mem :=
  let ehdr := store (store (store (store (store (store (fun _ => 0#8) 0#64 4 0x464c457f#32)
    4#64 1 2#8) 16#64 2 2#16) 32#64 8 64#64) 54#64 2 56#16) 56#64 2 1#16
  store (store (store ehdr 64#64 4 ptLoad) 80#64 8 vaddr) 104#64 8 4096#64

/-- Six pages of a machine just booted. -/
def sixPages : Vm where
  mem _ := 0xff#8
  frames := [0xffff800000001000#64, 0xffff800000002000#64, 0xffff800000003000#64,
    0xffff800000004000#64, 0xffff800000005000#64, 0xffff800000006000#64]
  pmmLock := false

/-- A kernel's pagemap and a process's beside it, both empty, with four pages left. -/
def kernelAndProcess : Vm :=
  archCopyKernelMappings 0xffff800000001000#64 0xffff800000002000#64
    sixPages.served.served

theorem supplies_kernelAndProcess : Supplies 0xffff800000000000#64 kernelAndProcess 4 where
  unlocked := rfl
  good := by
    have hframes : kernelAndProcess.frames = [0xffff800000003000#64, 0xffff800000004000#64,
      0xffff800000005000#64, 0xffff800000006000#64] := rfl
    simp [hframes]
  enough := le_refl 4

theorem spaces_kernelAndProcess : ∃ lab, Spaces 0xffff800000000000#64 0xffff800000001000#64
    kernelAndProcess lab {0xffff800000002000#64} := by
  have hfresh : FreshBlocks 0xffff800000000000#64 sixPages.frames :=
    ⟨by simp [sixPages, OnPage], by simp [sixPages]⟩
  have hkernel : archCreateNewPagemap sixPages
      = some (0xffff800000001000#64, sixPages.served) := rfl
  have hprocess : archCreateNewPagemap sixPages.served
      = some (0xffff800000002000#64, sixPages.served.served) := rfl
  have h := (hfresh.tables 0xffff800000001000#64).toSpaces hkernel (by decide)
  obtain ⟨hnone, h', -, hempty, -⟩ := h.alloc hprocess (by decide) (0xffff800000002000#64, [])
  have hcopy := (h'.copy (Function.update_self ..) (by decide) (by simp) hempty).1
  rw [insert_empty_eq] at hcopy
  exact ⟨_, hcopy⟩

/-- A page at `4 MiB` is the process's own business. -/
theorem kernelHalfKept_onePageElf : KernelHalfKept 0xffff800000000000#64 0xffff800000001000#64
    0xffff800000002000#64 (onePageElf 0x400000#64) kernelAndProcess := by
  obtain ⟨lab, h⟩ := spaces_kernelAndProcess
  have hpages : segmentPages (onePageElf 0x400000#64) = [0x400000#64] := by decide +kernel
  refine (kernelHalfKept_iff h rfl (by decide) ⟨by decide +kernel, by decide +kernel⟩
    (supplies_kernelAndProcess.mono (by rw [hpages]; decide))).mpr fun vaddr hvaddr => ?_
  rw [hpages, List.mem_singleton] at hvaddr
  exact hvaddr ▸ by decide

/-- A page at `-2 GiB` is mapped all the same. -/
theorem not_kernelHalfKept_onePageElf : ¬ KernelHalfKept 0xffff800000000000#64
    0xffff800000001000#64 0xffff800000002000#64 (onePageElf 0xffffffff80000000#64)
    kernelAndProcess := by
  have hpages : segmentPages (onePageElf 0xffffffff80000000#64) = [0xffffffff80000000#64] := by
    decide +kernel
  have haccept : Accepted (onePageElf 0xffffffff80000000#64) :=
    ⟨by decide +kernel, by decide +kernel⟩
  obtain ⟨out, hload, -, hmapped⟩ := loadElf_isSome (n := 0) haccept
    (supplies_kernelAndProcess.mono (by rw [hpages]; decide)) 0xffff800000002000#64
  rintro ⟨result, out', hload', -, -, huser⟩
  obtain ⟨-, rfl⟩ := Prod.mk.inj (Option.some.inj (hload.symm.trans hload'))
  rw [hmapped, hpages] at huser
  exact absurd (huser 0xffffffff80000000#64 (by simp)) (by decide)

end MoonOS

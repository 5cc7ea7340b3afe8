import MoonOS.Service.Acquisition
import MoonOS.Service.ElfContent

/-!
# Service/Layout — where the parts of an address space are mapped

The stack and the argument vector are mapped to themselves, at whatever physical address their pool
has next; the message region is at a fixed address, and the pages of the image are where the image
says.  No part knows of another, and `arch_map_page` replaces what was there.

The mappings of one process are one list of calls, of which the pagemap shows the last at each page
(`Creation.shows`, `Shows.loadPages`).  So

* `layoutKept_iff` — every part is mapped and stays as it was first mapped exactly when the pages
  that the pool, the image and the message region ask for are pairwise distinct, and the loader
  reaches every page of the image and is refused none.
-/

namespace MoonOS

open ByteMemory TableForest GuardedRun

/-! ## The mappings of one process -/

/-- The mapping of a page that a segment page was given. -/
def traceCall (hhdm : BitVec 64) (x : (Elf64Phdr × ℕ) × BitVec 64) : MapCall :=
  ⟨x.1.1.vaddr x.1.2, pa hhdm x.2, mapUserRw⟩

/-- The segment pages that `load_segment` is called for. -/
def calledLoads (image : Mem) : List (Elf64Phdr × ℕ) :=
  (loadSegmentCalls image).map fun c => (readPhdr image c.1, c.2)

/-- The mappings of the message region. -/
def regionCalls : List MapCall :=
  [⟨0x800000#64, 0x800000#64, mapUserRw⟩, ⟨0x801000#64, 0x801000#64, mapUserRw⟩]

section Trace

variable {hhdm kernelPagemap space o : BitVec 64} {image : Mem} {lab : Labels} {M : AddrSpace}
  {s s' out : Loading} {l : Elf64Phdr × ℕ} {loads before after : List (Elf64Phdr × ℕ)}

/-- **A pass maps the pages it is given**, one after the other. -/
theorem Shows.loadPages (h : Shows hhdm space s.vm.mem M)
    (hT : Tables hhdm kernelPagemap s.vm lab) (hroot : lab space = some (o, []))
    (hspace : space ≠ 0#64) (hrun : loads.foldlM (loadPage hhdm image space) s = some out) :
    ∃ lab', Tables hhdm kernelPagemap out.vm lab' ∧ lab' space = some (o, [])
      ∧ Shows hhdm space out.vm.mem
        (((loadTrace hhdm image space loads s).map (traceCall hhdm)).foldl AddrSpace.map M) := by
  induction loads generalizing s lab M with
  | nil =>
    obtain rfl := Option.some.inj hrun
    exact ⟨lab, hT, hroot, h⟩
  | cons l loads ih =>
    rw [List.foldlM_cons] at hrun
    obtain ⟨s₁, hstep, hrest⟩ := Option.bind_eq_some_iff.mp hrun
    rw [loadTrace_cons hstep]
    by_cases hpage : s.vm.nextPage = 0#64
    · obtain ⟨hT₁, hmem⟩ := kept_of_loadPage hT (not_not.mpr hpage) hstep
      rw [if_pos hpage]
      exact ih (by rwa [hmem]) hT₁ hroot hrest
    · obtain ⟨lab₁, hT₁, hmono, -, hself, hother, -⟩ :=
        placed_of_loadPage hT hroot hspace hpage hstep
      rw [if_neg hpage]
      exact ih (h.update (c := traceCall hhdm (l, _)) hself hother) hT₁ (hmono hroot) hrest

/-- A page given at any place of a pass is in its trace. -/
theorem mem_loadTrace (hbefore : before.foldlM (loadPage hhdm image space) s = some s')
    (hstep : loadPage hhdm image space s' l = some out) (hpage : PageAtHand s' l) :
    (l, s'.vm.nextPage) ∈ loadTrace hhdm image space (before ++ l :: after) s := by
  induction before generalizing s with
  | nil =>
    obtain rfl := Option.some.inj hbefore
    rw [List.nil_append, loadTrace_cons hstep, if_neg hpage]
    exact List.mem_cons_self
  | cons d before ih =>
    rw [List.foldlM_cons] at hbefore
    obtain ⟨s₁, hd, hrest⟩ := Option.bind_eq_some_iff.mp hbefore
    rw [List.cons_append, loadTrace_cons hd]
    exact List.mem_append_right _ (ih hrest)

/-- …and so is the page given to a call of `load_elf`. -/
theorem mem_loadTrace_of_calledIn {vm : Vm} {page : BitVec 64 × ℕ}
    (hload : (calledLoads image).foldlM (loadPage hhdm image space) ⟨vm, []⟩ = some out)
    (hcall : CalledIn hhdm image space vm page s) (hpage : s.vm.nextPage ≠ 0#64) :
    ((readPhdr image page.1, page.2), s.vm.nextPage)
      ∈ loadTrace hhdm image space (calledLoads image) ⟨vm, []⟩ := by
  obtain ⟨before, after, heq, hbefore⟩ := hcall
  have hcalled : calledLoads image = before.map (fun c => (readPhdr image c.1, c.2))
      ++ (readPhdr image page.1, page.2) :: after.map fun c => (readPhdr image c.1, c.2) := by
    rw [calledLoads, heq, List.map_append, List.map_cons]
  rw [hcalled] at hload ⊢
  obtain ⟨s₁, s₂, hbefore', hstep⟩ := goes_through hload
  obtain rfl : s = s₁ := by
    rw [List.foldlM_map] at hbefore'
    exact Option.some.inj (hbefore.symm.trans hbefore')
  exact mem_loadTrace hbefore' hstep hpage

/-- What is given is given in the order of the calls. -/
theorem loadTrace_sublist :
    ((loadTrace hhdm image space loads s).map Prod.fst).Sublist loads := by
  induction loads generalizing s with
  | nil => exact .slnil
  | cons l loads ih =>
    cases hstep : loadPage hhdm image space s l with
    | none =>
      rw [loadTrace, hstep]
      exact List.nil_sublist _
    | some s₁ =>
      rw [loadTrace_cons hstep]
      split
      · exact ih.cons l
      · exact ih.cons_cons l

/-- A successful `load_elf` is a pass over the pages it calls `load_segment` for. -/
theorem calledLoads_of_loadElf {vm : Vm} {entry : BitVec 64}
    (h : loadElf hhdm image space vm = some (.ok entry, out)) :
    Accepted image
      ∧ (calledLoads image).foldlM (loadPage hhdm image space) ⟨vm, []⟩ = some out := by
  obtain ⟨herror, -⟩ | ⟨haccept, -⟩ := loadElf_cases h
  · cases herror
  rw [loadElf_eq_loadSegmentCalls haccept] at h
  obtain ⟨out', hrun, heq⟩ := Option.map_eq_some_iff.mp h
  obtain ⟨-, rfl⟩ := Prod.mk.inj heq
  rw [calledLoads, List.foldlM_map]
  exact ⟨haccept, hrun⟩

end Trace

section Process

variable {hhdm kernelPagemap emptyQueue : BitVec 64} {image : Mem} {argv : List (List (BitVec 8))}
  {capabilities : List Capability} {w w₁ w₂ : Machine} {es es' : ExecutionSpace} {lab : Labels}
  {spaces : Set (BitVec 64)} {port : BitVec 32}

/-- **Before its image is loaded, a process shows its stack and its arguments.** -/
theorem Creation.shows (c : Creation hhdm kernelPagemap image argv capabilities w es w₁)
    (h : Ready hhdm kernelPagemap w lab spaces) :
    ∃ lab', Ready hhdm kernelPagemap c.wArgs lab' (insert es.vmSpace spaces)
      ∧ (∀ {a x}, lab a = some x → lab' a = some x)
      ∧ Shows hhdm es.vmSpace c.wArgs.kernel.mem (AddrSpace.ofCalls
          (stackCall (es.stackPointer - 0x1000#64) :: argvCalls argv es.argv)) := by
  obtain ⟨lab₁, h₁, hkeep₁, hshows₁⟩ := h.stackMapped c.new c.vmSpace_ne c.sched c.alloc c.map
  have hp : es.vmSpace ∈ insert es.vmSpace spaces := Set.mem_insert ..
  obtain ⟨lab₂, h₂, hkeep₂, hshows₂⟩ := h₁.passArguments hp c.args
  have hargv : es.argv = c.argvPtr := congrArg ExecutionSpace.argv c.space
  refine ⟨lab₂, h₂, fun hc => hkeep₂.mono (hkeep₁.mono hc), ?_⟩
  rw [c.stackPointer_eq, hargv]
  exact hshows₂ _ hshows₁ _ rfl

/-- The mappings of a process, in the order in which they are made. -/
def Creation.calls (c : Creation hhdm kernelPagemap image argv capabilities w es w₁) :
    List MapCall :=
  stackCall (es.stackPointer - 0x1000#64) :: argvCalls argv es.argv
    ++ (loadTrace hhdm image es.vmSpace (calledLoads image) ⟨c.wArgs.vm, []⟩).map (traceCall hhdm)
    ++ regionCalls

/-- **With its port, a process shows all its mappings**, the last at each page. -/
theorem Creation.shows_calls (c : Creation hhdm kernelPagemap image argv capabilities w es w₁)
    (h : Ready hhdm kernelPagemap w lab spaces)
    (hassign : ipcAssignPort hhdm emptyQueue es port w₁ = some (true, es', w₂)) :
    Shows hhdm es.vmSpace w₂.kernel.mem (AddrSpace.ofCalls c.calls) := by
  obtain ⟨lab₁, h₁, -, hshows₁⟩ := c.shows h
  have hroot := h₁.spaces.root _ (Set.mem_insert ..)
  obtain ⟨lab₂, hT₂, hroot₂, hshows₂⟩ := Shows.loadPages (s := ⟨c.wArgs.vm, []⟩) hshows₁
    h₁.spaces.tables hroot c.vmSpace_ne (calledLoads_of_loadElf c.load).2
  obtain ⟨vm₁, vm₂, hmap₁, hmap₂, rfl, -⟩ := mapped_of_ipcAssignPort hassign
  rw [c.machine, Machine.vm_withVm] at hmap₁
  have hflags : checkFlag mapUserRw 0 = true := by decide
  have hshows₃ := hshows₂.map (c := ⟨0x800000#64, 0x800000#64, mapUserRw⟩) hT₂ hroot₂ c.vmSpace_ne
    hflags hmap₁
  obtain ⟨lab₃, hT₃, hmono, -⟩ := mapped_of_archMapPage hT₂ hroot₂ c.vmSpace_ne hflags hmap₁
  have hshows₄ := hshows₃.map (c := ⟨0x801000#64, 0x801000#64, mapUserRw⟩) hT₃ (hmono hroot₂)
    c.vmSpace_ne hflags hmap₂
  rw [AddrSpace.ofCalls, Creation.calls, List.foldl_append, List.foldl_append]
  exact hshows₄

/-! ## When they stay -/

/-- The pages the parts of an address space are mapped at, of a stack page, an argument vector, an
image and the message region. -/
def layoutPages (stackPage argvPtr : BitVec 64) (argv : List (List (BitVec 8))) (image : Mem) :
    List (BitVec 36) :=
  (stackPage :: (argvCalls argv argvPtr).map MapCall.vaddr
    ++ (imageLoads image).map (fun l => l.1.vaddr l.2)
    ++ regionCalls.map MapCall.vaddr).map pageKey

/-- The block a process is given for its `i`-th request, by the pool of its first capability for
an allocatable region. -/
def givenBlock (w : Machine) (capabilities : List Capability) (i : ℕ) : BitVec 64 :=
  match memoryRegionCap capabilities with
  | none => 0#64
  | some cap => ((w.pools cap.pool)[i]?.map Block.ptr).getD 0#64

/-- **The layout is kept**: the parts are at pairwise distinct pages, and each is mapped to the
frame it was first mapped to, with the permission it was first given.  For a page of the image that
is the page its call of `load_segment` was given. -/
structure LayoutKept (c : Creation hhdm kernelPagemap image argv capabilities w es w₁) (m : Mem) :
    Prop where
  distinct : (layoutPages (es.stackPointer - 0x1000#64) es.argv argv image).Nodup
  stack : Serves (pathEntries hhdm es.vmSpace (es.stackPointer - 0x1000#64) m)
    (some (stackCall (es.stackPointer - 0x1000#64)))
  argv : ∀ call ∈ argvCalls argv es.argv,
    Serves (pathEntries hhdm es.vmSpace call.vaddr m) (some call)
  elf : ∀ page ∈ wantedPages image, ∃ s, CalledIn hhdm image es.vmSpace c.wArgs.vm page s
    ∧ s.vm.nextPage ≠ 0#64
    ∧ Serves (pathEntries hhdm es.vmSpace ((readPhdr image page.1).vaddr page.2) m)
        (some ⟨(readPhdr image page.1).vaddr page.2, pa hhdm s.vm.nextPage, mapUserRw⟩)
  region : ∀ call ∈ regionCalls, Serves (pathEntries hhdm es.vmSpace call.vaddr m) (some call)

/-- The stack is the first block of the pool. -/
theorem Creation.stack_eq (c : Creation hhdm kernelPagemap image argv capabilities w es w₁) :
    c.stack = givenBlock w capabilities 0
      ∧ ∃ block, w.pools c.cap.pool = block :: c.pools c.cap.pool := by
  obtain ⟨hnull, -⟩ | ⟨block, blocks, hpool, -, -, hptr, -, hpools⟩ :=
    capabilityAllocFrom_cases c.alloc
  · exact absurd hnull c.stack_ne
  · refine ⟨?_, block, ?_⟩
    · rw [givenBlock, c.region]
      simp [hpool, hptr]
    · rw [hpools, Function.update_self, hpool]

/-- …and the argument vector the second. -/
theorem Creation.argv_eq (c : Creation hhdm kernelPagemap image argv capabilities w es w₁)
    (hargc : 0 < (argcOf argv).toInt) : es.argv = pa hhdm (givenBlock w capabilities 1) := by
  have hes : es.argv = c.argvPtr := congrArg ExecutionSpace.argv c.space
  obtain ⟨-, argvBase, m, pools, vm, w₂, halloc, hne, -, -, hptr, -⟩ :=
    passed_of_passArguments hargc c.args
  obtain ⟨-, first, hfirst⟩ := c.stack_eq
  obtain ⟨hnull, -⟩ | ⟨block, blocks, hpool, -, -, rfl, -, -⟩ := capabilityAllocFrom_cases halloc
  · exact absurd hnull hne
  · have hpool' : c.pools c.cap.pool = block :: blocks := hpool
    rw [hes, hptr, givenBlock, c.region]
    simp [hfirst, hpool']

theorem Creation.stackPage_eq (c : Creation hhdm kernelPagemap image argv capabilities w es w₁) :
    es.stackPointer - 0x1000#64 = pa hhdm (givenBlock w capabilities 0) + 0x7000#64 := by
  rw [c.stackPointer_eq, c.stack_eq.1]
  bv_omega

/-- So the pages are those the pool, the image and the message region ask for. -/
theorem Creation.layoutPages_eq
    (c : Creation hhdm kernelPagemap image argv capabilities w es w₁) :
    layoutPages (es.stackPointer - 0x1000#64) es.argv argv image
      = layoutPages (pa hhdm (givenBlock w capabilities 0) + 0x7000#64)
          (pa hhdm (givenBlock w capabilities 1)) argv image := by
  rw [c.stackPage_eq]
  by_cases hargc : (argcOf argv).toInt ≤ 0
  · simp [layoutPages, argvCalls, hargc]
  · rw [c.argv_eq (by omega)]

/-- Where no page is called for twice, a call finds one state. -/
theorem CalledIn.unique {space : BitVec 64} {vm : Vm} {page : BitVec 64 × ℕ} {s s' : Loading}
    (hnodup : (loadSegmentCalls image).Nodup) (h : CalledIn hhdm image space vm page s)
    (h' : CalledIn hhdm image space vm page s') : s = s' := by
  obtain ⟨before, after, heq, hrun⟩ := h
  obtain ⟨before', after', heq', hrun'⟩ := h'
  rw [heq', List.nodup_append] at hnodup
  obtain ⟨-, htail, hapart⟩ := hnodup
  have hbefore : page ∉ before' := fun hmem => hapart _ hmem _ List.mem_cons_self rfl
  obtain ⟨rfl, -, -⟩ := (List.append_cons_inj_of_notMem hbefore (List.nodup_cons.mp htail).1).mp
    (heq'.symm.trans heq)
  exact Option.some.inj (hrun.symm.trans hrun')

/-- The mappings that are made are among the pages asked for. -/
theorem Creation.calls_sublist (c : Creation hhdm kernelPagemap image argv capabilities w es w₁)
    (hord : HeadersInOrder image) (haccept : Accepted image) :
    (c.calls.map fun call => pageKey call.vaddr).Sublist
      (layoutPages (es.stackPointer - 0x1000#64) es.argv argv image) := by
  have hloads : calledLoads image = imageLoads image := by
    rw [calledLoads, hord.loadSegmentCalls haccept, imageLoads]
  have htrace : ((loadTrace hhdm image es.vmSpace (calledLoads image) ⟨c.wArgs.vm, []⟩).map
      (traceCall hhdm)).map MapCall.vaddr
        = ((loadTrace hhdm image es.vmSpace (calledLoads image) ⟨c.wArgs.vm, []⟩).map
          Prod.fst).map fun l => l.1.vaddr l.2 := by
    simp only [List.map_map]
    rfl
  rw [show (c.calls.map fun call => pageKey call.vaddr)
    = (c.calls.map MapCall.vaddr).map pageKey by rw [List.map_map]; rfl]
  refine List.Sublist.map _ ?_
  rw [Creation.calls, List.map_append, List.map_append, List.map_cons, htrace, hloads]
  exact ((List.Sublist.refl _).append (loadTrace_sublist.map _)).append (.refl _)

/-- A layout that is kept has its headers in order, and no page is called for twice. -/
theorem LayoutKept.loadSegmentCalls {m : Mem}
    {c : Creation hhdm kernelPagemap image argv capabilities w es w₁} (h : LayoutKept c m) :
    HeadersInOrder image ∧ loadSegmentCalls image = wantedPages image
      ∧ (MoonOS.loadSegmentCalls image).Nodup := by
  have haccept := (calledLoads_of_loadElf c.load).1
  have hord : HeadersInOrder image := headersInOrder_of_subset haccept fun page hpage => by
    obtain ⟨s, ⟨before, after, heq, -⟩, -⟩ := h.elf page hpage
    simp [heq]
  have hcalls := hord.loadSegmentCalls haccept
  refine ⟨hord, hcalls, ?_⟩
  have hdistinct := h.distinct
  rw [layoutPages, List.map_append, List.map_append, List.nodup_append, List.nodup_append]
    at hdistinct
  have himage := hdistinct.1.2.1
  rw [imageLoads, List.map_map, List.map_map] at himage
  rw [hcalls]
  exact himage.of_map _

/-- **The layout is kept exactly when** the pages that the pool's next blocks, the image and the
message region ask for are pairwise distinct, and the loader reaches every page of the image and is
refused none. -/
theorem layoutKept_iff (c : Creation hhdm kernelPagemap image argv capabilities w es w₁)
    (h : Ready hhdm kernelPagemap w lab spaces)
    (hassign : ipcAssignPort hhdm emptyQueue es port w₁ = some (true, es', w₂)) :
    LayoutKept c w₂.kernel.mem
      ↔ (layoutPages (pa hhdm (givenBlock w capabilities 0) + 0x7000#64)
          (pa hhdm (givenBlock w capabilities 1)) argv image).Nodup
        ∧ HeadersInOrder image
        ∧ ∀ page s, CalledIn hhdm image es.vmSpace c.wArgs.vm page s →
            s.vm.nextPage ≠ 0#64 := by
  rw [← c.layoutPages_eq]
  constructor
  · intro hkept
    obtain ⟨hord, hcalls, hnodup⟩ := hkept.loadSegmentCalls
    refine ⟨hkept.distinct, hord, fun page s hcall => ?_⟩
    obtain ⟨before, after, heq, -⟩ := id hcall
    obtain ⟨s', hcall', hgiven, -⟩ := hkept.elf page (by rw [← hcalls, heq]; simp)
    rwa [hcall.unique hnodup hcall']
  · rintro ⟨hnodup, hord, hpages⟩
    obtain ⟨haccept, hload⟩ := calledLoads_of_loadElf c.load
    have hshows := c.shows_calls h hassign
    have hserves : ∀ call ∈ c.calls,
        Serves (pathEntries hhdm es.vmSpace call.vaddr w₂.kernel.mem) (some call) := fun call hc =>
      hshows.serves_of_nodup ((c.calls_sublist hord haccept).nodup hnodup) hc
    refine ⟨hnodup, hserves (stackCall _) ?_, fun call hc => hserves call ?_,
      fun page hpage => ?_, fun call hc => hserves call ?_⟩
    · exact List.mem_append_left _ (List.mem_append_left _ List.mem_cons_self)
    · exact List.mem_append_left _ (List.mem_append_left _ (List.mem_cons_of_mem _ hc))
    · rw [← hord.loadSegmentCalls haccept] at hpage
      obtain ⟨before, after, heq⟩ := List.append_of_mem hpage
      have hrun := hload
      rw [calledLoads, List.foldlM_map, heq] at hrun
      obtain ⟨s, s', hbefore, -⟩ := goes_through hrun
      have hcall : CalledIn hhdm image es.vmSpace c.wArgs.vm page s := ⟨before, after, heq, hbefore⟩
      have hgiven := hpages page s hcall
      refine ⟨s, hcall, hgiven, ?_⟩
      exact hserves (traceCall hhdm ((readPhdr image page.1, page.2), s.vm.nextPage))
        (List.mem_append_left _ (List.mem_append_right _
          (List.mem_map_of_mem (mem_loadTrace_of_calledIn hload hcall hgiven))))
    · exact List.mem_append_right _ hc

/-- The page allocator only gives. -/
theorem Creation.frames_suffix (c : Creation hhdm kernelPagemap image argv capabilities w es w₁)
    (hassign : ipcAssignPort hhdm emptyQueue es port w₁ = some (true, es', w₂)) :
    c.wArgs.kernel.frames <:+ w.kernel.frames
      ∧ w₂.kernel.frames <:+ c.wArgs.kernel.frames := by
  constructor
  · have hnew := archAllocPage_suffix c.new
    have hstack := archMapPage_suffix c.map
    rw [frames_archCopyKernelMappings] at hstack
    exact ((taken_passArguments c.args).frames.trans hstack).trans hnew
  · obtain ⟨vm₁, vm₂, hmap₁, hmap₂, rfl, -⟩ := mapped_of_ipcAssignPort hassign
    rw [c.machine, Machine.vm_withVm] at hmap₁
    exact ((archMapPage_suffix hmap₂).trans (archMapPage_suffix hmap₁)).trans
      (loadElf_suffix c.load)

end Process

/-- A process of one page at `4 MiB` keeps its layout. -/
theorem layoutKept_onePageElf : ∃ es w₁ es' w₂,
    ∃ c : Creation 0xffff800000000000#64 0xffff800000001000#64 (onePageElf 0x400000#64) []
        [poolCap 1#64] twoPools es w₁,
      ipcAssignPort 0xffff800000000000#64 0xffffffff80200000#64 es 0#32 w₁ = some (true, es', w₂)
      ∧ LayoutKept c w₂.kernel.mem := by
  obtain ⟨es', w₂, hrun, hleft⟩ := spawn_twoPools accepted_onePageElf (by decide +kernel)
  obtain ⟨es, w₁, hcreate, hassign⟩ := created_of_spawn hrun
  obtain ⟨c⟩ := creation_of_createExecutionSpace hcreate
  obtain ⟨lab, h⟩ := ready_twoPools
  refine ⟨es, w₁, es', w₂, c, hassign, (layoutKept_iff c h hassign).mpr
    ⟨by decide +kernel, headersInOrder_onePageElf, fun page s hcall => ?_⟩⟩
  obtain ⟨-, rfl⟩ := calledIn_onePageElf.mp hcall
  -- the page allocator has a page for the image, since it has one left in the end
  obtain ⟨hsub, hsuffix⟩ := c.frames_suffix hassign
  have hne : c.wArgs.kernel.frames ≠ [] := fun hnil => by
    rw [hnil] at hsuffix
    exact hleft (List.suffix_nil.mp hsuffix)
  obtain ⟨f, fs, hfs⟩ := List.exists_cons_of_ne_nil hne
  have hf := (supplies_twoPools.good f (hsub.subset (by simp [hfs]))).1
  rwa [Vm.nextPage, show (Loading.mk c.wArgs.vm []).vm.frames = f :: fs from hfs, List.headD_cons]

/-- One at `8 MiB` does not: its page is replaced by the message region. -/
theorem not_layoutKept_onePageElf :
    phdrOf (onePageElf 0x800000#64) 0 = ⟨ptLoad, 0#64, 0x800000#64, 0#64, 4096#64⟩
    ∧ ∃ es w₁ es' w₂,
      ∃ c : Creation 0xffff800000000000#64 0xffff800000001000#64 (onePageElf 0x800000#64) []
          [poolCap 1#64] twoPools es w₁,
        ipcAssignPort 0xffff800000000000#64 0xffffffff80200000#64 es 0#32 w₁ = some (true, es', w₂)
        ∧ ¬ LayoutKept c w₂.kernel.mem := by
  refine ⟨by decide +kernel, ?_⟩
  have haccept : Accepted (onePageElf 0x800000#64) := ⟨by decide +kernel, by decide +kernel⟩
  obtain ⟨es', w₂, hrun, -⟩ := spawn_twoPools haccept (by decide +kernel)
  obtain ⟨es, w₁, hcreate, hassign⟩ := created_of_spawn hrun
  obtain ⟨c⟩ := creation_of_createExecutionSpace hcreate
  refine ⟨es, w₁, es', w₂, c, hassign, fun hkept => ?_⟩
  have hdistinct := hkept.distinct
  rw [c.layoutPages_eq] at hdistinct
  revert hdistinct
  decide +kernel

end MoonOS

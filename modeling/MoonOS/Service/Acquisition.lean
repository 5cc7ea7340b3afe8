import MoonOS.Abi.Syscalls
import MoonOS.Service.ExecutionSpace

/-!
# Service/Acquisition — what making a process takes, and what a failure leaves taken

After its pid, `create_execution_space` takes pages, maps them, takes blocks of a pool and writes
memory.  `Taken` bears each of these, one lemma a function, and so it bears the whole, whichever way
out is taken: the tables of the kernel stay, and what is left to take is the end of what there was.

Nothing on any way out gives anything back.  So

* `failedCreation_taken` — an attempt that fails leaves the process table and the ports as they
  were, one pid used up, and of the pages and blocks those that were not taken.
-/

namespace MoonOS

open ByteMemory

/-! ## Taking -/

/-- Nothing but memory, the page allocator and the pools changes. -/
def KeepsTables (w w' : Machine) : Prop :=
  w'.kernel.sched = w.kernel.sched ∧ w'.kernel.portToPid = w.kernel.portToPid

/-- **Some pages and some blocks have been taken**, in the order in which they are given. -/
structure Taken (w w' : Machine) : Prop where
  tables : KeepsTables w w'
  frames : w'.kernel.frames <:+ w.kernel.frames
  pools : ∀ pool, w'.pools pool <:+ w.pools pool

section Taking

variable {hhdm kernelPagemap p : BitVec 64} {w w' w'' : Machine} {cap : Capability} {vm : Vm}

theorem Taken.refl (w : Machine) : Taken w w :=
  ⟨⟨rfl, rfl⟩, List.suffix_refl _, fun _ => List.suffix_refl _⟩

theorem Taken.trans (h : Taken w w') (h' : Taken w' w'') : Taken w w'' where
  tables := ⟨h'.tables.1.trans h.tables.1, h'.tables.2.trans h.tables.2⟩
  frames := h'.frames.trans h.frames
  pools pool := (h'.pools pool).trans (h.pools pool)

/-- Memory is nothing that is taken. -/
theorem taken_write (w : Machine) (m : Mem) : Taken w (w.withPools m w.pools) :=
  ⟨⟨rfl, rfl⟩, List.suffix_refl _, fun _ => List.suffix_refl _⟩

theorem taken_withVm (h : vm.frames <:+ w.kernel.frames) : Taken w (w.withVm vm) :=
  ⟨⟨rfl, rfl⟩, h, fun _ => List.suffix_refl _⟩

theorem archAllocPage_suffix {a : BitVec 64} {s s' : Vm} (h : archAllocPage s = some (a, s')) :
    s'.frames <:+ s.frames := by
  obtain ⟨-, -, ⟨-, rfl⟩ | ⟨-, rfl⟩⟩ := archAllocPage_cases h <;> exact List.tail_suffix _

theorem vmmPmlAdvance_suffix {a b : BitVec 64} {i : BitVec 9} {flags : BitVec 32} {s s' : Vm}
    (h : vmmPmlAdvance hhdm a i flags s = some (b, s')) : s'.frames <:+ s.frames := by
  by_cases hp : (readPte s.mem a i).present = true
  · obtain ⟨m, heq, -⟩ := vmmPmlAdvance_of_present hhdm flags hp
    obtain ⟨-, rfl⟩ := Prod.mk.inj (Option.some.inj (h.symm.trans heq))
    exact List.suffix_refl _
  · obtain ⟨-, fs, hfs, rfl⟩ := vmmPmlAdvance_of_absent (by simpa using hp) h
    rw [hfs]
    exact List.suffix_cons _ _

/-- A mapping takes pages for its tables. -/
theorem archMapPage_suffix {vaddr paddr : BitVec 64} {flags : BitVec 32} {s s' : Vm}
    (h : archMapPage hhdm p vaddr paddr flags s = some s') : s'.frames <:+ s.frames := by
  obtain ⟨-, rfl⟩ | ⟨pml3, s₃, pml2, s₂, pml1, s₁, h₃, h₂, h₁, rfl⟩ := archMapPage_cases h
  · exact List.suffix_refl _
  exact ((vmmPmlAdvance_suffix h₁).trans (vmmPmlAdvance_suffix h₂)).trans (vmmPmlAdvance_suffix h₃)

/-- A pool gives its next block, or none. -/
theorem taken_capabilityAllocFrom {n : ℕ} {ptr : BitVec 64} {m : Mem} {pools : Pools}
    (h : capabilityAllocFrom cap n w.kernel.mem w.pools = (ptr, m, pools)) :
    Taken w (w.withPools m pools) :=
  ⟨⟨rfl, rfl⟩, List.suffix_refl _, capabilityAllocFrom_suffix h⟩

/-! ## One function after another -/

theorem taken_copyArgs {argvBase : BitVec 64} {args : List (List (BitVec 8))} {i : ℕ}
    (h : copyArgs hhdm cap argvBase i args w = some w') : Taken w w' := by
  induction args generalizing i w with
  | nil =>
    obtain rfl := Option.some.inj h
    exact .refl w
  | cons arg args ih =>
    obtain ⟨argCopy, m, pools, hblock, -, hrest⟩ := copyArgs_cons h
    exact (taken_capabilityAllocFrom hblock).trans
      ((taken_write (w.withPools m pools) _).trans (ih hrest))

theorem taken_passArguments {argv : List (List (BitVec 8))} {result : Except String (BitVec 64)}
    (h : passArguments hhdm p cap argv w = some (result, w')) : Taken w w' := by
  obtain ⟨-, -, rfl⟩ | ⟨-, -, argvBase, m, pools, hblock, hend⟩ := passArguments_cases h
  · exact .refl w'
  have hbase := taken_capabilityAllocFrom hblock
  obtain ⟨-, -, rfl⟩ | ⟨-, vm, w₁, hmap, hcopy, -, rfl⟩ := hend
  · exact hbase
  · exact ((hbase.trans (taken_withVm (archMapPage_suffix hmap))).trans
      (taken_copyArgs hcopy)).trans (taken_write w₁ _)

theorem loadSegment_suffix {image : Mem} {phdr : Elf64Phdr} {j : ℕ} {s s' : Loading}
    (h : loadSegment hhdm image p phdr j s = some s') : s'.vm.frames <:+ s.vm.frames := by
  obtain ⟨phys, vm₁, hnew, ⟨-, rfl⟩ | ⟨-, vm, hmap, rfl⟩⟩ := loadSegment_cases h
  · exact archAllocPage_suffix hnew
  · exact (archMapPage_suffix hmap).trans (archAllocPage_suffix hnew)

theorem loadElf_suffix {image : Mem} {result : Except String (BitVec 64)} {out : Loading}
    (h : loadElf hhdm image p vm = some (result, out)) : out.vm.frames <:+ vm.frames := by
  obtain ⟨-, rfl⟩ | ⟨-, -, hload⟩ := loadElf_cases h
  · exact List.suffix_refl _
  have hrun : ∀ (loads : List (Elf64Phdr × ℕ)) (s : Loading),
      loads.foldlM (fun s l => loadSegment hhdm image p l.1 l.2 s) s = some out →
        out.vm.frames <:+ s.vm.frames := by
    intro loads
    induction loads with
    | nil =>
      intro s hrun
      rw [Option.some.inj hrun]
    | cons l loads ih =>
      intro s hrun
      rw [List.foldlM_cons] at hrun
      obtain ⟨s₁, hstep, hrest⟩ := Option.bind_eq_some_iff.mp hrun
      exact (ih s₁ hrest).trans (loadSegment_suffix hstep)
  exact hrun _ _ hload

theorem frames_archCopyKernelMappings (kernelPagemap p : BitVec 64) (s : Vm) :
    (archCopyKernelMappings kernelPagemap p s).frames = s.frames := by
  simp only [archCopyKernelMappings]

/-- **`create_execution_space` takes a pid, and then pages and blocks**, whatever it returns. -/
theorem taken_createExecutionSpace {image : Mem} {argv : List (List (BitVec 8))}
    {capabilities : List Capability} {result : Except String ExecutionSpace}
    (h : createExecutionSpace hhdm kernelPagemap image argv capabilities w = some (result, w')) :
    ∃ pid sched, schedAllocatePid w.kernel.sched = some (pid, sched)
      ∧ Taken (w.withSched sched) w' := by
  obtain ⟨p, vm, pid, sched, hnew, hpid, hend⟩ := createExecutionSpace_cases h
  refine ⟨pid, sched, hpid, ?_⟩
  have htaken : Taken (w.withSched sched) ((w.withVm vm).withSched sched) :=
    taken_withVm (w := w.withSched sched) (archAllocPage_suffix hnew)
  obtain ⟨-, -, rfl⟩ | ⟨-, -, rfl⟩ | ⟨-, cap, stack, m, pools, -, hblock, hend⟩ := hend
  · exact htaken
  · exact htaken
  have hstack := htaken.trans (taken_capabilityAllocFrom hblock)
  obtain ⟨-, rfl⟩ | ⟨-, vm', argvResult, wArgs, hmap, hargs, hend⟩ := hend
  · exact hstack
  have hframes := archMapPage_suffix hmap
  rw [frames_archCopyKernelMappings] at hframes
  have hpassed := (hstack.trans (taken_withVm hframes)).trans (taken_passArguments hargs)
  obtain ⟨-, -, -, rfl⟩ | ⟨argvPtr, loaded, out, -, hload, -, rfl⟩ := hend
  · exact hpassed
  · exact hpassed.trans (taken_withVm (loadElf_suffix hload))

end Taking

/-! ## A creation that fails -/

/-- `sys_create_process`, with the vectors it passes on.  As the code stands they are null, and a
null vector of capabilities is not read as an empty one (`createOfNull`). -/
def sysCreateProcessWith (hhdm kernelPagemap emptyQueue elf portId : BitVec 64) (image : Mem)
    (argv : List (List (BitVec 8))) (capabilities : List Capability) (pushed : Bool) (w : Machine) :
    Option (BitVec 32 × Machine) :=
  sysCreateProcessBy (createExecutionSpace hhdm kernelPagemap image argv capabilities)
    (ipcAssignPort hhdm emptyQueue)
    (fun space w => w.withSched (schedEnqueue space pushed w.kernel.sched)) elf portId w

/-- **What a failed creation leaves**: the processes and the ports there were, the next pid one up,
and what was not taken of the pages and of every pool. -/
structure LeavesTaken (w w' : Machine) : Prop where
  sched : w'.kernel.sched
    = { w.kernel.sched with nextAvailablePid := w.kernel.sched.nextAvailablePid + 1 }
  ports : w'.kernel.portToPid = w.kernel.portToPid
  frames : w'.kernel.frames <:+ w.kernel.frames
  pools : ∀ pool, w'.pools pool <:+ w.pools pool

section Failed

variable {hhdm kernelPagemap emptyQueue : BitVec 64} {w w' : Machine}

/-- What `create_execution_space` does with null vectors, if it comes back from them, it does with
any. -/
theorem createExecutionSpace_of_createOfNull {k' : Kernel} {result : Except String ExecutionSpace}
    (h : createOfNull w.kernel = some (result, k')) (image : Mem) (argv : List (List (BitVec 8)))
    (capabilities : List Capability) :
    createExecutionSpace hhdm kernelPagemap image argv capabilities w
      = some (result, { w with kernel := k' }) := by
  obtain ⟨vm, pid, sched, hnew, hpid, rfl, rfl⟩ := createOfNull_eq_some h
  rw [createExecutionSpace, Machine.vm, hnew, Option.bind_some]
  dsimp only
  rw [hpid, Option.bind_some, if_pos rfl]
  rfl

theorem leavesTaken_createExecutionSpace {image : Mem} {argv : List (List (BitVec 8))}
    {capabilities : List Capability} {result : Except String ExecutionSpace}
    (h : createExecutionSpace hhdm kernelPagemap image argv capabilities w = some (result, w')) :
    LeavesTaken w w' := by
  obtain ⟨pid, sched, halloc, htaken⟩ := taken_createExecutionSpace h
  rw [schedAllocatePid] at halloc
  split at halloc
  case isTrue => cases halloc
  case isFalse =>
    obtain ⟨-, rfl⟩ := Prod.mk.inj (Option.some.inj halloc)
    exact ⟨htaken.tables.1, htaken.tables.2, htaken.frames, htaken.pools⟩

/-- **An attempt that fails**: `create_execution_space` with an error, and `sys_create_process` with
a status other than `0`, whatever the vectors it passes, leave the process table and the ports as
they were, and give nothing back.  Refused arguments change nothing at all. -/
theorem failedCreation_taken (hhdm kernelPagemap emptyQueue : BitVec 64) (w : Machine) :
    (∀ image argv capabilities message w',
      createExecutionSpace hhdm kernelPagemap image argv capabilities w
        = some (.error message, w') → LeavesTaken w w')
    ∧ ∀ elf portId image argv capabilities pushed status w',
      sysCreateProcessWith hhdm kernelPagemap emptyQueue elf portId image argv capabilities pushed w
        = some (status, w') → status ≠ 0#32 →
      (status = 1#32 ∧ w' = w) ∨ LeavesTaken w w' := by
  refine ⟨fun _ _ _ _ _ h => leavesTaken_createExecutionSpace h,
    fun elf portId image argv capabilities pushed status w' h hstatus => ?_⟩
  rw [sysCreateProcessWith, sysCreateProcessBy] at h
  split at h
  case isTrue =>
    obtain ⟨rfl, rfl⟩ := Prod.mk.inj (Option.some.inj h)
    exact .inl ⟨rfl, rfl⟩
  case isFalse =>
    obtain ⟨⟨result, w₁⟩, hcreate, h⟩ := Option.bind_eq_some_iff.mp h
    have hleaves := leavesTaken_createExecutionSpace hcreate
    cases result with
    | error message =>
      obtain ⟨-, rfl⟩ := Prod.mk.inj (Option.some.inj h)
      exact .inr hleaves
    | ok space =>
      obtain ⟨⟨assigned, es, w₂⟩, hassign, heq⟩ := Option.map_eq_some_iff.mp h
      cases assigned with
      | true => exact absurd (Prod.mk.inj heq).1.symm hstatus
      | false =>
        obtain ⟨-, rfl⟩ := Prod.mk.inj heq
        rw [(eq_of_ipcAssignPort hassign).2]
        exact .inr hleaves

end Failed

theorem length_frames_twoPools : twoPools.kernel.frames.length = 28 :=
  (by decide : bootPages.tail.length = 28)

/-- An image that is none is refused when the process has its pagemap and its stack. -/
theorem createExecutionSpace_blank : ∃ w', createExecutionSpace 0xffff800000000000#64
      0xffff800000001000#64 (fun _ => 0#8) [] [poolCap 1#64] twoPools
        = some (.error "ELF file is not valid or is configured incorrectly", w')
    ∧ w'.kernel.sched.nextAvailablePid = 1 ∧ w'.kernel.frames.length < 28
    ∧ w'.pools 1#64 = [] := by
  obtain ⟨p, vm, m, vm', hnew, hp0, halloc, hmap, -, -⟩ := exists_stackMapped (n := 0)
    0xffff800000001000#64 (hasPool_poolCap (by decide)) pools_twoPools (le_refl 4096) (by decide)
    (supplies_twoPools.mono (by omega))
  have hload : loadElf 0xffff800000000000#64 (fun _ => 0#8) p vm'
      = some (.error "ELF file is not valid or is configured incorrectly", ⟨vm', []⟩) := by
    rw [loadElf, if_pos (by decide +kernel)]
  have hlen : vm'.frames.length < 28 := by
    obtain ⟨fs, hfs, rfl⟩ := archAllocPage_of_ne_zero hnew hp0
    have hsub := archMapPage_suffix hmap
    rw [frames_archCopyKernelMappings] at hsub
    have hcons : twoPools.vm.frames.length = 28 := length_frames_twoPools
    rw [hfs, List.length_cons] at hcons
    have := hsub.length_le
    dsimp only at this
    omega
  exact ⟨_, createExecutionSpace_eq hnew hp0 rfl (memoryRegionCap_poolCap _) halloc (by decide) hmap
    (passArguments_nil ..) hload, rfl, hlen, rfl⟩

/-- Without a capability `sys_create_process` returns `2`. -/
theorem sysCreateProcessWith_twoPools : ∃ w', sysCreateProcessWith 0xffff800000000000#64
    0xffff800000001000#64 0xffffffff80200000#64 0x400000#64 5#64 (fun _ => 0#8) [] [] true twoPools
      = some (2#32, w') := by
  have hne : twoPools.vm.nextPage ≠ 0#64 := by decide +kernel
  rw [sysCreateProcessWith, sysCreateProcessBy, if_neg (by decide), createProcess,
    createExecutionSpace, archCreateNewPagemap, archAllocPage_served rfl hne, Option.bind_some]
  dsimp only
  rw [schedAllocatePid, if_neg (by decide), Option.bind_some, if_neg hne]
  exact ⟨_, rfl⟩

/-- What is left of two pools, both ways. -/
theorem failedCreation_twoPools : (∃ w', createExecutionSpace 0xffff800000000000#64
      0xffff800000001000#64 (fun _ => 0#8) [] [poolCap 1#64] twoPools
        = some (.error "ELF file is not valid or is configured incorrectly", w')
      ∧ LeavesTaken twoPools w')
    ∧ ∃ w', sysCreateProcessWith 0xffff800000000000#64 0xffff800000001000#64
        0xffffffff80200000#64 0x400000#64 5#64 (fun _ => 0#8) [] [] true twoPools = some (2#32, w')
      ∧ LeavesTaken twoPools w' := by
  obtain ⟨hcreate, hsys⟩ := failedCreation_taken 0xffff800000000000#64 0xffff800000001000#64
    0xffffffff80200000#64 twoPools
  constructor
  · obtain ⟨w', hrun, -⟩ := createExecutionSpace_blank
    exact ⟨w', hrun, hcreate _ _ _ _ _ hrun⟩
  · obtain ⟨w', hrun⟩ := sysCreateProcessWith_twoPools
    exact ⟨w', hrun, (hsys _ _ _ _ _ _ _ _ hrun (by decide)).resolve_left fun h =>
      absurd h.1 (by decide)⟩

/-- A pid, pages and the block of the stack are gone. -/
theorem not_unchanged_twoPools : ∃ w', createExecutionSpace 0xffff800000000000#64
      0xffff800000001000#64 (fun _ => 0#8) [] [poolCap 1#64] twoPools
        = some (.error "ELF file is not valid or is configured incorrectly", w')
    ∧ w'.kernel.sched.nextAvailablePid ≠ twoPools.kernel.sched.nextAvailablePid
    ∧ w'.kernel.frames ≠ twoPools.kernel.frames ∧ w'.pools ≠ twoPools.pools := by
  obtain ⟨w', hrun, hpid, hlen, hpool⟩ := createExecutionSpace_blank
  refine ⟨w', hrun, ?_, fun heq => ?_, fun heq => ?_⟩
  · rw [hpid]
    decide
  · rw [heq, length_frames_twoPools] at hlen
    exact lt_irrefl _ hlen
  · have hblock : twoPools.pools 1#64 = [⟨0xffff800000100000#64, 4096⟩] := rfl
    rw [heq, hblock] at hpool
    cases hpool

end MoonOS

import MoonOS.Lib.GuardedRun
import MoonOS.Service.Acquisition

/-!
# Ipc/Ports — where a port leads, over the lives of processes

`ipc_send` goes from a port to a pid (`port_to_pid`) and from the pid to a slot of the process
table.  `ipc_assign_port` is the only function that writes the map, and nothing ever removes a key,
so many a key leads to a process that has left.

Pids are handed out once.  So a key leads to the process it was assigned to or to none, over any
run: `ipcSend_assigned`.  The history of a run (`PortState`) is kept beside the kernel to say so.
-/

namespace MoonOS

open ByteMemory GuardedRun

/-! ## What the two functions do to the tables -/

/-- `ipc_assign_port`, without the pages it maps. -/
def assignPort (emptyQueue : BitVec 64) (space : ExecutionSpace) (port : BitVec 32) (k : Kernel) :
    Bool × ExecutionSpace × Kernel :=
  if space.port ≠ -1#32 ∨ k.portToPid port ≠ none then (false, space, k)
  else (true, { space with port, messageQueue := emptyQueue },
    { k with portToPid := Function.update k.portToPid port (some space.pid) })

section Tables

variable {hhdm kernelPagemap emptyQueue : BitVec 64} {w w' : Machine} {space es : ExecutionSpace}
  {port : BitVec 32} {k : Kernel} {assigned : Bool}

/-- A port is assigned to a process that has none, if nobody has it. -/
theorem assignPort_of_free (hspace : space.port = -1#32) (hport : k.portToPid port = none) :
    assignPort emptyQueue space port k = (true, { space with port, messageQueue := emptyQueue },
      { k with portToPid := Function.update k.portToPid port (some space.pid) }) :=
  if_neg (by simp [hspace, hport])

/-- …and otherwise nothing happens. -/
theorem assignPort_of_taken (h : ¬ (space.port = -1#32 ∧ k.portToPid port = none)) :
    assignPort emptyQueue space port k = (false, space, k) :=
  if_pos (by rwa [not_and_or] at h)

@[simp] theorem pid_assignPort : (assignPort emptyQueue space port k).2.1.pid = space.pid := by
  unfold assignPort
  split <;> rfl

@[simp] theorem sched_assignPort : (assignPort emptyQueue space port k).2.2.sched = k.sched := by
  unfold assignPort
  split <;> rfl

/-- **`create_execution_space` takes a pid**, and the process it makes has that pid and no port. -/
theorem createExecutionSpace_tables {image : Mem} {argv : List (List (BitVec 8))}
    {capabilities : List Capability} {result : Except String ExecutionSpace}
    (h : createExecutionSpace hhdm kernelPagemap image argv capabilities w = some (result, w')) :
    ∃ pid, schedAllocatePid w.kernel.sched = some (pid, w'.kernel.sched)
      ∧ w'.kernel.portToPid = w.kernel.portToPid
      ∧ ∀ es, result = .ok es → es.pid = pid ∧ es.port = -1#32 := by
  obtain ⟨pid, sched, halloc, htaken⟩ := taken_createExecutionSpace h
  refine ⟨pid, by rw [halloc, htaken.tables.1]; rfl, htaken.tables.2, fun es hes => ?_⟩
  subst hes
  obtain ⟨c⟩ := creation_of_createExecutionSpace h
  obtain ⟨rfl, -⟩ := Prod.mk.inj (Option.some.inj (halloc.symm.trans c.allocatePid))
  exact ⟨congrArg ExecutionSpace.pid c.space, congrArg ExecutionSpace.port c.space⟩

/-- **`ipc_assign_port` does to the tables what `assignPort` does.** -/
theorem ipcAssignPort_tables
    (h : ipcAssignPort hhdm emptyQueue space port w = some (assigned, es, w')) :
    ∃ k, assignPort emptyQueue space port w.kernel = (assigned, es, k)
      ∧ w'.kernel.sched = k.sched ∧ w'.kernel.portToPid = k.portToPid := by
  unfold ipcAssignPort at h
  split at h
  case isTrue htaken =>
    simp only [Option.some.injEq, Prod.mk.injEq] at h
    obtain ⟨rfl, rfl, rfl⟩ := h
    exact ⟨w.kernel, if_pos htaken, rfl, rfl⟩
  case isFalse hfree =>
    obtain ⟨vm, -, hrest⟩ := Option.map_eq_some_iff.mp h
    simp only [Prod.mk.injEq] at hrest
    obtain ⟨rfl, rfl, rfl⟩ := hrest
    exact ⟨_, if_neg hfree, rfl, rfl⟩

end Tables

/-! ## Runs of the kernel, with their history -/

/-- The kernel with the processes that have been created and not enqueued yet, and what has
happened: the pids that went to processes, and the ports `ipc_assign_port` assigned, with the pid
of the process each was assigned to. -/
structure PortState where
  kernel : Kernel
  made : List ExecutionSpace
  born : List (BitVec 32)
  assigned : List (BitVec 32 × BitVec 32)

/-- After `sched_prepare` and `ipc_init`. -/
def PortState.boot (k : Kernel) : PortState where
  kernel := { k with sched := schedPrepare k.sched, portToPid := fun _ => none }
  made := []
  born := []
  assigned := []

/-- What happens to the tables.  A creation may fail when it has taken its pid; an enqueue may
find no room; `memory` is everything else there is, such as user programs, page tables, the
allocators and receives. -/
inductive PortEvent
  | create (space : ExecutionSpace) (succeeds : Bool)
  | assignMade (i : ℕ) (port : BitVec 32)
  | assignLive (i : ℕ) (port : BitVec 32)
  | enqueue (i : ℕ) (pushed : Bool)
  | exit (pid : BitVec 32)
  | tick (regs : ArchTaskRegisters)
  | send (toPort payload payloadSize : BitVec 64)
  | memory (m : Mem) (blocks allocated frames : List (BitVec 64)) (pmmLock : Bool)

/-- The history, when `ipc_assign_port` has answered. -/
def PortState.record (p : PortState) (pid port : BitVec 32) (assigned : Bool) :
    List (BitVec 32 × BitVec 32) :=
  if assigned then (pid, port) :: p.assigned else p.assigned

/-- One event.  A process that is enqueued is out of the creator's hands, so no process is enqueued
twice; the erase of `sched_dequeue` drops the last slot. -/
def PortEvent.apply (emptyQueue : BitVec 64) (p : PortState) : PortEvent → Option PortState
  | .create space succeeds =>
    (schedAllocatePid p.kernel.sched).map fun (pid, sched) =>
      let p := { p with kernel := { p.kernel with sched } }
      if succeeds then
        { p with made := { space with pid, port := -1#32 } :: p.made, born := pid :: p.born }
      else p
  | .assignMade i port =>
    p.made[i]?.map fun space =>
      let (assigned, space', kernel) := assignPort emptyQueue space port p.kernel
      { p with kernel, made := p.made.set i space', assigned := p.record space.pid port assigned }
  | .assignLive i port =>
    p.kernel.sched.processes[i]?.map fun space =>
      let (assigned, space', kernel) := assignPort emptyQueue space port p.kernel
      { p with
        kernel := { kernel with sched := kernel.sched.set i space' }
        assigned := p.record space.pid port assigned }
  | .enqueue i pushed =>
    p.made[i]?.map fun space =>
      { p with
        kernel := { p.kernel with sched := schedEnqueue space pushed p.kernel.sched }
        made := p.made.eraseIdx i }
  | .exit pid =>
    let sched := (schedDequeue (fun processes _ => processes.dropLast) pid p.kernel.sched).2
    some { p with kernel := { p.kernel with sched } }
  | .tick regs =>
    (schedReschedule regs p.kernel.sched).map fun (_, sched) =>
      { p with kernel := { p.kernel with sched } }
  | .send toPort payload payloadSize =>
    (ipcSend toPort payload payloadSize p.kernel).map fun (_, kernel) => { p with kernel }
  | .memory m blocks allocated frames pmmLock =>
    some { p with kernel := { p.kernel with mem := m, blocks, allocated, frames, pmmLock } }

/-- The pids of the processes there are, enqueued or not. -/
def PortState.pids (p : PortState) : List (BitVec 32) :=
  p.made.map ExecutionSpace.pid ++ p.kernel.sched.processes.map ExecutionSpace.pid

/-- **What holds along every run**: no pid went to two processes, no process is there twice, and a
key of `port_to_pid` says what `ipc_assign_port` once assigned. -/
structure PortState.Wf (p : PortState) : Prop where
  born : PidsBelow p.born p.kernel.sched.nextAvailablePid
  pids : PidsBelow p.pids p.kernel.sched.nextAvailablePid
  alive : p.pids ⊆ p.born
  ports : ∀ port pid, p.kernel.portToPid port = some pid → (pid, port) ∈ p.assigned

section History

variable {emptyQueue : BitVec 64} {p p' : PortState} {space : ExecutionSpace} {port : BitVec 32}

/-- A write that keeps what a function reads. -/
theorem map_set_of_eq {α β : Type*} {f : α → β} {xs : List α} {i : ℕ} {x y : α}
    (hx : xs[i]? = some x) (hy : f y = f x) : (xs.set i y).map f = xs.map f := by
  obtain ⟨hi, rfl⟩ := List.getElem?_eq_some_iff.mp hx
  rw [List.map_set, hy, ← List.getElem_map f (h := by simpa using hi), List.set_getElem_self]

/-- An enqueue moves a process from the hands of its creator to the table, or loses it. -/
theorem enqueue_subperm {made : List ExecutionSpace} {i : ℕ} (hspace : made[i]? = some space)
    (pushed : Bool) (s : Sched) :
    ((made.eraseIdx i).map ExecutionSpace.pid
        ++ (schedEnqueue space pushed s).processes.map ExecutionSpace.pid).Subperm
      (made.map ExecutionSpace.pid ++ s.processes.map ExecutionSpace.pid) := by
  obtain ⟨hi, rfl⟩ := List.getElem?_eq_some_iff.mp hspace
  cases pushed with
  | false => exact ((List.eraseIdx_sublist made i).map _).append_right _ |>.subperm
  | true =>
    rw [← List.map_append, ← List.map_append]
    have hmoved : (made.eraseIdx i ++ (s.processes ++ [made[i]])).Perm
        (made[i] :: (made.eraseIdx i ++ s.processes)) := by
      rw [← List.append_assoc]
      exact List.perm_append_singleton ..
    exact ((hmoved.trans ((List.getElem_cons_eraseIdx_perm hi).append_right _)).map _).subperm

/-- An exit takes a process out of the table at most. -/
theorem schedDequeue_dropLast_sublist (pid : BitVec 32) (s : Sched) :
    (schedDequeue (fun processes _ => processes.dropLast) pid s).2.processes.Sublist s.processes
      ∧ (schedDequeue (fun processes _ => processes.dropLast) pid s).2.nextAvailablePid
        = s.nextAvailablePid := by
  cases hfind : s.processes.findIdx? (fun es => es.pid = pid) with
  | none =>
    rw [schedDequeue_of_none _ hfind]
    exact ⟨List.Sublist.refl _, rfl⟩
  | some i =>
    obtain ⟨-, hproc, -, hnext⟩ :=
      schedDequeue_of_findIdx? (fun processes _ => processes.dropLast) hfind
    rw [hproc]
    exact ⟨List.dropLast_sublist _, hnext⟩

theorem PortState.Wf.boot (k : Kernel) : (PortState.boot k).Wf :=
  ⟨⟨List.nodup_nil, nofun, Nat.zero_le _⟩, ⟨List.nodup_nil, nofun, Nat.zero_le _⟩, nofun, nofun⟩

/-- Processes may be written, moved and dropped. -/
theorem PortState.Wf.subperm (h : p.Wf) (hpids : p'.pids.Subperm p.pids) (hborn : p'.born = p.born)
    (hnext : p'.kernel.sched.nextAvailablePid = p.kernel.sched.nextAvailablePid)
    (hports : ∀ port pid, p'.kernel.portToPid port = some pid → (pid, port) ∈ p'.assigned) :
    p'.Wf where
  born := by rw [hborn, hnext]; exact h.born
  pids := by rw [hnext]; exact h.pids.subperm hpids
  alive := by rw [hborn]; exact List.Subset.trans hpids.subset h.alive
  ports := hports

/-- What `ipc_assign_port` assigns goes into the history. -/
theorem PortState.Wf.record (h : p.Wf) (space : ExecutionSpace) (port : BitVec 32) :
    ∀ port' pid, (assignPort emptyQueue space port p.kernel).2.2.portToPid port' = some pid →
      (pid, port') ∈ p.record space.pid port (assignPort emptyQueue space port p.kernel).1 := by
  intro port' pid hkey
  by_cases hfree : space.port = -1#32 ∧ p.kernel.portToPid port = none
  · rw [assignPort_of_free hfree.1 hfree.2] at hkey ⊢
    rw [PortState.record, if_pos rfl]
    dsimp only at hkey
    by_cases hport : port' = port
    · subst hport
      rw [Function.update_self, Option.some.injEq] at hkey
      exact hkey ▸ List.mem_cons_self
    · rw [Function.update_of_ne hport] at hkey
      exact List.mem_cons_of_mem _ (h.ports port' pid hkey)
  · rw [assignPort_of_taken hfree] at hkey ⊢
    exact h.ports port' pid hkey

theorem PortState.Wf.create (h : p.Wf) {succeeds : Bool}
    (hstep : (PortEvent.create space succeeds).apply emptyQueue p = some p') : p'.Wf := by
  obtain ⟨⟨pid, sched⟩, halloc, rfl⟩ := Option.map_eq_some_iff.mp hstep
  have hborn := h.born.allocate halloc
  have hpids := h.pids.allocate halloc
  obtain ⟨-, -, rfl⟩ := schedAllocatePid_eq_some halloc
  cases succeeds with
  | false =>
    exact ⟨hborn.subperm (List.sublist_cons_self ..).subperm,
      hpids.subperm (List.sublist_cons_self ..).subperm, h.alive, h.ports⟩
  | true => exact ⟨hborn, hpids, List.cons_subset_cons pid h.alive, h.ports⟩

/-- **Every event keeps what holds.** -/
theorem PortState.Wf.step (h : p.Wf) {e : PortEvent} (hstep : e.apply emptyQueue p = some p') :
    p'.Wf := by
  cases e with
  | create space succeeds => exact h.create hstep
  | assignMade i port =>
    obtain ⟨space, hspace, rfl⟩ := Option.map_eq_some_iff.mp hstep
    refine h.subperm (List.Perm.subperm (.of_eq ?_)) rfl (by simp) (h.record space port)
    rw [PortState.pids, PortState.pids, sched_assignPort, map_set_of_eq hspace pid_assignPort]
  | assignLive i port =>
    obtain ⟨space, hspace, rfl⟩ := Option.map_eq_some_iff.mp hstep
    refine h.subperm (List.Perm.subperm (.of_eq ?_)) rfl (by simp) (h.record space port)
    rw [PortState.pids, PortState.pids, Sched.processes_set, sched_assignPort,
      map_set_of_eq hspace pid_assignPort]
  | enqueue i pushed =>
    obtain ⟨space, hspace, rfl⟩ := Option.map_eq_some_iff.mp hstep
    exact h.subperm (enqueue_subperm hspace pushed _) rfl (by cases pushed <;> rfl) h.ports
  | exit pid =>
    obtain rfl := Option.some.inj hstep
    have hsub := schedDequeue_dropLast_sublist pid p.kernel.sched
    exact h.subperm ((hsub.1.map _).append_left _).subperm rfl hsub.2 h.ports
  | tick regs =>
    obtain ⟨⟨es, sched⟩, htick, rfl⟩ := Option.map_eq_some_iff.mp hstep
    obtain ⟨-, hproc, -, hnext⟩ := schedReschedule_eq_some htick
    refine h.subperm (List.Perm.subperm (.of_eq ?_)) rfl hnext h.ports
    rw [PortState.pids, PortState.pids, hproc, map_pid_set (ExecutionSpace.pid_save ..)]
  | send toPort payload payloadSize =>
    obtain ⟨⟨msg, kernel⟩, hsend, rfl⟩ := Option.map_eq_some_iff.mp hstep
    rcases ipcSend_cases hsend with ⟨-, rfl⟩ |
      ⟨i, pid, message, queue, pushed, heap, -, -, -, -, rfl⟩
    · exact ⟨h.born, h.pids, h.alive, h.ports⟩
    · refine h.subperm (List.Perm.subperm (.of_eq ?_)) rfl (Sched.nextAvailablePid_set ..) h.ports
      rw [PortState.pids, PortState.pids, Kernel.setQueue, Sched.processes_set]
      exact congrArg _ (map_pid_set rfl)
  | memory m blocks allocated frames pmmLock =>
    obtain rfl := Option.some.inj hstep
    exact ⟨h.born, h.pids, h.alive, h.ports⟩

/-- **No message goes astray.**  Along every run no pid goes to two processes, the pids in the table
are distinct and below `next_available_pid`; and when `ipc_send` pushes a message, the queue is
that of a process in the table to which `ipc_assign_port` assigned this very port. -/
theorem ipcSend_assigned {k : Kernel} {events : List PortEvent}
    (hrun : events.foldlM (PortEvent.apply emptyQueue) (PortState.boot k) = some p) :
    p.born.Nodup
      ∧ (p.kernel.sched.processes.map ExecutionSpace.pid).Nodup
      ∧ (∀ es ∈ p.kernel.sched.processes,
          es.pid ∈ p.born ∧ es.pid.toNat < p.kernel.sched.nextAvailablePid)
      ∧ ∀ (toPort payload payloadSize : BitVec 64) (message : IpcMessage) (k' : Kernel),
          (toPort.setWidth 32).signExtend 64 = toPort →
          ipcSend toPort payload payloadSize p.kernel = some (some message, k') →
          ∃ (i : ℕ) (port : BitVec 32) (queue : BitVec 64) (heap : Heap),
            i < p.kernel.sched.processes.length
              ∧ ccVecPush 32 (p.kernel.sched.get i).messageQueue message.toWord p.kernel.heap
                = some (queue, true, heap)
              ∧ k' = (p.kernel.withHeap heap).setQueue i queue
              ∧ ((p.kernel.sched.get i).pid, port) ∈ p.assigned ∧ port.signExtend 64 = toPort := by
  have h : p.Wf := invariant (fun _ _ _ h hstep => h.step hstep) hrun (.boot k)
  have hlive : PidsBelow (p.kernel.sched.processes.map ExecutionSpace.pid) _ :=
    h.pids.subperm (List.sublist_append_right ..).subperm
  refine ⟨h.born.nodup, hlive.nodup, fun es hes => ⟨h.alive ?_, ?_⟩, ?_⟩
  · exact List.mem_append_right _ (List.mem_map_of_mem hes)
  · exact hlive.below es.pid (List.mem_map_of_mem hes)
  intro toPort payload payloadSize message k' hint hsend
  rcases ipcSend_cases hsend with ⟨hnone, -⟩ |
    ⟨i, pid, message', queue, pushed, heap, hport, hfind, hpush, hmsg, hk'⟩
  · cases hnone
  · cases pushed with
    | false => cases hmsg
    | true =>
      obtain rfl : message = message' := Option.some.inj hmsg
      obtain ⟨hi, hslot⟩ := Sched.of_findIdx? hfind
      exact ⟨i, toPort.setWidth 32, queue, heap, hi, hpush, hk', hslot ▸ h.ports _ _ hport, hint⟩

/-- **The events are those of the code**: what `create_execution_space` does is a run of them… -/
theorem PortState.run_createExecutionSpace {hhdm kernelPagemap : BitVec 64} {w w' : Machine}
    {image : Mem} {argv : List (List (BitVec 8))} {capabilities : List Capability}
    {result : Except String ExecutionSpace} (hp : p.kernel = w.kernel)
    (h : createExecutionSpace hhdm kernelPagemap image argv capabilities w = some (result, w')) :
    ∃ (events : List PortEvent) (p' : PortState),
      events.foldlM (PortEvent.apply emptyQueue) p = some p' ∧ p'.kernel = w'.kernel
      ∧ p'.made = result.toOption.toList ++ p.made := by
  obtain ⟨pid, halloc, hports, hmade⟩ := createExecutionSpace_tables h
  have hkernel : { w'.kernel with portToPid := p.kernel.portToPid } = w'.kernel := by
    rw [hp, ← hports]
  rw [← hp] at halloc
  let e := PortEvent.memory w'.kernel.mem w'.kernel.blocks w'.kernel.allocated w'.kernel.frames
    w'.kernel.pmmLock
  cases result with
  | error message =>
    refine ⟨[.create default false, e], { p with kernel := w'.kernel }, ?_, rfl, rfl⟩
    rw [List.foldlM_cons, PortEvent.apply, halloc]
    exact congrArg (fun kernel => some { p with kernel }) hkernel
  | ok es =>
    obtain ⟨rfl, hport⟩ := hmade es rfl
    have hes : { es with port := -1#32 } = es := by rw [← hport]
    refine ⟨[.create es true, e], ⟨w'.kernel, es :: p.made, es.pid :: p.born, p.assigned⟩,
      ?_, rfl, rfl⟩
    rw [List.foldlM_cons, PortEvent.apply, halloc]
    exact congrArg₂
      (fun kernel space =>
        some (PortState.mk kernel (space :: p.made) (es.pid :: p.born) p.assigned))
      hkernel hes

/-- …and so is what `ipc_assign_port` does. -/
theorem PortState.run_ipcAssignPort {hhdm : BitVec 64} {w w' : Machine} {es : ExecutionSpace}
    {i : ℕ} {assigned : Bool} (hp : p.kernel = w.kernel) (hspace : p.made[i]? = some space)
    (h : ipcAssignPort hhdm emptyQueue space port w = some (assigned, es, w')) :
    ∃ (events : List PortEvent) (p' : PortState),
      events.foldlM (PortEvent.apply emptyQueue) p = some p' ∧ p'.kernel = w'.kernel
      ∧ p'.made = p.made.set i es ∧ p'.assigned = p.record space.pid port assigned := by
  obtain ⟨k, hassign, hsched, hports⟩ := ipcAssignPort_tables h
  have hkernel : { w'.kernel with sched := k.sched, portToPid := k.portToPid } = w'.kernel := by
    rw [← hsched, ← hports]
  refine ⟨[.assignMade i port, .memory w'.kernel.mem w'.kernel.blocks w'.kernel.allocated
    w'.kernel.frames w'.kernel.pmmLock],
    ⟨w'.kernel, p.made.set i es, p.born, p.record space.pid port assigned⟩, ?_, rfl, rfl, rfl⟩
  rw [List.foldlM_cons, PortEvent.apply, hspace, hp, Option.map_some, hassign]
  exact congrArg (fun kernel => some (PortState.mk kernel (p.made.set i es) p.born
    (p.record space.pid port assigned))) hkernel

end History

/-- Two processes get a port each, and the second leaves. -/
def ownerLeaves : List PortEvent :=
  [.create default true, .assignMade 0 5#32, .enqueue 0 true, .create default true,
    .assignMade 0 6#32, .enqueue 0 true, .exit 1#32]

/-- A message to the first one's port is pushed, and to a queue of its own. -/
theorem ipcSend_assigned_ownerLeaves : ∃ (p : PortState) (message : IpcMessage) (k' : Kernel),
    ownerLeaves.foldlM (PortEvent.apply 0xffffffff80200000#64) (PortState.boot oneProcess) = some p
      ∧ ipcSend 5#64 0x1000#64 8#64 p.kernel = some (some message, k')
      ∧ ∃ (i : ℕ) (port : BitVec 32), i < p.kernel.sched.processes.length
        ∧ ((p.kernel.sched.get i).pid, port) ∈ p.assigned ∧ port.signExtend 64 = 5#64 := by
  have hsent : ((ownerLeaves.foldlM (PortEvent.apply 0xffffffff80200000#64)
      (PortState.boot oneProcess)).bind fun p => ipcSend 5#64 0x1000#64 8#64 p.kernel).map Prod.fst
        = some (some ⟨0#64, 5#64, 0x1000#64, 8#64⟩) := by decide +kernel
  obtain ⟨⟨-, k'⟩, hbind, rfl⟩ := Option.map_eq_some_iff.mp hsent
  obtain ⟨p, hrun, hsend⟩ := Option.bind_eq_some_iff.mp hbind
  obtain ⟨-, -, -, hassigned⟩ := ipcSend_assigned hrun
  obtain ⟨i, port, -, -, hi, -, -, hmem, hport⟩ := hassigned _ _ _ _ _ (by decide) hsend
  exact ⟨p, _, k', hrun, hsend, i, port, hi, hmem, hport⟩

end MoonOS

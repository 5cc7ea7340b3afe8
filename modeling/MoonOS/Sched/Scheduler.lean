import Mathlib.Tactic

/-!
# Sched/Scheduler — `kernel/sched/scheduler.c`

The scheduler is a vector of execution spaces and the index of the one that runs.  Here the vector
is the list of its elements.  What its slots behind the last element hold is `beyond`: `get` checks
no bound, so a stale index reads and writes there.

The vector's `erase` is a parameter of `schedDequeue`, because what it does to the list is decided
in `Ds/Vec`.  `push` tells whether the heap let the vector grow, and `sched_enqueue` ignores it.
-/

namespace MoonOS

/-! ## What is scheduled -/

/-- `GeneralRegisters`. -/
structure GeneralRegisters where
  r15 : BitVec 64
  r14 : BitVec 64
  r13 : BitVec 64
  r12 : BitVec 64
  r11 : BitVec 64
  r10 : BitVec 64
  r9 : BitVec 64
  r8 : BitVec 64
  rsi : BitVec 64
  rdi : BitVec 64
  rbp : BitVec 64
  rdx : BitVec 64
  rcx : BitVec 64
  rbx : BitVec 64
  rax : BitVec 64
deriving DecidableEq, Inhabited

/-- `struct arch_task_registers`. -/
structure ArchTaskRegisters where
  registers : GeneralRegisters
  ip : BitVec 64
  rsp : BitVec 64
deriving DecidableEq, Inhabited

/-- `ExecutionContext`. -/
structure ExecutionContext where
  entry : BitVec 64
  registers : ArchTaskRegisters
deriving DecidableEq, Inhabited

/-- `create_ec`. -/
def createEc (entry sp : BitVec 64) : ExecutionContext where
  entry
  registers :=
    { ip := entry
      registers := { (default : GeneralRegisters) with rbp := sp }
      rsp := sp - 2048#64 }

/-- `ExecutionSpace`; the two vectors are handles. -/
structure ExecutionSpace where
  pid : BitVec 32
  port : BitVec 32
  argc : BitVec 32
  argv : BitVec 64
  vmSpace : BitVec 64
  stackPointer : BitVec 64
  ec : ExecutionContext
  messageQueue : BitVec 64
  capabilities : BitVec 64
deriving DecidableEq, Inhabited

/-- The execution space with other registers saved. -/
def ExecutionSpace.save (es : ExecutionSpace) (regs : ArchTaskRegisters) : ExecutionSpace :=
  { es with ec := { es.ec with registers := regs } }

@[simp] theorem ExecutionSpace.pid_save (es : ExecutionSpace) (regs : ArchTaskRegisters) :
    (es.save regs).pid = es.pid := rfl

@[simp] theorem ExecutionSpace.registers_save (es : ExecutionSpace) (regs : ArchTaskRegisters) :
    (es.save regs).ec.registers = regs := rfl

@[simp] theorem ExecutionSpace.save_save (es : ExecutionSpace) (r r' : ArchTaskRegisters) :
    (es.save r).save r' = es.save r' := rfl

@[simp] theorem ExecutionSpace.save_registers (es : ExecutionSpace) :
    es.save es.ec.registers = es := rfl

/-! ## The scheduler -/

/-- The static state of `scheduler.c`. -/
structure Sched where
  processes : List ExecutionSpace
  beyond : ℕ → ExecutionSpace
  currentPidIndex : ℕ
  nextAvailablePid : ℕ

namespace Sched

/-- `*get(&processes, i)`. -/
def get (s : Sched) (i : ℕ) : ExecutionSpace := s.processes.getD i (s.beyond i)

/-- `*get(&processes, i) = es`. -/
def set (s : Sched) (i : ℕ) (es : ExecutionSpace) : Sched :=
  if i < s.processes.length then { s with processes := s.processes.set i es }
  else { s with beyond := Function.update s.beyond i es }

end Sched

/-- `MAX_PIDS`. -/
def maxPids : ℕ := 4096

/-- `sched_prepare`. -/
def schedPrepare (s : Sched) : Sched := { s with processes := [], nextAvailablePid := 0 }

/-- `sched_enqueue`. -/
def schedEnqueue (es : ExecutionSpace) (pushed : Bool) (s : Sched) : Sched :=
  if pushed then { s with processes := s.processes ++ [es] } else s

/-- `sched_reschedule`; without a process it answers with an error. -/
def schedReschedule (regs : ArchTaskRegisters) (s : Sched) : Option (ExecutionSpace × Sched) :=
  if s.processes.length = 0 then none
  else
    let s := s.set s.currentPidIndex ((s.get s.currentPidIndex).save regs)
    let s := { s with currentPidIndex := (s.currentPidIndex + 1) % s.processes.length }
    some (s.get s.currentPidIndex, s)

/-- `sched_current`. -/
def schedCurrent (s : Sched) : Option ExecutionSpace :=
  if s.processes.length = 0 then none else some (s.get s.currentPidIndex)

/-- `sched_allocate_pid`; running out of them is a panic. -/
def schedAllocatePid (s : Sched) : Option (BitVec 32 × Sched) :=
  if maxPids ≤ s.nextAvailablePid then none
  else some (BitVec.ofNat 32 s.nextAvailablePid,
    { s with nextAvailablePid := s.nextAvailablePid + 1 })

/-- `sched_dequeue`, over an `erase` of the vector.  The slot behind the shortened vector still
holds what was last in it. -/
def schedDequeue (erase : List ExecutionSpace → ℕ → List ExecutionSpace) (pid : BitVec 32)
    (s : Sched) : BitVec 32 × Sched :=
  match s.processes.findIdx? fun es => es.pid = pid with
  | none => (-1#32, s)
  | some i =>
    let last := s.processes.length - 1
    (0#32, { s with
      processes := erase s.processes i
      beyond := Function.update s.beyond last (s.get last) })

/-- A process of a given pid, everything else clear. -/
def processOf (pid : BitVec 32) : ExecutionSpace := { (default : ExecutionSpace) with pid }

/-- The scheduler after `n` processes have been created and none has run. -/
def freshProcesses (n : ℕ) : Sched where
  processes := (List.range n).map fun i => processOf (BitVec.ofNat 32 i)
  beyond _ := default
  currentPidIndex := 0
  nextAvailablePid := n

/-! ## What one call does -/

section Spec

variable {s s' : Sched} {es : ExecutionSpace} {regs : ArchTaskRegisters} {pid : BitVec 32} {i : ℕ}

/-- On the list, a write behind the last element is no write. -/
@[simp] theorem Sched.processes_set (s : Sched) (i : ℕ) (es : ExecutionSpace) :
    (s.set i es).processes = s.processes.set i es := by
  unfold Sched.set
  split
  case isTrue => rfl
  case isFalse h => exact (List.set_eq_of_length_le (Nat.le_of_not_lt h)).symm

@[simp] theorem Sched.currentPidIndex_set (s : Sched) (i : ℕ) (es : ExecutionSpace) :
    (s.set i es).currentPidIndex = s.currentPidIndex := by
  unfold Sched.set
  split <;> rfl

@[simp] theorem Sched.nextAvailablePid_set (s : Sched) (i : ℕ) (es : ExecutionSpace) :
    (s.set i es).nextAvailablePid = s.nextAvailablePid := by
  unfold Sched.set
  split <;> rfl

theorem Sched.getElem?_of_lt (h : i < s.processes.length) : s.processes[i]? = some (s.get i) := by
  rw [Sched.get, List.getD_eq_getElem?_getD, List.getElem?_eq_getElem h, Option.getD_some]

theorem Sched.get_mem (h : i < s.processes.length) : s.get i ∈ s.processes :=
  List.mem_of_getElem? (Sched.getElem?_of_lt h)

/-- A process that is found is in the table, under the pid it was looked for. -/
theorem Sched.of_findIdx? (h : s.processes.findIdx? (fun es => es.pid = pid) = some i) :
    i < s.processes.length ∧ (s.get i).pid = pid := by
  obtain ⟨hi, hpid, -⟩ := List.findIdx?_eq_some_iff_getElem.mp h
  exact ⟨hi, by simpa [Sched.get, hi] using hpid⟩

theorem Sched.get_set_self (h : i < s.processes.length) : (s.set i es).get i = es := by
  rw [Sched.get, Sched.processes_set, List.getD_eq_getElem?_getD, List.getElem?_set_self h,
    Option.getD_some]

theorem Sched.get_set_of_ne {j : ℕ} (h : j ≠ i) : (s.set i es).get j = s.get j := by
  rw [Sched.set]
  split
  · rw [Sched.get, Sched.get, List.getD_eq_getElem?_getD, List.getD_eq_getElem?_getD,
      List.getElem?_set_ne h.symm]
  · simp only [Sched.get, Function.update_of_ne h]

theorem Sched.set_get_self (h : i < s.processes.length) : s.set i (s.get i) = s := by
  have hget : s.get i = s.processes[i] := by simp [Sched.get, h]
  rw [Sched.set, if_pos h, hget, List.set_getElem_self]

/-- A write that keeps what a function reads of the slot. -/
theorem map_set_get {β : Type*} (f : ExecutionSpace → β) (h : f es = f (s.get i)) :
    (s.processes.set i es).map f = s.processes.map f := by
  refine List.ext_getElem? fun j => ?_
  rw [List.getElem?_map, List.getElem?_map, List.getElem?_set]
  split
  case isFalse => rfl
  case isTrue hij =>
    subst hij
    split
    case isTrue hi => simp [Sched.getElem?_of_lt hi, h]
    case isFalse hi => simp [List.getElem?_eq_none (Nat.le_of_not_lt hi)]

/-- A write that keeps the pid of a slot renames no process… -/
theorem map_pid_set (h : es.pid = (s.get i).pid) :
    (s.processes.set i es).map ExecutionSpace.pid = s.processes.map ExecutionSpace.pid :=
  map_set_get ExecutionSpace.pid h

/-- …so every process is found where it was. -/
theorem findIdx?_set (h : es.pid = (s.get i).pid) (pid : BitVec 32) :
    (s.processes.set i es).findIdx? (fun es => es.pid = pid)
      = s.processes.findIdx? fun es => es.pid = pid := by
  have hmap : ∀ l : List ExecutionSpace, l.findIdx? (fun es => es.pid = pid)
      = (l.map ExecutionSpace.pid).findIdx? (· = pid) := fun l => by
    rw [List.findIdx?_map]
    rfl
  rw [hmap, hmap, map_pid_set h]

/-- **`sched_reschedule` saves into the slot of the index and selects the one after it.** -/
theorem schedReschedule_spec (hn : 0 < s.processes.length) (regs : ArchTaskRegisters) :
    ∃ es s', schedReschedule regs s = some (es, s')
      ∧ s'.processes = s.processes.set s.currentPidIndex ((s.get s.currentPidIndex).save regs)
      ∧ s'.currentPidIndex = (s.currentPidIndex + 1) % s.processes.length
      ∧ s'.nextAvailablePid = s.nextAvailablePid
      ∧ s'.processes[s'.currentPidIndex]? = some es := by
  refine ⟨_, _, if_neg (by omega), ?_, ?_, ?_, Sched.getElem?_of_lt ?_⟩
  · simp
  · simp
  · simp
  · simpa using Nat.mod_lt _ hn

/-- …and it answers for no other reason than that there is a process. -/
theorem schedReschedule_eq_some (h : schedReschedule regs s = some (es, s')) :
    0 < s.processes.length
      ∧ s'.processes = s.processes.set s.currentPidIndex ((s.get s.currentPidIndex).save regs)
      ∧ s'.currentPidIndex = (s.currentPidIndex + 1) % s.processes.length
      ∧ s'.nextAvailablePid = s.nextAvailablePid := by
  have hpos : 0 < s.processes.length := by
    by_contra hnone
    rw [schedReschedule, if_pos (by omega)] at h
    cases h
  obtain ⟨es₁, s₁, heq, hproc, hidx, hnext, -⟩ := schedReschedule_spec hpos regs
  obtain ⟨rfl, rfl⟩ := Prod.mk.inj (Option.some.inj (heq.symm.trans h))
  exact ⟨hpos, hproc, hidx, hnext⟩

/-- The process that runs is the one at the index, if there is one. -/
theorem schedCurrent_of_lt (h : s.currentPidIndex < s.processes.length) :
    schedCurrent s = s.processes[s.currentPidIndex]? := by
  rw [schedCurrent, if_neg (by omega), Sched.getElem?_of_lt h]

/-- **`sched_dequeue` removes the first process of that pid, and moves no index.** -/
theorem schedDequeue_of_findIdx? (erase : List ExecutionSpace → ℕ → List ExecutionSpace)
    (h : s.processes.findIdx? (fun es => es.pid = pid) = some i) :
    (schedDequeue erase pid s).1 = 0#32
      ∧ (schedDequeue erase pid s).2.processes = erase s.processes i
      ∧ (schedDequeue erase pid s).2.currentPidIndex = s.currentPidIndex
      ∧ (schedDequeue erase pid s).2.nextAvailablePid = s.nextAvailablePid := by
  simp [schedDequeue, h]

/-- …and without one it changes nothing. -/
theorem schedDequeue_of_none (erase : List ExecutionSpace → ℕ → List ExecutionSpace)
    (h : s.processes.findIdx? (fun es => es.pid = pid) = none) :
    schedDequeue erase pid s = (-1#32, s) := by
  simp only [schedDequeue, h]

end Spec

/-! ## Pids -/

/-- **Pids in use**: pairwise distinct, and `sched_allocate_pid` has counted past each. -/
structure PidsBelow (pids : List (BitVec 32)) (next : ℕ) : Prop where
  nodup : pids.Nodup
  below : ∀ pid ∈ pids, pid.toNat < next
  bounded : next ≤ maxPids

section Pids

variable {s s' : Sched} {pid : BitVec 32} {pids pids' : List (BitVec 32)} {next : ℕ}

theorem PidsBelow.subperm (h : PidsBelow pids next) (hsub : pids'.Subperm pids) :
    PidsBelow pids' next := by
  obtain ⟨kept, hperm, hkept⟩ := hsub
  exact ⟨hperm.nodup_iff.mp (hkept.nodup h.nodup),
    fun pid hpid => h.below pid (hkept.subset (hperm.mem_iff.mpr hpid)), h.bounded⟩

theorem schedAllocatePid_eq_some (h : schedAllocatePid s = some (pid, s')) :
    s.nextAvailablePid < maxPids ∧ pid = BitVec.ofNat 32 s.nextAvailablePid
      ∧ s' = { s with nextAvailablePid := s.nextAvailablePid + 1 } := by
  unfold schedAllocatePid at h
  split at h
  case isTrue => cases h
  case isFalse hmax =>
    obtain ⟨rfl, rfl⟩ := Prod.mk.inj (Option.some.inj h)
    exact ⟨Nat.lt_of_not_le hmax, rfl, rfl⟩

/-- **A pid that is handed out is new.** -/
theorem PidsBelow.allocate (h : PidsBelow pids s.nextAvailablePid)
    (halloc : schedAllocatePid s = some (pid, s')) :
    PidsBelow (pid :: pids) s'.nextAvailablePid := by
  obtain ⟨hmax, rfl, rfl⟩ := schedAllocatePid_eq_some halloc
  have hpid : (BitVec.ofNat 32 s.nextAvailablePid).toNat = s.nextAvailablePid := by
    rw [BitVec.toNat_ofNat]
    unfold maxPids at hmax
    omega
  refine ⟨List.nodup_cons.mpr ⟨fun hmem => ?_, h.nodup⟩, List.forall_mem_cons.mpr ⟨?_, ?_⟩, hmax⟩
  · have := h.below _ hmem
    omega
  · exact hpid.trans_lt (Nat.lt_succ_self _)
  · exact fun p hp => (h.below p hp).trans (Nat.lt_succ_self _)

end Pids

end MoonOS

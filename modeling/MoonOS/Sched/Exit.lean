import MoonOS.Sched.Scheduler

/-!
# Sched/Exit — removals, and the index that nothing moves

`sched_dequeue` shortens the list and leaves `current_pid_index` alone, so after a removal the index
names another process or none.  Both theorems here take the vector's `erase` at its word: it removes
exactly the element at the index it is given (`List.eraseIdx`).

* `exitUndisturbed_iff` — a process exits and the timer ticks: the survivors are left alone and the
  right one runs next only if there is a single survivor, and then only if the tick's save misses
  it.
* `runOk_of_runFits` — over runs with any removals, the index stays in range and keeps naming the
  process that runs as long as every removal is `DequeueFits`; a removal that is not breaks it there
  and then.
-/

namespace MoonOS

/-! ## The states the kernel reaches -/

/-- `sys_exit` up to the timer tick it asks for: the process that runs is removed, and the tick
saves the registers it finds. -/
def exitThenTick (regs : ArchTaskRegisters) (s : Sched) : Option (ExecutionSpace × Sched) := do
  let current ← schedCurrent s
  let (status, s) := schedDequeue List.eraseIdx current.pid s
  if status ≠ 0#32 then none -- "sys_exit: Failed to dequeue current process"
  else schedReschedule regs s

/-- How the kernel drives its scheduler: a process is created under a new pid and enqueued, the
timer ticks, the process that runs exits. -/
inductive SchedStep : Sched → Sched → Prop
  | spawn {s s₁ : Sched} {pid : BitVec 32} (es : ExecutionSpace) (pushed : Bool) :
      schedAllocatePid s = some (pid, s₁) →
      SchedStep s (schedEnqueue { es with pid } pushed s₁)
  | tick {s s' : Sched} {regs : ArchTaskRegisters} {es : ExecutionSpace} :
      schedReschedule regs s = some (es, s') → SchedStep s s'
  | exit {s s' : Sched} {regs : ArchTaskRegisters} {es : ExecutionSpace} :
      exitThenTick regs s = some (es, s') → SchedStep s s'

/-- The states reached from `sched_prepare`. -/
inductive SchedReachable : Sched → Prop
  | prepare {s : Sched} : s.currentPidIndex = 0 → SchedReachable (schedPrepare s)
  | step {s s' : Sched} : SchedReachable s → SchedStep s s' → SchedReachable s'

/-- **What holds in every state the kernel reaches**: pids are handed out once, and the index is in
range unless there is no process yet. -/
structure Sched.Wf (s : Sched) : Prop where
  nodup : (s.processes.map ExecutionSpace.pid).Nodup
  allocated : ∀ es ∈ s.processes, es.pid.toNat < s.nextAvailablePid
  bounded : s.nextAvailablePid ≤ maxPids
  inRange : s.currentPidIndex < s.processes.length ∨ s.processes = [] ∧ s.currentPidIndex = 0

section Reachable

variable {s s' : Sched} {regs : ArchTaskRegisters} {es : ExecutionSpace} {pid : BitVec 32}

/-- A tick keeps the pids and brings the index into range. -/
theorem Sched.Wf.reschedule (hn : (s.processes.map ExecutionSpace.pid).Nodup)
    (ha : ∀ es ∈ s.processes, es.pid.toNat < s.nextAvailablePid) (hb : s.nextAvailablePid ≤ maxPids)
    (h : schedReschedule regs s = some (es, s')) : s'.Wf := by
  obtain ⟨hpos, hproc, hidx, hnext⟩ := schedReschedule_eq_some h
  have hpid := map_pid_set (s := s) (i := s.currentPidIndex) (ExecutionSpace.pid_save _ regs)
  rw [← hproc] at hpid
  refine ⟨hpid ▸ hn, fun q hq => ?_, hnext ▸ hb, Or.inl ?_⟩
  · have hmem : q.pid ∈ s.processes.map ExecutionSpace.pid :=
      hpid ▸ List.mem_map_of_mem hq
    obtain ⟨p, hp, hpq⟩ := List.mem_map.mp hmem
    exact hnext ▸ hpq ▸ ha p hp
  · rw [hidx, hproc, List.length_set]
    exact Nat.mod_lt _ hpos

/-- Under distinct pids, two slots of one pid are one slot. -/
theorem eq_of_pid_eq (hn : (s.processes.map ExecutionSpace.pid).Nodup) {i j : ℕ}
    (hi : i < s.processes.length) (hj : j < s.processes.length)
    (h : (s.get i).pid = (s.get j).pid) : i = j := by
  have hinj := (hn.get_inj_iff (i := ⟨i, by simpa⟩) (j := ⟨j, by simpa⟩)).mp
    (by simpa [Sched.get, hi, hj] using h)
  exact congrArg Fin.val hinj

/-- **In range and under distinct pids, the process that runs is found where the index points.** -/
theorem findIdx?_current (hn : (s.processes.map ExecutionSpace.pid).Nodup)
    (hlt : s.currentPidIndex < s.processes.length) :
    s.processes.findIdx? (fun es => es.pid = (s.get s.currentPidIndex).pid)
      = some s.currentPidIndex := by
  rw [List.findIdx?_eq_some_iff_getElem]
  refine ⟨hlt, by simp [Sched.get, hlt], fun j hj hpid => ?_⟩
  have hjlt : j < s.processes.length := by omega
  have := eq_of_pid_eq hn hjlt hlt (by simpa [Sched.get, hlt, hjlt] using hpid)
  omega

/-- What an exit and the tick behind it do to the list: `s₁` is between the two. -/
theorem exitThenTick_spec (hs : s.Wf) (h2 : 2 ≤ s.processes.length) (regs : ArchTaskRegisters) :
    ∃ (s₁ : Sched) (es : ExecutionSpace) (s' : Sched),
      schedCurrent s = some (s.get s.currentPidIndex)
      ∧ exitThenTick regs s = some (es, s')
      ∧ s₁.processes = s.processes.eraseIdx s.currentPidIndex
      ∧ s'.processes
        = s₁.processes.set s.currentPidIndex ((s₁.get s.currentPidIndex).save regs)
      ∧ s'.processes[(s.currentPidIndex + 1) % (s.processes.length - 1)]? = some es := by
  have hlt : s.currentPidIndex < s.processes.length := hs.inRange.resolve_right fun h => by
    simp [h.1] at h2
  have hcur : schedCurrent s = some (s.get s.currentPidIndex) := if_neg (by omega)
  obtain ⟨hok, hproc, hidx, -⟩ :=
    schedDequeue_of_findIdx? List.eraseIdx (findIdx?_current hs.nodup hlt)
  have hlen := congrArg List.length hproc
  rw [List.length_eraseIdx_of_lt hlt] at hlen
  obtain ⟨es, s', heq, hset, hidx', -, hsel⟩ :=
    schedReschedule_spec (hlen ▸ (by omega : 0 < s.processes.length - 1)) regs
  rw [hidx', hidx, hlen] at hsel
  rw [hidx] at hset
  refine ⟨_, es, s', hcur, ?_, hproc, hset, hsel⟩
  rw [exitThenTick, hcur]
  simp only [Option.bind_eq_bind, Option.bind_some, hok, ne_eq, not_true_eq_false, if_false]
  exact heq

/-- An exit keeps what holds. -/
theorem Sched.Wf.exit (hs : s.Wf) (h : exitThenTick regs s = some (es, s')) : s'.Wf := by
  obtain ⟨current, -, h⟩ := Option.bind_eq_some_iff.mp h
  cases hfind : s.processes.findIdx? (fun es => es.pid = current.pid) with
  | none =>
    rw [schedDequeue_of_none _ hfind] at h
    cases h
  | some i =>
    obtain ⟨hok, hproc, -, hnext⟩ := schedDequeue_of_findIdx? List.eraseIdx hfind
    have hsub : (schedDequeue List.eraseIdx current.pid s).2.processes.Sublist s.processes :=
      hproc ▸ List.eraseIdx_sublist ..
    simp only [hok, ne_eq, not_true_eq_false, if_false] at h
    exact Sched.Wf.reschedule ((hsub.map _).nodup hs.nodup)
      (fun p hp => hnext ▸ hs.allocated p (hsub.subset hp)) (hnext ▸ hs.bounded) h

/-- So does a new process, under a pid no other has. -/
theorem Sched.Wf.spawn (hs : s.Wf) {s₁ : Sched} (h : schedAllocatePid s = some (pid, s₁))
    (es : ExecutionSpace) (pushed : Bool) : (schedEnqueue { es with pid } pushed s₁).Wf := by
  have hpids : PidsBelow (s.processes.map ExecutionSpace.pid) s.nextAvailablePid :=
    ⟨hs.nodup, List.forall_mem_map.mpr hs.allocated, hs.bounded⟩
  have hnew := hpids.allocate h
  obtain ⟨-, -, rfl⟩ := schedAllocatePid_eq_some h
  cases pushed with
  | false =>
    have hold := hnew.subperm (List.sublist_cons_self ..).subperm
    exact ⟨hold.nodup, List.forall_mem_map.mp hold.below, hold.bounded, hs.inRange⟩
  | true =>
    have hlist : (s.processes ++ [{ es with pid }]).map ExecutionSpace.pid
        = s.processes.map ExecutionSpace.pid ++ [pid] := by
      rw [List.map_append, List.map_singleton]
    have hall := hnew.subperm (hlist ▸ (List.perm_append_singleton ..).subperm)
    refine ⟨hall.nodup, List.forall_mem_map.mp hall.below, hall.bounded, Or.inl ?_⟩
    rcases hs.inRange with hlt | ⟨hnil, hz⟩
    · simpa [schedEnqueue] using by omega
    · simp [schedEnqueue, hnil, hz]

/-- **Every state the kernel reaches is well formed.** -/
theorem SchedReachable.wf (h : SchedReachable s) : s.Wf := by
  induction h with
  | prepare h0 => exact ⟨List.nodup_nil, by simp [schedPrepare], Nat.zero_le _, Or.inr ⟨rfl, h0⟩⟩
  | step _ hstep ih =>
    cases hstep with
    | spawn es pushed h => exact ih.spawn h es pushed
    | tick h => exact Sched.Wf.reschedule ih.nodup ih.allocated ih.bounded h
    | exit h => exact ih.exit h

end Reachable

/-! ## One exit -/

/-- **An exit disturbs nobody**: the tick behind it leaves the saved registers of every other
process alone, and the process behind the exiting one runs next. -/
def ExitUndisturbed (regs : ArchTaskRegisters) (s : Sched) : Prop :=
  ∃ current es s', schedCurrent s = some current ∧ exitThenTick regs s = some (es, s')
    ∧ (∀ p ∈ s.processes, p.pid ≠ current.pid →
        ∃ q ∈ s'.processes, q.pid = p.pid ∧ q.ec.registers = p.ec.registers)
    ∧ (s.processes[(s.currentPidIndex + 1) % s.processes.length]?).map ExecutionSpace.pid
        = some es.pid

section Exit

variable {s : Sched}

/-- The slot, in the list before the removal, of the process the tick selects. -/
def slotAfterExit (c n : ℕ) : ℕ :=
  if (c + 1) % (n - 1) < c then (c + 1) % (n - 1) else (c + 1) % (n - 1) + 1

/-- **The tick selects the follower only if no one else is left.** -/
theorem slotAfterExit_eq_iff {c n : ℕ} (hc : c < n) (hn : 2 ≤ n) :
    slotAfterExit c n = (c + 1) % n ↔ n = 2 := by
  unfold slotAfterExit
  rcases Nat.lt_trichotomy (c + 1) (n - 1) with h | h | h
  · rw [Nat.mod_eq_of_lt h, Nat.mod_eq_of_lt (by omega)]
    split <;> omega
  · rw [h, Nat.mod_self, Nat.mod_eq_of_lt (by omega)]
    split <;> omega
  · obtain rfl : n = c + 1 := by omega
    rw [Nat.mod_self, Nat.add_sub_cancel]
    rcases Nat.lt_or_ge c 2 with h2 | h2
    · obtain rfl : c = 1 := by omega
      decide
    · rw [Nat.add_mod_left, Nat.mod_eq_of_lt (by omega)]
      split <;> omega

/-- The pid of the process the tick selects. -/
theorem pid_of_exitThenTick (hs : s.Wf) (h2 : 2 ≤ s.processes.length) {regs : ArchTaskRegisters}
    {es : ExecutionSpace} {s' : Sched} (h : exitThenTick regs s = some (es, s')) :
    (s.processes[slotAfterExit s.currentPidIndex s.processes.length]?).map ExecutionSpace.pid
      = some es.pid := by
  obtain ⟨s₁, es₁, s₁', -, heq, hproc, hset, hsel⟩ := exitThenTick_spec hs h2 regs
  obtain ⟨rfl, rfl⟩ := Prod.mk.inj (Option.some.inj (heq.symm.trans h))
  have hpids := map_pid_set (s := s₁) (i := s.currentPidIndex) (ExecutionSpace.pid_save _ regs)
  rw [← hset, hproc] at hpids
  have hslot := congrArg
    (fun l => l[(s.currentPidIndex + 1) % (s.processes.length - 1)]?) hpids
  simp only [List.getElem?_map, hsel, Option.map_some, List.getElem?_eraseIdx] at hslot
  rw [hslot, slotAfterExit]
  split <;> rfl

/-- **With two or more processes, an exit disturbs nobody exactly when one other is left, and the
tick's save either falls behind the end of the list or writes what is there already.** -/
theorem exitUndisturbed_iff (h : SchedReachable s) (h2 : 2 ≤ s.processes.length)
    (regs : ArchTaskRegisters) :
    ExitUndisturbed regs s ↔ s.processes.length = 2
      ∧ (s.currentPidIndex = 1 ∨ (s.get 1).ec.registers = regs) := by
  have hs := h.wf
  have hlt : s.currentPidIndex < s.processes.length := hs.inRange.resolve_right fun h => by
    simp [h.1] at h2
  obtain ⟨s₁, es, s', hcur, hexit, hproc, hset, -⟩ := exitThenTick_spec hs h2 regs
  have hpid := pid_of_exitThenTick hs h2 hexit
  have hfollower : (s.processes[(s.currentPidIndex + 1) % s.processes.length]?).map
      ExecutionSpace.pid = some es.pid ↔ s.processes.length = 2 := by
    rw [← hpid, ← slotAfterExit_eq_iff hlt h2, ← List.getElem?_map, ← List.getElem?_map]
    rw [List.getElem?_inj (by simpa using Nat.mod_lt _ (by omega)) hs.nodup, eq_comm]
  have hregs : s.processes.length = 2 →
      ((∀ p ∈ s.processes, p.pid ≠ (s.get s.currentPidIndex).pid →
        ∃ q ∈ s'.processes, q.pid = p.pid ∧ q.ec.registers = p.ec.registers)
      ↔ (s.currentPidIndex = 1 ∨ (s.get 1).ec.registers = regs)) := by
    intro hn
    obtain ⟨a, b, hab⟩ := List.length_eq_two.mp hn
    have hne : a.pid ≠ b.pid := by simpa [hab] using hs.nodup
    rcases (by omega : s.currentPidIndex = 0 ∨ s.currentPidIndex = 1) with hc | hc
    · -- The exiting process is first, and the tick saves over the survivor.
      have hget : s₁.get 0 = b := by simp [Sched.get, hproc, hab, hc]
      rw [hset, hproc, hc, hget, hab]
      simpa [Sched.get, hab, hne.symm] using eq_comm
    · -- It is last, and the save falls behind the survivor.
      rw [hset, hproc, hc, hab]
      simp [Sched.get, hab]
  constructor
  · rintro ⟨current, es₂, s₂, hcur₂, hexit₂, hkeep, hnext⟩
    obtain rfl := Option.some.inj (hcur.symm.trans hcur₂)
    obtain ⟨rfl, rfl⟩ := Prod.mk.inj (Option.some.inj (hexit.symm.trans hexit₂))
    have hn := hfollower.mp hnext
    exact ⟨hn, (hregs hn).mp hkeep⟩
  · rintro ⟨hn, hsave⟩
    exact ⟨_, es, s', hcur, hexit, (hregs hn).mpr hsave, hfollower.mpr hn⟩

end Exit

theorem reachable_freshProcesses : ∀ n ≤ maxPids, SchedReachable (freshProcesses n)
  | 0, _ => .prepare (s := freshProcesses 0) rfl
  | n + 1, h => by
      have halloc : schedAllocatePid (freshProcesses n) = some (BitVec.ofNat 32 n,
          { freshProcesses n with nextAvailablePid := n + 1 }) := if_neg (Nat.not_le_of_lt h)
      have hnext : freshProcesses (n + 1) = schedEnqueue (processOf (BitVec.ofNat 32 n)) true
          { freshProcesses n with nextAvailablePid := n + 1 } := by
        simp [freshProcesses, schedEnqueue, List.range_succ]
      rw [hnext]
      exact .step (reachable_freshProcesses n (Nat.le_of_lt h)) (.spawn default true halloc)

/-- The one survivor runs next, untouched, if its saved registers are the exiting ones. -/
theorem exitUndisturbed_two : ExitUndisturbed default (freshProcesses 2) :=
  (exitUndisturbed_iff (reachable_freshProcesses 2 (by decide)) (by decide) default).mpr
    ⟨by decide, Or.inr (by decide)⟩

/-- Of three processes the first exits: the third runs next, and the second has lost its
registers. -/
theorem not_exitUndisturbed_three :
    SchedReachable (freshProcesses 3) ∧ 2 ≤ (freshProcesses 3).processes.length
      ∧ ¬ ExitUndisturbed { (default : ArchTaskRegisters) with ip := 0x400000#64 }
          (freshProcesses 3) := by
  refine ⟨reachable_freshProcesses 3 (by decide), by decide, ?_⟩
  rintro ⟨current, es, s', -, hexit, -, hnext⟩
  have hpid : (exitThenTick { (default : ArchTaskRegisters) with ip := 0x400000#64 }
      (freshProcesses 3)).map (fun r => r.1.pid) = some 2#32 := by decide
  rw [hexit] at hpid
  rw [show es.pid = 2#32 from Option.some.inj hpid] at hnext
  exact absurd hnext (by decide)

/-! ## Runs with any removals -/

/-- A call on the scheduler. -/
inductive SchedOp
  | enqueue (es : ExecutionSpace) (pushed : Bool)
  | reschedule (regs : ArchTaskRegisters)
  | dequeue (pid : BitVec 32)

/-- The state after a call; the error of a reschedule leaves it as it was. -/
def SchedOp.apply : SchedOp → Sched → Sched
  | enqueue es pushed, s => schedEnqueue es pushed s
  | reschedule regs, s => ((schedReschedule regs s).map Prod.snd).getD s
  | dequeue pid, s => (schedDequeue List.eraseIdx pid s).2

/-- While there is a process, the index is the index of one. -/
def Sched.IndexOk (s : Sched) : Prop := s.processes ≠ [] → s.currentPidIndex < s.processes.length

/-- The removal of another process leaves the running one running. -/
def SchedOp.KeepsCurrent (s : Sched) : SchedOp → Prop
  | dequeue pid => ∀ current, schedCurrent s = some current → pid ≠ current.pid →
      schedCurrent ((dequeue pid).apply s) = some current
  | _ => True

/-- Both, in every state of a run. -/
def RunOk : List SchedOp → Sched → Prop
  | [], s => s.IndexOk
  | op :: ops, s => s.IndexOk ∧ op.KeepsCurrent s ∧ RunOk ops (op.apply s)

/-- **The removals that do no harm**: of no process, of the only one, of the running one if another
is queued behind it, and of one that is itself queued behind the running one. -/
def DequeueFits (pid : BitVec 32) (s : Sched) : Prop :=
  ∀ i, s.processes.findIdx? (fun es => es.pid = pid) = some i →
    s.processes.length = 1
      ∨ if pid = (s.get s.currentPidIndex).pid then s.currentPidIndex + 1 < s.processes.length
        else s.currentPidIndex < i

/-- Every removal of a run does no harm where it is made. -/
def RunFits : List SchedOp → Sched → Prop
  | [], _ => True
  | op :: ops, s => (∀ pid, op = .dequeue pid → DequeueFits pid s) ∧ RunFits ops (op.apply s)

/-- The invariant: the index is in range, or nothing is queued and it is zero. -/
def Sched.InRange (s : Sched) : Prop :=
  s.currentPidIndex < s.processes.length ∨ s.processes = [] ∧ s.currentPidIndex = 0

section Runs

variable {s : Sched} {pid : BitVec 32} {i : ℕ}

theorem Sched.InRange.indexOk (h : s.InRange) : s.IndexOk := fun hne =>
  h.resolve_right fun h0 => hne h0.1

/-- What a removal that finds its process does to the list and the index. -/
theorem apply_dequeue_spec (hfind : s.processes.findIdx? (fun es => es.pid = pid) = some i) :
    i < s.processes.length ∧ (s.get i).pid = pid
      ∧ ((SchedOp.dequeue pid).apply s).processes = s.processes.eraseIdx i
      ∧ ((SchedOp.dequeue pid).apply s).processes.length = s.processes.length - 1
      ∧ ((SchedOp.dequeue pid).apply s).currentPidIndex = s.currentPidIndex := by
  obtain ⟨hi, hpid⟩ := Sched.of_findIdx? hfind
  obtain ⟨-, hproc, hidx, -⟩ := schedDequeue_of_findIdx? List.eraseIdx hfind
  exact ⟨hi, hpid, hproc,
    (congrArg List.length hproc).trans (List.length_eraseIdx_of_lt hi), hidx⟩

/-- After a removal the running process is the one that stood at the index, or right behind it. -/
theorem schedCurrent_apply_dequeue
    (hfind : s.processes.findIdx? (fun es => es.pid = pid) = some i)
    (hlt : s.currentPidIndex < s.processes.length - 1) :
    schedCurrent ((SchedOp.dequeue pid).apply s)
      = if s.currentPidIndex < i then s.processes[s.currentPidIndex]?
        else s.processes[s.currentPidIndex + 1]? := by
  obtain ⟨-, -, hproc, hlen, hidx⟩ := apply_dequeue_spec hfind
  rw [schedCurrent_of_lt (by rw [hidx, hlen]; exact hlt), hidx, hproc, List.getElem?_eraseIdx]

/-- **A removal that fits keeps the index in range and the running process running.** -/
theorem DequeueFits.step (hs : s.InRange) (hfit : DequeueFits pid s) :
    ((SchedOp.dequeue pid).apply s).InRange ∧ (SchedOp.dequeue pid).KeepsCurrent s := by
  cases hfind : s.processes.findIdx? (fun es => es.pid = pid) with
  | none =>
    have heq : (SchedOp.dequeue pid).apply s = s := by
      rw [SchedOp.apply, schedDequeue_of_none _ hfind]
    exact ⟨by rwa [heq], fun current hcur _ => by rwa [heq]⟩
  | some i =>
    obtain ⟨hi, hpid, hproc, hlen, hidx⟩ := apply_dequeue_spec hfind
    have hlt : s.currentPidIndex < s.processes.length := hs.resolve_right fun h => by
      simp [h.1] at hi
    have hcur : schedCurrent s = some (s.get s.currentPidIndex) := if_neg (by omega)
    rcases hfit i hfind with hone | hfit
    · -- The only process: its slot is the index.
      obtain ⟨rfl, hz⟩ : i = s.currentPidIndex ∧ s.currentPidIndex = 0 := by omega
      refine ⟨Or.inr ⟨List.eq_nil_of_length_eq_zero (by omega), hidx.trans hz⟩,
        fun current hc hne => ?_⟩
      obtain rfl := Option.some.inj (hcur.symm.trans hc)
      exact absurd hpid.symm hne
    · split at hfit
      case isTrue heq =>
        refine ⟨Or.inl (by rw [hidx, hlen]; omega), fun current hc hne => ?_⟩
        obtain rfl := Option.some.inj (hcur.symm.trans hc)
        exact absurd heq hne
      case isFalse =>
        refine ⟨Or.inl (by rw [hidx, hlen]; omega), fun current hc _ => ?_⟩
        rw [schedCurrent_apply_dequeue hfind (by omega), if_pos hfit, ← schedCurrent_of_lt hlt, hc]

/-- **…and under distinct pids no other removal does.** -/
theorem dequeueFits_iff (hs : s.InRange) (hn : (s.processes.map ExecutionSpace.pid).Nodup) :
    ((SchedOp.dequeue pid).apply s).IndexOk ∧ (SchedOp.dequeue pid).KeepsCurrent s
      ↔ DequeueFits pid s := by
  refine ⟨fun ⟨hok, hkeep⟩ i hfind => ?_, fun hfit => (hfit.step hs).imp_left Sched.InRange.indexOk⟩
  obtain ⟨hi, hpid, -, hlen, hidx⟩ := apply_dequeue_spec hfind
  have hlt : s.currentPidIndex < s.processes.length := hs.resolve_right fun h => by
    simp [h.1] at hi
  refine or_iff_not_imp_left.mpr fun hmany => ?_
  have hstill : s.currentPidIndex < s.processes.length - 1 := by
    have := hok (List.ne_nil_of_length_pos (by omega))
    rwa [hidx, hlen] at this
  split
  case isTrue => omega
  case isFalse hne =>
    -- Were it queued before the running process, the one behind would run now.
    by_contra hle
    have hcur := hkeep _ (if_neg (by omega)) hne
    rw [schedCurrent_apply_dequeue hfind hstill, if_neg hle,
      Sched.getElem?_of_lt (by omega)] at hcur
    have := eq_of_pid_eq hn (by omega) hlt (congrArg ExecutionSpace.pid (Option.some.inj hcur))
    omega

/-- The calls that remove nothing keep the index in range. -/
theorem Sched.InRange.apply (hs : s.InRange) {op : SchedOp}
    (hfit : ∀ pid, op = .dequeue pid → DequeueFits pid s) :
    (op.apply s).InRange ∧ op.KeepsCurrent s := by
  cases op with
  | dequeue pid => exact (hfit pid rfl).step hs
  | enqueue es pushed =>
    refine ⟨?_, trivial⟩
    cases pushed with
    | false => exact hs
    | true =>
      refine Or.inl ?_
      rcases hs with hlt | ⟨hnil, hz⟩
      · simpa [SchedOp.apply, schedEnqueue] using Nat.lt_succ_of_lt hlt
      · simp [SchedOp.apply, schedEnqueue, hnil, hz]
  | reschedule regs =>
    refine ⟨?_, trivial⟩
    by_cases hz : s.processes.length = 0
    · simpa [SchedOp.apply, schedReschedule, hz] using hs
    · obtain ⟨es, s', heq, hproc, hidx, -⟩ := schedReschedule_spec (Nat.pos_of_ne_zero hz) regs
      refine Or.inl ?_
      simp only [SchedOp.apply, heq, Option.map_some, Option.getD_some]
      rw [hidx, hproc, List.length_set]
      exact Nat.mod_lt _ (Nat.pos_of_ne_zero hz)

theorem RunFits.runOk {ops : List SchedOp} (hs : s.InRange) (h : RunFits ops s) : RunOk ops s := by
  induction ops generalizing s with
  | nil => exact hs.indexOk
  | cons op ops ih =>
    obtain ⟨hin, hkeep⟩ := hs.apply h.1
    exact ⟨hs.indexOk, hkeep, ih hin h.2⟩

/-- **From `sched_prepare` on, in every run whose removals all fit, the index names a live process
in every state and the removal of another leaves it running.**  Under distinct pids, a removal
that does not fit breaks one or the other on the spot. -/
theorem runOk_of_runFits (h0 : s.currentPidIndex = 0) :
    (∀ ops, RunFits ops (schedPrepare s) → RunOk ops (schedPrepare s))
      ∧ ∀ (s : Sched) (pid : BitVec 32), s.InRange →
        (s.processes.map ExecutionSpace.pid).Nodup →
        (((SchedOp.dequeue pid).apply s).IndexOk ∧ (SchedOp.dequeue pid).KeepsCurrent s
          ↔ DequeueFits pid s) :=
  ⟨fun _ h => h.runOk (Or.inr ⟨rfl, h0⟩), fun _ _ => dequeueFits_iff⟩

end Runs

/-- Two processes, and the one behind the running one is removed. -/
theorem runOk_dequeue_last :
    RunOk [.enqueue (processOf 0#32) true, .enqueue (processOf 1#32) true, .dequeue 1#32]
      (schedPrepare (freshProcesses 0)) := by
  refine (runOk_of_runFits (s := freshProcesses 0) rfl).1 _ ⟨by simp, by simp, ?_, trivial⟩
  rintro pid ⟨⟩ i hi
  obtain rfl : 1 = i := Option.some.inj hi
  exact Or.inr (by decide)

/-- Two processes, the second runs, and the first is removed: the index is past the end. -/
theorem not_runOk_dequeue_first :
    ¬ RunOk [.enqueue (processOf 0#32) true, .enqueue (processOf 1#32) true, .reschedule default,
      .dequeue 0#32] (schedPrepare (freshProcesses 0)) := by
  rintro ⟨-, -, -, -, -, -, -, -, hok⟩
  exact absurd (hok (by decide)) (by decide)

end MoonOS

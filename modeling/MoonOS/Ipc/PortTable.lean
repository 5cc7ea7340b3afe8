import MoonOS.Ipc.Ports

/-!
# Ipc/PortTable — the keys processes leave behind

An exit takes a process out of the table and leaves its key in `port_to_pid`.

* `alwaysPortsLive_iff` — over any run, every key is the port of a process in the table, in every
  state, exactly when no process leaves its port behind (`TableEvent.KeepsPortsLive`);
* `portToPid_kept` — whatever the run, a key stays for good and stays true: it is the port of the
  process it leads to as long as there is one, and after that nobody gets the port or an answer.

Both follow from what one event does to the two tables, `TableEvent.Effect`.
-/

namespace MoonOS

open GuardedRun

/-! ## Ports left behind -/

/-- **Every key of `port_to_pid` is the port of a process in the table.** -/
def Kernel.PortsLive (k : Kernel) : Prop :=
  ∀ port pid, k.portToPid port = some pid → ∃ es ∈ k.sched.processes, es.pid = pid ∧ es.port = port

/-- What happens to the two tables: `sys_create_process`, with the process if one is made and
whether the table had room for it; `ipc_assign_port` for a process in the table; an exit. -/
inductive TableEvent
  | create (made : Option ExecutionSpace) (port : BitVec 32) (pushed : Bool)
  | assign (i : ℕ) (port : BitVec 32)
  | exit (pid : BitVec 32)

/-- `create_execution_space`, as far as the tables go: it takes a pid, and makes a process or fails
some way or other. -/
def createTables (made : Option ExecutionSpace) (k : Kernel) :
    Option (Except String ExecutionSpace × Kernel) :=
  (schedAllocatePid k.sched).map fun (pid, sched) =>
    (made.elim (.error "failed") fun space => .ok { space with pid, port := -1#32 },
      { k with sched })

/-- One event.  A process that gets no port is not enqueued; `sys_exit` panics when its process is
not in the table. -/
def TableEvent.apply (emptyQueue : BitVec 64) (k : Kernel) : TableEvent → Option Kernel
  | .create made port pushed =>
    (createProcess (createTables made)
      (fun space port k => some (assignPort emptyQueue space port k))
      (fun space k => { k with sched := schedEnqueue space pushed k.sched }) port k).map Prod.snd
  | .assign i port =>
    k.sched.processes[i]?.map fun space =>
      let (_, space, k) := assignPort emptyQueue space port k
      { k with sched := k.sched.set i space }
  | .exit pid =>
    match schedDequeue (fun processes _ => processes.dropLast) pid k.sched with
    | (status, sched) => if status ≠ 0#32 then none else some { k with sched }

/-- **An event that leaves no port behind**: a process that got a port finds room in the table, a
process that gets one has not been given the port `-1` before, and the process that is dropped has
none. -/
def TableEvent.KeepsPortsLive (k : Kernel) : TableEvent → Prop
  | .create none _ _ => True
  | .create (some _) port pushed => k.portToPid port = none → pushed = true
  | .assign i port => (k.sched.get i).port = -1#32 → k.portToPid port = none →
      k.portToPid (-1#32) ≠ some (k.sched.get i).pid
  | .exit _ => ∀ es ∈ k.sched.processes.getLast?, k.portToPid es.port ≠ some es.pid

instance (k : Kernel) : (e : TableEvent) → Decidable (e.KeepsPortsLive k)
  | .create none _ _ => inferInstanceAs (Decidable True)
  | .create (some _) _ _ => inferInstanceAs (Decidable (_ → _))
  | .assign _ _ => inferInstanceAs (Decidable (_ → _ → _))
  | .exit _ => inferInstanceAs (Decidable (∀ es ∈ k.sched.processes.getLast?, _))

/-- The pids in the table are distinct and handed out. -/
def Kernel.PidsOk (k : Kernel) : Prop :=
  PidsBelow (k.sched.processes.map ExecutionSpace.pid) k.sched.nextAvailablePid

section Live

variable {emptyQueue : BitVec 64} {k k' : Kernel} {space : ExecutionSpace} {port pid : BitVec 32}
  {i : ℕ}

/-- A port that no process in the table has is free: it can be assigned, and a send to it is
rejected as unknown. -/
theorem Kernel.PortsLive.free (hk : k.PortsLive)
    (hport : ∀ es ∈ k.sched.processes, es.port ≠ port) :
    k.portToPid port = none
      ∧ (space.port = -1#32 → (assignPort emptyQueue space port k).1 = true)
      ∧ ∀ toPort payload payloadSize : BitVec 64, toPort.setWidth 32 = port →
          ipcSend toPort payload payloadSize k = some (none, k) := by
  have hfree : k.portToPid port = none := by
    cases hkey : k.portToPid port with
    | none => rfl
    | some pid =>
      obtain ⟨es, hes, -, heq⟩ := hk port pid hkey
      exact absurd heq (hport es hes)
  refine ⟨hfree, fun hspace => ?_, fun toPort payload payloadSize hto => ?_⟩
  · rw [assignPort_of_free hspace hfree]
  · rw [ipcSend, hto, hfree]

/-- A creation with its pid. -/
theorem TableEvent.apply_create {sched : Sched} {made : Option ExecutionSpace} {pushed : Bool}
    (halloc : schedAllocatePid k.sched = some (pid, sched)) :
    (TableEvent.create made port pushed).apply emptyQueue k
      = some (match made with
        | none => { k with sched }
        | some space =>
          let (assigned, space, k) :=
            assignPort emptyQueue { space with pid, port := -1#32 } port { k with sched }
          if assigned then { k with sched := schedEnqueue space pushed k.sched } else k) := by
  rw [TableEvent.apply, createProcess, createTables, halloc]
  cases made with
  | none => rfl
  | some space =>
    simp only [Option.map_some, Option.bind_some, Option.elim_some]
    split <;> rfl

/-- **`create` is what the code does**: an attempt to make a process, with `sched_enqueue` behind
it if there is one, does to the two tables what the event does. -/
theorem TableEvent.apply_create_of_spawn {hhdm kernelPagemap : BitVec 64} {w w' : Machine}
    {request : SpawnRequest} {made : Option ExecutionSpace}
    (h : spawn hhdm kernelPagemap emptyQueue request w = some (made, w')) (pushed : Bool) :
    ∃ space k', (TableEvent.create space request.port pushed).apply emptyQueue w.kernel = some k'
      ∧ k'.portToPid = w'.kernel.portToPid
      ∧ k'.sched = made.elim w'.kernel.sched fun es => schedEnqueue es pushed w'.kernel.sched := by
  obtain ⟨⟨result, w₁⟩, hcreate, h⟩ := Option.bind_eq_some_iff.mp h
  obtain ⟨pid, halloc, hports, hmade⟩ := createExecutionSpace_tables hcreate
  cases result with
  | error message =>
    obtain ⟨rfl, rfl⟩ := Prod.mk.inj (Option.some.inj h)
    exact ⟨none, { w.kernel with sched := w₁.kernel.sched }, TableEvent.apply_create halloc,
      hports.symm, rfl⟩
  | ok es =>
    obtain ⟨⟨assigned, es', w₂⟩, hassign, h⟩ := Option.map_eq_some_iff.mp h
    obtain ⟨rfl, rfl⟩ := Prod.mk.inj h
    obtain ⟨k₁, htables, hsched, hports₂⟩ := ipcAssignPort_tables hassign
    obtain ⟨rfl, hport⟩ := hmade es rfl
    by_cases hfree : w.kernel.portToPid request.port = none
    · rw [assignPort_of_free hport (by rw [hports]; exact hfree)] at htables
      simp only [Prod.mk.injEq] at htables
      obtain ⟨rfl, rfl, rfl⟩ := htables
      refine ⟨some es, { w.kernel with
        sched := schedEnqueue { es with port := request.port, messageQueue := emptyQueue } pushed
          w₁.kernel.sched
        portToPid := Function.update w.kernel.portToPid request.port (some es.pid) }, ?_, ?_, ?_⟩
      · rw [TableEvent.apply_create halloc]
        dsimp only
        rw [assignPort_of_free (by rfl) (by exact hfree)]
        rfl
      · rw [hports₂, hports]
      · rw [hsched]
        rfl
    · have htaken : ¬ (es.port = -1#32 ∧ w₁.kernel.portToPid request.port = none) := by
        rw [hports]
        exact fun hboth => hfree hboth.2
      rw [assignPort_of_taken htaken] at htables
      simp only [Prod.mk.injEq] at htables
      obtain ⟨rfl, rfl, rfl⟩ := htables
      refine ⟨some es, { w.kernel with sched := w₁.kernel.sched }, ?_, ?_, ?_⟩
      · rw [TableEvent.apply_create halloc]
        dsimp only
        rw [assignPort_of_taken (by exact fun hboth => hfree hboth.2)]
        rfl
      · rw [hports₂, hports]
      · rw [hsched]
        rfl

/-- **What an event does to the tables.** -/
inductive TableEvent.Effect (k k' : Kernel) : TableEvent → Prop
  /-- Nothing but that a pid may be gone. -/
  | none {e : TableEvent} (hkeeps : e.KeepsPortsLive k) (hports : k'.portToPid = k.portToPid)
      (hproc : k'.sched.processes = k.sched.processes)
      (hpids : ∀ {pids}, PidsBelow pids k.sched.nextAvailablePid →
        PidsBelow pids k'.sched.nextAvailablePid) : Effect k k' e
  /-- A process with a new pid gets a free port, and a slot if there is room. -/
  | made {space : ExecutionSpace} (es : ExecutionSpace) {port : BitVec 32} {pushed : Bool}
      {sched : Sched} (halloc : schedAllocatePid k.sched = some (es.pid, sched))
      (hport : es.port = port)
      (hfree : k.portToPid port = Option.none)
      (hports : k'.portToPid = Function.update k.portToPid port (some es.pid))
      (hproc : k'.sched.processes
        = if pushed then k.sched.processes ++ [es] else k.sched.processes)
      (hpids : ∀ {pids}, PidsBelow pids k.sched.nextAvailablePid →
        PidsBelow (es.pid :: pids) k'.sched.nextAvailablePid) :
      Effect k k' (.create (some space) port pushed)
  /-- A process in the table gets a free port. -/
  | assigned (es : ExecutionSpace) {i : ℕ} {port : BitVec 32} (hi : i < k.sched.processes.length)
      (hmarked : (k.sched.get i).port = -1#32) (hpid : es.pid = (k.sched.get i).pid)
      (hport : es.port = port) (hfree : k.portToPid port = Option.none)
      (hports : k'.portToPid = Function.update k.portToPid port (some es.pid))
      (hproc : k'.sched.processes = k.sched.processes.set i es)
      (hnext : k'.sched.nextAvailablePid = k.sched.nextAvailablePid) :
      Effect k k' (.assign i port)
  /-- The last process is dropped. -/
  | exited (last : ExecutionSpace) {pid : BitVec 32} (hports : k'.portToPid = k.portToPid)
      (hproc : k.sched.processes = k'.sched.processes ++ [last])
      (hnext : k'.sched.nextAvailablePid = k.sched.nextAvailablePid) :
      Effect k k' (.exit pid)

theorem TableEvent.effect_create {made : Option ExecutionSpace} {pushed : Bool}
    (h : (TableEvent.create made port pushed).apply emptyQueue k = some k') :
    (TableEvent.create made port pushed).Effect k k' := by
  obtain ⟨⟨pid, sched⟩, halloc⟩ : ∃ new, schedAllocatePid k.sched = some new := by
    cases halloc : schedAllocatePid k.sched with
    | none => simp [TableEvent.apply, createProcess, createTables, halloc] at h
    | some new => exact ⟨new, rfl⟩
  rw [TableEvent.apply_create halloc] at h
  obtain rfl := Option.some.inj h
  have hnew : ∀ {pids}, PidsBelow pids k.sched.nextAvailablePid →
      PidsBelow (pid :: pids) sched.nextAvailablePid := fun hpids => hpids.allocate halloc
  have hold : ∀ {pids}, PidsBelow pids k.sched.nextAvailablePid →
      PidsBelow pids sched.nextAvailablePid :=
    fun hpids => (hnew hpids).subperm (List.sublist_cons_self ..).subperm
  have hproc : sched.processes = k.sched.processes := by
    obtain ⟨-, -, rfl⟩ := schedAllocatePid_eq_some halloc
    rfl
  cases made with
  | none => exact .none trivial rfl hproc hold
  | some space =>
    dsimp only
    by_cases hfree : k.portToPid port = none
    · rw [assignPort_of_free (by rfl) (by exact hfree)]
      let es : ExecutionSpace := { space with pid, port, messageQueue := emptyQueue }
      cases pushed with
      | false => exact .made es halloc rfl hfree rfl hproc hnew
      | true => exact .made es halloc rfl hfree rfl (congrArg (· ++ [es]) hproc) hnew
    · rw [assignPort_of_taken (by exact fun hboth => hfree hboth.2)]
      exact .none (fun hnone => absurd hnone hfree) rfl hproc hold

theorem TableEvent.effect_assign (h : (TableEvent.assign i port).apply emptyQueue k = some k') :
    (TableEvent.assign i port).Effect k k' := by
  obtain ⟨space, hspace, rfl⟩ := Option.map_eq_some_iff.mp h
  have hi : i < k.sched.processes.length := (List.getElem?_eq_some_iff.mp hspace).1
  obtain rfl : k.sched.get i = space :=
    Option.some.inj ((Sched.getElem?_of_lt hi).symm.trans hspace)
  by_cases hfree : (k.sched.get i).port = -1#32 ∧ k.portToPid port = none
  · rw [assignPort_of_free hfree.1 hfree.2]
    exact .assigned { k.sched.get i with port, messageQueue := emptyQueue } hi hfree.1 rfl rfl
      hfree.2 rfl (Sched.processes_set ..) (Sched.nextAvailablePid_set ..)
  · rw [assignPort_of_taken hfree]
    dsimp only
    rw [Sched.set_get_self hi]
    exact .none (fun hnone hport => absurd ⟨hnone, hport⟩ hfree) rfl rfl id

theorem TableEvent.effect_exit (h : (TableEvent.exit pid).apply emptyQueue k = some k') :
    (TableEvent.exit pid).Effect k k' := by
  cases hfind : k.sched.processes.findIdx? (fun es => es.pid = pid) with
  | none =>
    rw [TableEvent.apply, schedDequeue_of_none _ hfind] at h
    cases h
  | some i =>
    obtain ⟨hok, hproc, -, hnext⟩ :=
      schedDequeue_of_findIdx? (fun processes _ => processes.dropLast) hfind
    rw [TableEvent.apply] at h
    dsimp only at h
    rw [if_neg (by simp [hok])] at h
    obtain rfl := Option.some.inj h
    have hne : k.sched.processes ≠ [] :=
      List.length_pos_iff.mp (Nat.zero_lt_of_lt (Sched.of_findIdx? hfind).1)
    refine .exited (k.sched.processes.getLast hne) rfl ?_ hnext
    rw [hproc, List.dropLast_append_getLast]

theorem TableEvent.effect {e : TableEvent} (h : e.apply emptyQueue k = some k') :
    e.Effect k k' := by
  cases e with
  | create made port pushed => exact effect_create h
  | assign i port => exact effect_assign h
  | exit pid => exact effect_exit h

/-- Every event keeps the pids distinct. -/
theorem Kernel.PidsOk.step (hpids : k.PidsOk) {e : TableEvent} (he : e.Effect k k') :
    k'.PidsOk := by
  unfold Kernel.PidsOk
  cases he with
  | none _ _ hproc hnext =>
    rw [hproc]
    exact hnext hpids
  | made es _ _ _ _ hproc hnew =>
    rw [hproc]
    split
    case isFalse => exact (hnew hpids).subperm (List.sublist_cons_self ..).subperm
    case isTrue =>
      refine (hnew hpids).subperm (List.Perm.subperm ?_)
      rw [List.map_append]
      exact List.perm_append_singleton ..
  | assigned es hi _ hpid _ _ _ hproc hnext =>
    rw [hproc, hnext, map_set_of_eq (Sched.getElem?_of_lt hi) hpid]
    exact hpids
  | exited last _ hproc hnext =>
    rw [Kernel.PidsOk, hproc, List.map_append] at hpids
    rw [hnext]
    exact PidsBelow.subperm hpids (List.sublist_append_left ..).subperm

/-- A key that was there stays, and leads where it led. -/
theorem TableEvent.Effect.key {e : TableEvent} (he : e.Effect k k')
    (hkey : k.portToPid port = some pid) : k'.portToPid port = some pid := by
  have hother : ∀ {port' pid'}, k.portToPid port' = Option.none →
      Function.update k.portToPid port' (some pid') port = some pid := by
    intro port' pid' hfree
    rw [Function.update_of_ne (by rintro rfl; simp [hfree] at hkey)]
    exact hkey
  cases he with
  | none _ hports _ _ => rw [hports, hkey]
  | made _ _ _ hfree hports _ _ => rw [hports, hother hfree]
  | assigned _ _ _ _ _ hfree hports _ _ => rw [hports, hother hfree]
  | exited _ hports _ _ => rw [hports, hkey]

/-- One more key. -/
theorem portsLive_iff_of_update
    (hports : k'.portToPid = Function.update k.portToPid port (some pid)) :
    k'.PortsLive ↔ (∃ es ∈ k'.sched.processes, es.pid = pid ∧ es.port = port)
      ∧ ∀ port' ≠ port, ∀ pid', k.portToPid port' = some pid' →
        ∃ es ∈ k'.sched.processes, es.pid = pid' ∧ es.port = port' := by
  unfold Kernel.PortsLive
  rw [hports]
  constructor
  · intro h
    refine ⟨h port pid (Function.update_self ..), fun port' hne pid' hkey => h port' pid' ?_⟩
    rw [Function.update_of_ne hne, hkey]
  · rintro ⟨hnew, hold⟩ port' pid' hkey
    by_cases hport : port' = port
    · subst hport
      rw [Function.update_self, Option.some.injEq] at hkey
      exact hkey ▸ hnew
    · rw [Function.update_of_ne hport] at hkey
      exact hold port' hport pid' hkey

/-- **An event leaves every key the port of a process in the table exactly when it leaves no port
behind.** -/
theorem Kernel.PortsLive.step (hk : k.PortsLive) (hpids : k.PidsOk) {e : TableEvent}
    (he : e.Effect k k') : k'.PortsLive ↔ e.KeepsPortsLive k := by
  have hpids' := hpids.step he
  cases he with
  | none hkeeps hports hproc _ =>
    refine iff_of_true ?_ hkeeps
    rw [Kernel.PortsLive, hports, hproc]
    exact hk
  | @made _ es port pushed _ _ hport hfree hports hproc hnew =>
    rw [portsLive_iff_of_update hports, hproc]
    cases pushed with
    | false =>
      -- The key is there, and no process of that pid.
      refine iff_of_false ?_ fun hpush => absurd (hpush hfree) (by decide)
      rintro ⟨⟨es', hes', hpid, -⟩, -⟩
      exact (List.nodup_cons.mp (hnew hpids).nodup).1 (hpid ▸ List.mem_map_of_mem hes')
    | true =>
      refine iff_of_true ⟨⟨es, by simp, rfl, hport⟩, fun port' _ pid' hkey => ?_⟩ fun _ => rfl
      obtain ⟨es', hes', hmatch⟩ := hk port' pid' hkey
      exact ⟨es', List.mem_append_left _ hes', hmatch⟩
  | @assigned es i port hi hmarked hpid hport hfree hports hproc hnext =>
    have hmem : es ∈ k.sched.processes.set i es := List.mem_set hi es
    rw [portsLive_iff_of_update hports, hproc, and_iff_right ⟨es, hmem, rfl, hport⟩]
    constructor
    · -- The pid is that of slot `i` only, whose port is another now.
      intro hold _ _ hkey
      have hne : -1#32 ≠ port := fun heq => by simp [heq, hfree] at hkey
      obtain ⟨es', hes', hpid', hport'⟩ := hold _ hne _ hkey
      rw [Kernel.PidsOk, hproc] at hpids'
      obtain rfl := List.inj_on_of_nodup_map hpids'.nodup hes' hmem (hpid'.trans hpid.symm)
      exact hne (hport'.symm.trans hport)
    · intro hcond port' _ pid' hkey
      obtain ⟨es', hes', rfl, rfl⟩ := hk port' pid' hkey
      obtain ⟨j, hj⟩ := List.mem_iff_getElem?.mp hes'
      have hji : i ≠ j := by
        rintro rfl
        obtain rfl := Option.some.inj ((Sched.getElem?_of_lt hi).symm.trans hj)
        exact hcond hmarked hfree (hmarked ▸ hkey)
      exact ⟨es', List.mem_of_getElem? ((List.getElem?_set_ne hji).trans hj), rfl, rfl⟩
  | exited last hports hproc hnext =>
    rw [Kernel.PortsLive, hports, TableEvent.KeepsPortsLive, hproc, List.getLast?_concat]
    constructor
    · rintro hlive es hes hkey
      obtain rfl := Option.some.inj hes
      obtain ⟨es', hes', hpid, -⟩ := hlive _ _ hkey
      have hnodup := hpids.nodup
      rw [hproc, List.map_append, List.map_singleton] at hnodup
      exact List.disjoint_of_nodup_append hnodup (List.mem_map_of_mem hes') (by simp [hpid])
    · rintro hcond port pid hkey
      obtain ⟨es, hes, rfl, rfl⟩ := hk port pid hkey
      rw [hproc] at hes
      rcases List.mem_append.mp hes with hes | hes
      · exact ⟨es, hes, rfl, rfl⟩
      · obtain rfl := List.mem_singleton.mp hes
        exact absurd hkey (hcond es rfl)

/-- **Over any run of creations, assignments and exits, every key of `port_to_pid` is the port of a
process in the table, in every state, exactly when no event leaves a port behind.** -/
theorem alwaysPortsLive_iff (hpids : k.PidsOk) (hk : k.PortsLive) (events : List TableEvent) :
    Always (TableEvent.apply emptyQueue) Kernel.PortsLive events k
      ↔ Guarded (TableEvent.apply emptyQueue) (fun k e => e.KeepsPortsLive k) events k :=
  always_iff_guarded
    (fun _ _ _ hpids hk h =>
      ⟨hpids.step (TableEvent.effect h), hk.step hpids (TableEvent.effect h)⟩)
    hpids hk

/-! ## What a key says

A key outlives its process.  What it says stays true all the same: it is the port of the process it
leads to, as long as there is one. -/

/-- **A key leads to a pid that was handed out, and a process of that pid has that port.**  The port
`-1` is the mark of a process without one, so whoever has it can be given a second. -/
def Kernel.KeysOk (k : Kernel) : Prop :=
  ∀ port pid, k.portToPid port = some pid → pid.toNat < k.sched.nextAvailablePid
    ∧ ∀ es ∈ k.sched.processes, es.pid = pid → es.port = port ∨ port = -1#32

theorem Kernel.KeysOk.pidsBelow (hk : k.KeysOk) (hpids : k.PidsOk)
    (hkey : k.portToPid port = some pid) : PidsBelow [pid] k.sched.nextAvailablePid :=
  ⟨List.nodup_singleton _, List.forall_mem_singleton.mpr (hk port pid hkey).1, hpids.bounded⟩

/-- A new process has its port, and is none of those the other keys lead to. -/
theorem Kernel.KeysOk.made (hk : k.KeysOk) (hpids : k.PidsOk) {es : ExecutionSpace}
    (hport : es.port = port)
    (hports : k'.portToPid = Function.update k.portToPid port (some es.pid))
    (hproc : ∀ es' ∈ k'.sched.processes, es' ∈ k.sched.processes ∨ es' = es)
    (hnew : ∀ {pids}, PidsBelow pids k.sched.nextAvailablePid →
      PidsBelow (es.pid :: pids) k'.sched.nextAvailablePid) : k'.KeysOk := by
  intro port' pid' hkey
  rw [hports] at hkey
  by_cases hsame : port' = port
  · subst hsame
    rw [Function.update_self, Option.some.injEq] at hkey
    subst hkey
    refine ⟨(hnew hpids).below _ List.mem_cons_self, fun es' hes' hpid => ?_⟩
    rcases hproc es' hes' with hold | rfl
    · exact absurd (hpid ▸ List.mem_map_of_mem hold) (List.nodup_cons.mp (hnew hpids).nodup).1
    · exact Or.inl hport
  · rw [Function.update_of_ne hsame] at hkey
    have hbelow := hnew (hk.pidsBelow hpids hkey)
    refine ⟨hbelow.below _ (by simp), fun es' hes' hpid => ?_⟩
    rcases hproc es' hes' with hold | rfl
    · exact (hk port' pid' hkey).2 es' hold hpid
    · exact absurd (hpid ▸ List.mem_singleton_self _) (List.nodup_cons.mp hbelow.nodup).1

/-- A process that gets a port had none, or `-1`. -/
theorem Kernel.KeysOk.assigned (hk : k.KeysOk) (hpids : k'.PidsOk) {es : ExecutionSpace}
    (hi : i < k.sched.processes.length) (hmarked : (k.sched.get i).port = -1#32)
    (hpid : es.pid = (k.sched.get i).pid) (hport : es.port = port)
    (hports : k'.portToPid = Function.update k.portToPid port (some es.pid))
    (hproc : k'.sched.processes = k.sched.processes.set i es)
    (hnext : k'.sched.nextAvailablePid = k.sched.nextAvailablePid) : k'.KeysOk := by
  have hmem : es ∈ k'.sched.processes := hproc ▸ List.mem_set hi es
  intro port' pid' hkey
  rw [hports] at hkey
  by_cases hsame : port' = port
  · subst hsame
    rw [Function.update_self, Option.some.injEq] at hkey
    subst hkey
    refine ⟨hpids.below _ (List.mem_map_of_mem hmem), fun es' hes' hpid' => ?_⟩
    obtain rfl := List.inj_on_of_nodup_map hpids.nodup hes' hmem hpid'
    exact Or.inl hport
  · rw [Function.update_of_ne hsame] at hkey
    obtain ⟨hbelow, hold⟩ := hk port' pid' hkey
    refine ⟨hnext ▸ hbelow, fun es' hes' hpid' => ?_⟩
    rw [hproc] at hes'
    rcases List.mem_or_eq_of_mem_set hes' with hes' | rfl
    · exact hold es' hes' hpid'
    · -- The slot was marked, so the only key it can have had is the mark.
      rcases hold _ (Sched.get_mem hi) (hpid.symm.trans hpid') with hold | hold
      · exact Or.inr (hold.symm.trans hmarked)
      · exact Or.inr hold

/-- **Every event keeps the keys true.** -/
theorem Kernel.KeysOk.step (hk : k.KeysOk) (hpids : k.PidsOk) {e : TableEvent}
    (he : e.Effect k k') : k'.KeysOk := by
  have hpids' := hpids.step he
  cases he with
  | none _ hports hproc hnext =>
    intro port' pid' hkey
    rw [hports] at hkey
    rw [hproc]
    exact ⟨(hnext (hk.pidsBelow hpids hkey)).below _ (List.mem_singleton_self _),
      (hk port' pid' hkey).2⟩
  | made es _ hport _ hports hproc hnew =>
    refine hk.made hpids hport hports (fun es' hes' => ?_) hnew
    rw [hproc] at hes'
    split at hes'
    · simpa using hes'
    · exact Or.inl hes'
  | assigned es hi hmarked hpid hport _ hports hproc hnext =>
    exact hk.assigned hpids' hi hmarked hpid hport hports hproc hnext
  | exited last hports hproc hnext =>
    intro port' pid' hkey
    rw [hports] at hkey
    rw [hnext]
    refine ⟨(hk port' pid' hkey).1, fun es hes => (hk port' pid' hkey).2 es ?_⟩
    rw [hproc]
    exact List.mem_append_left _ hes

/-- **A process of this pid was created in a run**: `sched_allocate_pid` gave the pid to a creation
that made a process. -/
def CreatedIn (emptyQueue : BitVec 64) (k₀ : Kernel) (events : List TableEvent) (pid : BitVec 32) :
    Prop :=
  ∃ before space port pushed after k sched,
    events = before ++ TableEvent.create (some space) port pushed :: after
    ∧ before.foldlM (TableEvent.apply emptyQueue) k₀ = some k
    ∧ schedAllocatePid k.sched = some (pid, sched)

/-- The tables speak of a pid: a key leads to it, or a process has it. -/
def Kernel.Names (k : Kernel) (pid : BitVec 32) : Prop :=
  (∃ port, k.portToPid port = some pid) ∨ ∃ es ∈ k.sched.processes, es.pid = pid

theorem names_of_update (hports : k'.portToPid = Function.update k.portToPid port (some pid))
    {port' pid' : BitVec 32} (hkey : k'.portToPid port' = some pid') :
    pid' = pid ∨ k.portToPid port' = some pid' := by
  rw [hports] at hkey
  by_cases hsame : port' = port
  · rw [hsame, Function.update_self, Option.some.injEq] at hkey
    exact .inl hkey.symm
  · rw [Function.update_of_ne hsame] at hkey
    exact .inr hkey

/-- **An event brings no pid into the tables but that of the process it creates.** -/
theorem TableEvent.Effect.names {e : TableEvent} (he : e.Effect k k') (h : k'.Names pid) :
    k.Names pid ∨ ∃ space port pushed sched, e = .create (some space) port pushed
      ∧ schedAllocatePid k.sched = some (pid, sched) := by
  cases he with
  | none _ hports hproc _ =>
    rw [Kernel.Names, hports, hproc] at h
    exact .inl h
  | made es halloc _ _ hports hproc _ =>
    obtain ⟨port', hkey⟩ | ⟨es', hes', rfl⟩ := h
    · obtain rfl | hkey := names_of_update hports hkey
      · exact .inr ⟨_, _, _, _, rfl, halloc⟩
      · exact .inl (.inl ⟨port', hkey⟩)
    · rw [hproc] at hes'
      split at hes'
      · obtain hes' | hes' := List.mem_append.mp hes'
        · exact .inl (.inr ⟨es', hes', rfl⟩)
        · obtain rfl := List.mem_singleton.mp hes'
          exact .inr ⟨_, _, _, _, rfl, halloc⟩
      · exact .inl (.inr ⟨es', hes', rfl⟩)
  | assigned es hi _ hpid _ _ hports hproc _ =>
    have hold : k.Names es.pid := .inr ⟨_, Sched.get_mem hi, hpid.symm⟩
    obtain ⟨port', hkey⟩ | ⟨es', hes', rfl⟩ := h
    · obtain rfl | hkey := names_of_update hports hkey
      · exact .inl hold
      · exact .inl (.inl ⟨port', hkey⟩)
    · rw [hproc] at hes'
      obtain hes' | rfl := List.mem_or_eq_of_mem_set hes'
      · exact .inl (.inr ⟨es', hes', rfl⟩)
      · exact .inl hold
  | exited last hports hproc _ =>
    rw [Kernel.Names, hports] at h
    refine .inl (h.imp_right ?_)
    rintro ⟨es, hes, hpid⟩
    exact ⟨es, hproc ▸ List.mem_append_left _ hes, hpid⟩

/-- **Every pid the tables speak of is that of a process that was created.** -/
theorem createdIn_of_names {k₀ : Kernel} {events : List TableEvent}
    (hrun : events.foldlM (TableEvent.apply emptyQueue) (PortState.boot k₀).kernel = some k)
    (h : k.Names pid) : CreatedIn emptyQueue (PortState.boot k₀).kernel events pid := by
  refine invariant_along (J := fun events k => ∀ pid, k.Names pid →
    CreatedIn emptyQueue (PortState.boot k₀).kernel events pid) ?_ hrun ?_ pid h
  · intro before k₁ e k₂ hbefore hcreated hstep pid hnames
    obtain hold | ⟨space, port, pushed, sched, rfl, halloc⟩ :=
      (TableEvent.effect hstep).names hnames
    · obtain ⟨before', space, port, pushed, after, k, sched, rfl, hmid, halloc⟩ :=
        hcreated pid hold
      exact ⟨before', space, port, pushed, after ++ [e], k, sched, by simp, hmid, halloc⟩
    · exact ⟨before, space, port, pushed, [], k₁, sched, rfl, hbefore, halloc⟩
  · rintro pid (⟨port, hkey⟩ | ⟨es, hes, -⟩)
    · cases hkey
    · cases hes

/-- **A key stays for good, and stays true.**  After any run of creations, assignments and exits
from boot, a key there leads to a process that was created in it; it is there after any further run,
and leads to the same pid.  Its port is not assigned again.  A process of that pid has that port;
and when there is none any more, a send to the port finds no process. -/
theorem portToPid_kept {k₀ : Kernel} {events later : List TableEvent}
    (hrun : events.foldlM (TableEvent.apply emptyQueue) (PortState.boot k₀).kernel = some k)
    (hlater : later.foldlM (TableEvent.apply emptyQueue) k = some k')
    (hkey : k.portToPid port = some pid) :
    CreatedIn emptyQueue (PortState.boot k₀).kernel events pid
      ∧ k'.portToPid port = some pid ∧ pid.toNat < k'.sched.nextAvailablePid
      ∧ (∀ (hhdm : BitVec 64) (space : ExecutionSpace) (pools : Pools),
          ipcAssignPort hhdm emptyQueue space port ⟨k', pools⟩ = some (false, space, ⟨k', pools⟩))
      ∧ (∀ es ∈ k'.sched.processes, es.pid = pid → es.port = port ∨ port = -1#32)
      ∧ ((∀ es ∈ k'.sched.processes, es.pid ≠ pid) →
          ∀ toPort payload payloadSize : BitVec 64, toPort.setWidth 32 = port →
            ipcSend toPort payload payloadSize k' = some (none, k')) := by
  have hboot : (PortState.boot k₀).kernel.PidsOk ∧ (PortState.boot k₀).kernel.KeysOk :=
    ⟨⟨List.nodup_nil, nofun, Nat.zero_le _⟩, nofun⟩
  have hkeep : ∀ (k : Kernel) (e : TableEvent) (k' : Kernel), k.PidsOk ∧ k.KeysOk →
      e.apply emptyQueue k = some k' → k'.PidsOk ∧ k'.KeysOk := fun _ _ _ hk h =>
    ⟨hk.1.step (TableEvent.effect h), hk.2.step hk.1 (TableEvent.effect h)⟩
  have hkey' : k'.portToPid port = some pid :=
    invariant (I := fun k => k.portToPid port = some pid)
      (fun _ _ _ hkey h => (TableEvent.effect h).key hkey) hlater hkey
  have hmid := invariant (I := fun k => k.PidsOk ∧ k.KeysOk) hkeep hrun hboot
  have hend := invariant (I := fun k => k.PidsOk ∧ k.KeysOk) hkeep hlater hmid
  obtain ⟨hbelow, hport⟩ := hend.2 port pid hkey'
  refine ⟨createdIn_of_names hrun (.inl ⟨port, hkey⟩), hkey', hbelow, fun hhdm space pools => ?_,
    hport, fun hgone toPort payload size hto => ?_⟩
  · rw [ipcAssignPort, if_pos (Or.inr (by simp [hkey']))]
  · have hnone : k'.sched.processes.findIdx? (fun es => es.pid = pid) = none := by
      simpa using hgone
    rw [ipcSend, hto, hkey']
    simp only [hnone]

end Live

/-- A process gets port `5` and exits: the key is there, and a send to the port finds nobody. -/
theorem portToPid_kept_exit : ∃ k k' : Kernel,
    [TableEvent.create (some default) 5#32 true].foldlM (TableEvent.apply 0xffffffff80200000#64)
        (PortState.boot oneProcess).kernel = some k
      ∧ [TableEvent.exit 0#32].foldlM (TableEvent.apply 0xffffffff80200000#64) k = some k'
      ∧ k.portToPid 5#32 = some 0#32 ∧ k'.portToPid 5#32 = some 0#32
      ∧ ipcSend 5#64 0x1000#64 8#64 k' = some (none, k') := by
  have hfirst : ([TableEvent.create (some default) 5#32 true].foldlM
      (TableEvent.apply 0xffffffff80200000#64) (PortState.boot oneProcess).kernel).map
        (fun k => k.portToPid 5#32) = some (some 0#32) := rfl
  obtain ⟨k, hrun, hkey⟩ := Option.map_eq_some_iff.mp hfirst
  have hsecond : ([TableEvent.create (some default) 5#32 true, .exit 0#32].foldlM
      (TableEvent.apply 0xffffffff80200000#64) (PortState.boot oneProcess).kernel).map
        (fun k => k.sched.processes) = some [] := rfl
  rw [← List.singleton_append, List.foldlM_append, hrun] at hsecond
  obtain ⟨k', hlater, hempty⟩ := Option.map_eq_some_iff.mp hsecond
  obtain ⟨-, hkey', -, -, -, hgone⟩ := portToPid_kept hrun hlater hkey
  exact ⟨k, k', hrun, hlater, hkey, hkey', hgone (by simp [hempty]) 5#64 0x1000#64 8#64 rfl⟩

/-- **A process that gets port `5` and exits leaves it behind.** -/
theorem not_alwaysPortsLive_exit :
    (PortState.boot oneProcess).kernel.PidsOk ∧ (PortState.boot oneProcess).kernel.PortsLive
      ∧ ¬ Always (TableEvent.apply 0xffffffff80200000#64) Kernel.PortsLive
        [.create (some default) 5#32 true, .exit 0#32] (PortState.boot oneProcess).kernel := by
  refine ⟨⟨List.nodup_nil, nofun, Nat.zero_le _⟩, nofun, fun halways => ?_⟩
  obtain ⟨es, hes, -⟩ := (halways.2 _ rfl).2 _ rfl 5#32 0#32 rfl
  cases hes

end MoonOS

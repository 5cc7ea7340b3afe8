import MoonOS.Ipc.Ports

/-!
# Ipc/Assignment — one port for a space, over any sequence of assignments

`ipc_assign_port` refuses a space that has a port and a port that has a space.  Whether a space has
a port it reads off `space->port`, where `-1` says that it has none; and `-1` is an `int` like any
other, so a caller may ask for it.

* `AssignCall.apply_cases` — what a call does: nothing, or one new key and one marked space;
* `assignsSoundly_iff` — over any sequence of calls a space has at most one key, and that is its
  port, exactly when no space that was given the port `-1` is given another;
* `guarded_of_ne` — so it is when nobody asks for `-1`.

That a key keeps its pid and that a refused call changes nothing holds of every sequence.
-/

namespace MoonOS

open GuardedRun

/-- The spaces that calls are made for, and the machine. -/
structure Assignments where
  spaces : List ExecutionSpace
  machine : Machine

/-- `port_to_pid`. -/
def Assignments.portToPid (s : Assignments) : BitVec 32 → Option (BitVec 32) :=
  s.machine.kernel.portToPid

/-- `ipc_assign_port(&spaces[i], port)`. -/
structure AssignCall where
  i : ℕ
  port : BitVec 32

/-- One call. -/
def AssignCall.apply (hhdm emptyQueue : BitVec 64) (s : Assignments) (c : AssignCall) :
    Option Assignments :=
  s.spaces[c.i]?.bind fun space =>
    (ipcAssignPort hhdm emptyQueue space c.port s.machine).map fun (_, space, machine) =>
      ⟨s.spaces.set c.i space, machine⟩

/-- **A space has at most one key, and that is its port.** -/
def Assignments.OnePort (s : Assignments) : Prop :=
  ∀ es ∈ s.spaces, ∀ key, s.portToPid key = some es.pid → key = es.port

/-- **What is asked of a sequence of calls**: in every state a space has at most one key, its port;
a key keeps its pid; and a call that returns `false` changes nothing. -/
structure AssignsSoundly (hhdm emptyQueue : BitVec 64) (calls : List AssignCall)
    (s : Assignments) : Prop where
  onePort : Always (AssignCall.apply hhdm emptyQueue) Assignments.OnePort calls s
  kept : ∀ before after s₁ s₂, calls = before ++ after →
    before.foldlM (AssignCall.apply hhdm emptyQueue) s = some s₁ →
    after.foldlM (AssignCall.apply hhdm emptyQueue) s₁ = some s₂ →
    ∀ key pid, s₁.portToPid key = some pid → s₂.portToPid key = some pid
  refused : ∀ before c after s₁ space es w, calls = before ++ c :: after →
    before.foldlM (AssignCall.apply hhdm emptyQueue) s = some s₁ →
    s₁.spaces[c.i]? = some space →
    ipcAssignPort hhdm emptyQueue space c.port s₁.machine = some (false, es, w) →
    es = space ∧ w = s₁.machine

/-- **A call that gives no second port**: where the key `-1` leads to the space, the port that is
asked for has a key too. -/
def AssignCall.GivesNoSecond (s : Assignments) (c : AssignCall) : Prop :=
  ∀ space, s.spaces[c.i]? = some space → s.portToPid (-1#32) = some space.pid →
    s.portToPid c.port ≠ none

section Calls

variable {hhdm emptyQueue : BitVec 64} {s s' : Assignments} {c : AssignCall}

/-- **What a call does**: nothing, or it gives a space that is marked as one without a port a port
without a key. -/
theorem AssignCall.apply_cases (h : c.apply hhdm emptyQueue s = some s') :
    ∃ space, s.spaces[c.i]? = some space
      ∧ (¬ (space.port = -1#32 ∧ s.portToPid c.port = none) ∧ s' = s
        ∨ space.port = -1#32 ∧ s.portToPid c.port = none
          ∧ s'.spaces = s.spaces.set c.i { space with port := c.port, messageQueue := emptyQueue }
          ∧ s'.portToPid = Function.update s.portToPid c.port (some space.pid)) := by
  obtain ⟨space, hspace, h⟩ := Option.bind_eq_some_iff.mp h
  obtain ⟨⟨assigned, es, w⟩, hassign, rfl⟩ := Option.map_eq_some_iff.mp h
  obtain ⟨k, htables, -, hports⟩ := ipcAssignPort_tables hassign
  refine ⟨space, hspace, ?_⟩
  by_cases hfree : space.port = -1#32 ∧ s.portToPid c.port = none
  · rw [assignPort_of_free hfree.1 hfree.2] at htables
    obtain ⟨-, rfl, rfl⟩ : _ ∧ _ ∧ _ := by simpa only [Prod.mk.injEq] using htables
    exact .inr ⟨hfree.1, hfree.2, rfl, hports⟩
  · rw [assignPort_of_taken hfree] at htables
    obtain ⟨rfl, -, -⟩ : _ ∧ _ ∧ _ := by simpa only [Prod.mk.injEq] using htables
    obtain ⟨rfl, rfl⟩ := eq_of_ipcAssignPort hassign
    refine .inl ⟨hfree, ?_⟩
    obtain ⟨hi, rfl⟩ := List.getElem?_eq_some_iff.mp hspace
    dsimp only
    rw [List.set_getElem_self]

/-- How a call gives a port. -/
theorem AssignCall.apply_of {space : ExecutionSpace} {vm : Vm}
    (hspace : s.spaces[c.i]? = some space) (hmarked : space.port = -1#32)
    (hfree : s.portToPid c.port = none)
    (hrange : archMapRange hhdm space.vmSpace ipcMessageRegionBase
      (ipcMessageRegionBase + ipcMessageRegionSz) mapUserRw 0#64 s.machine.vm = some vm) :
    c.apply hhdm emptyQueue s
      = some ⟨s.spaces.set c.i { space with port := c.port, messageQueue := emptyQueue },
          (s.machine.withPort c.port space.pid).withVm vm⟩ := by
  rw [AssignCall.apply, hspace, Option.bind_some, ipcAssignPort_of hmarked hfree hrange,
    Option.map_some]

/-- A key that was there stays, and leads where it led. -/
theorem AssignCall.apply_key (h : c.apply hhdm emptyQueue s = some s') {key pid : BitVec 32}
    (hkey : s.portToPid key = some pid) : s'.portToPid key = some pid := by
  obtain ⟨space, -, ⟨-, rfl⟩ | ⟨-, hfree, -, hports⟩⟩ := AssignCall.apply_cases h
  · exact hkey
  · rw [hports, Function.update_of_ne (by rintro rfl; simp [hfree] at hkey), hkey]

/-- The pids of the spaces stay as they are. -/
theorem AssignCall.apply_pids (h : c.apply hhdm emptyQueue s = some s') :
    s'.spaces.map ExecutionSpace.pid = s.spaces.map ExecutionSpace.pid := by
  obtain ⟨space, hspace, ⟨-, rfl⟩ | ⟨-, -, hspaces, -⟩⟩ := AssignCall.apply_cases h
  · rfl
  · rw [hspaces]
    exact map_set_of_eq hspace rfl

/-- **A call leaves every space one port exactly when it gives none a second.** -/
theorem Assignments.OnePort.step (hs : s.OnePort)
    (hpids : (s.spaces.map ExecutionSpace.pid).Nodup) (h : c.apply hhdm emptyQueue s = some s') :
    s'.OnePort ↔ c.GivesNoSecond s := by
  have hpids' := (AssignCall.apply_pids h).symm ▸ hpids
  obtain ⟨space, hspace, ⟨htaken, rfl⟩ | ⟨hmarked, hfree, hspaces, hports⟩⟩ :=
    AssignCall.apply_cases h
  · refine iff_of_true hs fun space' hspace' hkey hnone => htaken ⟨?_, hnone⟩
    obtain rfl := Option.some.inj (hspace.symm.trans hspace')
    exact (hs space (List.mem_of_getElem? hspace) _ hkey).symm
  · obtain ⟨hi, -⟩ := List.getElem?_eq_some_iff.mp hspace
    have hmem : { space with port := c.port, messageQueue := emptyQueue } ∈ s'.spaces :=
      hspaces ▸ List.mem_set hi _
    constructor
    · -- The key `-1` would be the space's port, that is the new one, which had no key.
      intro hs' space' hspace' hkey
      obtain rfl := Option.some.inj (hspace.symm.trans hspace')
      have hport := hs' _ hmem (-1#32) (AssignCall.apply_key h hkey)
      rw [show c.port = -1#32 from hport.symm, hkey] at hfree
      cases hfree
    · intro hguard es hes key hkey
      rw [hports] at hkey
      by_cases hsame : key = c.port
      · -- The new key leads to the marked space, and to no other.
        subst hsame
        rw [Function.update_self, Option.some.injEq] at hkey
        obtain rfl := List.inj_on_of_nodup_map hpids' hes hmem hkey.symm
        rfl
      · rw [Function.update_of_ne hsame] at hkey
        rw [hspaces] at hes
        rcases List.mem_or_eq_of_mem_set hes with hold | rfl
        · exact hs es hold key hkey
        · -- A key of the marked space was `-1`, and then it gets no port.
          have hmark : key = -1#32 :=
            (hs space (List.mem_of_getElem? hspace) key hkey).trans hmarked
          subst hmark
          exact absurd hfree (hguard space hspace hkey)

/-- **A space has at most one port all along exactly when none that was given `-1` is given
another.** -/
theorem assignsSoundly_iff (hhdm emptyQueue : BitVec 64) (calls : List AssignCall)
    (hpids : (s.spaces.map ExecutionSpace.pid).Nodup)
    (hkeys : ∀ es ∈ s.spaces, ∀ key, s.portToPid key ≠ some es.pid) :
    AssignsSoundly hhdm emptyQueue calls s
      ↔ Guarded (AssignCall.apply hhdm emptyQueue) AssignCall.GivesNoSecond calls s := by
  have honePort : Always (AssignCall.apply hhdm emptyQueue) Assignments.OnePort calls s
      ↔ Guarded (AssignCall.apply hhdm emptyQueue) AssignCall.GivesNoSecond calls s :=
    always_iff_guarded (I := fun s => (s.spaces.map ExecutionSpace.pid).Nodup)
      (fun s c s' hpids hs h => ⟨(AssignCall.apply_pids h).symm ▸ hpids, hs.step hpids h⟩)
      hpids fun es hes key hkey => absurd hkey (hkeys es hes key)
  refine ⟨fun h => honePort.mp h.onePort, fun h => ⟨honePort.mpr h, ?_, ?_⟩⟩
  · intro before after s₁ s₂ _ _ hafter key pid hkey
    exact invariant (I := fun s => s.portToPid key = some pid)
      (fun _ _ _ hkey h => AssignCall.apply_key h hkey) hafter hkey
  · intro before c after s₁ space es w _ _ _ hassign
    exact eq_of_ipcAssignPort hassign

/-- When nobody asks for `-1`, nobody is given a second port. -/
theorem guarded_of_ne {calls : List AssignCall} (hnone : s.portToPid (-1#32) = none)
    (hcalls : ∀ c ∈ calls, c.port ≠ -1#32) :
    Guarded (AssignCall.apply hhdm emptyQueue) AssignCall.GivesNoSecond calls s := by
  induction calls generalizing s with
  | nil => trivial
  | cons c calls ih =>
    intro s' h
    refine ⟨fun space _ hkey => absurd (hnone.symm.trans hkey) (by simp), ih ?_ ?_⟩
    · obtain ⟨space, -, ⟨-, rfl⟩ | ⟨-, -, -, hports⟩⟩ := AssignCall.apply_cases h
      · exact hnone
      · rw [hports, Function.update_of_ne (hcalls c List.mem_cons_self).symm, hnone]
    · exact fun c' hc' => hcalls c' (List.mem_cons_of_mem _ hc')

end Calls

/-- Two spaces that have no port, over the kernel's pagemap. -/
def portless : Assignments where
  spaces := [{ processOf 0#32 with port := -1#32, vmSpace := 0xffff800000001000#64 },
    { processOf 1#32 with port := -1#32, vmSpace := 0xffff800000001000#64 }]
  machine := twoPools

/-- The second asks for the port of the first, and then for another. -/
theorem assignsSoundly_portless : AssignsSoundly 0xffff800000000000#64 0xffffffff80200000#64
    [⟨0, 5#32⟩, ⟨1, 5#32⟩, ⟨1, 6#32⟩] portless :=
  (assignsSoundly_iff 0xffff800000000000#64 0xffffffff80200000#64 _ (by decide)
    fun _ _ _ h => by cases h).mpr (guarded_of_ne rfl (by decide))

/-- **The first asks for `-1`, gets it, asks for `5`, and gets it too.** -/
theorem not_assignsSoundly_portless : ¬ AssignsSoundly 0xffff800000000000#64
    0xffffffff80200000#64 [⟨0, -1#32⟩, ⟨0, 5#32⟩] portless := by
  intro hsound
  obtain ⟨vm₁, hrange₁, hs₁⟩ := archMapRange_isSome (n := 6) 0xffff800000001000#64
    (supplies_twoPools.mono (by omega))
  obtain ⟨vm₂, hrange₂, -⟩ := archMapRange_isSome (n := 0) 0xffff800000001000#64 hs₁
  have hfirst := hsound.onePort.2 _ (AssignCall.apply_of rfl rfl rfl hrange₁)
  have hsecond := hfirst.2 _ (AssignCall.apply_of rfl rfl rfl hrange₂)
  exact absurd (hsecond _ List.mem_cons_self (-1#32) rfl) (by decide)

end MoonOS

import MoonOS.Mm.Separation

/-!
# Mm/KernelHalf — when the kernel's half stays the same in every process

`arch_copy_kernel_mappings` copies 256 top-level entries, by value and once.  Whatever hangs below
them is shared, so a later kernel mapping is seen by a process exactly when the entry it has
copied is present and lets the mapping's permissions through.

`HalfView` keeps what decides this: the kernel's mappings, its top-level entries, and the entries
each process was given.  `Halves` relates it to memory, every event is one step of both
(`Halves.step`), and coherence is read off the view (`Halves.coherent_iff`).

* `alwaysCoherent_iff` — a run keeps the processes coherent with the kernel exactly when each
  mapping made after a copy was covered by the copied entry.
-/

namespace MoonOS

open ByteMemory TableForest

/-! ## Runs -/

/-- What happens to the kernel's half: the kernel maps a page, or a process gets a copy. -/
inductive HalfEvent
  | map (c : MapCall)
  | create

/-- The event on the page tables. -/
def HalfEvent.toSpace (kernelPagemap : BitVec 64) : HalfEvent → SpaceEvent
  | map c => .map kernelPagemap c
  | create => .create

/-- A run of events. -/
def halfRun (hhdm kernelPagemap : BitVec 64) (events : List HalfEvent) (s : Pagemaps) :
    Option Pagemaps :=
  events.foldlM (fun s e => (e.toSpace kernelPagemap).apply hhdm kernelPagemap s) s

/-- **Every process sees the upper half as the kernel does**, translation and permission. -/
def Coherent (hhdm kernelPagemap : BitVec 64) (s : Pagemaps) : Prop :=
  ∀ p ∈ s.made, ∀ vaddr, ¬ LowerHalf vaddr →
    archTranslate hhdm p vaddr s.vm.mem = archTranslate hhdm kernelPagemap vaddr s.vm.mem
    ∧ effective hhdm p vaddr s.vm.mem = effective hhdm kernelPagemap vaddr s.vm.mem

/-- …in every state of a run. -/
def AlwaysCoherent (hhdm kernelPagemap : BitVec 64) (events : List HalfEvent) (s : Pagemaps) :
    Prop :=
  ∀ before after s', events = before ++ after → halfRun hhdm kernelPagemap before s = some s' →
    Coherent hhdm kernelPagemap s'

/-! ## What decides it -/

/-- What a top-level entry says: nothing, or whether it lets writes and user mode through. -/
abbrev Slots := BitVec 9 → Option (Bool × Bool)

/-- A mapping raises the entry above it; one that is not present creates none. -/
def Slots.map (S : Slots) (c : MapCall) : Slots :=
  Function.update S (indexOf c.vaddr 4) <|
    match S (indexOf c.vaddr 4) with
    | none => if checkFlag c.flags 0 then some (checkFlag c.flags 1, checkFlag c.flags 2) else none
    | some (readwrite, supervisor) =>
      some (readwrite || checkFlag c.flags 1, supervisor || checkFlag c.flags 2)

/-- An entry lets through what `flags` ask for. -/
def SlotGrants (x : Option (Bool × Bool)) (flags : BitVec 32) : Prop :=
  ∃ bits, x = some bits ∧ (checkFlag flags 1 = true → bits.1 = true)
    ∧ (checkFlag flags 2 = true → bits.2 = true)

/-- An address space with one page mapped, or unmapped by a mapping that is not present. -/
def AddrSpace.set (M : AddrSpace) (c : MapCall) : AddrSpace :=
  if c.flags = 0#32 then M
  else Function.update M (pageKey c.vaddr) (if checkFlag c.flags 0 then some c else none)

/-- The kernel's half: its mappings, its top-level entries, and the entries of each copy. -/
structure HalfView where
  space : AddrSpace
  slots : Slots
  copies : List Slots

/-- One event on the view. -/
def HalfView.apply (h : HalfView) : HalfEvent → HalfView
  | .map c => { h with space := h.space.set c, slots := h.slots.map c }
  | .create => { h with copies := h.slots :: h.copies }

/-- The view after a run, from an empty kernel pagemap. -/
def HalfView.ofEvents (events : List HalfEvent) : HalfView :=
  events.foldl HalfView.apply ⟨fun _ => none, fun _ => none, []⟩

/-- **Each upper-half mapping made after a copy was covered by the copied entry.** -/
def CoveredLater (events : List HalfEvent) : Prop :=
  ∀ before between after c, events = before ++ .create :: (between ++ .map c :: after) →
    ¬ LowerHalf c.vaddr → checkFlag c.flags 0 = true →
    SlotGrants ((HalfView.ofEvents before).slots (indexOf c.vaddr 4)) c.flags

/-- The same of one view: every copy covers every upper-half mapping. -/
def HalfView.Covered (h : HalfView) : Prop :=
  ∀ S ∈ h.copies, ∀ vaddr c, ¬ LowerHalf vaddr → h.space (pageKey vaddr) = some c →
    SlotGrants (S (indexOf vaddr 4)) c.flags

/-! ## Views of runs -/

section View

variable {h : HalfView} {events : List HalfEvent} {c : MapCall} {S : Slots}

/-- An entry never grants less. -/
theorem SlotGrants.map {i : BitVec 9} {flags : BitVec 32} (hS : SlotGrants (S i) flags) :
    SlotGrants (S.map c i) flags := by
  obtain ⟨bits, hbits, hrw, hus⟩ := hS
  by_cases hi : i = indexOf c.vaddr 4
  · subst hi
    refine ⟨_, by rw [Slots.map, Function.update_self, hbits], fun h => ?_, fun h => ?_⟩
    · simp [hrw h]
    · simp [hus h]
  · exact ⟨bits, by rw [Slots.map, Function.update_of_ne hi, hbits], hrw, hus⟩

/-- After a mapping its entry grants it. -/
theorem slotGrants_map_self (S : Slots) (hc : checkFlag c.flags 0 = true) :
    SlotGrants (S.map c (indexOf c.vaddr 4)) c.flags := by
  rw [Slots.map, Function.update_self]
  cases S (indexOf c.vaddr 4) with
  | none => exact ⟨_, if_pos hc, id, id⟩
  | some bits => exact ⟨_, rfl, fun h => by simp [h], fun h => by simp [h]⟩

/-- The kernel's entry grants every mapping made. -/
theorem HalfView.slotGrants (hc : HalfEvent.map c ∈ events)
    (hpresent : checkFlag c.flags 0 = true) :
    SlotGrants ((HalfView.ofEvents events).slots (indexOf c.vaddr 4)) c.flags := by
  induction events using List.reverseRecOn with
  | nil => cases hc
  | append_singleton events e ih =>
    rw [HalfView.ofEvents, List.foldl_append, ← HalfView.ofEvents]
    rcases List.mem_append.mp hc with hold | hlast
    · cases e with
      | map d => exact (ih hold).map
      | create => exact ih hold
    · obtain rfl := List.mem_singleton.mp hlast
      exact slotGrants_map_self _ hpresent

/-- What is mapped is the last present mapping of the page. -/
theorem HalfView.space_mem {k : BitVec 36} (hc : (HalfView.ofEvents events).space k = some c) :
    HalfEvent.map c ∈ events ∧ pageKey c.vaddr = k ∧ checkFlag c.flags 0 = true := by
  induction events using List.reverseRecOn with
  | nil => cases hc
  | append_singleton events e ih =>
    rw [HalfView.ofEvents, List.foldl_append, ← HalfView.ofEvents] at hc
    have hold : (HalfView.ofEvents events).space k = some c →
        HalfEvent.map c ∈ events ++ [e] ∧ pageKey c.vaddr = k ∧ checkFlag c.flags 0 = true := by
      intro hc
      obtain ⟨hmem, hrest⟩ := ih hc
      exact ⟨List.mem_append_left _ hmem, hrest⟩
    cases e with
    | create => exact hold hc
    | map d =>
      have hc' : (HalfView.ofEvents events).space.set d k = some c := hc
      rw [AddrSpace.set] at hc'
      split at hc'
      · exact hold hc'
      · by_cases hk : k = pageKey d.vaddr
        · rw [hk, Function.update_self, Option.ite_none_right_eq_some] at hc'
          obtain ⟨hpresent, hdc⟩ := hc'
          obtain rfl := Option.some.inj hdc
          exact ⟨by simp, hk.symm, hpresent⟩
        · rw [Function.update_of_ne hk] at hc'
          exact hold hc'

/-- A copy was made of the entries at its time… -/
theorem HalfView.exists_of_mem_copies (hS : S ∈ (HalfView.ofEvents events).copies) :
    ∃ before rest, events = before ++ .create :: rest ∧ S = (HalfView.ofEvents before).slots := by
  induction events using List.reverseRecOn with
  | nil => cases hS
  | append_singleton events e ih =>
    rw [HalfView.ofEvents, List.foldl_append, ← HalfView.ofEvents] at hS
    have hold : S ∈ (HalfView.ofEvents events).copies → ∃ before rest,
        events ++ [e] = before ++ .create :: rest ∧ S = (HalfView.ofEvents before).slots := by
      intro hS
      obtain ⟨before, rest, rfl, hslots⟩ := ih hS
      exact ⟨before, rest ++ [e], by simp, hslots⟩
    cases e with
    | map d => exact hold hS
    | create =>
      rcases List.mem_cons.mp hS with rfl | hS
      · exact ⟨events, [], rfl, rfl⟩
      · exact hold hS

/-- …and is kept. -/
theorem HalfView.mem_copies_foldl (hS : S ∈ h.copies) :
    S ∈ (events.foldl HalfView.apply h).copies := by
  induction events generalizing h with
  | nil => exact hS
  | cons e events ih =>
    refine ih ?_
    cases e with
    | map d => exact hS
    | create => exact List.mem_cons_of_mem _ hS

/-- **Covered later is covered in every view of the run.** -/
theorem coveredLater_iff :
    CoveredLater events ↔
      ∀ before after, events = before ++ after → (HalfView.ofEvents before).Covered := by
  constructor
  · intro hlater pre post hsplit S hS vaddr c hupper hc
    obtain ⟨before, rest, rfl, rfl⟩ := HalfView.exists_of_mem_copies hS
    obtain ⟨hmem, hkey, hpresent⟩ := HalfView.space_mem hc
    have hpath := pathOf_eq_iff.mpr hkey
    have hslot : indexOf c.vaddr 4 = indexOf vaddr 4 := (List.cons.inj hpath).1
    rw [← hslot]
    have hupper' : ¬ LowerHalf c.vaddr := by rwa [LowerHalf, hslot]
    rcases List.mem_append.mp hmem with hbefore | hrest
    · exact HalfView.slotGrants hbefore hpresent
    · obtain hcreate | hrest := List.mem_cons.mp hrest
      · cases hcreate
      obtain ⟨between, after, rfl⟩ := List.append_of_mem hrest
      exact hlater before between (after ++ post) c (by simpa using hsplit) hupper' hpresent
  · intro hall before between after c hsplit hupper hpresent
    have hcov := hall (before ++ .create :: (between ++ [.map c])) after (by simpa using hsplit)
    refine hcov _ ?_ c.vaddr c hupper ?_
    · rw [HalfView.ofEvents, List.foldl_append, ← HalfView.ofEvents, List.foldl_cons]
      exact HalfView.mem_copies_foldl (by simp [HalfView.apply])
    · have hset : ∀ M : AddrSpace, M.set c (pageKey c.vaddr) = some c := fun M => by
        rw [AddrSpace.set, if_neg (flags_ne_zero hpresent), Function.update_self, if_pos hpresent]
      rw [HalfView.ofEvents, List.foldl_append, List.foldl_cons, List.foldl_append]
      exact hset _

end View

/-! ## The view and memory -/

/-- An entry says what a slot of the view says. -/
def SlotIs (e : Pte) : Option (Bool × Bool) → Prop
  | none => e.present = false
  | some bits => e.present = true ∧ e.readwrite = bits.1 ∧ e.supervisor = bits.2

/-- An entry of a process: what was copied, and where present, below it the kernel's table. -/
structure CopyOf (kernel copied : Pte) (x : Option (Bool × Bool)) : Prop where
  slot : SlotIs copied x
  shared : copied.present = true → kernel.present = true ∧ kernel.address = copied.address

/-- **Memory is as the view says.** -/
structure Halves (hhdm kernelPagemap : BitVec 64) (s : Pagemaps) (lab : Labels) (h : HalfView) :
    Prop where
  inv : SpacesInv hhdm kernelPagemap s lab
  space : Represents hhdm kernelPagemap s.vm.mem h.space
  slots : ∀ i, SlotIs (readPte s.vm.mem kernelPagemap i) (h.slots i)
  copies : List.Forall₂ (fun p S => ∀ i : BitVec 9, 256 ≤ i.toNat →
    CopyOf (readPte s.vm.mem kernelPagemap i) (readPte s.vm.mem p i) (S i)) s.made h.copies

section Map

variable {hhdm kernelPagemap root : BitVec 64} {vm vm' : Vm} {lab : Labels}
  {spaces : Set (BitVec 64)} {c : MapCall} {M : AddrSpace} {S : Slots}

/-- **One call of `arch_map_page`, with any flags, is one update of the map.** -/
theorem Represents.set (hT : Tables hhdm kernelPagemap vm lab) (hroot : lab root = some (root, []))
    (h0 : root ≠ 0#64) (hM : Represents hhdm root vm.mem M)
    (hmap : archMapPage hhdm root c.vaddr c.paddr c.flags vm = some vm') :
    Represents hhdm root vm'.mem (M.set c) := by
  intro vaddr
  by_cases hflags : c.flags = 0#32
  · obtain rfl := eq_of_archMapPage hflags hmap
    rw [AddrSpace.set, if_pos hflags]
    exact hM vaddr
  obtain ⟨lab', -, hins⟩ := archMapPage_insert hT hroot h0 hflags hmap
  have hup := isUpgrade_pteUp hhdm
  rw [AddrSpace.set, if_neg hflags]
  by_cases hkey : pageKey vaddr = pageKey c.vaddr
  · rw [hkey, Function.update_self, pathEntries, pathOf_eq_iff.mpr hkey]
    by_cases hpresent : checkFlag c.flags 0 = true
    · rw [if_pos hpresent]
      exact hins.walk_self hup hpresent hT.labelled hroot rfl
    · rw [if_neg hpresent]
      exact hins.walk_self_of_absent hup (Bool.eq_false_iff.mpr hpresent) hT.labelled hroot rfl
  · rw [Function.update_of_ne hkey]
    exact (hM vaddr).up (hins.walk_other hup hT.labelled hroot rfl hroot (List.cons_ne_nil _ _) rfl
      fun h => hkey (pathOf_eq_iff.mp h))

/-- **What a mapping does to the table it starts from**: the entry of its slot is raised, or
made. -/
theorem readPte_archMapPage (hT : Tables hhdm kernelPagemap vm lab)
    (hroot : lab root = some (root, [])) (h0 : root ≠ 0#64)
    (hS : ∀ i, SlotIs (readPte vm.mem root i) (S i))
    (hmap : archMapPage hhdm root c.vaddr c.paddr c.flags vm = some vm') (i : BitVec 9) :
    SlotIs (readPte vm'.mem root i) (S.map c i)
      ∧ ((readPte vm.mem root i).present = true → (readPte vm'.mem root i).present = true
        ∧ (readPte vm'.mem root i).address = (readPte vm.mem root i).address) := by
  by_cases hflags : c.flags = 0#32
  · obtain rfl := eq_of_archMapPage hflags hmap
    have hsame : S.map c = S := by
      refine Function.update_eq_self_iff.mpr ?_
      rw [hflags]
      cases S (indexOf c.vaddr 4) with
      | none => rfl
      | some bits => simp [checkFlag]
    rw [hsame]
    exact ⟨hS i, fun h => ⟨h, rfl⟩⟩
  obtain ⟨b, vm₃, -, hadvance, htop, -⟩ := archMapPage_descend hT hroot h0 hflags hmap
  obtain ⟨hrow, hentry⟩ := hT.advance_cases (by simp [hroot]) hadvance
  rw [htop, Slots.map]
  by_cases hi : i = indexOf c.vaddr 4
  · subst hi
    have hslot := hS (indexOf c.vaddr 4)
    rw [Function.update_self]
    obtain ⟨hp, -, -, he⟩ | ⟨hp, -, -, he, -⟩ := hentry
    · rw [he]
      refine ⟨?_, fun h => ⟨h, rfl⟩⟩
      cases hx : S (indexOf c.vaddr 4) with
      | none =>
        rw [hx, SlotIs, hp] at hslot
        cases hslot
      | some bits =>
        rw [hx] at hslot
        exact ⟨hp, by rw [hslot.2.1], by rw [hslot.2.2]⟩
    · rw [he]
      refine ⟨?_, fun h => absurd (hp.symm.trans h) (by simp)⟩
      cases hx : S (indexOf c.vaddr 4) with
      | none =>
        by_cases hpresent : checkFlag c.flags 0 = true
        · rw [if_pos hpresent]
          exact ⟨hpresent, rfl, rfl⟩
        · rw [if_neg hpresent]
          exact Bool.eq_false_iff.mpr hpresent
      | some bits =>
        rw [hx, SlotIs, hp] at hslot
        cases hslot.1
  · rw [Function.update_of_ne hi, hrow root i (by simp [hroot]) (by simp [hi])]
    exact ⟨hS i, fun h => ⟨h, rfl⟩⟩

/-- The kernel's mappings are in no process's own table. -/
theorem Roots.readPte_map (h : Roots hhdm kernelPagemap vm lab spaces) (h0 : kernelPagemap ≠ 0#64)
    (hmap : archMapPage hhdm kernelPagemap c.vaddr c.paddr c.flags vm = some vm') {p : BitVec 64}
    (hp : p ∈ spaces) (i : BitVec 9) : readPte vm'.mem p i = readPte vm.mem p i := by
  by_cases hflags : c.flags = 0#32
  · rw [eq_of_archMapPage hflags hmap]
  · obtain ⟨lab', -, hins⟩ := archMapPage_insert h.tables h.kernel h0 hflags hmap
    exact hins.row_foreign (isUpgrade_pteUp hhdm) h.tables.labelled h.kernel rfl (h.root p hp)
      (h.ne_kernel p hp) (h.ne_kernel p hp) i

end Map

section Step

variable {hhdm kernelPagemap : BitVec 64} {s s' : Pagemaps} {lab : Labels} {h : HalfView}

/-- The copies, each with its process. -/
theorem Halves.copies_with_mem (hs : Halves hhdm kernelPagemap s lab h) :
    List.Forall₂ (fun p S => p ∈ s.made ∧ ∀ i : BitVec 9, 256 ≤ i.toNat →
      CopyOf (readPte s.vm.mem kernelPagemap i) (readPte s.vm.mem p i) (S i)) s.made h.copies :=
  (List.forall₂_and_left _ _).mpr ⟨fun _ => id, hs.copies⟩

/-- The kernel maps a page. -/
theorem Halves.map (hs : Halves hhdm kernelPagemap s lab h) {c : MapCall}
    (hrun : (SpaceEvent.map kernelPagemap c).apply hhdm kernelPagemap s = some s') :
    ∃ lab', Halves hhdm kernelPagemap s' lab' (h.apply (.map c)) := by
  obtain ⟨lab', hinv⟩ := hs.inv.step (e := .map kernelPagemap c) (.inl rfl) hrun
  obtain ⟨vm', hmap, rfl⟩ := Option.map_eq_some_iff.mp hrun
  have hroots := hs.inv.roots
  have htop := readPte_archMapPage hroots.tables hroots.kernel hs.inv.kernel_ne_zero hs.slots hmap
  refine ⟨lab', hinv, hs.space.set hroots.tables hroots.kernel hs.inv.kernel_ne_zero hmap,
    fun i => (htop i).1, hs.copies_with_mem.imp ?_⟩
  rintro p S ⟨hp, hcopy⟩ i hi
  rw [hroots.readPte_map hs.inv.kernel_ne_zero hmap hp]
  refine ⟨(hcopy i hi).slot, fun hpresent => ?_⟩
  obtain ⟨hkernel, haddress⟩ := (hcopy i hi).shared hpresent
  obtain ⟨hkernel', haddress'⟩ := (htop i).2 hkernel
  exact ⟨hkernel', haddress'.trans haddress⟩

/-- A process gets its copy. -/
theorem Halves.create (hs : Halves hhdm kernelPagemap s lab h)
    (hrun : SpaceEvent.create.apply hhdm kernelPagemap s = some s') :
    ∃ lab', Halves hhdm kernelPagemap s' lab' (h.apply .create) := by
  obtain ⟨lab', hinv⟩ := hs.inv.step (e := .create) trivial hrun
  obtain ⟨⟨p, vm⟩, hnew, hrest⟩ := Option.bind_eq_some_iff.mp hrun
  by_cases hp : p = 0#64
  · simp [hp] at hrest
  rw [SpaceEvent.apply_create hnew hp] at hrun
  obtain rfl := Option.some.inj hrun
  have hroots := hs.inv.roots
  obtain ⟨-, hcopied, hoff⟩ := hroots.create hnew hp
  have hkernel := fun i => hoff _ _ i hroots.kernel
  refine ⟨lab', hinv, fun v => ?_, fun i => ?_, .cons (fun i hi => ?_) (hs.copies_with_mem.imp ?_)⟩
  · have hwalk := walk_eq_of_rows hroots.tables.labelled (fun j hc _ => hoff _ _ j hc) (pathOf v)
      hroots.kernel rfl
    rw [pathEntries, hwalk]
    exact hs.space v
  · rw [hkernel i]
    exact hs.slots i
  · rw [hcopied i hi, hkernel i]
    exact ⟨hs.slots i, fun hpresent => ⟨hpresent, rfl⟩⟩
  · rintro q S ⟨hq, hcopy⟩ i hi
    rw [hkernel i, hoff _ _ i (hroots.root q hq)]
    exact hcopy i hi

/-- **One event is one step of the view.** -/
theorem Halves.step (hs : Halves hhdm kernelPagemap s lab h) (e : HalfEvent)
    (hrun : (e.toSpace kernelPagemap).apply hhdm kernelPagemap s = some s') :
    ∃ lab', Halves hhdm kernelPagemap s' lab' (h.apply e) := by
  cases e with
  | map c => exact hs.map hrun
  | create => exact hs.create hrun

theorem Halves.run (hs : Halves hhdm kernelPagemap s lab h) (events : List HalfEvent)
    (hrun : halfRun hhdm kernelPagemap events s = some s') :
    ∃ lab', Halves hhdm kernelPagemap s' lab' (events.foldl HalfView.apply h) := by
  induction events generalizing s lab h with
  | nil =>
    obtain rfl : s = s' := Option.some.inj hrun
    exact ⟨lab, hs⟩
  | cons e events ih =>
    obtain ⟨s₁, hstep, hrest⟩ := Option.bind_eq_some_iff.mp hrun
    obtain ⟨lab₁, hs₁⟩ := hs.step e hstep
    exact ih hs₁ hrest

/-- A kernel pagemap just created is the empty view. -/
theorem FreshBlocks.halves {s₀ vm : Vm} (hfresh : FreshBlocks hhdm s₀.frames)
    (hnew : archCreateNewPagemap s₀ = some (kernelPagemap, vm)) (h0 : kernelPagemap ≠ 0#64) :
    ∃ lab, Halves hhdm kernelPagemap ⟨vm, []⟩ lab (HalfView.ofEvents []) := by
  obtain ⟨lab, hinv⟩ := spacesInv_of_pagemapsReachable (.boot hfresh hnew h0)
  obtain ⟨-, -, hempty, -⟩ :=
    (hfresh.tables kernelPagemap).archAllocPage hnew h0 (kernelPagemap, [])
  exact ⟨lab, hinv, represents_empty hempty, hempty, .nil⟩

end Step

/-! ## Coherence, read off the view -/

section Coherence

variable {hhdm kernelPagemap p vaddr : BitVec 64} {m : Mem} {x : Option (Bool × Bool)}

/-- A walk that serves a mapping starts with an entry of the root. -/
theorem Serves.exists_cons {root : BitVec 64} {c : MapCall}
    (h : Serves (pathEntries hhdm root vaddr m) (some c)) :
    ∃ es, (readPte m root (indexOf vaddr 4)).present = true
      ∧ (pteView hhdm).walk (readPte m) ((pteView hhdm).next (readPte m root (indexOf vaddr 4)))
          [indexOf vaddr 3, indexOf vaddr 2, indexOf vaddr 1]
        = some (es ++ [pagingCreateEntry c.paddr c.flags])
      ∧ Grants c.flags (readPte m root (indexOf vaddr 4)) ∧ ∀ e ∈ es, Grants c.flags e := by
  obtain ⟨es, hwalk, hgrants⟩ := h
  rw [pathEntries, pathOf, View.walk_cons] at hwalk
  split at hwalk
  case isFalse => cases hwalk
  case isTrue hpresent =>
    obtain ⟨tail, htail, heq⟩ := Option.map_eq_some_iff.mp hwalk
    cases es with
    | nil =>
      obtain ⟨-, rfl⟩ := List.cons.inj heq
      exact absurd htail (View.walk_cons_ne _)
    | cons e es =>
      obtain ⟨rfl, rfl⟩ := List.cons.inj heq
      rw [List.forall_mem_cons] at hgrants
      exact ⟨es, hpresent, htail, hgrants.1, hgrants.2⟩

/-- A process and the kernel agree where both walks break off. -/
theorem agree_of_none (hp : p ≠ 0#64) (hk : kernelPagemap ≠ 0#64)
    (hwalk : pathEntries hhdm p vaddr m = none)
    (hkernel : pathEntries hhdm kernelPagemap vaddr m = none) :
    archTranslate hhdm p vaddr m = archTranslate hhdm kernelPagemap vaddr m
      ∧ effective hhdm p vaddr m = effective hhdm kernelPagemap vaddr m := by
  rw [archTranslate_eq hp, archTranslate_eq hk, effective, effective, hwalk, hkernel]
  exact ⟨rfl, rfl⟩

/-- Below a present entry of the process lies the table below the kernel's. -/
theorem CopyOf.pathEntries_eq
    (hcopy : CopyOf (readPte m kernelPagemap (indexOf vaddr 4)) (readPte m p (indexOf vaddr 4)) x)
    (hpresent : (readPte m p (indexOf vaddr 4)).present = true) :
    pathEntries hhdm p vaddr m
      = ((pteView hhdm).walk (readPte m)
          ((pteView hhdm).next (readPte m kernelPagemap (indexOf vaddr 4)))
          [indexOf vaddr 3, indexOf vaddr 2, indexOf vaddr 1]).map
        (readPte m p (indexOf vaddr 4) :: ·) := by
  have hnext : (pteView hhdm).next (readPte m p (indexOf vaddr 4))
      = (pteView hhdm).next (readPte m kernelPagemap (indexOf vaddr 4)) := by
    simp only [pteView, (hcopy.shared hpresent).2]
  rw [pathEntries, pathOf, View.walk_cons_of_present _ hpresent, hnext]

/-- Where the kernel maps nothing, nor does the process… -/
theorem CopyOf.pathEntries_none
    (hcopy : CopyOf (readPte m kernelPagemap (indexOf vaddr 4)) (readPte m p (indexOf vaddr 4)) x)
    (hkernel : pathEntries hhdm kernelPagemap vaddr m = none) :
    pathEntries hhdm p vaddr m = none := by
  by_cases hpresent : (readPte m p (indexOf vaddr 4)).present = true
  · rw [pathEntries, pathOf, View.walk_cons_of_present _ (hcopy.shared hpresent).1,
      Option.map_eq_none_iff] at hkernel
    rw [hcopy.pathEntries_eq hpresent, hkernel]
    rfl
  · exact View.walk_cons_of_absent _ (Bool.eq_false_iff.mpr hpresent)

/-- …where it does, the process's walk serves the same mapping if its own entry grants it… -/
theorem CopyOf.serves {c : MapCall}
    (hcopy : CopyOf (readPte m kernelPagemap (indexOf vaddr 4)) (readPte m p (indexOf vaddr 4)) x)
    (hserve : Serves (pathEntries hhdm kernelPagemap vaddr m) (some c))
    (hgrants : SlotGrants x c.flags) : Serves (pathEntries hhdm p vaddr m) (some c) := by
  obtain ⟨es, -, htail, -, hes⟩ := hserve.exists_cons
  obtain ⟨bits, rfl, hrw, hus⟩ := hgrants
  obtain ⟨hpresent, hrw', hus'⟩ := hcopy.slot
  refine ⟨readPte m p (indexOf vaddr 4) :: es, ?_, List.forall_mem_cons.mpr
    ⟨⟨fun h => hrw'.trans (hrw h), fun h => hus'.trans (hus h)⟩, hes⟩⟩
  rw [hcopy.pathEntries_eq hpresent, htail]
  rfl

/-- …and only then has it the same permission. -/
theorem CopyOf.slotGrants {c : MapCall}
    (hcopy : CopyOf (readPte m kernelPagemap (indexOf vaddr 4)) (readPte m p (indexOf vaddr 4)) x)
    (hserve : Serves (pathEntries hhdm kernelPagemap vaddr m) (some c))
    (heffective : effective hhdm p vaddr m = effective hhdm kernelPagemap vaddr m) :
    SlotGrants x c.flags := by
  have hpermission := hserve.permission
  obtain ⟨es, -, htail, -, -⟩ := hserve.exists_cons
  rw [← effective, Option.map_some, ← checkFlag_eq (by decide), ← checkFlag_eq (by decide)]
    at hpermission
  rw [hpermission] at heffective
  have hslot := hcopy.slot
  cases x with
  | none =>
    have hwalk : pathEntries hhdm p vaddr m = none := View.walk_cons_of_absent _ hslot
    rw [effective, hwalk] at heffective
    cases heffective
  | some bits =>
    obtain ⟨hpresent, hrw, hus⟩ := hslot
    rw [effective, hcopy.pathEntries_eq hpresent, htail, Option.map_some, Option.map_some,
      Option.some.injEq, Prod.mk.injEq, List.all_cons, List.all_cons] at heffective
    refine ⟨bits, rfl, fun hflag => ?_, fun hflag => ?_⟩
    · rw [← hrw]
      exact (Bool.and_eq_true_iff.mp (heffective.1.trans hflag)).1
    · rw [← hus]
      exact (Bool.and_eq_true_iff.mp (heffective.2.trans hflag)).1

/-- **A process sees a mapping of the kernel's exactly when its copied entry lets it through.** -/
theorem CopyOf.agree_iff (hp : p ≠ 0#64) (hk : kernelPagemap ≠ 0#64) {y : Option MapCall}
    (hcopy : CopyOf (readPte m kernelPagemap (indexOf vaddr 4)) (readPte m p (indexOf vaddr 4)) x)
    (hserve : Serves (pathEntries hhdm kernelPagemap vaddr m) y) :
    (archTranslate hhdm p vaddr m = archTranslate hhdm kernelPagemap vaddr m
      ∧ effective hhdm p vaddr m = effective hhdm kernelPagemap vaddr m)
    ↔ ∀ c, y = some c → SlotGrants x c.flags := by
  cases y with
  | none =>
    exact iff_of_true (agree_of_none hp hk (hcopy.pathEntries_none hserve) hserve) (by simp)
  | some c =>
    constructor
    · rintro ⟨-, heffective⟩ c' hc'
      obtain rfl := Option.some.inj hc'
      exact hcopy.slotGrants hserve heffective
    · intro hcovered
      have hserve' := hcopy.serves hserve (hcovered c rfl)
      rw [archTranslate_eq hp, archTranslate_eq hk, hserve.getLast?, hserve'.getLast?]
      exact ⟨rfl, hserve'.permission.trans hserve.permission.symm⟩

/-- Lists that are related element by element have a partner for every element. -/
theorem exists_of_forall₂ {α β : Type*} {R : α → β → Prop} {l : List α} {u : List β}
    (h : List.Forall₂ R l u) : (∀ a ∈ l, ∃ b ∈ u, R a b) ∧ ∀ b ∈ u, ∃ a ∈ l, R a b := by
  induction h with
  | nil => exact ⟨nofun, nofun⟩
  | @cons a b l u hab _ ih =>
    refine ⟨List.forall_mem_cons.mpr ⟨⟨b, by simp, hab⟩, fun a' ha' => ?_⟩,
      List.forall_mem_cons.mpr ⟨⟨a, by simp, hab⟩, fun b' hb' => ?_⟩⟩
    · obtain ⟨b', hb', hR⟩ := ih.1 a' ha'
      exact ⟨b', List.mem_cons_of_mem _ hb', hR⟩
    · obtain ⟨a', ha', hR⟩ := ih.2 b' hb'
      exact ⟨a', List.mem_cons_of_mem _ ha', hR⟩

/-- **The processes are coherent with the kernel exactly when the view is covered.** -/
theorem Halves.coherent_iff {s : Pagemaps} {lab : Labels} {h : HalfView}
    (hs : Halves hhdm kernelPagemap s lab h) : Coherent hhdm kernelPagemap s ↔ h.Covered := by
  have hk := hs.inv.kernel_ne_zero
  have hagree : ∀ {p} {S : Slots}, p ∈ s.made → (∀ i : BitVec 9, 256 ≤ i.toNat →
        CopyOf (readPte s.vm.mem kernelPagemap i) (readPte s.vm.mem p i) (S i)) →
      ∀ vaddr, ¬ LowerHalf vaddr →
      ((archTranslate hhdm p vaddr s.vm.mem = archTranslate hhdm kernelPagemap vaddr s.vm.mem
        ∧ effective hhdm p vaddr s.vm.mem = effective hhdm kernelPagemap vaddr s.vm.mem)
      ↔ ∀ c, h.space (pageKey vaddr) = some c → SlotGrants (S (indexOf vaddr 4)) c.flags) :=
    fun hp hcopy vaddr hupper =>
      (hcopy _ (Nat.not_lt.mp hupper)).agree_iff (hs.inv.ne_zero _ hp) hk (hs.space vaddr)
  constructor
  · intro hcoherent S hS vaddr c hupper
    obtain ⟨p, hp, hcopy⟩ := (exists_of_forall₂ hs.copies).2 S hS
    exact (hagree hp hcopy vaddr hupper).mp (hcoherent p hp vaddr hupper) c
  · intro hcovered p hp vaddr hupper
    obtain ⟨S, hS, hcopy⟩ := (exists_of_forall₂ hs.copies).1 p hp
    exact (hagree hp hcopy vaddr hupper).mpr fun c => hcovered S hS vaddr c hupper

/-- **A run keeps every process coherent with the kernel, at every moment, exactly when each mapping
made after a copy was covered by the entry that was copied.** -/
theorem alwaysCoherent_iff {s₀ vm : Vm} (hfresh : FreshBlocks hhdm s₀.frames)
    (hnew : archCreateNewPagemap s₀ = some (kernelPagemap, vm)) (h0 : kernelPagemap ≠ 0#64)
    {events : List HalfEvent} {s' : Pagemaps}
    (hrun : halfRun hhdm kernelPagemap events ⟨vm, []⟩ = some s') :
    AlwaysCoherent hhdm kernelPagemap events ⟨vm, []⟩ ↔ CoveredLater events := by
  obtain ⟨lab, hempty⟩ := hfresh.halves hnew h0
  have hcoherent : ∀ before s₁, halfRun hhdm kernelPagemap before ⟨vm, []⟩ = some s₁ →
      (Coherent hhdm kernelPagemap s₁ ↔ (HalfView.ofEvents before).Covered) := fun before s₁ h => by
    obtain ⟨lab₁, hs₁⟩ := hempty.run before h
    exact hs₁.coherent_iff
  rw [coveredLater_iff]
  constructor
  · intro halways before after hsplit
    rw [hsplit, halfRun, List.foldlM_append] at hrun
    obtain ⟨s₁, hrun₁, -⟩ := Option.bind_eq_some_iff.mp hrun
    exact (hcoherent before s₁ hrun₁).mp (halways before after s₁ hsplit hrun₁)
  · intro hcovered before after s₁ hsplit hrun₁
    exact (hcoherent before s₁ hrun₁).mpr (hcovered before after hsplit)

end Coherence

/-! ## Two runs -/

/-- Three blocks an event are enough for a run. -/
theorem halfRun_isSome (hhdm kernelPagemap : BitVec 64) (events : List HalfEvent) {s : Pagemaps}
    (hs : Supplies hhdm s.vm (3 * events.length)) :
    ∃ s', halfRun hhdm kernelPagemap events s = some s' := by
  induction events generalizing s with
  | nil => exact ⟨s, rfl⟩
  | cons e events ih =>
    suffices hstep : ∃ s₁, (e.toSpace kernelPagemap).apply hhdm kernelPagemap s = some s₁
        ∧ Supplies hhdm s₁.vm (3 * events.length) by
      obtain ⟨s₁, h₁, hs₁⟩ := hstep
      obtain ⟨s', h'⟩ := ih hs₁
      exact ⟨s', Option.bind_eq_some_iff.mpr ⟨s₁, h₁, h'⟩⟩
    cases e with
    | map c =>
      obtain ⟨vm, hmap, hs₁⟩ := archMapPage_isSome kernelPagemap c.vaddr c.paddr c.flags hs
      exact ⟨{ s with vm }, by rw [HalfEvent.toSpace, SpaceEvent.apply, hmap, Option.map_some], hs₁⟩
    | create =>
      have hone : 3 * events.length + 1 ≤ 3 * (HalfEvent.create :: events).length := by
        rw [List.length_cons]
        omega
      obtain ⟨f, vm, hnew, hf, -, hs₁⟩ := (hs.mono hone).page
      exact ⟨_, SpaceEvent.apply_create hnew hf, hs₁.unlocked, hs₁.good, hs₁.enough⟩

/-- A page allocator with ten pages left, over memory that is not clear. -/
def tenPages : Vm where
  mem _ := 0xff#8
  frames := (List.range 10).map fun i => 0xffff800000001000#64 + BitVec.ofNat 64 (4096 * i)
  pmmLock := false

theorem freshBlocks_tenPages : FreshBlocks 0xffff800000000000#64 tenPages.frames where
  onPage := by simp [tenPages, OnPage, List.range, List.range.loop]
  distinct := by simp [tenPages, List.range, List.range.loop]

theorem halfRun_tenPages (events : List HalfEvent) (hn : events.length ≤ 3) :
    ∃ s', halfRun 0xffff800000000000#64 0xffff800000001000#64 events
      ⟨tenPages.served, []⟩ = some s' := by
  refine halfRun_isSome _ _ events ⟨rfl, ?_, ?_⟩
  · simp [Vm.served, tenPages, List.range, List.range.loop]
  · simp [Vm.served, tenPages]
    omega

/-- A kernel page is mapped, a process is made, and one more kernel page is mapped beside the
first. -/
def coveredEvents : List HalfEvent :=
  [.map ⟨0xffff800000000000#64, 0#64, mapKern⟩, .create,
    .map ⟨0xffff800000001000#64, 0x1000#64, mapKern⟩]

theorem alwaysCoherent_coveredEvents :
    AlwaysCoherent 0xffff800000000000#64 0xffff800000001000#64 coveredEvents
      ⟨tenPages.served, []⟩ := by
  obtain ⟨s', hrun⟩ := halfRun_tenPages coveredEvents (by decide)
  refine (alwaysCoherent_iff freshBlocks_tenPages rfl (by decide) hrun).mpr ?_
  intro before between after c hsplit _ _
  -- The one copy was made after the first mapping, and before the second.
  rcases before with _ | ⟨e₁, _ | ⟨e₂, _ | ⟨e₃, before⟩⟩⟩ <;> simp [coveredEvents] at hsplit
  obtain ⟨rfl, hrest⟩ := hsplit
  rcases between with _ | ⟨e, between⟩ <;> simp at hrest
  obtain ⟨rfl, -⟩ := hrest
  exact ⟨(true, false), by decide, by decide, by decide⟩

/-- A process is made, and then a kernel page is mapped where there was none. -/
def uncoveredEvents : List HalfEvent := [.create, .map ⟨0xffffffff80000000#64, 0#64, mapKern⟩]

/-- **The process never sees the page.** -/
theorem not_alwaysCoherent_uncoveredEvents :
    ¬ AlwaysCoherent 0xffff800000000000#64 0xffff800000001000#64 uncoveredEvents
      ⟨tenPages.served, []⟩ := by
  intro halways
  obtain ⟨s', hrun⟩ := halfRun_tenPages uncoveredEvents (by decide)
  have hnew : archCreateNewPagemap tenPages
      = some (0xffff800000001000#64, tenPages.served) := rfl
  obtain ⟨lab, hempty⟩ := freshBlocks_tenPages.halves hnew (by decide)
  obtain ⟨lab', hs'⟩ := hempty.run uncoveredEvents hrun
  have hcovered := hs'.coherent_iff.mp (halways uncoveredEvents [] s' rfl hrun)
  obtain ⟨bits, hbits, -⟩ := hcovered (fun _ => none) (by simp [uncoveredEvents, HalfView.ofEvents,
    HalfView.apply]) 0xffffffff80000000#64 ⟨0xffffffff80000000#64, 0#64, mapKern⟩ (by decide)
    (by decide)
  cases hbits

end MoonOS

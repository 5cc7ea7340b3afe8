import MoonOS.Mm.Spaces

/-!
# Mm/Separation — user mappings stay in their own pagemap

Pagemaps are made and mapped in any order, by any number of processes, while the kernel keeps
mapping pages of its own.  They share the kernel's tables by reference, so separation is a matter
of who owns what a walk goes through: a mapping in the lower half never crosses into the kernel's
trees, and writes tables of its own root only (`Insert.walk_owner`).

Flags need not say *present* here.  Such a mapping allocates tables that no walk enters, and they
are labelled all the same.

* `archTranslate_separated` — a lower-half mapping in one pagemap changes no translation of another,
  nor of the kernel's.
-/

namespace MoonOS

open ByteMemory TableForest

/-! ## Runs -/

/-- Memory, the page allocator, and the pagemaps of processes made so far. -/
structure Pagemaps where
  vm : Vm
  made : List (BitVec 64)

/-- What happens to page tables: a pagemap is made for a process, or a page is mapped. -/
inductive SpaceEvent
  | create
  | map (root : BitVec 64) (c : MapCall)

/-- One event.  A copy into the null pagemap is a fault. -/
def SpaceEvent.apply (hhdm kernelPagemap : BitVec 64) (s : Pagemaps) : SpaceEvent → Option Pagemaps
  | create =>
    (archCreateNewPagemap s.vm).bind fun (p, vm) =>
      if p = 0#64 then none else some ⟨archCopyKernelMappings kernelPagemap p vm, p :: s.made⟩
  | map root c => (archMapPage hhdm root c.vaddr c.paddr c.flags s.vm).map fun vm => { s with vm }

/-- What a run may do next: the kernel maps where it likes, a process in its lower half. -/
def SpaceEvent.Allowed (kernelPagemap : BitVec 64) (s : Pagemaps) : SpaceEvent → Prop
  | create => True
  | map root c => root = kernelPagemap ∨ root ∈ s.made ∧ LowerHalf c.vaddr

/-- The states of all runs from a new kernel pagemap. -/
inductive PagemapsReachable (hhdm kernelPagemap : BitVec 64) : Pagemaps → Prop
  | boot {s₀ s : Vm} : FreshBlocks hhdm s₀.frames →
      archCreateNewPagemap s₀ = some (kernelPagemap, s) → kernelPagemap ≠ 0#64 →
      PagemapsReachable hhdm kernelPagemap ⟨s, []⟩
  | step {s s' : Pagemaps} {e : SpaceEvent} : PagemapsReachable hhdm kernelPagemap s →
      e.Allowed kernelPagemap s → e.apply hhdm kernelPagemap s = some s' →
      PagemapsReachable hhdm kernelPagemap s'

/-! ## The roots stay roots -/

/-- **What every run keeps.** -/
structure SpacesInv (hhdm kernelPagemap : BitVec 64) (s : Pagemaps) (lab : Labels) : Prop where
  roots : Roots hhdm kernelPagemap s.vm lab { p | p ∈ s.made }
  kernel_ne_zero : kernelPagemap ≠ 0#64
  ne_zero : ∀ p ∈ s.made, p ≠ 0#64

section Steps

variable {hhdm kernelPagemap root p : BitVec 64} {s s' : Pagemaps} {vm vm' : Vm} {lab : Labels}
  {spaces : Set (BitVec 64)} {c : MapCall}

/-- A pagemap is made, if there is a page for it. -/
theorem SpaceEvent.apply_create (hnew : archCreateNewPagemap s.vm = some (p, vm)) (hp : p ≠ 0#64) :
    SpaceEvent.create.apply hhdm kernelPagemap s
      = some ⟨archCopyKernelMappings kernelPagemap p vm, p :: s.made⟩ := by
  simp only [SpaceEvent.apply, hnew, Option.bind_some, if_neg hp]

/-- A mapping below any root keeps the roots. -/
theorem Roots.map (h : Roots hhdm kernelPagemap vm lab spaces) (hroot : lab root = some (root, []))
    (h0 : root ≠ 0#64) (hmap : archMapPage hhdm root c.vaddr c.paddr c.flags vm = some vm') :
    ∃ lab', Roots hhdm kernelPagemap vm' lab' spaces := by
  by_cases hflags : c.flags = 0#32
  · obtain rfl := eq_of_archMapPage hflags hmap
    exact ⟨lab, h⟩
  · obtain ⟨lab', hT', hins⟩ := archMapPage_insert h.tables hroot h0 hflags hmap
    exact ⟨lab', hT', hins.mono h.kernel, fun q hq => hins.mono (h.root q hq), h.ne_kernel⟩

/-- A pagemap just made is one more root; its upper half is the kernel's, and no other table has
changed. -/
theorem Roots.create (h : Roots hhdm kernelPagemap vm lab spaces)
    (hnew : archCreateNewPagemap vm = some (p, vm')) (hp : p ≠ 0#64) :
    (∃ lab', Roots hhdm kernelPagemap (archCopyKernelMappings kernelPagemap p vm') lab'
      (insert p spaces))
    ∧ (∀ i : BitVec 9, 256 ≤ i.toNat →
        readPte (archCopyKernelMappings kernelPagemap p vm').mem p i
          = readPte vm.mem kernelPagemap i)
    ∧ ∀ q l i, lab q = some l →
        readPte (archCopyKernelMappings kernelPagemap p vm').mem q i = readPte vm.mem q i := by
  obtain ⟨hlab, hT, hempty, hoff⟩ := h.tables.archAllocPage hnew hp (p, [])
  have hne : ∀ {q l}, lab q = some l → q ≠ p := by
    rintro q l hq rfl
    simp [hlab] at hq
  have hmono : ∀ {q l}, lab q = some l → Function.update lab p (some (p, [])) q = some l :=
    fun hq => by rwa [Function.update_of_ne (hne hq)]
  have hroots : Roots hhdm kernelPagemap vm' (Function.update lab p (some (p, []))) spaces :=
    ⟨hT, hmono h.kernel, fun q hq => hmono (h.root q hq), h.ne_kernel⟩
  have hroot : Function.update lab p (some (p, [])) p = some (p, []) := Function.update_self ..
  have hpk : p ≠ kernelPagemap := (hne h.kernel).symm
  refine ⟨⟨_, hroots.copy hroot hpk hempty⟩, fun i hi => ?_, fun q l i hq => ?_⟩
  · have hpage : OnPage hhdm p := hT.onPage (by simp)
    rw [readPte_archCopyKernelMappings hpage (h.tables.onPage (by simp [h.kernel])) hpk hpage,
      if_pos ⟨rfl, hi⟩, hoff _ _ (by simp [h.kernel])]
  · rw [hroots.readPte_copy hroot hpk (hmono hq) (hne hq), hoff _ _ (by simp [hq])]

/-- One event keeps the invariant. -/
theorem SpacesInv.step (h : SpacesInv hhdm kernelPagemap s lab) {e : SpaceEvent}
    (hallowed : e.Allowed kernelPagemap s) (hrun : e.apply hhdm kernelPagemap s = some s') :
    ∃ lab', SpacesInv hhdm kernelPagemap s' lab' := by
  cases e with
  | create =>
    obtain ⟨⟨p, vm⟩, hnew, hrest⟩ := Option.bind_eq_some_iff.mp hrun
    by_cases hp : p = 0#64
    · simp [hp] at hrest
    · rw [SpaceEvent.apply_create hnew hp] at hrun
      obtain rfl := Option.some.inj hrun
      obtain ⟨⟨lab', hroots⟩, -⟩ := h.roots.create hnew hp
      refine ⟨lab', ?_, h.kernel_ne_zero, List.forall_mem_cons.mpr ⟨hp, h.ne_zero⟩⟩
      simpa [Set.insert_def] using hroots
  | map root c =>
    obtain ⟨vm', hmap, rfl⟩ := Option.map_eq_some_iff.mp hrun
    have hroot : lab root = some (root, []) ∧ root ≠ 0#64 := by
      rcases hallowed with rfl | ⟨hmade, -⟩
      · exact ⟨h.roots.kernel, h.kernel_ne_zero⟩
      · exact ⟨h.roots.root root hmade, h.ne_zero root hmade⟩
    obtain ⟨lab', hroots⟩ := h.roots.map hroot.1 hroot.2 hmap
    exact ⟨lab', hroots, h.kernel_ne_zero, h.ne_zero⟩

theorem spacesInv_of_pagemapsReachable (h : PagemapsReachable hhdm kernelPagemap s) :
    ∃ lab, SpacesInv hhdm kernelPagemap s lab := by
  induction h with
  | boot hfresh hnew h0 =>
    have hspaces := (hfresh.tables kernelPagemap).toSpaces hnew h0
    exact ⟨_, by simpa using hspaces.roots, h0, nofun⟩
  | step _ hallowed hrun ih =>
    obtain ⟨lab, hinv⟩ := ih
    exact hinv.step hallowed hrun

/-! ## Separation -/

/-- **A lower-half mapping is walked by no other root.** -/
theorem Roots.pathEntries_of_ne (h : Roots hhdm kernelPagemap vm lab spaces) (hp : p ∈ spaces)
    (hp0 : p ≠ 0#64) (hlower : LowerHalf c.vaddr)
    (hmap : archMapPage hhdm p c.vaddr c.paddr c.flags vm = some vm') {q : BitVec 64}
    (hq : lab q = some (q, [])) (hqp : q ≠ p) (x : BitVec 64) :
    pathEntries hhdm q x vm'.mem = pathEntries hhdm q x vm.mem := by
  by_cases hflags : c.flags = 0#32
  · rw [eq_of_archMapPage hflags hmap]
  · obtain ⟨lab', -, hins⟩ := archMapPage_insert h.tables (h.root p hp) hp0 hflags hmap
    exact hins.walk_owner (isUpgrade_pteUp hhdm) h.tables.labelled (h.root p hp) rfl
      (fun r hr _ => hlower.not_isKernelSlot r hr) (h.ne_kernel p hp).symm hq hqp rfl

/-- **A page mapped in the lower half of one pagemap changes the translation of no address in any
other pagemap, nor in the kernel's**, after any run. -/
theorem archTranslate_separated (h : PagemapsReachable hhdm kernelPagemap s) {a b : BitVec 64}
    (ha : a ∈ s.made) (hb : b ∈ s.made) (hab : a ≠ b) (hlower : LowerHalf c.vaddr)
    (hmap : archMapPage hhdm a c.vaddr c.paddr c.flags s.vm = some vm') (x : BitVec 64) :
    archTranslate hhdm b x vm'.mem = archTranslate hhdm b x s.vm.mem
      ∧ archTranslate hhdm kernelPagemap x vm'.mem
        = archTranslate hhdm kernelPagemap x s.vm.mem := by
  obtain ⟨lab, hinv⟩ := spacesInv_of_pagemapsReachable h
  have hwalk := fun {q} hq hqa => hinv.roots.pathEntries_of_ne ha (hinv.ne_zero a ha) hlower hmap
    (q := q) hq hqa x
  exact ⟨archTranslate_congr (by rw [hwalk (hinv.roots.root b hb) hab.symm]),
    archTranslate_congr (by rw [hwalk hinv.roots.kernel (hinv.roots.ne_kernel a ha).symm])⟩

end Steps

/-- A page allocator with enough for the kernel's pagemap, two others and one mapping. -/
def sixFrames : Vm where
  mem _ := 0xff#8
  frames := [0xffff800000001000#64, 0xffff800000002000#64, 0xffff800000003000#64,
    0xffff800000004000#64, 0xffff800000005000#64, 0xffff800000006000#64]
  pmmLock := false

/-- Two pagemaps made, and nothing mapped. -/
def twoSpaces : Pagemaps :=
  let vm := archCopyKernelMappings 0xffff800000001000#64 0xffff800000002000#64
    sixFrames.served.served
  ⟨archCopyKernelMappings 0xffff800000001000#64 0xffff800000003000#64 vm.served,
    [0xffff800000003000#64, 0xffff800000002000#64]⟩

theorem pagemapsReachable_twoSpaces :
    PagemapsReachable 0xffff800000000000#64 0xffff800000001000#64 twoSpaces := by
  have hfresh : FreshBlocks 0xffff800000000000#64 sixFrames.frames :=
    ⟨by simp [sixFrames, OnPage], by simp [sixFrames]⟩
  have hboot : PagemapsReachable 0xffff800000000000#64 0xffff800000001000#64
      ⟨sixFrames.served, []⟩ := .boot hfresh rfl (by decide)
  have hfirst := PagemapsReachable.step (e := .create) hboot trivial
    (SpaceEvent.apply_create rfl (by decide))
  exact .step (e := .create) hfirst trivial (SpaceEvent.apply_create rfl (by decide))

theorem archTranslate_twoSpaces :
    ∃ vm', archMapPage 0xffff800000000000#64 0xffff800000002000#64 0x400000#64 0x7000#64 mapUserRw
        twoSpaces.vm = some vm'
      ∧ ∀ x, archTranslate 0xffff800000000000#64 0xffff800000003000#64 x vm'.mem
            = archTranslate 0xffff800000000000#64 0xffff800000003000#64 x twoSpaces.vm.mem
          ∧ archTranslate 0xffff800000000000#64 0xffff800000001000#64 x vm'.mem
            = archTranslate 0xffff800000000000#64 0xffff800000001000#64 x twoSpaces.vm.mem := by
  have hframes : twoSpaces.vm.frames
      = [0xffff800000004000#64, 0xffff800000005000#64, 0xffff800000006000#64] := rfl
  have hsupplies : Supplies 0xffff800000000000#64 twoSpaces.vm (0 + 3) :=
    ⟨rfl, by simp [hframes], by simp [hframes]⟩
  obtain ⟨vm', hmap, -⟩ := archMapPage_isSome 0xffff800000002000#64 0x400000#64 0x7000#64
    mapUserRw hsupplies
  refine ⟨vm', hmap, fun x => ?_⟩
  exact archTranslate_separated (c := ⟨0x400000#64, 0x7000#64, mapUserRw⟩)
    pagemapsReachable_twoSpaces (by simp [twoSpaces]) (by simp [twoSpaces]) (by decide) (by decide)
    hmap x

end MoonOS

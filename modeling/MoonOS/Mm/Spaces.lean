import MoonOS.Mm.Refine

/-!
# Mm/Spaces — the pagemaps of processes beside the kernel's

`arch_copy_kernel_mappings` copies the upper half of the kernel's top-level table into a new one, so
every process shares the kernel's tables below it.  `Spaces` is the invariant that makes the sharing
explicit: each pagemap is the root of a tree of its own, the kernel's trees hang below all of them,
and in the lower half every walk serves some mapping.  The steps that build a process keep it:
`Spaces.alloc` (a page of the allocator, to be a pagemap or not a table at all), `Spaces.copy` (the
kernel's half), `Spaces.map`, and `Spaces.rows` with `Spaces.write` (what is in pages that are no
tables).

A page mapped in the user region is seen by nothing outside it: `Spaces.keepsOutside`.
-/

namespace MoonOS

open ByteMemory TableForest

/-! ## The two halves -/

/-- The addresses whose top-level entry is in the lower half. -/
def LowerHalf (vaddr : BitVec 64) : Prop := (indexOf vaddr 4).toNat < 256

instance (vaddr : BitVec 64) : Decidable (LowerHalf vaddr) := inferInstanceAs (Decidable (_ < _))

/-- The addresses the processor translates: bits 47 to 63 agree. -/
def HwCanonical (vaddr : BitVec 64) : Prop :=
  vaddr.toNat < 2 ^ 47 ∨ 2 ^ 64 - 2 ^ 47 ≤ vaddr.toNat

instance (vaddr : BitVec 64) : Decidable (HwCanonical vaddr) :=
  inferInstanceAs (Decidable (_ ∨ _))

theorem lowerHalf_of_lt {vaddr : BitVec 64} (h : vaddr.toNat < 2 ^ 47) : LowerHalf vaddr := by
  rw [LowerHalf, toNat_indexOf]
  omega

/-- Outside the user region there is page `0`, and there is the upper half. -/
theorem HwCanonical.outside {vaddr : BitVec 64} (h : HwCanonical vaddr)
    (huser : isUserAddress vaddr = false) : vaddr.toNat < 0x1000 ∨ ¬ LowerHalf vaddr := by
  have hout : ¬ (0x1000 ≤ vaddr.toNat ∧ vaddr.toNat < 2 ^ 47) := fun h => by
    simp [isUserAddress_iff.mpr h] at huser
  have hlt := vaddr.isLt
  rw [LowerHalf, toNat_indexOf]
  rw [HwCanonical] at h
  omega

/-- No prefix of a lower-half path leads into the kernel's trees. -/
theorem LowerHalf.not_isKernelSlot {vaddr : BitVec 64} (h : LowerHalf vaddr)
    (q : List (BitVec 9)) (hq : q <+: [] ++ pathOf vaddr) : ¬ IsKernelSlot q := by
  rintro ⟨i, rfl, hi⟩
  have hi4 : i = indexOf vaddr 4 := (List.cons_prefix_cons.mp hq).1
  rw [hi4] at hi
  exact absurd h (Nat.not_lt.mpr hi)

/-! ## The invariant -/

/-- **Top-level tables beside the kernel's**: each is the root of a tree of its own. -/
structure Roots (hhdm kernelPagemap : BitVec 64) (s : Vm) (lab : Labels)
    (spaces : Set (BitVec 64)) : Prop where
  tables : Tables hhdm kernelPagemap s lab
  kernel : lab kernelPagemap = some (kernelPagemap, [])
  root : ∀ p ∈ spaces, lab p = some (p, [])
  ne_kernel : ∀ p ∈ spaces, p ≠ kernelPagemap

/-- **Pagemaps beside the kernel's.** -/
structure Spaces (hhdm kernelPagemap : BitVec 64) (s : Vm) (lab : Labels)
    (spaces : Set (BitVec 64)) : Prop where
  tables : Tables hhdm kernelPagemap s lab
  kernel : lab kernelPagemap = some (kernelPagemap, [])
  root : ∀ p ∈ spaces, lab p = some (p, [])
  ne_kernel : ∀ p ∈ spaces, p ≠ kernelPagemap
  lower : ∀ p ∈ spaces, ∀ vaddr, LowerHalf vaddr →
    ∃ x, Serves (pathEntries hhdm p vaddr s.mem) x

theorem Spaces.roots {hhdm kernelPagemap : BitVec 64} {s : Vm} {lab : Labels}
    {spaces : Set (BitVec 64)} (h : Spaces hhdm kernelPagemap s lab spaces) :
    Roots hhdm kernelPagemap s lab spaces := ⟨h.tables, h.kernel, h.root, h.ne_kernel⟩

/-- What a step on behalf of one space leaves: every label, and the lower half of every other
space. -/
structure KeepsOthers (hhdm p : BitVec 64) (spaces : Set (BitVec 64)) (lab lab' : Labels)
    (m m' : Mem) : Prop where
  mono : ∀ {c l}, lab c = some l → lab' c = some l
  others : ∀ q ∈ spaces, q ≠ p → ∀ vaddr, LowerHalf vaddr →
    pathEntries hhdm q vaddr m' = pathEntries hhdm q vaddr m

theorem KeepsOthers.trans {hhdm p : BitVec 64} {spaces : Set (BitVec 64)} {lab₁ lab₂ lab₃ : Labels}
    {m₁ m₂ m₃ : Mem} (h : KeepsOthers hhdm p spaces lab₁ lab₂ m₁ m₂)
    (h' : KeepsOthers hhdm p spaces lab₂ lab₃ m₂ m₃) :
    KeepsOthers hhdm p spaces lab₁ lab₃ m₁ m₃ where
  mono hc := h'.mono (h.mono hc)
  others q hq hqp v hv := (h'.others q hq hqp v hv).trans (h.others q hq hqp v hv)

theorem KeepsOthers.subset {hhdm p : BitVec 64} {spaces spaces' : Set (BitVec 64)}
    {lab lab' : Labels} {m m' : Mem} (h : KeepsOthers hhdm p spaces' lab lab' m m')
    (hsub : spaces ⊆ spaces') : KeepsOthers hhdm p spaces lab lab' m m' where
  mono := h.mono
  others q hq := h.others q (hsub hq)

/-- What stays of a pagemap: at every address the processor takes and no user program has, the
translation and the permission. -/
def KeepsOutside (hhdm root : BitVec 64) (m m' : Mem) : Prop :=
  ∀ vaddr, HwCanonical vaddr → isUserAddress vaddr = false →
    archTranslate hhdm root vaddr m' = archTranslate hhdm root vaddr m
    ∧ effective hhdm root vaddr m' = effective hhdm root vaddr m

theorem KeepsOutside.refl (hhdm root : BitVec 64) (m : Mem) : KeepsOutside hhdm root m m :=
  fun _ _ _ => ⟨rfl, rfl⟩

theorem KeepsOutside.trans {hhdm root : BitVec 64} {m₁ m₂ m₃ : Mem}
    (h : KeepsOutside hhdm root m₁ m₂) (h' : KeepsOutside hhdm root m₂ m₃) :
    KeepsOutside hhdm root m₁ m₃ := fun v hv hu =>
  ⟨(h' v hv hu).1.trans (h v hv hu).1, (h' v hv hu).2.trans (h v hv hu).2⟩

/-- `arch_translate` and the permission are read off the entries of the path. -/
theorem archTranslate_congr {hhdm root vaddr : BitVec 64} {m m' : Mem}
    (h : (pathEntries hhdm root vaddr m').bind List.getLast?
      = (pathEntries hhdm root vaddr m).bind List.getLast?) :
    archTranslate hhdm root vaddr m' = archTranslate hhdm root vaddr m := by
  by_cases hroot : root = 0#64
  · simp [archTranslate, hroot]
  · rw [archTranslate_eq hroot, archTranslate_eq hroot, h]

theorem keepsOutside_of_pathEntries {hhdm root : BitVec 64} {m m' : Mem}
    (h : ∀ vaddr, pathEntries hhdm root vaddr m' = pathEntries hhdm root vaddr m) :
    KeepsOutside hhdm root m m' := fun v _ _ =>
  ⟨archTranslate_congr (by rw [h]), by rw [effective, effective, h]⟩

/-- A walk and its upgrade end in the same entry. -/
theorem getLast?_of_walkRel {w w' : Option (List Pte)} (h : WalkRel PteUp w w') :
    w'.bind List.getLast? = w.bind List.getLast? := by
  cases h with
  | none => rfl
  | @some es es' h =>
    induction h with
    | last e => rfl
    | cons _ hes ih =>
      cases hes with
      | last => rfl
      | cons => simpa using ih

/-! ## What keeps it -/

section Steps

variable {hhdm kernelPagemap p f : BitVec 64} {s s₁ s' : Vm} {lab : Labels}
  {spaces : Set (BitVec 64)} {vaddr paddr : BitVec 64} {flags : BitVec 32}

/-- The upper half of the pagemap is the kernel's after the copy, and nothing else has changed. -/
theorem readPte_archCopyKernelMappings (hp : OnPage hhdm p) (hk : OnPage hhdm kernelPagemap)
    (hne : p ≠ kernelPagemap) {c : BitVec 64} (hc : OnPage hhdm c) (i : BitVec 9) :
    readPte (archCopyKernelMappings kernelPagemap p s).mem c i
      = if c = p ∧ 256 ≤ i.toNat then readPte s.mem kernelPagemap i else readPte s.mem c i := by
  have hfold : ∀ (l : List ℕ) (m : Mem), (∀ n ∈ l, n < 512) →
      readPte (l.foldl (fun m n => writePte m p (BitVec.ofNat 9 n)
          (readPte m kernelPagemap (BitVec.ofNat 9 n))) m) c i
        = if c = p ∧ i.toNat ∈ l then readPte m kernelPagemap i else readPte m c i := by
    intro l
    induction l with
    | nil => simp
    | cons n l ih =>
      intro m hl
      have hn : (BitVec.ofNat 9 n).toNat = n := by
        have := hl n (by simp)
        rw [BitVec.toNat_ofNat]
        omega
      rw [List.foldl_cons, ih _ fun n hn => hl n (by simp [hn]),
        readPte_writePte_of_ne hp hk (fun h => hne (Prod.mk.inj h).1.symm)]
      by_cases hcn : (c, i) = (p, BitVec.ofNat 9 n)
      · obtain ⟨rfl, rfl⟩ := Prod.mk.inj hcn
        rw [readPte_writePte_self, ite_self, hn, if_pos ⟨rfl, by simp⟩]
      · rw [readPte_writePte_of_ne hp hc hcn]
        have hmem : (c = p ∧ i.toNat ∈ n :: l) ↔ (c = p ∧ i.toNat ∈ l) := by
          refine and_congr_right fun hcp => ?_
          have hin : i.toNat ≠ n := fun h =>
            hcn (Prod.ext hcp (BitVec.eq_of_toNat_eq (h.trans hn.symm)))
          simp [hin]
        simp only [hmem]
  have hmem : i.toNat ∈ List.range' 256 256 ↔ 256 ≤ i.toNat := by
    have := i.isLt
    rw [List.mem_range'_1]
    omega
  rw [archCopyKernelMappings, hfold _ _ (by simp [List.mem_range'_1])]
  simp only [hmem]

/-- The kernel's pagemap, just created, is beside no other. -/
theorem Tables.toSpaces {s₀ : Vm} (hT : Tables hhdm kernelPagemap s₀ lab)
    (hnew : archCreateNewPagemap s₀ = some (kernelPagemap, s)) (h0 : kernelPagemap ≠ 0#64) :
    Spaces hhdm kernelPagemap s
      (Function.update lab kernelPagemap (some (kernelPagemap, []))) ∅ where
  tables := (hT.archAllocPage hnew h0 (kernelPagemap, [])).2.1
  kernel := Function.update_self ..
  root := nofun
  ne_kernel := nofun
  lower := nofun

/-- **What is not in a table is not in the spaces**: they stay while the tables do. -/
theorem Spaces.rows (h : Spaces hhdm kernelPagemap s lab spaces) {m : Mem}
    (hm : ∀ {c oc pc} j, lab c = some (oc, pc) → pc.length < 4 →
      readPte m c j = readPte s.mem c j) :
    Spaces hhdm kernelPagemap { s with mem := m } lab spaces
      ∧ ∀ {q o}, lab q = some (o, []) → ∀ v,
          pathEntries hhdm q v m = pathEntries hhdm q v s.mem := by
  have hwalk : ∀ {q o}, lab q = some (o, []) → ∀ v,
      pathEntries hhdm q v m = pathEntries hhdm q v s.mem := fun hq v =>
    walk_eq_of_rows h.tables.labelled hm (pathOf v) hq rfl
  refine ⟨⟨⟨h.tables.labelled.rows hm, h.tables.onPage, h.tables.fresh, h.tables.distinct⟩,
    h.kernel,
    h.root, h.ne_kernel, fun q hq v hv => ?_⟩, hwalk⟩
  obtain ⟨x, hx⟩ := h.lower q hq v hv
  exact ⟨x, by rwa [hwalk (h.root q hq) v]⟩

/-- **A page taken from the allocator joins under any label**, empty, and no walk changes. -/
theorem Spaces.alloc (h : Spaces hhdm kernelPagemap s lab spaces)
    (hnew : archAllocPage s = (f, s₁)) (hf : f ≠ 0#64) (l : BitVec 64 × List (BitVec 9)) :
    lab f = none ∧ Spaces hhdm kernelPagemap s₁ (Function.update lab f (some l)) spaces
      ∧ (∀ {c l'}, lab c = some l' → Function.update lab f (some l) c = some l')
      ∧ (∀ i, (readPte s₁.mem f i).present = false)
      ∧ ∀ {q o}, lab q = some (o, []) → ∀ v,
          pathEntries hhdm q v s₁.mem = pathEntries hhdm q v s.mem := by
  obtain ⟨hlab, hT, hempty, hoff⟩ := h.tables.archAllocPage hnew hf l
  have hmono : ∀ {c l'}, lab c = some l' → Function.update lab f (some l) c = some l' := by
    rintro c l' hc
    rwa [Function.update_of_ne (by rintro rfl; simp [hlab] at hc)]
  have hwalk : ∀ {q o}, lab q = some (o, []) → ∀ v,
      pathEntries hhdm q v s₁.mem = pathEntries hhdm q v s.mem := fun hq v =>
    walk_eq_of_rows h.tables.labelled (fun j hc _ => hoff _ j (by simp [hc])) (pathOf v) hq rfl
  refine ⟨hlab, ⟨hT, hmono h.kernel, fun q hq => hmono (h.root q hq), h.ne_kernel,
    fun q hq v hv => ?_⟩, hmono, hempty, hwalk⟩
  obtain ⟨x, hx⟩ := h.lower q hq v hv
  exact ⟨x, by rwa [hwalk (h.root q hq) v]⟩

/-- The tables that are there already are not touched by a copy into a new one. -/
theorem Roots.readPte_copy (h : Roots hhdm kernelPagemap s lab spaces)
    (hroot : lab p = some (p, []))
    (hpk : p ≠ kernelPagemap) {q : BitVec 64} {l : BitVec 64 × List (BitVec 9)}
    (hq : lab q = some l)
    (hqp : q ≠ p) (i : BitVec 9) :
    readPte (archCopyKernelMappings kernelPagemap p s).mem q i = readPte s.mem q i := by
  rw [readPte_archCopyKernelMappings (h.tables.onPage (by simp [hroot]))
    (h.tables.onPage (by simp [h.kernel])) hpk (h.tables.onPage (by simp [hq])),
    if_neg fun hqp' => hqp hqp'.1]

/-- Below the kernel's half a copy leaves an empty pagemap empty. -/
theorem Roots.absent_copy (h : Roots hhdm kernelPagemap s lab spaces) (hroot : lab p = some (p, []))
    (hpk : p ≠ kernelPagemap) (hempty : ∀ i, (readPte s.mem p i).present = false) {i : BitVec 9}
    (hi : i.toNat < 256) :
    (readPte (archCopyKernelMappings kernelPagemap p s).mem p i).present = false := by
  have hpage : OnPage hhdm p := h.tables.onPage (by simp [hroot])
  rw [readPte_archCopyKernelMappings hpage (h.tables.onPage (by simp [h.kernel])) hpk hpage,
    if_neg (fun hpi => Nat.not_le.mpr hi hpi.2), hempty]

/-- **An empty pagemap with the kernel's half copied into it is one more root.** -/
theorem Roots.copy (h : Roots hhdm kernelPagemap s lab spaces) (hroot : lab p = some (p, []))
    (hpk : p ≠ kernelPagemap) (hempty : ∀ i, (readPte s.mem p i).present = false) :
    Roots hhdm kernelPagemap (archCopyKernelMappings kernelPagemap p s) lab (insert p spaces) := by
  have hpage : OnPage hhdm p := h.tables.onPage (by simp [hroot])
  have hkpage : OnPage hhdm kernelPagemap := h.tables.onPage (by simp [h.kernel])
  have hL : Labelled (pteView hhdm) 4 kernelPagemap IsKernelSlot
      (readPte (archCopyKernelMappings kernelPagemap p s).mem) lab := by
    refine ⟨fun {c oc pc i} hc hlen hi => ?_⟩
    by_cases hcp : c = p
    · subst hcp
      obtain ⟨rfl, rfl⟩ := Prod.mk.inj (Option.some.inj (hc.symm.trans hroot))
      -- a present entry of the new pagemap is one of the kernel's
      have hi256 : 256 ≤ i.toNat := by
        by_contra hlt
        have habsent := h.absent_copy hroot hpk hempty (Nat.not_le.mp hlt)
        exact Bool.false_ne_true (habsent.symm.trans hi)
      rw [readPte_archCopyKernelMappings hpage hkpage hpk hpage, if_pos ⟨rfl, hi256⟩] at hi ⊢
      obtain ⟨o', ho', hoo⟩ := h.tables.labelled.child h.kernel hlen hi
      obtain rfl : o' = kernelPagemap := hoo.elim id And.left
      exact ⟨_, ho', .inr ⟨rfl, i, rfl, hi256⟩⟩
    · rw [h.readPte_copy hroot hpk hc hcp] at hi ⊢
      exact h.tables.labelled.child hc hlen hi
  refine ⟨⟨hL, h.tables.onPage, h.tables.fresh, h.tables.distinct⟩, h.kernel, ?_, ?_⟩
  · rintro q (rfl | hq)
    · exact hroot
    · exact h.root q hq
  · rintro q (rfl | hq)
    · exact hpk
    · exact h.ne_kernel q hq

/-- **An empty pagemap with the kernel's half copied into it is one more space.** -/
theorem Spaces.copy (h : Spaces hhdm kernelPagemap s lab spaces) (hroot : lab p = some (p, []))
    (hpk : p ≠ kernelPagemap) (hp : p ∉ spaces)
    (hempty : ∀ i, (readPte s.mem p i).present = false) :
    Spaces hhdm kernelPagemap (archCopyKernelMappings kernelPagemap p s) lab (insert p spaces)
      ∧ KeepsOthers hhdm p spaces lab lab s.mem (archCopyKernelMappings kernelPagemap p s).mem := by
  have hroots := h.roots.copy hroot hpk hempty
  have hother : ∀ q ∈ spaces, ∀ v, LowerHalf v →
      pathEntries hhdm q v (archCopyKernelMappings kernelPagemap p s).mem
        = pathEntries hhdm q v s.mem := fun q hq v hv =>
    walk_eq_of_private h.tables.labelled
      (fun c pc j hc => h.roots.readPte_copy hroot hpk hc (by
        rintro rfl
        obtain ⟨rfl, -⟩ := Prod.mk.inj (Option.some.inj (hc.symm.trans hroot))
        exact hp hq) j)
      (pathOf v) (h.root q hq) rfl (fun r hr _ => hv.not_isKernelSlot r hr)
  refine ⟨⟨hroots.tables, hroots.kernel, hroots.root, hroots.ne_kernel, ?_⟩, id,
    fun q hq _ => hother q hq⟩
  rintro q (rfl | hq) v hv
  · exact ⟨none, View.walk_cons_of_absent _ (h.roots.absent_copy hroot hpk hempty hv)⟩
  · obtain ⟨x, hx⟩ := h.lower q hq v hv
    exact ⟨x, by rwa [hother q hq v hv]⟩

/-- **A mapping in one space keeps all of them**, serves its own page, and leaves the lower half of
every other space as it was. -/
theorem Spaces.map (h : Spaces hhdm kernelPagemap s lab spaces) (hp : p ∈ spaces) (hp0 : p ≠ 0#64)
    (hflags : checkFlag flags 0 = true)
    (hmap : archMapPage hhdm p vaddr paddr flags s = some s') :
    ∃ lab', Spaces hhdm kernelPagemap s' lab' spaces
      ∧ KeepsOthers hhdm p spaces lab lab' s.mem s'.mem
      ∧ Serves (pathEntries hhdm p vaddr s'.mem) (some ⟨vaddr, paddr, flags⟩) := by
  have hroot := h.root p hp
  obtain ⟨lab', hT', hins⟩ := archMapPage_insert h.tables hroot hp0 (flags_ne_zero hflags) hmap
  have hup := isUpgrade_pteUp hhdm
  have hself : Serves (pathEntries hhdm p vaddr s'.mem) (some ⟨vaddr, paddr, flags⟩) :=
    hins.walk_self hup hflags h.tables.labelled hroot rfl
  have hother : ∀ q ∈ spaces, q ≠ p → ∀ v, LowerHalf v →
      pathEntries hhdm q v s'.mem = pathEntries hhdm q v s.mem := fun q hq hqp v hv =>
    walk_eq_of_private h.tables.labelled
      (fun c pc j hc => hins.row_foreign hup h.tables.labelled hroot rfl hc hqp
        (h.ne_kernel q hq) j)
      (pathOf v) (h.root q hq) rfl (fun r hr _ => hv.not_isKernelSlot r hr)
  refine ⟨lab', ⟨hT', hins.mono h.kernel, fun q hq => hins.mono (h.root q hq), h.ne_kernel, ?_⟩,
    ⟨hins.mono, hother⟩, hself⟩
  intro q hq v hv
  obtain ⟨x, hx⟩ := h.lower q hq v hv
  by_cases hqp : q = p
  · subst hqp
    by_cases hpath : pathOf v = pathOf vaddr
    · exact ⟨_, by rw [pathEntries, hpath]; exact hself⟩
    · exact ⟨x, hx.up (hins.walk_other hup h.tables.labelled hroot rfl hroot (List.cons_ne_nil _ _)
        rfl hpath)⟩
  · exact ⟨x, by rwa [hother q hq hqp v hv]⟩

/-- **A page mapped in the user region is seen by nothing outside it**, neither in its own pagemap
nor in the kernel's. -/
theorem Spaces.keepsOutside (h : Spaces hhdm kernelPagemap s lab spaces) (hp : p ∈ spaces)
    (hp0 : p ≠ 0#64) (hflags : checkFlag flags 0 = true) (huser : isUserAddress vaddr = true)
    (hmap : archMapPage hhdm p vaddr paddr flags s = some s') :
    KeepsOutside hhdm kernelPagemap s.mem s'.mem ∧ KeepsOutside hhdm p s.mem s'.mem := by
  have hroot := h.root p hp
  obtain ⟨lab', hT', hins⟩ := archMapPage_insert h.tables hroot hp0 (flags_ne_zero hflags) hmap
  have hup := isUpgrade_pteUp hhdm
  obtain ⟨hlo, hhi⟩ := isUserAddress_iff.mp huser
  have hlower : LowerHalf vaddr := lowerHalf_of_lt hhi
  constructor
  · exact keepsOutside_of_pathEntries fun v => hins.walk_owner hup h.tables.labelled hroot rfl
      (fun q hq _ => hlower.not_isKernelSlot q hq) (h.ne_kernel p hp).symm h.kernel
      (h.ne_kernel p hp).symm rfl
  · intro v hv hvu
    rcases hv.outside hvu with hzero | hupper
    · -- page `0` may share tables with the new page, and what it maps is served all the same
      have hpath : pathOf v ≠ pathOf vaddr := fun heq => by
        have hkey := congrArg BitVec.toNat (pathOf_eq_iff.mp heq)
        rw [toNat_pageKey, toNat_pageKey] at hkey
        omega
      have hrel := hins.walk_other hup h.tables.labelled hroot rfl hroot
        (List.cons_ne_nil _ _) rfl hpath
      obtain ⟨x, hx⟩ := h.lower p hp v (lowerHalf_of_lt (by omega))
      exact ⟨archTranslate_congr (getLast?_of_walkRel hrel),
        (hx.up hrel).permission.trans hx.permission.symm⟩
    · have hwalk : pathEntries hhdm p v s'.mem = pathEntries hhdm p v s.mem :=
        hins.walk_off h.tables.labelled hup hroot rfl hroot rfl fun hpre =>
          hupper (by
            rw [LowerHalf, ← (List.cons_prefix_cons.mp hpre).1]
            exact hlower)
      exact ⟨archTranslate_congr (by rw [hwalk]), by rw [effective, effective, hwalk]⟩

/-- A page that is not a table: it stands at the end of a path of its own, where no walk goes on. -/
def IsPage (lab : Labels) (f : BitVec 64) : Prop :=
  ∃ o path, lab f = some (o, path) ∧ path.length = 4

/-- **What is in such pages is seen by no walk.** -/
theorem Spaces.write (h : Spaces hhdm kernelPagemap s lab spaces) {m : Mem}
    (hm : ∀ b, (∀ f, IsPage lab f → 4096 ≤ (b - f).toNat) → m b = s.mem b) {c oc : BitVec 64}
    {pc : List (BitVec 9)} (j : BitVec 9) (hc : lab c = some (oc, pc)) (hlen : pc.length < 4) :
    readPte m c j = readPte s.mem c j := by
  refine congrArg Pte.ofWord (load_congr fun k hk => hm _ fun f hf => ?_)
  obtain ⟨o, path, hpath, hfour⟩ := hf
  refine le_toNat_pteAddr_sub (h.tables.onPage (by simp [hpath]))
    (h.tables.onPage (by simp [hc])) ?_
    j hk
  rintro rfl
  obtain ⟨-, rfl⟩ := Prod.mk.inj (Option.some.inj (hc.symm.trans hpath))
  omega

end Steps

end MoonOS

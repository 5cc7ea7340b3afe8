import MoonOS.Mm.Spaces

/-!
# Mm/UserView — what a user program reads through its pagemap

`userByte` is one read in user mode: the walk of the address, the permission on the way, and the
byte of the frame the walk ends in.  Memory is the kernel's view of it, so the byte is read through
the direct map.

The kernel writes page tables and user pages into one memory.  `mapped_of_archMapPage` says in one
place what a mapping does to both: its own page is served, every other page walks as before up to
upgrades above the last entry, and no byte of a page that is no table changes.
-/

namespace MoonOS

open ByteMemory TableForest

/-- **A read in user mode**: a fault, unless the processor takes the address, the walk gets to its
end, and every entry on it is open to user mode. -/
def userByte (hhdm pml4 vaddr : BitVec 64) (m : Mem) : Option (BitVec 8) :=
  if HwCanonical vaddr then
    (pathEntries hhdm pml4 vaddr m).bind fun es =>
      if es.all Pte.supervisor then
        es.getLast?.map fun pte => m ((pteView hhdm).next pte + (vaddr &&& 0xfff#64))
      else none
  else none

section UserByte

variable {hhdm pml4 vaddr : BitVec 64} {m : Mem}

/-- The offset of an address in its page. -/
theorem toNat_and_pageMask (vaddr : BitVec 64) :
    (vaddr &&& 0xfff#64).toNat = vaddr.toNat % 4096 := by
  have hmask : (0xfff#64).toNat = 2 ^ 12 - 1 := by decide
  rw [BitVec.toNat_and, hmask, Nat.and_two_pow_sub_one_eq_mod]

theorem and_pageMask (vaddr : BitVec 64) :
    vaddr &&& 0xfff#64 = BitVec.ofNat 64 (vaddr.toNat % 4096) := by
  refine BitVec.eq_of_toNat_eq ?_
  rw [toNat_and_pageMask, BitVec.toNat_ofNat]
  omega

/-- The frame an entry names, for a page that starts there. -/
theorem next_pagingCreateEntry {f : BitVec 64} (hf : OnPage hhdm f) (hf0 : f ≠ 0#64)
    (flags : BitVec 32) : (pteView hhdm).next (pagingCreateEntry (pa hhdm f) flags) = f := by
  simp only [pteView, setWidth_shiftLeft_address, va]
  rw [pa, if_neg hf0, and_not_pageMask hf, BitVec.sub_add_cancel]

/-- **Through a mapping made for the user its frame is read.** -/
theorem userByte_of_serves {c : MapCall} (hcanon : HwCanonical vaddr)
    (h : Serves (pathEntries hhdm pml4 vaddr m) (some c)) (huser : checkFlag c.flags 2 = true) :
    userByte hhdm pml4 vaddr m
      = some (m ((pteView hhdm).next (pagingCreateEntry c.paddr c.flags)
          + (vaddr &&& 0xfff#64))) := by
  obtain ⟨es, hes, hgrant⟩ := h
  have hall : (es ++ [pagingCreateEntry c.paddr c.flags]).all Pte.supervisor = true := by
    rw [List.all_append, List.all_eq_true.mpr fun e he => (hgrant e he).supervisor huser]
    simpa [pagingCreateEntry] using huser
  rw [userByte, if_pos hcanon, hes, Option.bind_some, if_pos hall, List.getLast?_append,
    List.getLast?_singleton]
  rfl

/-- A page that is mapped to itself is read where the kernel has it. -/
theorem userByte_of_identity {c : MapCall} (h : Serves (pathEntries hhdm pml4 vaddr m) (some c))
    (huser : checkFlag c.flags 2 = true) (hself : c.paddr = c.vaddr)
    (hkey : pageKey vaddr = pageKey c.vaddr) (hlow : vaddr.toNat < 2 ^ 47)
    (hc : c.vaddr.toNat < 2 ^ 48) : userByte hhdm pml4 vaddr m = some (m (va hhdm vaddr)) := by
  have hpage := congrArg BitVec.toNat hkey
  rw [toNat_pageKey, toNat_pageKey] at hpage
  have hsplit : (c.vaddr &&& ~~~0xfff#64) + (vaddr &&& 0xfff#64) = vaddr := by
    refine BitVec.eq_of_toNat_eq ?_
    rw [BitVec.toNat_add, toNat_and_not_pageMask, toNat_and_pageMask]
    omega
  have haddr : (pteView hhdm).next (pagingCreateEntry c.paddr c.flags) + (vaddr &&& 0xfff#64)
      = va hhdm vaddr := by
    simp only [pteView, setWidth_shiftLeft_address, hself, va]
    grind
  rw [userByte_of_serves (.inl hlow) h huser, haddr]

/-- Where nothing is mapped there is a fault. -/
theorem userByte_eq_none (h : pathEntries hhdm pml4 vaddr m = none) :
    userByte hhdm pml4 vaddr m = none := by
  rw [userByte, h]
  exact ite_self _

end UserByte

/-! ## Bytes of pages that are no tables -/

section Bytes

variable {hhdm kernelPagemap a b pml4 vaddr paddr o f x : BitVec 64} {i : BitVec 9}
  {flags : BitVec 32} {s s₁ s' : Vm} {lab : Labels} {p : List (BitVec 9)}

theorem IsPage.onPage (hT : Tables hhdm kernelPagemap s lab) (hf : IsPage lab f) :
    OnPage hhdm f := by
  obtain ⟨o, path, hlab, -⟩ := hf
  exact hT.onPage (by simp [hlab])

theorem IsPage.mono {lab' : Labels} (hf : IsPage lab f)
    (hmono : ∀ {c l}, lab c = some l → lab' c = some l) : IsPage lab' f := by
  obtain ⟨o, path, hlab, hlen⟩ := hf
  exact ⟨o, path, hmono hlab, hlen⟩

/-- A table is another page. -/
theorem IsPage.ne_table (hf : IsPage lab f) (ha : lab a = some (o, p)) (hlen : p.length < 4) :
    f ≠ a := by
  rintro rfl
  obtain ⟨o', path, hlab, hfour⟩ := hf
  obtain ⟨-, rfl⟩ := Prod.mk.inj (Option.some.inj (hlab.symm.trans ha))
  omega

/-- A block of the page allocator is another page. -/
theorem IsPage.ne_fresh (hf : IsPage lab f) (ha : lab a = none) : f ≠ a := by
  rintro rfl
  obtain ⟨o', path, hlab, -⟩ := hf
  simp [ha] at hlab

/-- A page taken from the allocator is cleared, and no other is touched. -/
theorem Tables.archAllocPage_byte (hT : Tables hhdm kernelPagemap s lab)
    (hnew : MoonOS.archAllocPage s = some (a, s₁)) (hf : IsPage lab f)
    (hx : (x - f).toNat < 4096) : s₁.mem x = s.mem x := by
  by_cases ha : a = 0#64
  · subst ha
    rw [(hT.archAllocPage_null hnew).2]
  · obtain ⟨fs, hfs, rfl⟩ := archAllocPage_of_ne_zero hnew ha
    obtain ⟨hpage, hlab⟩ := hT.fresh a (by simp [hfs]) ha
    have hfar := hpage.le_toNat_sub (hf.onPage hT) (hf.ne_fresh hlab) hx
    exact if_neg (by omega)

/-- A step down writes the entry and, if it grows a table, the table. -/
theorem Tables.vmmPmlAdvance_byte (hT : Tables hhdm kernelPagemap s lab)
    (ha : lab a = some (o, p)) (hlen : p.length < 4)
    (h : vmmPmlAdvance hhdm a i flags s = some (b, s₁)) (hf : IsPage lab f)
    (hx : (x - f).toNat < 4096) : s₁.mem x = s.mem x := by
  have hfar : 8 ≤ (x - pteAddr a i).toNat :=
    (hT.onPage (by simp [ha])).le_toNat_sub_pteAddr (hf.onPage hT) (hf.ne_table ha hlen) i hx
  by_cases hp : (readPte s.mem a i).present = true
  · simp only [vmmPmlAdvance, hp, if_true] at h
    split at h <;> split at h <;> obtain ⟨-, rfl⟩ := Prod.mk.inj (Option.some.inj h)
    · simp only [writePte, store_of_outside hfar]
    · simp only [writePte, store_of_outside hfar]
    · simp only [writePte, store_of_outside hfar]
    · rfl
  · obtain ⟨hb0, fs, hfs, rfl⟩ := vmmPmlAdvance_of_absent (by simpa using hp) h
    obtain ⟨hpage, hlab⟩ := hT.fresh b (by simp [hfs]) hb0
    have hfar' := hpage.le_toNat_sub (hf.onPage hT) (hf.ne_fresh hlab) hx
    simp only [writePte, store_of_outside hfar]
    exact if_neg (by omega)

/-- **`arch_map_page` writes tables only.** -/
theorem Tables.archMapPage_byte (hT : Tables hhdm kernelPagemap s lab)
    (hroot : lab pml4 = some (o, []))
    (h : archMapPage hhdm pml4 vaddr paddr flags s = some s') (hf : IsPage lab f)
    (hx : (x - f).toNat < 4096) : s'.mem x = s.mem x := by
  obtain ⟨-, rfl⟩ | ⟨pml3, s₃, pml2, s₂, pml1, s₁, h₃, h₂, h₁, rfl⟩ := archMapPage_cases h
  · rfl
  obtain ⟨lab₃, o₃, hT₃, hmono₃, hl₃, -⟩ := hT.advance hroot (by simp) h₃
  obtain ⟨lab₂, o₂, hT₂, hmono₂, hl₂, -⟩ := hT₃.advance hl₃ (by simp) h₂
  obtain ⟨lab₁, o₁, hT₁, hmono₁, hl₁, -⟩ := hT₂.advance hl₂ (by simp) h₁
  have hf₃ := hf.mono hmono₃
  have hf₂ := hf₃.mono hmono₂
  have hf₁ := hf₂.mono hmono₁
  have hfar : 8 ≤ (x - pteAddr pml1 (indexOf vaddr 1)).toNat :=
    (hT₁.onPage (by simp [hl₁])).le_toNat_sub_pteAddr (hf₁.onPage hT₁)
      (hf₁.ne_table hl₁ (by simp)) _ hx
  calc (writePte s₁.mem pml1 (indexOf vaddr 1) (pagingCreateEntry paddr flags)) x
      = s₁.mem x := store_of_outside hfar
    _ = s₂.mem x := hT₂.vmmPmlAdvance_byte hl₂ (by simp) h₁ hf₂ hx
    _ = s₃.mem x := hT₃.vmmPmlAdvance_byte hl₃ (by simp) h₂ hf₃ hx
    _ = s.mem x := hT.vmmPmlAdvance_byte hroot (by simp) h₃ hf hx

/-- **What one call of `arch_map_page` does**, to walks and to bytes. -/
theorem mapped_of_archMapPage (hT : Tables hhdm kernelPagemap s lab)
    (hroot : lab pml4 = some (o, [])) (hpml4 : pml4 ≠ 0#64) (hflags : checkFlag flags 0 = true)
    (h : archMapPage hhdm pml4 vaddr paddr flags s = some s') :
    ∃ lab', Tables hhdm kernelPagemap s' lab' ∧ (∀ {c l}, lab c = some l → lab' c = some l)
      ∧ (∀ v, pageKey v = pageKey vaddr →
          Serves (pathEntries hhdm pml4 v s'.mem) (some ⟨vaddr, paddr, flags⟩))
      ∧ (∀ v, pageKey v ≠ pageKey vaddr →
          WalkRel PteUp (pathEntries hhdm pml4 v s.mem) (pathEntries hhdm pml4 v s'.mem))
      ∧ ∀ {f x}, IsPage lab f → (x - f).toNat < 4096 → s'.mem x = s.mem x := by
  obtain ⟨lab', hT', hins⟩ := archMapPage_insert hT hroot hpml4 (flags_ne_zero hflags) h
  refine ⟨lab', hT', hins.mono, fun v hv => ?_, fun v hv => ?_,
    fun hf hx => hT.archMapPage_byte hroot h hf hx⟩
  · rw [pathEntries, pathOf_eq_iff.mpr hv]
    exact hins.walk_self (isUpgrade_pteUp hhdm) hflags hT.labelled hroot rfl
  · exact hins.walk_other (isUpgrade_pteUp hhdm) hT.labelled hroot rfl hroot
      (List.cons_ne_nil _ _) rfl fun hpath => hv (pathOf_eq_iff.mp hpath)

/-- Memory that differs in pages that are no tables has the same walks. -/
theorem Tables.pathEntries_eq (hT : Tables hhdm kernelPagemap s lab) {m : Mem}
    (hm : ∀ x, (∀ g, IsPage lab g → 4096 ≤ (x - g).toNat) → m x = s.mem x)
    (hroot : lab pml4 = some (o, [])) (v : BitVec 64) :
    Tables hhdm kernelPagemap { s with mem := m } lab
      ∧ pathEntries hhdm pml4 v m = pathEntries hhdm pml4 v s.mem := by
  have hrow : ∀ {c oc pc} j, lab c = some (oc, pc) → pc.length < 4 →
      readPte m c j = readPte s.mem c j := fun {c oc pc} j hc hlen => by
    refine congrArg Pte.ofWord (load_congr fun k hk => hm _ fun g hg => ?_)
    exact le_toNat_pteAddr_sub (hg.onPage hT) (hT.onPage (by simp [hc]))
      (hg.ne_table hc hlen).symm j hk
  exact ⟨⟨hT.labelled.rows hrow, hT.onPage, hT.fresh, hT.distinct⟩,
    walk_eq_of_rows hT.labelled hrow (pathOf v) hroot rfl⟩

end Bytes

/-! ## The pages of a pagemap -/

/-- **A pagemap shows `M`**: what `M` maps is served, and what it does not map in the lower half is
not mapped. -/
def Shows (hhdm pml4 : BitVec 64) (m : Mem) (M : AddrSpace) : Prop :=
  ∀ v, (M (pageKey v) = none → LowerHalf v) →
    Serves (pathEntries hhdm pml4 v m) (M (pageKey v))

section Shows

variable {hhdm kernelPagemap pml4 o : BitVec 64} {s s' : Vm} {m m' : Mem} {lab : Labels}
  {M : AddrSpace} {c : MapCall} {calls : List MapCall}

theorem Shows.congr (h : Shows hhdm pml4 m M)
    (hwalk : ∀ v, pathEntries hhdm pml4 v m' = pathEntries hhdm pml4 v m) :
    Shows hhdm pml4 m' M := fun v hv => by
  rw [hwalk v]
  exact h v hv

/-- One more mapping, told by what it does to walks. -/
theorem Shows.update (h : Shows hhdm pml4 m M)
    (hself : ∀ v, pageKey v = pageKey c.vaddr → Serves (pathEntries hhdm pml4 v m') (some c))
    (hother : ∀ v, pageKey v ≠ pageKey c.vaddr →
      WalkRel PteUp (pathEntries hhdm pml4 v m) (pathEntries hhdm pml4 v m')) :
    Shows hhdm pml4 m' (M.map c) := by
  intro v hv
  by_cases hkey : pageKey v = pageKey c.vaddr
  · rw [AddrSpace.map, hkey, Function.update_self]
    exact hself v hkey
  · rw [AddrSpace.map, Function.update_of_ne hkey] at hv ⊢
    exact (h v hv).up (hother v hkey)

/-- **One call of `arch_map_page`.** -/
theorem Shows.map (h : Shows hhdm pml4 s.mem M) (hT : Tables hhdm kernelPagemap s lab)
    (hroot : lab pml4 = some (o, [])) (hpml4 : pml4 ≠ 0#64) (hflags : checkFlag c.flags 0 = true)
    (hmap : archMapPage hhdm pml4 c.vaddr c.paddr c.flags s = some s') :
    Shows hhdm pml4 s'.mem (M.map c) := by
  obtain ⟨-, -, -, hself, hother, -⟩ := mapped_of_archMapPage hT hroot hpml4 hflags hmap
  exact h.update hself hother

/-- **A call whose page no other call of the run has is served when the run is over.** -/
theorem AddrSpace.foldl_map_of_nodup (hnodup : (calls.map fun c => pageKey c.vaddr).Nodup)
    (hc : c ∈ calls) : calls.foldl AddrSpace.map M (pageKey c.vaddr) = some c := by
  obtain ⟨before, after, rfl⟩ := List.append_of_mem hc
  rw [List.map_append, List.map_cons] at hnodup
  exact AddrSpace.foldl_last (List.nodup_cons.mp (List.nodup_append.mp hnodup).2.1).1

theorem Shows.serves_of_nodup (h : Shows hhdm pml4 m (calls.foldl AddrSpace.map M))
    (hnodup : (calls.map fun c => pageKey c.vaddr).Nodup) (hc : c ∈ calls) :
    Serves (pathEntries hhdm pml4 c.vaddr m) (some c) := by
  have hkey := AddrSpace.foldl_map_of_nodup (M := M) hnodup hc
  have hserve := h c.vaddr fun hnone => nomatch hkey.symm.trans hnone
  rwa [hkey] at hserve

end Shows

end MoonOS

import MoonOS.Lib.TableForest
import MoonOS.Mm.Virt

/-!
# Mm/Tables — a page mapping is one descent through a labelled forest

The page tables of a kernel are a store of tables in the sense of `Lib/TableForest`: the walk reads
an entry through the direct map (`pteView`), the four indices of an address are its path (`pathOf`),
and the owner of a table is the top-level table it hangs below.  `Tables` is the invariant every
page-table operation keeps: the tables are labelled and lie on pages, and what the page allocator
still has to give is on pages too, pairwise distinct and no table yet.

`Tables.advance_cases` says what one step down does to the tables.  `archMapPage_insert` is the only
place where the code of `arch_map_page` is unfolded: it *is* an `Insert` along the path of its
address, and the tables it adds are blocks of the page allocator (`Grown`).
-/

namespace MoonOS

open ByteMemory TableForest

/-- How a walk reads an entry: the table it names, through the direct map. -/
def pteView (hhdm : BitVec 64) : View (BitVec 64) Pte where
  present := Pte.present
  next e := va hhdm (e.address.setWidth 64 <<< 12)

/-- The four indices of an address, from the top. -/
def pathOf (vaddr : BitVec 64) : List (BitVec 9) :=
  [indexOf vaddr 4, indexOf vaddr 3, indexOf vaddr 2, indexOf vaddr 1]

/-- What `vmm_pml_advance` may do to a present entry: raise its permission bits. -/
structure PteUp (e e' : Pte) : Prop where
  present : e'.present = e.present
  address : e'.address = e.address
  readwrite : e.readwrite = true → e'.readwrite = true
  supervisor : e.supervisor = true → e'.supervisor = true

theorem isUpgrade_pteUp (hhdm : BitVec 64) : IsUpgrade (pteView hhdm) PteUp where
  refl _ := ⟨rfl, rfl, id, id⟩
  trans h h' := ⟨h'.present.trans h.present, h'.address.trans h.address,
    h'.readwrite ∘ h.readwrite, h'.supervisor ∘ h.supervisor⟩
  present h := h.present
  next h := by simp only [pteView, h.address]

/-- An entry that lets through at least what `flags` ask for. -/
structure Grants (flags : BitVec 32) (e : Pte) : Prop where
  readwrite : checkFlag flags 1 = true → e.readwrite = true
  supervisor : checkFlag flags 2 = true → e.supervisor = true

theorem grants_pagingCreateEntry (paddr : BitVec 64) (flags : BitVec 32) :
    Grants flags (pagingCreateEntry paddr flags) := ⟨id, id⟩

/-- A labelling of the tables: the owner is the top-level table. -/
abbrev Labels := Labelling (BitVec 64) (BitVec 64) (BitVec 9)

/-- The paths that lead from a top-level table into the kernel half. -/
def IsKernelSlot (q : List (BitVec 9)) : Prop := ∃ i : BitVec 9, q = [i] ∧ 256 ≤ i.toNat

/-- **The invariant of the page tables**: they are labelled, on pages, and out of the page
allocator's reach. -/
structure Tables (hhdm kernelPagemap : BitVec 64) (s : Vm) (lab : Labels) : Prop where
  labelled : Labelled (pteView hhdm) 4 kernelPagemap IsKernelSlot (readPte s.mem) lab
  onPage : ∀ {c}, lab c ≠ none → OnPage hhdm c
  fresh : ∀ f ∈ s.frames, f ≠ 0#64 → OnPage hhdm f ∧ lab f = none
  distinct : (s.frames.filter (· ≠ 0#64)).Nodup

/-- **Where the tables of a later state come from**: they were tables, or the page allocator has
given them. -/
structure Grown (s : Vm) (lab : Labels) (s' : Vm) (lab' : Labels) : Prop where
  frames : s'.frames ⊆ s.frames
  table : ∀ c, lab' c ≠ none → lab c ≠ none ∨ c ∈ s.frames ∧ c ≠ 0#64

theorem Grown.trans {s s₁ s₂ : Vm} {lab lab₁ lab₂ : Labels} (h : Grown s lab s₁ lab₁)
    (h₁ : Grown s₁ lab₁ s₂ lab₂) : Grown s lab s₂ lab₂ where
  frames := List.Subset.trans h₁.frames h.frames
  table c hc := by
    rcases h₁.table c hc with hc₁ | ⟨hmem, hne⟩
    · exact h.table c hc₁
    · exact .inr ⟨h.frames hmem, hne⟩

/-! ## One step down -/

section Advance

variable {hhdm kernelPagemap a b : BitVec 64} {i : BitVec 9} {flags : BitVec 32} {s s₁ : Vm}
  {lab : Labels} {o : BitVec 64} {p : List (BitVec 9)}

/-- What `arch_alloc_page` does when it answers. -/
theorem archAllocPage_of_ne_zero (h : archAllocPage s = some (a, s₁)) (ha : a ≠ 0#64) :
    ∃ fs, s.frames = a :: fs ∧ s₁ = { s with mem := fill s.mem a 4096 0#8, frames := fs } := by
  obtain ⟨m, frames, lock⟩ := s
  obtain ⟨-, hhead, ⟨hnull, -⟩ | ⟨-, rfl⟩⟩ := archAllocPage_cases h
  · exact absurd hnull ha
  · cases frames with
    | nil => exact absurd hhead ha
    | cons f fs =>
      obtain rfl : a = f := hhead
      exact ⟨fs, rfl, by simp [Vm.served, memset_eq_fill, pageSize]⟩

/-- Through a present entry: its two permission bits are raised to what `flags` ask for. -/
theorem vmmPmlAdvance_of_present (hhdm : BitVec 64) (flags : BitVec 32)
    (hp : (readPte s.mem a i).present = true) :
    ∃ m, vmmPmlAdvance hhdm a i flags s
        = some ((pteView hhdm).next (readPte s.mem a i), { s with mem := m })
      ∧ readPte m a i = { readPte s.mem a i with
          readwrite := (readPte s.mem a i).readwrite || checkFlag flags 1
          supervisor := (readPte s.mem a i).supervisor || checkFlag flags 2 }
      ∧ ∀ {c k}, OnPage hhdm a → OnPage hhdm c → (c, k) ≠ (a, i) →
          readPte m c k = readPte s.mem c k := by
  -- A bit or-ed with a flag is the bit, unless the flag is set over a clear bit.
  have hor : ∀ c r : Bool, (r || c) = if c && !r then true else r := by decide
  simp only [vmmPmlAdvance, hp, if_true, pteView, hor]
  generalize he : readPte s.mem a i = e
  have hpe : e.present = true := he ▸ hp
  cases checkFlag flags 1 && !e.readwrite <;> simp only [if_true, if_false, Bool.false_eq_true]
  · cases checkFlag flags 2 && !e.supervisor <;> simp only [if_true, if_false, Bool.false_eq_true]
    · exact ⟨s.mem, rfl, by rw [he, ← hpe], fun _ _ _ => rfl⟩
    · exact ⟨_, rfl, by rw [readPte_writePte_self, hpe],
        fun ha hc hck => readPte_writePte_of_ne ha hc hck _⟩
  · cases checkFlag flags 2 && !e.supervisor <;> simp only [if_true, if_false, Bool.false_eq_true]
    · exact ⟨_, rfl, readPte_writePte_self ..,
        fun ha hc hck => readPte_writePte_of_ne ha hc hck _⟩
    · exact ⟨_, rfl, readPte_writePte_self .., fun ha hc hck => by
        rw [readPte_writePte_of_ne ha hc hck, readPte_writePte_of_ne ha hc hck]⟩

/-- Through an absent one: into a table just allocated, which the entry now names. -/
theorem vmmPmlAdvance_of_absent (hp : (readPte s.mem a i).present = false)
    (h : vmmPmlAdvance hhdm a i flags s = some (b, s₁)) :
    b ≠ 0#64 ∧ ∃ fs, s.frames = b :: fs
      ∧ s₁ = { s with
          mem := writePte (fill s.mem b 4096 0#8) a i (pagingCreateEntry (b - hhdm) flags)
          frames := fs } := by
  simp only [vmmPmlAdvance, hp, Bool.false_eq_true, if_false, bind, Option.bind_eq_some_iff,
    Prod.exists] at h
  obtain ⟨f, s₂, hnew, h⟩ := h
  by_cases hf : f = 0#64
  · simp [pa, hf] at h
  · obtain ⟨fs, hfs, rfl⟩ := archAllocPage_of_ne_zero hnew hf
    simp only [pa, if_neg hf] at h
    split at h
    case isTrue => cases h
    case isFalse =>
      obtain ⟨rfl, rfl⟩ := Prod.mk.inj (Option.some.inj h)
      rw [va, BitVec.sub_add_cancel]
      exact ⟨hf, fs, hfs, rfl⟩

/-- A block of the page allocator becomes a table under a new label. -/
theorem Tables.grow (hT : Tables hhdm kernelPagemap s lab) {f : BitVec 64}
    (hfs : s.frames = f :: s₁.frames) (hf : f ≠ 0#64) (l : BitVec 64 × List (BitVec 9))
    (hL : Labelled (pteView hhdm) 4 kernelPagemap IsKernelSlot (readPte s₁.mem)
      (Function.update lab f (some l))) :
    Tables hhdm kernelPagemap s₁ (Function.update lab f (some l)) where
  labelled := hL
  onPage {c} hc := by
    by_cases hcf : c = f
    · exact hcf ▸ (hT.fresh f (by simp [hfs]) hf).1
    · exact hT.onPage (by rwa [Function.update_of_ne hcf] at hc)
  fresh g hg hg0 := by
    obtain ⟨hpage, hlab⟩ := hT.fresh g (by simp [hfs, hg]) hg0
    have hd := hT.distinct
    rw [hfs, List.filter_cons_of_pos (by simpa using hf), List.nodup_cons] at hd
    have hne : g ≠ f := by
      rintro rfl
      exact hd.1 (List.mem_filter.mpr ⟨hg, by simpa using hg0⟩)
    exact ⟨hpage, by rwa [Function.update_of_ne hne]⟩
  distinct := by
    have hd := hT.distinct
    rw [hfs, List.filter_cons_of_pos (by simpa using hf), List.nodup_cons] at hd
    exact hd.2

/-- Clearing a page that is no table disturbs no table. -/
theorem Tables.readPte_fill (hT : Tables hhdm kernelPagemap s lab) {f : BitVec 64}
    (hf : OnPage hhdm f) (hlab : lab f = none) (c : BitVec 64) (k : BitVec 9) (hc : lab c ≠ none) :
    readPte (fill s.mem f 4096 0#8) c k = readPte s.mem c k :=
  readPte_of_page hf (hT.onPage hc) (by rintro rfl; exact hc hlab) fun x hx => if_neg (by omega)

/-- **A page just allocated is one more tree, empty**, under any label. -/
theorem Tables.archAllocPage (hT : Tables hhdm kernelPagemap s lab)
    (hnew : archAllocPage s = some (a, s₁)) (ha : a ≠ 0#64) (l : BitVec 64 × List (BitVec 9)) :
    lab a = none ∧ Tables hhdm kernelPagemap s₁ (Function.update lab a (some l))
      ∧ (∀ i, (readPte s₁.mem a i).present = false)
      ∧ ∀ c k, lab c ≠ none → readPte s₁.mem c k = readPte s.mem c k := by
  obtain ⟨fs, hfs, rfl⟩ := archAllocPage_of_ne_zero hnew ha
  obtain ⟨hpage, hlab⟩ := hT.fresh a (by simp [hfs]) ha
  have hempty : ∀ i, (readPte (fill s.mem a 4096 0#8) a i).present = false := fun i => by
    rw [readPte_fill_zero]
    rfl
  have hoff := hT.readPte_fill hpage hlab
  exact ⟨hlab, hT.grow hfs ha _ (hT.labelled.root hlab hoff hempty _), hempty, hoff⟩

/-- A null answer changes no memory: what is left to answer is shorter, and the lock is held. -/
theorem Tables.archAllocPage_null (hT : Tables hhdm kernelPagemap s lab)
    (hnull : MoonOS.archAllocPage s = some (0#64, s₁)) :
    Tables hhdm kernelPagemap s₁ lab ∧ s₁.mem = s.mem := by
  obtain ⟨-, hhead, ⟨-, rfl⟩ | ⟨hne, -⟩⟩ := archAllocPage_cases hnull
  · refine ⟨⟨hT.labelled, hT.onPage, fun g hg => hT.fresh g (List.mem_of_mem_tail hg), ?_⟩, rfl⟩
    exact hT.distinct.sublist ((List.tail_sublist _).filter _)
  · exact absurd rfl hne

/-- **What one step down does to the tables**: the entry it goes through is raised, or made to name
a block the page allocator had, now an empty table; every other entry stays. -/
theorem Tables.advance_cases (hT : Tables hhdm kernelPagemap s lab) (ha : lab a ≠ none)
    (h : vmmPmlAdvance hhdm a i flags s = some (b, s₁)) :
    (∀ c k, lab c ≠ none → (c, k) ≠ (a, i) → readPte s₁.mem c k = readPte s.mem c k)
      ∧ (((readPte s.mem a i).present = true ∧ b = (pteView hhdm).next (readPte s.mem a i)
            ∧ s₁.frames = s.frames
            ∧ readPte s₁.mem a i = { readPte s.mem a i with
                readwrite := (readPte s.mem a i).readwrite || checkFlag flags 1
                supervisor := (readPte s.mem a i).supervisor || checkFlag flags 2 })
        ∨ ((readPte s.mem a i).present = false ∧ b ≠ 0#64 ∧ s.frames = b :: s₁.frames
            ∧ readPte s₁.mem a i = pagingCreateEntry (b - hhdm) flags
            ∧ ∀ k, (readPte s₁.mem b k).present = false)) := by
  have haPage : OnPage hhdm a := hT.onPage ha
  by_cases hp : (readPte s.mem a i).present = true
  · obtain ⟨m, heq, hm, hoff⟩ := vmmPmlAdvance_of_present hhdm flags hp
    obtain ⟨rfl, rfl⟩ := Prod.mk.inj (Option.some.inj (heq.symm.trans h))
    exact ⟨fun c k hc hck => hoff haPage (hT.onPage hc) hck, .inl ⟨hp, rfl, rfl, hm⟩⟩
  · have habs : (readPte s.mem a i).present = false := by simpa using hp
    obtain ⟨hb0, fs, hfs, rfl⟩ := vmmPmlAdvance_of_absent habs h
    obtain ⟨hbPage, hb⟩ := hT.fresh b (by simp [hfs]) hb0
    have hba : b ≠ a := by
      rintro rfl
      exact ha hb
    refine ⟨fun c k hc hck => ?_, .inr ⟨habs, hb0, hfs, readPte_writePte_self .., fun k => ?_⟩⟩
    · rw [readPte_writePte_of_ne haPage (hT.onPage hc) hck, hT.readPte_fill hbPage hb c k hc]
    · rw [readPte_writePte_of_ne haPage hbPage (fun h => hba (Prod.mk.inj h).1), readPte_fill_zero]
      rfl

/-- **One step down is the first step of a descent**: whatever is then inserted below the table it
returns has been inserted below `a`. -/
theorem Tables.advance_grown (hT : Tables hhdm kernelPagemap s lab) (ha : lab a = some (o, p))
    (hlen : p.length + 1 < 4) (h : vmmPmlAdvance hhdm a i flags s = some (b, s₁)) :
    ∃ lab₁ o₁, Tables hhdm kernelPagemap s₁ lab₁ ∧ (∀ {c l}, lab c = some l → lab₁ c = some l)
      ∧ lab₁ b = some (o₁, p ++ [i])
      ∧ (∀ {leaf j is T' lab'}, leaf.present = checkFlag flags 0 →
        Insert (pteView hhdm) PteUp (Grants flags) leaf (readPte s₁.mem) lab₁ b (j :: is) T' lab' →
        Insert (pteView hhdm) PteUp (Grants flags) leaf (readPte s.mem) lab a (i :: j :: is)
          T' lab')
      ∧ Grown s lab s₁ lab₁ := by
  obtain ⟨hrow, ⟨hp, rfl, hfs, he⟩ | ⟨hp, hb0, hfs, he, hnew⟩⟩ :=
    hT.advance_cases (by simp [ha]) h
  · have hup : PteUp (readPte s.mem a i) (readPte s₁.mem a i) := by
      rw [he]
      exact ⟨rfl, rfl, fun h => by simp [h], fun h => by simp [h]⟩
    have hgood : Grants flags (readPte s₁.mem a i) := by
      rw [he]
      exact ⟨fun h => by simp [h], fun h => by simp [h]⟩
    obtain ⟨o₁, ho₁, -⟩ := hT.labelled.child ha hlen hp
    exact ⟨lab, o₁, ⟨hT.labelled.reuse (isUpgrade_pteUp hhdm) hrow hup, hT.onPage,
      hfs ▸ hT.fresh, hfs ▸ hT.distinct⟩, id, ho₁, fun _ hins => .reuse hp hrow hup hgood hins,
      hfs ▸ List.Subset.refl _, fun _ => .inl⟩
  · obtain ⟨hbPage, hb⟩ := hT.fresh b (by simp [hfs]) hb0
    have hnext : (pteView hhdm).next (readPte s₁.mem a i) = b := by
      rw [he]
      simp only [pteView, setWidth_shiftLeft_address, va]
      rw [and_not_pageMask hbPage, BitVec.sub_add_cancel]
    refine ⟨Function.update lab b (some (o, p ++ [i])), o,
      hT.grow hfs hb0 _ (hT.labelled.grow ha hb hrow hnext hnew), fun {c l} hc => ?_,
      Function.update_self .., fun hleaf hins => ?_, by simp [hfs], fun c hc => ?_⟩
    · rwa [Function.update_of_ne (by rintro rfl; simp [hb] at hc)]
    · refine .grow hp ha hb hrow ?_ hnext ?_ hnew hins
      · rw [he]
        exact hleaf.symm
      · rw [he]
        exact grants_pagingCreateEntry _ _
    · by_cases hcb : c = b
      · exact .inr ⟨by simp [hfs, hcb], hcb ▸ hb0⟩
      · exact .inl (by rwa [Function.update_of_ne hcb] at hc)

/-- The descent, wherever its tables come from. -/
theorem Tables.advance (hT : Tables hhdm kernelPagemap s lab) (ha : lab a = some (o, p))
    (hlen : p.length + 1 < 4) (h : vmmPmlAdvance hhdm a i flags s = some (b, s₁)) :
    ∃ lab₁ o₁, Tables hhdm kernelPagemap s₁ lab₁ ∧ (∀ {c l}, lab c = some l → lab₁ c = some l)
      ∧ lab₁ b = some (o₁, p ++ [i])
      ∧ ∀ {leaf j is T' lab'}, leaf.present = checkFlag flags 0 →
        Insert (pteView hhdm) PteUp (Grants flags) leaf (readPte s₁.mem) lab₁ b (j :: is) T' lab' →
        Insert (pteView hhdm) PteUp (Grants flags) leaf (readPte s.mem) lab a (i :: j :: is)
          T' lab' := by
  obtain ⟨lab₁, o₁, hT₁, hmono, hl₁, hins, -⟩ := hT.advance_grown ha hlen h
  exact ⟨lab₁, o₁, hT₁, hmono, hl₁, hins⟩

end Advance

/-- Flags that make an entry present are not empty. -/
theorem flags_ne_zero {flags : BitVec 32} (h : checkFlag flags 0 = true) : flags ≠ 0#32 := by
  rintro rfl
  exact absurd h (by decide)

/-! ## A whole mapping -/

section MapPage

variable {hhdm kernelPagemap pml4 vaddr paddr o : BitVec 64} {flags : BitVec 32} {s s' : Vm}
  {lab : Labels}

/-- `arch_map_page` is a step down from the top, and what is below it leaves the top as it is. -/
theorem archMapPage_descend_grown (hT : Tables hhdm kernelPagemap s lab)
    (hroot : lab pml4 = some (o, [])) (hpml4 : pml4 ≠ 0#64) (hflags : flags ≠ 0#32)
    (h : archMapPage hhdm pml4 vaddr paddr flags s = some s') :
    ∃ pml3 s₃ lab', vmmPmlAdvance hhdm pml4 (indexOf vaddr 4) flags s = some (pml3, s₃)
      ∧ (∀ j, readPte s'.mem pml4 j = readPte s₃.mem pml4 j)
      ∧ Tables hhdm kernelPagemap s' lab'
      ∧ Insert (pteView hhdm) PteUp (Grants flags) (pagingCreateEntry paddr flags)
          (readPte s.mem) lab pml4 (pathOf vaddr) (readPte s'.mem) lab'
      ∧ Grown s lab s' lab' := by
  obtain ⟨hguard, -⟩ | ⟨pml3, s₃, pml2, s₂, pml1, s₁, h₃, h₂, h₁, rfl⟩ := archMapPage_cases h
  · exact absurd hguard (not_or.mpr ⟨hpml4, hflags⟩)
  obtain ⟨lab₃, o₃, hT₃, hmono, hl₃, hi₃, hg₃⟩ := hT.advance_grown hroot (by simp) h₃
  obtain ⟨lab₂, o₂, hT₂, -, hl₂, hi₂, hg₂⟩ := hT₃.advance_grown hl₃ (by simp) h₂
  obtain ⟨lab₁, o₁, hT₁, -, hl₁, hi₁, hg₁⟩ := hT₂.advance_grown hl₂ (by simp) h₁
  have hpage : OnPage hhdm pml1 := hT₁.onPage (by simp [hl₁])
  have hins : Insert (pteView hhdm) PteUp (Grants flags) (pagingCreateEntry paddr flags)
      (readPte s₁.mem) lab₁ pml1 [indexOf vaddr 1]
      (readPte (writePte s₁.mem pml1 (indexOf vaddr 1) (pagingCreateEntry paddr flags))) lab₁ :=
    .leaf (fun c k hc hck => readPte_writePte_of_ne hpage (hT₁.onPage hc) hck _)
      (readPte_writePte_self ..)
  have hg := (hg₃.trans hg₂).trans hg₁
  have hbelow := hi₂ rfl (hi₁ rfl hins)
  exact ⟨pml3, s₃, lab₁, h₃,
    hbelow.row_above hT₃.labelled (isUpgrade_pteUp hhdm) hl₃ rfl (hmono hroot) (by simp),
    ⟨hins.labelled (isUpgrade_pteUp hhdm) hT₁.labelled hl₁ (by simp), hT₁.onPage, hT₁.fresh,
      hT₁.distinct⟩, hi₃ rfl hbelow, ⟨hg.frames, hg.table⟩⟩

/-- The same, wherever the tables come from. -/
theorem archMapPage_descend (hT : Tables hhdm kernelPagemap s lab) (hroot : lab pml4 = some (o, []))
    (hpml4 : pml4 ≠ 0#64) (hflags : flags ≠ 0#32)
    (h : archMapPage hhdm pml4 vaddr paddr flags s = some s') :
    ∃ pml3 s₃ lab', vmmPmlAdvance hhdm pml4 (indexOf vaddr 4) flags s = some (pml3, s₃)
      ∧ (∀ j, readPte s'.mem pml4 j = readPte s₃.mem pml4 j)
      ∧ Tables hhdm kernelPagemap s' lab'
      ∧ Insert (pteView hhdm) PteUp (Grants flags) (pagingCreateEntry paddr flags)
          (readPte s.mem) lab pml4 (pathOf vaddr) (readPte s'.mem) lab' := by
  obtain ⟨pml3, s₃, lab', hadvance, htop, hT', hins, -⟩ :=
    archMapPage_descend_grown hT hroot hpml4 hflags h
  exact ⟨pml3, s₃, lab', hadvance, htop, hT', hins⟩

/-- **`arch_map_page` is one descent along the path of its address.** -/
theorem archMapPage_insert (hT : Tables hhdm kernelPagemap s lab) (hroot : lab pml4 = some (o, []))
    (hpml4 : pml4 ≠ 0#64) (hflags : flags ≠ 0#32)
    (h : archMapPage hhdm pml4 vaddr paddr flags s = some s') :
    ∃ lab', Tables hhdm kernelPagemap s' lab'
      ∧ Insert (pteView hhdm) PteUp (Grants flags) (pagingCreateEntry paddr flags)
          (readPte s.mem) lab pml4 (pathOf vaddr) (readPte s'.mem) lab' := by
  obtain ⟨-, -, lab', -, -, hT', hins⟩ := archMapPage_descend hT hroot hpml4 hflags h
  exact ⟨lab', hT', hins⟩

/-- A step down takes at most one block from the page allocator. -/
theorem vmmPmlAdvance_isSome (a : BitVec 64) (i : BitVec 9) (flags : BitVec 32) {n : ℕ}
    (hs : Supplies hhdm s (n + 1)) :
    ∃ b s₁, vmmPmlAdvance hhdm a i flags s = some (b, s₁) ∧ Supplies hhdm s₁ n := by
  by_cases hp : (readPte s.mem a i).present = true
  · obtain ⟨m, heq, -⟩ := vmmPmlAdvance_of_present hhdm flags hp
    exact ⟨_, _, heq, hs.unlocked, hs.good, (Nat.le_succ n).trans hs.enough⟩
  · obtain ⟨f, s', hnew, hf0, hfh, hs'⟩ := hs.page
    have hpa : pa hhdm f ≠ 0#64 := by
      rw [pa, if_neg hf0]
      exact fun h => hfh (by bv_omega)
    simp only [vmmPmlAdvance, hp, hnew, bind, Option.bind_some, if_neg hpa]
    exact ⟨_, _, rfl, hs'.unlocked, hs'.good, hs'.enough⟩

/-- **Three blocks are enough for a mapping.** -/
theorem archMapPage_isSome (pml4 vaddr paddr : BitVec 64) (flags : BitVec 32) {n : ℕ}
    (hs : Supplies hhdm s (n + 3)) :
    ∃ s', archMapPage hhdm pml4 vaddr paddr flags s = some s' ∧ Supplies hhdm s' n := by
  by_cases hguard : pml4 = 0#64 ∨ flags = 0#32
  · exact ⟨s, if_pos hguard, hs.mono (by omega)⟩
  · obtain ⟨pml3, s₃, h₃, hs₃⟩ := vmmPmlAdvance_isSome pml4 (indexOf vaddr 4) flags hs
    obtain ⟨pml2, s₂, h₂, hs₂⟩ := vmmPmlAdvance_isSome pml3 (indexOf vaddr 3) flags hs₃
    obtain ⟨pml1, s₁, h₁, hs₁⟩ := vmmPmlAdvance_isSome pml2 (indexOf vaddr 2) flags hs₂
    rw [archMapPage, if_neg hguard]
    simp only [h₃, h₂, h₁, bind, Option.bind_some]
    exact ⟨_, rfl, hs₁.unlocked, hs₁.good, hs₁.enough⟩

end MapPage

end MoonOS

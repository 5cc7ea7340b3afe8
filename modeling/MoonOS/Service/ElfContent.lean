import MoonOS.Mm.UserView
import MoonOS.Service.ElfHeaders

/-!
# Service/ElfContent — the bytes a loaded image shows

What a pass over segment pages leaves behind is an `ImageMap`: at each page of the address space,
the segment page loaded there last.  `Loaded` relates it to the machine — the page is mapped for the
user, its frame holds the bytes of that segment page, and every page without one walks as before —
and `Loaded.loadPage` is the simulation of one call of `load_segment`.

The file's bytes go to the *start* of each page, wherever in its page the segment begins.  So

* `segment_content` — a segment that begins with a page is seen as the file says;
* `segmentsReadable_iff` — of an image with segments anywhere, this is so exactly when at every byte
  the segment page loaded last agrees with the segment.
-/

namespace MoonOS

open ByteMemory TableForest GuardedRun

/-! ## One page -/

/-- Byte `k` of a segment: the file's, and zero beyond. -/
def segmentByte (image : Mem) (phdr : Elf64Phdr) (k : ℕ) : BitVec 8 :=
  if k < phdr.pFilesz.toNat then image (at' phdr.pOffset k) else 0#8

/-- **A page is filled with the bytes of its segment**: copied, copied and cleared, or cleared. -/
theorem fillSegmentPage_inside {image m : Mem} {phdr : Elf64Phdr} {j i : ℕ} {phys : BitVec 64}
    (hj : 4096 * (j + 1) < 2 ^ 64) (hi : i < 4096) :
    fillSegmentPage image phdr j phys m (at' phys i) = segmentByte image phdr (4096 * j + i) := by
  have hset : ∀ {m : Mem} {a : BitVec 64} {n : ℕ}, (at' phys i - a).toNat < n →
      memset m a 0#8 n (at' phys i) = 0#8 := fun hn => by rw [memset_eq_fill, fill, if_pos hn]
  have hoff : (BitVec.ofNat 64 j * 4096#64).toNat = 4096 * j := by
    rw [BitVec.toNat_mul, BitVec.toNat_ofNat, BitVec.toNat_ofNat]
    omega
  unfold fillSegmentPage segmentByte
  dsimp only
  generalize BitVec.ofNat 64 j * 4096#64 = pageOffset at hoff
  by_cases hzero : phdr.pFilesz ≤ pageOffset
  · rw [if_pos hzero, hset (by rw [toNat_at'_sub phys (by omega)]; exact hi),
      if_neg (by rw [BitVec.le_def] at hzero; omega)]
  rw [if_neg hzero]
  have hsize : (if phdr.pFilesz < pageOffset + 4096#64 then phdr.pFilesz - pageOffset
      else 4096#64).toNat = min (phdr.pFilesz.toNat - 4096 * j) 4096 := by
    split <;> bv_omega
  generalize (if phdr.pFilesz < pageOffset + 4096#64 then phdr.pFilesz - pageOffset
    else 4096#64) = copySize at hsize ⊢
  have hsrc : at' (phdr.pOffset + pageOffset) i = at' phdr.pOffset (4096 * j + i) := by
    rw [at', at']
    bv_omega
  by_cases hcopied : i < copySize.toNat
  · have hfile : memcpyFrom image m phys (phdr.pOffset + pageOffset) copySize.toNat (at' phys i)
        = image (at' phdr.pOffset (4096 * j + i)) := by
      rw [memcpyFrom_of_inside hcopied (by omega), hsrc]
    rw [if_pos (show 4096 * j + i < phdr.pFilesz.toNat by omega)]
    split
    · rw [memset_eq_fill, fill, if_neg (by bv_omega), hfile]
    · exact hfile
  · have hshort : copySize < 4096#64 := by
      rw [BitVec.lt_def, BitVec.toNat_ofNat]
      omega
    rw [if_pos hshort, hset (by bv_omega), if_neg (by omega)]

/-! ## What a pass over pages puts where -/

/-- The segment page loaded last at each page of an address space. -/
abbrev ImageMap := BitVec 36 → Option (Elf64Phdr × ℕ)

/-- The page a segment page is loaded at. -/
def loadKey (l : Elf64Phdr × ℕ) : BitVec 36 := pageKey (l.1.vaddr l.2)

theorem loadKey_mk (phdr : Elf64Phdr) (j : ℕ) : loadKey (phdr, j) = pageKey (phdr.vaddr j) := rfl

/-- One more segment page. -/
def ImageMap.load (M : ImageMap) (l : Elf64Phdr × ℕ) : ImageMap :=
  Function.update M (loadKey l) (some l)

/-- A pass over segment pages. -/
def ImageMap.ofLoads (loads : List (Elf64Phdr × ℕ)) : ImageMap :=
  loads.foldl ImageMap.load fun _ => none

section ImageMap

variable {loads : List (Elf64Phdr × ℕ)} {M : ImageMap} {l : Elf64Phdr × ℕ} {k : BitVec 36}

/-- A segment page that shares its place with no other is found there. -/
theorem ImageMap.foldl_load_eq_some (huniq : ∀ l' ∈ loads, loadKey l' = k → l' = l)
    (h : (l ∈ loads ∧ loadKey l = k) ∨ M k = some l) :
    loads.foldl ImageMap.load M k = some l := by
  induction loads generalizing M with
  | nil => simpa using h
  | cons a loads ih =>
    refine ih (fun l' hl' => huniq l' (by simp [hl'])) ?_
    by_cases hk : loadKey a = k
    · obtain rfl := huniq a (by simp) hk
      exact .inr (by rw [ImageMap.load, hk, Function.update_self])
    · rcases h with ⟨hmem, hl⟩ | hM
      · rcases List.mem_cons.mp hmem with rfl | hmem
        · exact absurd hl hk
        · exact .inl ⟨hmem, hl⟩
      · exact .inr (by rw [ImageMap.load, Function.update_of_ne (Ne.symm hk), hM])

theorem ImageMap.ofLoads_eq_some (hl : l ∈ loads)
    (huniq : ∀ l' ∈ loads, loadKey l' = loadKey l → l' = l) :
    ImageMap.ofLoads loads (loadKey l) = some l :=
  ImageMap.foldl_load_eq_some huniq (.inl ⟨hl, rfl⟩)

/-- Where none is loaded there is none. -/
theorem ImageMap.ofLoads_eq_none (h : ∀ l ∈ loads, loadKey l ≠ k) :
    ImageMap.ofLoads loads k = none := by
  have hfold : ∀ M : ImageMap, loads.foldl ImageMap.load M k = M k := by
    induction loads with
    | nil => exact fun M => rfl
    | cons a loads ih =>
      intro M
      rw [List.foldl_cons, ih fun l hl => h l (by simp [hl]), ImageMap.load,
        Function.update_of_ne (h a (by simp)).symm]
  exact hfold _

end ImageMap

/-! ## The simulation -/

/-- One call of `load_segment`. -/
def loadPage (hhdm : BitVec 64) (image : Mem) (space : BitVec 64) (s : Loading)
    (l : Elf64Phdr × ℕ) : Option Loading :=
  loadSegment hhdm image space l.1 l.2 s

/-- The page allocator has an answer for the next page. -/
def PageAtHand (s : Loading) (_ : Elf64Phdr × ℕ) : Prop := s.vm.nextPage ≠ 0#64

/-- **The machine shows what `M` says**, and beyond it what it showed `before`. -/
structure Loaded (hhdm kernelPagemap space : BitVec 64) (image : Mem) (before : Mem)
    (lab₀ : Labels) (M : ImageMap) (vm : Vm) (lab : Labels) : Prop where
  tables : Tables hhdm kernelPagemap vm lab
  mono : ∀ {c l}, lab₀ c = some l → lab c = some l
  pages : ∀ v l, M (pageKey v) = some l → ∃ f, f ≠ 0#64 ∧ IsPage lab f
    ∧ Serves (pathEntries hhdm space v vm.mem) (some ⟨l.1.vaddr l.2, pa hhdm f, mapUserRw⟩)
    ∧ ∀ i < 4096, vm.mem (at' f i) = segmentByte image l.1 (4096 * l.2 + i)
  others : ∀ v, M (pageKey v) = none →
    WalkRel PteUp (pathEntries hhdm space v before) (pathEntries hhdm space v vm.mem)
  bytes : ∀ {f x}, IsPage lab₀ f → (x - f).toNat < 4096 → vm.mem x = before x

section Simulation

variable {hhdm kernelPagemap space o : BitVec 64} {image before : Mem} {lab₀ lab : Labels}
  {M : ImageMap} {vm : Vm} {s out : Loading} {l : Elf64Phdr × ℕ} {loads : List (Elf64Phdr × ℕ)}

/-- Before the pass. -/
theorem Tables.loaded (hT : Tables hhdm kernelPagemap vm lab) (space : BitVec 64) (image : Mem) :
    Loaded hhdm kernelPagemap space image vm.mem lab (fun _ => none) vm lab where
  tables := hT
  mono := id
  pages _ _ h := nomatch h
  others _ _ := .refl (isUpgrade_pteUp hhdm) (View.walk_cons_ne _)
  bytes _ _ := rfl

/-- **What one call of `load_segment` does with a page at hand**: the page is mapped where the
segment wants it and holds the segment's bytes, every other page walks as before up to upgrades, and
no byte of a page there was changes. -/
theorem placed_of_loadPage (hT : Tables hhdm kernelPagemap s.vm lab)
    (hroot : lab space = some (o, [])) (hspace : space ≠ 0#64) (hpage : PageAtHand s l)
    (hrun : loadPage hhdm image space s l = some out) :
    ∃ lab', Tables hhdm kernelPagemap out.vm lab' ∧ (∀ {c x}, lab c = some x → lab' c = some x)
      ∧ IsPage lab' s.vm.nextPage
      ∧ (∀ v, pageKey v = loadKey l → Serves (pathEntries hhdm space v out.vm.mem)
          (some ⟨l.1.vaddr l.2, pa hhdm s.vm.nextPage, mapUserRw⟩))
      ∧ (∀ v, pageKey v ≠ loadKey l → WalkRel PteUp (pathEntries hhdm space v s.vm.mem)
          (pathEntries hhdm space v out.vm.mem))
      ∧ (∀ {f x}, IsPage lab f → (x - f).toNat < 4096 → out.vm.mem x = s.vm.mem x)
      ∧ (4096 * (l.2 + 1) < 2 ^ 64 → ∀ i < 4096,
          out.vm.mem (at' s.vm.nextPage i) = segmentByte image l.1 (4096 * l.2 + i)) := by
  rw [PageAtHand] at hpage
  obtain ⟨phys, vm₁, hnew, hend⟩ := loadSegment_cases hrun
  rw [nextPage_eq_of_archAllocPage hnew] at hpage ⊢
  obtain ⟨hnull, -⟩ | ⟨-, vm₂, hmap, rfl⟩ := hend
  · exact absurd hnull hpage
  have hbytes₁ := fun {f x} (hf : IsPage lab f) (hx : (x - f).toNat < 4096) =>
    hT.archAllocPage_byte hnew hf hx
  -- the page is taken: no walk changes, and it is under a label of its own
  obtain ⟨hnone, hT₁, -, hoff₁⟩ := hT.archAllocPage hnew hpage (phys, [0#9, 0#9, 0#9, 0#9])
  have hwalk₁ : ∀ v, pathEntries hhdm space v vm₁.mem = pathEntries hhdm space v s.vm.mem :=
    fun v => walk_eq_of_rows hT.labelled (fun j hc _ => hoff₁ _ j (by simp [hc])) (pathOf v)
      hroot rfl
  have hmono₁ : ∀ {c x}, lab c = some x →
      Function.update lab phys (some (phys, [0#9, 0#9, 0#9, 0#9])) c = some x := by
    rintro c x hc
    rwa [Function.update_of_ne (by rintro rfl; simp [hnone] at hc)]
  -- it is mapped: its own page is served, the others are upgraded at most
  obtain ⟨lab₂, hT₂, hmono₂, hself, hother, hbytes₂⟩ :=
    mapped_of_archMapPage hT₁ (hmono₁ hroot) hspace (by decide) hmap
  have hphys : IsPage lab₂ phys := ⟨_, _, hmono₂ (Function.update_self ..), rfl⟩
  -- it is filled: no table is in it
  have hinside : 4096 * (l.2 + 1) < 2 ^ 64 → ∀ i < 4096,
      fillSegmentPage image l.1 l.2 phys vm₂.mem (at' phys i)
        = segmentByte image l.1 (4096 * l.2 + i) := fun hl i hi => fillSegmentPage_inside hl hi
  have houtside : ∀ x, 4096 ≤ (x - phys).toNat →
      fillSegmentPage image l.1 l.2 phys vm₂.mem x = vm₂.mem x := fun x =>
    fillSegmentPage_of_outside
  generalize fillSegmentPage image l.1 l.2 phys vm₂.mem = m₃ at hinside houtside
  have hfilled := fun v => hT₂.pathEntries_eq (fun x hx => houtside x (hx phys hphys))
    (hmono₂ (hmono₁ hroot)) v
  refine ⟨lab₂, (hfilled 0#64).1, fun hc => hmono₂ (hmono₁ hc), hphys, fun v hv => ?_,
    fun v hv => ?_, fun {f x} hf hx => ?_, hinside⟩
  · rw [(hfilled v).2]
    exact hself v hv
  · have hup := hother v hv
    rw [hwalk₁ v] at hup
    rwa [(hfilled v).2]
  · have hfar := (hphys.onPage hT₂).le_toNat_sub (hf.onPage hT) (hf.ne_fresh hnone) hx
    exact ((houtside x hfar).trans (hbytes₂ (hf.mono hmono₁) hx)).trans (hbytes₁ hf hx)

/-- …and without one: nothing. -/
theorem kept_of_loadPage (hT : Tables hhdm kernelPagemap s.vm lab) (hpage : ¬ PageAtHand s l)
    (hrun : loadPage hhdm image space s l = some out) :
    Tables hhdm kernelPagemap out.vm lab ∧ out.vm.mem = s.vm.mem := by
  obtain ⟨phys, vm₁, hnew, ⟨rfl, rfl⟩ | ⟨hgiven, -⟩⟩ := loadSegment_cases hrun
  · exact hT.archAllocPage_null hnew
  · rw [← nextPage_eq_of_archAllocPage hnew] at hgiven
    exact absurd hgiven hpage

/-- **One call of `load_segment` is one update of the map.** -/
theorem Loaded.loadPage (h : Loaded hhdm kernelPagemap space image before lab₀ M s.vm lab)
    (hroot : lab₀ space = some (o, [])) (hspace : space ≠ 0#64) (hpage : PageAtHand s l)
    (hl : 4096 * (l.2 + 1) < 2 ^ 64) (hrun : loadPage hhdm image space s l = some out) :
    ∃ lab', Loaded hhdm kernelPagemap space image before lab₀ (M.load l) out.vm lab' := by
  obtain ⟨lab', hT', hmono, hphys, hself, hother, hbytes, hcontent⟩ :=
    placed_of_loadPage h.tables (h.mono hroot) hspace hpage hrun
  refine ⟨lab', hT', fun hc => hmono (h.mono hc), fun v l' hM => ?_, fun v hM => ?_,
    fun hf hx => (hbytes (hf.mono h.mono) hx).trans (h.bytes hf hx)⟩
  · by_cases hv : pageKey v = loadKey l
    · rw [hv, ImageMap.load, Function.update_self] at hM
      obtain rfl := Option.some.inj hM
      exact ⟨_, hpage, hphys, hself v hv, hcontent hl⟩
    · rw [ImageMap.load, Function.update_of_ne hv] at hM
      obtain ⟨f, hf0, hf, hserve, hold⟩ := h.pages v l' hM
      refine ⟨f, hf0, hf.mono hmono, hserve.up (hother v hv), fun i hi => ?_⟩
      have hin : (at' f i - f).toNat < 4096 := by rwa [toNat_at'_sub f (by omega)]
      exact (hbytes hf hin).trans (hold i hi)
  · have hv : pageKey v ≠ loadKey l := by
      intro hv
      rw [hv, ImageMap.load, Function.update_self] at hM
      cases hM
    rw [ImageMap.load, Function.update_of_ne hv] at hM
    exact (h.others v hM).trans (isUpgrade_pteUp hhdm) (hother v hv)

/-- A page that is refused is no update. -/
theorem Loaded.refused (h : Loaded hhdm kernelPagemap space image before lab₀ M s.vm lab)
    (hpage : ¬ PageAtHand s l) (hrun : MoonOS.loadPage hhdm image space s l = some out) :
    Loaded hhdm kernelPagemap space image before lab₀ M out.vm lab := by
  obtain ⟨hT, hmem⟩ := kept_of_loadPage h.tables hpage hrun
  refine ⟨hT, h.mono, ?_, ?_, ?_⟩
  · rw [hmem]
    exact h.pages
  · rw [hmem]
    exact h.others
  · rw [hmem]
    exact h.bytes

/-- **The pages a pass is given**, each with the segment page it is for. -/
def loadTrace (hhdm : BitVec 64) (image : Mem) (space : BitVec 64) :
    List (Elf64Phdr × ℕ) → Loading → List ((Elf64Phdr × ℕ) × BitVec 64)
  | [], _ => []
  | l :: loads, s =>
    match MoonOS.loadPage hhdm image space s l with
    | none => []
    | some s' =>
      (if s.vm.nextPage = 0#64 then [] else [(l, s.vm.nextPage)])
        ++ loadTrace hhdm image space loads s'

theorem loadTrace_cons (hstep : MoonOS.loadPage hhdm image space s l = some out) :
    loadTrace hhdm image space (l :: loads) s
      = (if s.vm.nextPage = 0#64 then [] else [(l, s.vm.nextPage)])
        ++ loadTrace hhdm image space loads out := by
  rw [loadTrace, hstep]

/-- **A pass is the run of its updates.** -/
theorem Loaded.loadPages (h : Loaded hhdm kernelPagemap space image before lab₀ M s.vm lab)
    (hroot : lab₀ space = some (o, [])) (hspace : space ≠ 0#64)
    (hl : ∀ l ∈ loads, 4096 * (l.2 + 1) < 2 ^ 64)
    (hrun : loads.foldlM (MoonOS.loadPage hhdm image space) s = some out) :
    ∃ lab', Loaded hhdm kernelPagemap space image before lab₀
      (((loadTrace hhdm image space loads s).map Prod.fst).foldl ImageMap.load M) out.vm lab' := by
  induction loads generalizing s lab M with
  | nil =>
    obtain rfl := Option.some.inj hrun
    exact ⟨lab, h⟩
  | cons l loads ih =>
    rw [List.foldlM_cons] at hrun
    obtain ⟨s₁, hstep, hrest⟩ := Option.bind_eq_some_iff.mp hrun
    have hl' := fun l hmem => hl l (List.mem_cons_of_mem _ hmem)
    rw [loadTrace_cons hstep]
    by_cases hpage : s.vm.nextPage = 0#64
    · rw [if_pos hpage]
      exact ih (h.refused (not_not.mpr hpage) hstep) hl' hrest
    · rw [if_neg hpage]
      obtain ⟨lab₁, h₁⟩ := h.loadPage hroot hspace hpage (hl l (by simp)) hstep
      exact ih h₁ hl' hrest

/-- With a page for every call, all are given. -/
theorem map_fst_loadTrace (hpages : Guarded (MoonOS.loadPage hhdm image space) PageAtHand loads s)
    (hrun : loads.foldlM (MoonOS.loadPage hhdm image space) s = some out) :
    (loadTrace hhdm image space loads s).map Prod.fst = loads := by
  induction loads generalizing s with
  | nil => rfl
  | cons l loads ih =>
    rw [List.foldlM_cons] at hrun
    obtain ⟨s₁, hstep, hrest⟩ := Option.bind_eq_some_iff.mp hrun
    obtain ⟨hpage, hpages'⟩ := hpages s₁ hstep
    rw [loadTrace_cons hstep, if_neg hpage, List.map_append, ih hpages' hrest]
    rfl

/-- **What is loaded at a page is read there.** -/
theorem Loaded.userByte (h : Loaded hhdm kernelPagemap space image before lab₀ M vm lab)
    {v : BitVec 64} (hv : HwCanonical v) (hM : M (pageKey v) = some l) :
    userByte hhdm space v vm.mem
      = some (segmentByte image l.1 (4096 * l.2 + v.toNat % 4096)) := by
  obtain ⟨f, hf0, hf, hserve, hcontent⟩ := h.pages v l hM
  rw [userByte_of_serves hv hserve (by decide : checkFlag mapUserRw 2 = true),
    next_pagingCreateEntry (hf.onPage h.tables) hf0, and_pageMask,
    hcontent _ (Nat.mod_lt _ (by omega))]

/-- With four blocks a page no page is refused. -/
theorem guarded_pageAtHand (image : Mem) (space : BitVec 64)
    (hs : Supplies hhdm s.vm (4 * loads.length)) :
    Guarded (MoonOS.loadPage hhdm image space) PageAtHand loads s := by
  induction loads generalizing s with
  | nil => trivial
  | cons l loads ih =>
    intro s₁ hstep
    have hs' : Supplies hhdm s.vm (4 * loads.length + 4) := hs
    obtain ⟨out, hstep', hs₁, -⟩ := loadSegment_isSome image space l.1 l.2 hs'
    obtain rfl := Option.some.inj (hstep'.symm.trans hstep)
    refine ⟨?_, ih hs₁⟩
    obtain ⟨f, s', hnew, hf, -⟩ := hs'.page
    rwa [PageAtHand, nextPage_eq_of_archAllocPage hnew]

end Simulation

/-! ## One segment -/

section Segment

variable {hhdm kernelPagemap space o : BitVec 64} {image : Mem} {lab : Labels} {vm : Vm}
  {phdr : Elf64Phdr}

/-- The pages of a segment. -/
def segmentLoadsOf (phdr : Elf64Phdr) : List (Elf64Phdr × ℕ) :=
  (List.range phdr.ceilPages).map fun j => (phdr, j)

theorem mem_segmentLoadsOf {l : Elf64Phdr × ℕ} :
    l ∈ segmentLoadsOf phdr ↔ l.1 = phdr ∧ l.2 < phdr.ceilPages := by
  obtain ⟨a, j⟩ := l
  simp only [segmentLoadsOf, List.mem_map, List.mem_range, Prod.mk.injEq]
  grind

/-- A segment the processor takes is in one half of the address space. -/
theorem half_of_canonical {a : BitVec 64} {n : ℕ} (hn : 0 < n) (hend : a.toNat + n ≤ 2 ^ 64)
    (hcanon : ∀ k < n, HwCanonical (at' a k)) :
    a.toNat + n ≤ 2 ^ 47 ∨ 2 ^ 64 - 2 ^ 47 ≤ a.toNat := by
  have hfirst := hcanon 0 hn
  rw [at'_zero, HwCanonical] at hfirst
  rcases hfirst with hlow | hhigh
  · left
    by_contra hout
    have hedge := hcanon (2 ^ 47 - a.toNat) (by omega)
    rw [HwCanonical, toNat_at' (by omega)] at hedge
    omega
  · exact .inr hhigh

/-- The address of a page of a segment that does not wrap around. -/
theorem toNat_vaddr {j : ℕ} (h : phdr.pVaddr.toNat + 4096 * j < 2 ^ 64) :
    (phdr.vaddr j).toNat = phdr.pVaddr.toNat + 4096 * j := by
  rw [Elf64Phdr.vaddr, BitVec.toNat_add, BitVec.toNat_mul, BitVec.toNat_ofNat, BitVec.toNat_ofNat]
  omega

/-- A byte of a segment that begins with a page is in its page `k / 4096`. -/
theorem pageKey_at' {k : ℕ} (halign : phdr.pVaddr.toNat % 4096 = 0)
    (hk : phdr.pVaddr.toNat + k < 2 ^ 64) :
    pageKey (at' phdr.pVaddr k) = loadKey (phdr, k / 4096)
      ∧ (at' phdr.pVaddr k).toNat % 4096 = k % 4096 := by
  refine ⟨BitVec.eq_of_toNat_eq ?_, ?_⟩
  · rw [loadKey_mk, toNat_pageKey, toNat_pageKey, toNat_vaddr (by omega), toNat_at' hk]
    omega
  · rw [toNat_at' hk]
    omega

/-- No two pages of a segment share a place. -/
theorem eq_of_loadKey_eq (hend : phdr.pVaddr.toNat + 4096 * phdr.ceilPages ≤ 2 ^ 64)
    (hcanon : ∀ k < 4096 * phdr.ceilPages, HwCanonical (at' phdr.pVaddr k)) {j : ℕ}
    (hj : j < phdr.ceilPages) {l : Elf64Phdr × ℕ} (hl : l ∈ segmentLoadsOf phdr)
    (heq : loadKey l = loadKey (phdr, j)) : l = (phdr, j) := by
  obtain ⟨a, j'⟩ := l
  obtain ⟨ha, hj'⟩ := mem_segmentLoadsOf.mp hl
  dsimp only at ha hj'
  subst ha
  have hnat := congrArg BitVec.toNat heq
  rw [loadKey_mk, loadKey_mk, toNat_pageKey, toNat_pageKey, toNat_vaddr (by omega),
    toNat_vaddr (by omega)] at hnat
  have hhalf := half_of_canonical (by omega) hend hcanon
  have hjj : j' = j := by omega
  rw [hjj]

/-- So each byte of it is shown by the page it is in. -/
theorem ofLoads_segmentLoadsOf (halign : phdr.pVaddr.toNat % 4096 = 0)
    (hend : phdr.pVaddr.toNat + 4096 * phdr.ceilPages ≤ 2 ^ 64)
    (hcanon : ∀ k < 4096 * phdr.ceilPages, HwCanonical (at' phdr.pVaddr k)) {k : ℕ}
    (hk : k < 4096 * phdr.ceilPages) :
    ImageMap.ofLoads (segmentLoadsOf phdr) (pageKey (at' phdr.pVaddr k))
      = some (phdr, k / 4096) := by
  have hj : k / 4096 < phdr.ceilPages := by omega
  rw [(pageKey_at' halign (by omega)).1]
  exact ImageMap.ofLoads_eq_some (mem_segmentLoadsOf.mpr ⟨rfl, hj⟩) fun l hl heq =>
    eq_of_loadKey_eq hend hcanon hj hl heq

/-- **The content of a segment**: if it begins with a page and its addresses are ones the processor
takes, then after a pass over its pages in which none was refused, byte `k` is the file's byte, zero
beyond the file, and every other page is mapped as it was.  Four blocks a page are enough. -/
theorem segment_content (hT : Tables hhdm kernelPagemap vm lab) (hroot : lab space = some (o, []))
    (hspace : space ≠ 0#64) (image : Mem) (halign : phdr.pVaddr.toNat % 4096 = 0)
    (hend : phdr.pVaddr.toNat + 4096 * phdr.ceilPages ≤ 2 ^ 64)
    (hcanon : ∀ k < 4096 * phdr.ceilPages, HwCanonical (at' phdr.pVaddr k)) :
    (∀ out, (segmentLoadsOf phdr).foldlM (loadPage hhdm image space) ⟨vm, []⟩ = some out →
      Guarded (loadPage hhdm image space) PageAtHand (segmentLoadsOf phdr) ⟨vm, []⟩ →
      (∀ k < 4096 * phdr.ceilPages, userByte hhdm space (at' phdr.pVaddr k) out.vm.mem
        = some (if k < phdr.pFilesz.toNat then image (at' phdr.pOffset k) else 0#8))
      ∧ ∀ v, (∀ k < 4096 * phdr.ceilPages, pageKey v ≠ pageKey (at' phdr.pVaddr k)) →
          archTranslate hhdm space v out.vm.mem = archTranslate hhdm space v vm.mem
          ∧ ∀ x, Serves (pathEntries hhdm space v vm.mem) x →
              Serves (pathEntries hhdm space v out.vm.mem) x)
    ∧ (Supplies hhdm vm (4 * phdr.ceilPages) →
      (∃ out, (segmentLoadsOf phdr).foldlM (loadPage hhdm image space) ⟨vm, []⟩ = some out)
      ∧ Guarded (loadPage hhdm image space) PageAtHand (segmentLoadsOf phdr) ⟨vm, []⟩) := by
  have hlen : (segmentLoadsOf phdr).length = phdr.ceilPages := by simp [segmentLoadsOf]
  refine ⟨fun out hrun hpages => ?_, fun hs => ⟨?_, ?_⟩⟩
  · obtain ⟨lab', hloaded⟩ := (hT.loaded space image).loadPages (s := ⟨vm, []⟩) hroot hspace
      (fun l hl => by
        have hj := (mem_segmentLoadsOf.mp hl).2
        have := half_of_canonical (by omega) hend hcanon
        omega) hrun
    rw [map_fst_loadTrace hpages hrun] at hloaded
    refine ⟨fun k hk => ?_, fun v hv => ?_⟩
    · rw [hloaded.userByte (hcanon k hk) (ofLoads_segmentLoadsOf halign hend hcanon hk),
        (pageKey_at' halign (by omega)).2, Nat.div_add_mod, segmentByte]
    · have hM : ImageMap.ofLoads (segmentLoadsOf phdr) (pageKey v) = none := by
        refine ImageMap.ofLoads_eq_none fun l hl hlv => ?_
        obtain ⟨rfl, hj⟩ := mem_segmentLoadsOf.mp hl
        refine hv (4096 * l.2) (by omega) ?_
        rw [(pageKey_at' halign (by omega)).1, Nat.mul_div_cancel_left _ (by omega), ← hlv]
      have hrel := hloaded.others v hM
      exact ⟨archTranslate_congr (getLast?_of_walkRel hrel), fun x hx => hx.up hrel⟩
  · obtain ⟨out, hrun, -⟩ := loadSegments_isSome (s := ⟨vm, []⟩) image space (segmentLoadsOf phdr)
      (n := 0) (by rwa [hlen, Nat.zero_add])
    exact ⟨out, hrun⟩
  · exact guarded_pageAtHand image space (by rwa [hlen])

end Segment

/-- Three bytes of a file, to be loaded at `4 MiB`. -/
def threeBytes : Elf64Phdr where
  pType := ptLoad
  pOffset := 0x1000#64
  pVaddr := 0x400000#64
  pFilesz := 3#64
  pMemsz := 4096#64

/-- The last of them is seen, and zeros behind it. -/
theorem segment_content_threeBytes : ∃ out, (segmentLoadsOf threeBytes).foldlM
      (loadPage 0xffff800000000000#64 (fun a => a.setWidth 8) 0xffff800000002000#64)
      ⟨kernelAndProcess, []⟩ = some out
    ∧ userByte 0xffff800000000000#64 0xffff800000002000#64 0x400002#64 out.vm.mem = some 2#8
    ∧ userByte 0xffff800000000000#64 0xffff800000002000#64 0x400fff#64 out.vm.mem = some 0#8 := by
  obtain ⟨lab, h⟩ := spaces_kernelAndProcess
  have hpages : threeBytes.ceilPages = 1 := by decide
  have hcanon : ∀ k < 4096 * threeBytes.ceilPages, HwCanonical (at' threeBytes.pVaddr k) := by
    intro k hk
    rw [hpages] at hk
    have hstart : threeBytes.pVaddr.toNat = 0x400000 := by decide
    left
    rw [toNat_at' (by omega)]
    omega
  obtain ⟨hcontent, hgo⟩ := segment_content h.tables (h.root _ rfl) (by decide)
    (fun a => a.setWidth 8) (by decide) (by decide) hcanon
  obtain ⟨⟨out, hrun⟩, hguard⟩ := hgo (supplies_kernelAndProcess.mono (by rw [hpages]))
  have hbytes := (hcontent out hrun hguard).1
  exact ⟨out, hrun, hbytes 2 (by decide), hbytes 4095 (by decide)⟩

/-! ## An image -/

/-- The header `i` of an image. -/
def phdrOf (image : Mem) (i : ℕ) : Elf64Phdr := readPhdr image (phdrAddr image i)

/-- The segment pages of an image, in the order of its table. -/
def imageLoads (image : Mem) : List (Elf64Phdr × ℕ) :=
  (wantedPages image).map fun c => (readPhdr image c.1, c.2)

/-- **What the ELF rule allows**: loadable segments in the user region, disjoint, each at the same
offset from a page in memory as in the file. -/
structure ElfRule (image : Mem) : Prop where
  accepted : Accepted image
  load : ∀ i < (readEhdr image).ePhnum.toNat, isLoad image (phdrAddr image i) = true
  user : ∀ i < (readEhdr image).ePhnum.toNat, ∀ k < (phdrOf image i).pMemsz.toNat,
    isUserAddress (at' (phdrOf image i).pVaddr k) = true
  disjoint : ∀ i j, i < j → j < (readEhdr image).ePhnum.toNat →
    ∀ k < (phdrOf image i).pMemsz.toNat, ∀ k' < (phdrOf image j).pMemsz.toNat,
      at' (phdrOf image i).pVaddr k ≠ at' (phdrOf image j).pVaddr k'
  congruent : ∀ i < (readEhdr image).ePhnum.toNat,
    (phdrOf image i).pVaddr.toNat % 4096 = (phdrOf image i).pOffset.toNat % 4096

/-- **Every byte of every segment is seen as the file has it.** -/
def SegmentsReadable (hhdm space : BitVec 64) (image m : Mem) : Prop :=
  ∀ i < (readEhdr image).ePhnum.toNat, ∀ k < (phdrOf image i).pMemsz.toNat,
    userByte hhdm space (at' (phdrOf image i).pVaddr k) m
      = some (segmentByte image (phdrOf image i) k)

/-- **The pages of an image agree with its segments**: over every byte of a segment a page is
loaded, and the last one has that byte at that place. -/
def PagesAgree (image : Mem) : Prop :=
  ∀ i < (readEhdr image).ePhnum.toNat, ∀ k < (phdrOf image i).pMemsz.toNat,
    ∃ l, ImageMap.ofLoads (imageLoads image) (pageKey (at' (phdrOf image i).pVaddr k)) = some l
      ∧ segmentByte image l.1 (4096 * l.2 + (at' (phdrOf image i).pVaddr k).toNat % 4096)
        = segmentByte image (phdrOf image i) k

section Image

variable {hhdm kernelPagemap space o : BitVec 64} {image : Mem} {lab : Labels} {vm : Vm}

/-- A segment of the user region ends in it. -/
theorem ElfRule.end_le (h : ElfRule image) {i : ℕ} (hi : i < (readEhdr image).ePhnum.toNat)
    (hsize : 0 < (phdrOf image i).pMemsz.toNat) :
    (phdrOf image i).pVaddr.toNat + (phdrOf image i).pMemsz.toNat ≤ 2 ^ 47 := by
  have hfirst := (isUserAddress_iff.mp (h.user i hi 0 hsize)).2
  rw [at'_zero] at hfirst
  by_contra hout
  have hedge := (isUserAddress_iff.mp (h.user i hi (2 ^ 47 - (phdrOf image i).pVaddr.toNat)
    (by omega))).2
  rw [toNat_at' (by omega)] at hedge
  omega

/-- Its headers are in order. -/
theorem ElfRule.headersInOrder (h : ElfRule image) : HeadersInOrder image where
  order i j hij hj hother _ := by
    rw [h.load i (by omega)] at hother
    cases hother
  sizes i hi _ := by
    have hend := h.end_le hi
    rw [phdrOf] at hend
    omega

theorem ElfRule.mem_imageLoads (h : ElfRule image) {l : Elf64Phdr × ℕ} :
    l ∈ imageLoads image ↔ ∃ i < (readEhdr image).ePhnum.toNat, l.1 = phdrOf image i
      ∧ l.2 < (phdrOf image i).ceilPages := by
  obtain ⟨phdr, j⟩ := l
  simp only [imageLoads, wantedPages, phdrTable, List.mem_map, List.mem_flatMap, List.mem_filter,
    mem_withPages, List.mem_range, Prod.exists, Prod.mk.injEq]
  constructor
  · rintro ⟨a, j', ⟨-, ⟨⟨i, hi, rfl⟩, -⟩, rfl, hj⟩, rfl, rfl⟩
    exact ⟨i, hi, rfl, hj⟩
  · rintro ⟨i, hi, rfl, hj⟩
    exact ⟨phdrAddr image i, j, ⟨_, ⟨⟨i, hi, rfl⟩, h.load i hi⟩, rfl, hj⟩, rfl, rfl⟩

/-- **Segments that begin with a page agree with their pages.** -/
theorem ElfRule.pagesAgree (h : ElfRule image)
    (halign : ∀ i < (readEhdr image).ePhnum.toNat, (phdrOf image i).pVaddr.toNat % 4096 = 0) :
    PagesAgree image := by
  intro i hi k hk
  have hend := h.end_le hi (by omega)
  have haligned := halign i hi
  have hceil : k / 4096 < (phdrOf image i).ceilPages := by
    rw [Elf64Phdr.ceilPages]
    omega
  obtain ⟨hpage, hoff⟩ : pageKey (at' (phdrOf image i).pVaddr k)
      = loadKey (phdrOf image i, k / 4096) ∧ _ := pageKey_at' haligned (by omega)
  refine ⟨(phdrOf image i, k / 4096), ?_, ?_⟩
  · rw [hpage]
    refine ImageMap.ofLoads_eq_some (h.mem_imageLoads.mpr ⟨i, hi, rfl, hceil⟩) ?_
    rintro ⟨phdr, j'⟩ hl' heq
    obtain ⟨i', hi', rfl, hj'⟩ := h.mem_imageLoads.mp hl'
    dsimp only at hj'
    have haligned' := halign i' hi'
    have hfirst' : 4096 * j' < (phdrOf image i').pMemsz.toNat := by
      rw [Elf64Phdr.ceilPages] at hj'
      omega
    have hend' := h.end_le hi' (by omega)
    -- the first bytes of the two pages are at one address
    have haddr : (phdrOf image i').pVaddr.toNat + 4096 * j'
        = (phdrOf image i).pVaddr.toNat + 4096 * (k / 4096) := by
      have hnat := congrArg BitVec.toNat heq
      rw [loadKey_mk, loadKey_mk, toNat_pageKey, toNat_pageKey, toNat_vaddr (by omega),
        toNat_vaddr (by omega)] at hnat
      omega
    have hsame : at' (phdrOf image i').pVaddr (4096 * j')
        = at' (phdrOf image i).pVaddr (4096 * (k / 4096)) := by
      refine BitVec.eq_of_toNat_eq ?_
      rw [toNat_at' (by omega), toNat_at' (by omega), haddr]
    rcases Nat.lt_trichotomy i i' with hlt | rfl | hlt
    · exact absurd hsame.symm (h.disjoint i i' hlt hi' _ (by omega) _ hfirst')
    · rw [show j' = k / 4096 by omega]
    · exact absurd hsame (h.disjoint i' i hlt hi _ hfirst' _ (by omega))
  · rw [hoff, Nat.div_add_mod]

/-- **`load_elf` of such an image leaves its pages in place**, with four blocks a page at hand. -/
theorem ElfRule.loadElf (h : ElfRule image) (hT : Tables hhdm kernelPagemap vm lab)
    (hroot : lab space = some (o, [])) (hspace : space ≠ 0#64)
    (hs : Supplies hhdm vm (4 * (imageLoads image).length)) :
    ∃ out lab', loadElf hhdm image space vm = some (.ok (readEhdr image).eEntry, out)
      ∧ Loaded hhdm kernelPagemap space image vm.mem lab (ImageMap.ofLoads (imageLoads image))
          out.vm lab' := by
  have hrun : MoonOS.loadElf hhdm image space vm
      = ((imageLoads image).foldlM (loadPage hhdm image space) ⟨vm, []⟩).map
        fun s => (.ok (readEhdr image).eEntry, s) := by
    rw [loadElf_eq_loadSegmentCalls h.accepted, h.headersInOrder.loadSegmentCalls h.accepted,
      imageLoads, List.foldlM_map]
    rfl
  obtain ⟨out, hout, -⟩ := loadSegments_isSome (s := ⟨vm, []⟩) image space (imageLoads image)
    (n := 0) (by rwa [Nat.zero_add])
  have hout' : (imageLoads image).foldlM (loadPage hhdm image space) ⟨vm, []⟩ = some out := hout
  have hsmall : ∀ l ∈ imageLoads image, 4096 * (l.2 + 1) < 2 ^ 64 := by
    intro l hl
    obtain ⟨i, hi, -, hj⟩ := h.mem_imageLoads.mp hl
    rw [Elf64Phdr.ceilPages] at hj
    have := h.end_le hi
    omega
  obtain ⟨lab', hloaded⟩ := (hT.loaded space image).loadPages (s := ⟨vm, []⟩) hroot hspace
    hsmall hout'
  rw [map_fst_loadTrace (guarded_pageAtHand image space hs) hout'] at hloaded
  exact ⟨out, lab', by rw [hrun, hout', Option.map_some], hloaded⟩

/-- **The segments of an image are seen as the file has them exactly when its pages agree with
them** — into a pagemap that maps nothing there yet, with four blocks a page at hand. -/
theorem segmentsReadable_iff (h : ElfRule image) (hT : Tables hhdm kernelPagemap vm lab)
    (hroot : lab space = some (o, [])) (hspace : space ≠ 0#64)
    (hempty : ∀ i < (readEhdr image).ePhnum.toNat, ∀ k < (phdrOf image i).pMemsz.toNat,
      pathEntries hhdm space (at' (phdrOf image i).pVaddr k) vm.mem = none)
    (hs : Supplies hhdm vm (4 * (imageLoads image).length)) :
    ∃ out, loadElf hhdm image space vm = some (.ok (readEhdr image).eEntry, out)
      ∧ (SegmentsReadable hhdm space image out.vm.mem ↔ PagesAgree image) := by
  obtain ⟨out, lab', hload, hloaded⟩ := h.loadElf hT hroot hspace hs
  refine ⟨out, hload, forall₄_congr fun i hi k hk => ?_⟩
  have hcanon : HwCanonical (at' (phdrOf image i).pVaddr k) :=
    .inl (isUserAddress_iff.mp (h.user i hi k hk)).2
  cases hM : ImageMap.ofLoads (imageLoads image) (pageKey (at' (phdrOf image i).pVaddr k)) with
  | some l =>
    rw [hloaded.userByte hcanon hM, Option.some.injEq]
    simp
  | none =>
    -- nothing was mapped there, and nothing is
    have hrel := hloaded.others _ hM
    rw [hempty i hi k hk] at hrel
    have hnone : pathEntries hhdm space (at' (phdrOf image i).pVaddr k) out.vm.mem = none := by
      generalize pathEntries hhdm space (at' (phdrOf image i).pVaddr k) out.vm.mem = w at hrel
      cases hrel
      rfl
    rw [userByte_eq_none hnone]
    simp

end Image

/-- The process maps nothing of its own yet. -/
theorem pathEntries_kernelAndProcess {v : BitVec 64} (hv : LowerHalf v) :
    pathEntries 0xffff800000000000#64 0xffff800000002000#64 v kernelAndProcess.mem = none := by
  have hfresh : FreshBlocks 0xffff800000000000#64 sixPages.frames :=
    ⟨by simp [sixPages, OnPage], by simp [sixPages]⟩
  have hkernel : archCreateNewPagemap sixPages
      = some (0xffff800000001000#64, sixPages.served) := rfl
  have hprocess : archCreateNewPagemap sixPages.served
      = some (0xffff800000002000#64, sixPages.served.served) := rfl
  have h := (hfresh.tables 0xffff800000001000#64).toSpaces hkernel (by decide)
  obtain ⟨-, h', -, hempty, -⟩ := h.alloc hprocess (by decide) (0xffff800000002000#64, [])
  exact View.walk_cons_of_absent _
    (h'.roots.absent_copy (Function.update_self ..) (by decide) hempty hv)

theorem phdrOf_onePageElf :
    phdrOf (onePageElf 0x400000#64) 0 = ⟨ptLoad, 0#64, 0x400000#64, 0#64, 4096#64⟩ := by
  decide +kernel

/-- An image of one segment of the user region. -/
theorem elfRule_of_one {image : Mem} {phdr : Elf64Phdr} (haccept : Accepted image)
    (hnum : (readEhdr image).ePhnum.toNat = 1) (hload : isLoad image (phdrAddr image 0) = true)
    (hphdr : phdrOf image 0 = phdr) (hlow : 0x1000 ≤ phdr.pVaddr.toNat)
    (hend : phdr.pVaddr.toNat + phdr.pMemsz.toNat ≤ 2 ^ 47)
    (hcong : phdr.pVaddr.toNat % 4096 = phdr.pOffset.toNat % 4096) : ElfRule image := by
  refine ⟨haccept, fun i hi => ?_, fun i hi k hk => ?_, fun i j hij hj => by omega,
    fun i hi => ?_⟩ <;> obtain rfl : i = 0 := by omega
  · exact hload
  · rw [hphdr] at hk ⊢
    rw [isUserAddress_iff, toNat_at' (by omega)]
    omega
  · rw [hphdr, hcong]

theorem elfRule_onePageElf : ElfRule (onePageElf 0x400000#64) :=
  elfRule_of_one accepted_onePageElf (by decide +kernel) (by decide +kernel) phdrOf_onePageElf
    (by decide) (by decide) (by decide)

/-- A page at `4 MiB` is seen as it is in the file. -/
theorem segmentsReadable_onePageElf : ∃ out, loadElf 0xffff800000000000#64 (onePageElf 0x400000#64)
      0xffff800000002000#64 kernelAndProcess
        = some (.ok (readEhdr (onePageElf 0x400000#64)).eEntry, out)
    ∧ SegmentsReadable 0xffff800000000000#64 0xffff800000002000#64 (onePageElf 0x400000#64)
        out.vm.mem := by
  obtain ⟨lab, h⟩ := spaces_kernelAndProcess
  have hnum : (readEhdr (onePageElf 0x400000#64)).ePhnum.toNat = 1 := by decide +kernel
  have hlen : (imageLoads (onePageElf 0x400000#64)).length = 1 := by decide +kernel
  obtain ⟨out, hload, hiff⟩ := segmentsReadable_iff elfRule_onePageElf h.tables (h.root _ rfl)
    (by decide) (fun i hi k hk => pathEntries_kernelAndProcess (lowerHalf_of_lt
      (isUserAddress_iff.mp (elfRule_onePageElf.user i hi k hk)).2))
    (supplies_kernelAndProcess.mono (by rw [hlen]))
  refine ⟨out, hload, hiff.mpr (elfRule_onePageElf.pagesAgree fun i hi => ?_)⟩
  obtain rfl : i = 0 := by omega
  rw [phdrOf_onePageElf]
  decide

/-- An image with sixteen bytes that begin sixteen bytes into a page, the first of them `1`. -/
def shiftedElf : Mem :=
  store (store (store (store (onePageElf 0x400010#64) 72#64 8 0x1010#64) 96#64 8 16#64)
    104#64 8 16#64) 0x1010#64 1 1#8

theorem phdrOf_shiftedElf :
    phdrOf shiftedElf 0 = ⟨ptLoad, 0x1010#64, 0x400010#64, 16#64, 16#64⟩ := by
  decide +kernel

theorem elfRule_shiftedElf : ElfRule shiftedElf :=
  elfRule_of_one ⟨by decide +kernel, by decide +kernel⟩ (by decide +kernel) (by decide +kernel)
    phdrOf_shiftedElf (by decide) (by decide) (by decide)

/-- They are copied to the start of the page, and a zero is seen where the first should be. -/
theorem not_segmentsReadable_shiftedElf : ElfRule shiftedElf
    ∧ ∃ out, loadElf 0xffff800000000000#64 shiftedElf 0xffff800000002000#64 kernelAndProcess
        = some (.ok (readEhdr shiftedElf).eEntry, out)
      ∧ userByte 0xffff800000000000#64 0xffff800000002000#64 0x400010#64 out.vm.mem = some 0#8
      ∧ ¬ SegmentsReadable 0xffff800000000000#64 0xffff800000002000#64 shiftedElf out.vm.mem := by
  obtain ⟨lab, h⟩ := spaces_kernelAndProcess
  have hloads : imageLoads shiftedElf
      = [(⟨ptLoad, 0x1010#64, 0x400010#64, 16#64, 16#64⟩, 0)] := by decide +kernel
  obtain ⟨out, lab', hload, hloaded⟩ := elfRule_shiftedElf.loadElf h.tables (h.root _ rfl)
    (by decide) (supplies_kernelAndProcess.mono (by rw [hloads]; decide))
  have hseen : userByte 0xffff800000000000#64 0xffff800000002000#64 0x400010#64 out.vm.mem
      = some 0#8 := by
    rw [hloaded.userByte (l := (⟨ptLoad, 0x1010#64, 0x400010#64, 16#64, 16#64⟩, 0)) (by decide)
      (by rw [hloads]; decide +kernel)]
    rfl
  refine ⟨elfRule_shiftedElf, out, hload, hseen, fun hread => ?_⟩
  have hnum : (readEhdr shiftedElf).ePhnum.toNat = 1 := by decide +kernel
  have hbyte : segmentByte shiftedElf ⟨ptLoad, 0x1010#64, 0x400010#64, 16#64, 16#64⟩ 0 = 1#8 := by
    decide +kernel
  have hfirst := hread 0 (by omega) 0 (by rw [phdrOf_shiftedElf]; decide)
  rw [phdrOf_shiftedElf, hbyte, at'_zero, hseen] at hfirst
  exact absurd hfirst (by decide)

end MoonOS

import MoonOS.Lib.GuardedRun
import MoonOS.Service.Elf
import Mathlib.Data.List.TakeWhile

/-!
# Service/ElfHeaders — which pages the loop over the program headers gets to

The counter of `load_elf`'s loop and its header pointer advance separately: the `continue` for a
header that is not `PT_LOAD` skips the pointer's step, so the rest of the rounds look at the same
header.  What the loop reaches is therefore the headers before the first such one
(`loadSegmentCalls_eq`), each with as many pages as `ALIGN_UP` gives it.

* `loadSegmentCalls_eq_iff` — the calls are the table's exactly when no page is behind a header of
  another type and no size wraps around;
* `reportsExhaustion_iff` — nothing is lost silently exactly when, besides, no page is refused.
-/

namespace MoonOS

open ByteMemory GuardedRun

/-! ## The table and the loop -/

/-- The address of header `i`, from the start of the image. -/
def phdrAddr (image : Mem) (i : ℕ) : BitVec 64 :=
  (readEhdr image).ePhoff + BitVec.ofNat 64 i * (readEhdr image).ePhentsize.setWidth 64

/-- The headers of an image. -/
def phdrTable (image : Mem) : List (BitVec 64) :=
  (List.range (readEhdr image).ePhnum.toNat).map (phdrAddr image)

/-- A header that is to be loaded. -/
def isLoad (image : Mem) (phdr : BitVec 64) : Bool := (readPhdr image phdr).pType == ptLoad

/-- The pages a segment takes up. -/
def Elf64Phdr.ceilPages (phdr : Elf64Phdr) : ℕ := (phdr.pMemsz.toNat + 4095) / 4096

/-- A header with each of its first `n` pages. -/
def withPages (phdr : BitVec 64) (n : ℕ) : List (BitVec 64 × ℕ) :=
  (List.range n).map fun j => (phdr, j)

/-- **The pages to be loaded**: those of the `PT_LOAD` headers, in the order of the table. -/
def wantedPages (image : Mem) : List (BitVec 64 × ℕ) :=
  ((phdrTable image).filter (isLoad image)).flatMap fun phdr =>
    withPages phdr (readPhdr image phdr).ceilPages

/-- The loop of `load_elf` around any `visit`, with `n` rounds left. -/
def phdrLoop {σ : Type} (image : Mem) (visit : BitVec 64 → ℕ → σ → Option σ) :
    ℕ → BitVec 64 → σ → Option σ
  | 0, _, s => some s
  | n + 1, phdr, s =>
    if (readPhdr image phdr).pType ≠ ptLoad then phdrLoop image visit n phdr s
    else
      ((List.range (readPhdr image phdr).numPages).foldlM (fun s j => visit phdr j s) s).bind
        (phdrLoop image visit n (phdr + (readEhdr image).ePhentsize.setWidth 64))

/-- The calls of `load_segment`: the loop of `load_elf` around a `visit` that writes down what it is
called with. -/
def loadSegmentCalls (image : Mem) : List (BitVec 64 × ℕ) :=
  if !isElf (readEhdr image) || !hasValidAttributes (readEhdr image) then []
  else (phdrLoop image (fun phdr j calls => some (calls ++ [(phdr, j)]))
    (readEhdr image).ePhnum.toNat (readEhdr image).ePhoff []).getD []

/-- **Which images are traversed**: behind a header of another type nothing is left to load, and no
size wraps around when it is rounded up to pages. -/
structure HeadersInOrder (image : Mem) : Prop where
  order : ∀ i j, i < j → j < (readEhdr image).ePhnum.toNat →
    isLoad image (phdrAddr image i) = false → isLoad image (phdrAddr image j) = true →
      (readPhdr image (phdrAddr image j)).pMemsz = 0#64
  sizes : ∀ i < (readEhdr image).ePhnum.toNat, isLoad image (phdrAddr image i) = true →
    (readPhdr image (phdrAddr image i)).pMemsz.toNat ≤ 2 ^ 64 - 4096

section Loop

variable {image : Mem} {σ : Type} {visit : BitVec 64 → ℕ → σ → Option σ}

/-- The loader is the loop around `load_segment`. -/
theorem loadPhdrs_eq_phdrLoop (hhdm : BitVec 64) (image : Mem) (space : BitVec 64) (n : ℕ)
    (phdr : BitVec 64) (s : Loading) :
    loadPhdrs hhdm image space n phdr s
      = phdrLoop image (fun phdr j s => loadSegment hhdm image space (readPhdr image phdr) j s)
        n phdr s := by
  induction n generalizing phdr s with
  | zero => rfl
  | succ n ih =>
    rw [loadPhdrs, phdrLoop, ih]
    exact ite_congr rfl (fun _ => rfl) fun _ => congrArg _ (funext fun s => ih _ s)

/-- At a header of another type the loop stays. -/
theorem phdrLoop_of_not_load {phdr : BitVec 64} (h : isLoad image phdr = false) (n : ℕ) (s : σ) :
    phdrLoop image visit n phdr s = some s := by
  induction n with
  | zero => rfl
  | succ n ih => rw [phdrLoop, if_pos (by simpa [isLoad] using h), ih]

/-- **The loop is one pass over the pages of the headers before the first of another type.** -/
theorem phdrLoop_eq (n : ℕ) (phdr : BitVec 64) (s : σ) :
    phdrLoop image visit n phdr s
      = ((((List.range n).map fun i => phdr
            + BitVec.ofNat 64 i * (readEhdr image).ePhentsize.setWidth 64).takeWhile
          (isLoad image)).flatMap fun phdr =>
            withPages phdr (readPhdr image phdr).numPages).foldlM
          (fun s c => visit c.1 c.2 s) s := by
  induction n generalizing phdr s with
  | zero => rfl
  | succ n ih =>
    have htable : ((List.range (n + 1)).map fun i =>
        phdr + BitVec.ofNat 64 i * (readEhdr image).ePhentsize.setWidth 64)
        = phdr :: (List.range n).map fun i =>
          (phdr + (readEhdr image).ePhentsize.setWidth 64)
            + BitVec.ofNat 64 i * (readEhdr image).ePhentsize.setWidth 64 := by
      rw [List.range_succ_eq_map, List.map_cons, List.map_map]
      refine congrArg₂ _ (by simp) (List.map_congr_left fun i _ => ?_)
      simp only [Function.comp_apply, Nat.succ_eq_add_one, BitVec.ofNat_add]
      grind
    rw [htable]
    cases hload : isLoad image phdr with
    | false => rw [phdrLoop_of_not_load hload, List.takeWhile_cons_of_neg (by simp [hload])]; rfl
    | true =>
      rw [phdrLoop, if_neg (by simpa [isLoad] using hload),
        List.takeWhile_cons_of_pos hload, List.flatMap_cons, List.foldlM_append, withPages,
        List.foldlM_map]
      exact congrArg _ (funext fun s => ih _ s)

/-- **What the loop reaches**, of the table. -/
theorem loadSegmentCalls_eq (h : Accepted image) :
    loadSegmentCalls image = ((phdrTable image).takeWhile (isLoad image)).flatMap fun phdr =>
      withPages phdr (readPhdr image phdr).numPages := by
  have hrecord : ∀ calls acc : List (BitVec 64 × ℕ),
      calls.foldlM (fun acc c => some (acc ++ [(c.1, c.2)])) acc = some (acc ++ calls) := by
    intro calls
    induction calls with
    | nil => intro acc; simp
    | cons c calls ih => intro acc; rw [List.foldlM_cons]; simpa using ih (acc ++ [c])
  rw [loadSegmentCalls, h.1, h.2, phdrLoop_eq, hrecord]
  rfl

/-- `load_elf` makes these calls, one after the other. -/
theorem loadElf_eq_loadSegmentCalls (h : Accepted image) (hhdm space : BitVec 64) (vm : Vm) :
    loadElf hhdm image space vm
      = ((loadSegmentCalls image).foldlM
          (fun s c => loadSegment hhdm image space (readPhdr image c.1) c.2 s) ⟨vm, []⟩).map
        fun s => (.ok (readEhdr image).eEntry, s) := by
  rw [loadElf, h.1, h.2, loadPhdrs_eq_phdrLoop, phdrLoop_eq, loadSegmentCalls_eq h]
  rfl

/-! ## Which images are traversed -/

/-- `ALIGN_UP` counts the pages right unless it wraps around, and then it counts none. -/
theorem Elf64Phdr.numPages_eq (phdr : Elf64Phdr) :
    phdr.numPages = if phdr.pMemsz.toNat ≤ 2 ^ 64 - 4096 then phdr.ceilPages else 0 := by
  have hlt := phdr.pMemsz.isLt
  rw [Elf64Phdr.numPages, alignUp, toNat_and_not_pageMask, Elf64Phdr.ceilPages, pageSize,
    BitVec.toNat_add]
  split <;> simp only [BitVec.toNat_ofNat] <;> omega

theorem Elf64Phdr.ceilPages_eq_zero {phdr : Elf64Phdr} :
    phdr.ceilPages = 0 ↔ phdr.pMemsz = 0#64 := by
  rw [Elf64Phdr.ceilPages, ← BitVec.toNat_inj]
  simp
  omega

theorem mem_withPages {phdr : BitVec 64} {n : ℕ} {c : BitVec 64 × ℕ} :
    c ∈ withPages phdr n ↔ c.1 = phdr ∧ c.2 < n := by
  obtain ⟨a, j⟩ := c
  simp only [withPages, List.mem_map, List.mem_range, Prod.mk.injEq]
  grind

/-- Two headers of the table at one address: all of them are there. -/
theorem ePhentsize_eq_zero {i j : ℕ} (hij : i < j) (hj : j < (readEhdr image).ePhnum.toNat)
    (h : phdrAddr image i = phdrAddr image j) : (readEhdr image).ePhentsize = 0#16 := by
  have hnum := (readEhdr image).ePhnum.isLt
  rw [phdrAddr, phdrAddr] at h
  generalize (readEhdr image).ePhentsize = size at h ⊢
  have hoff : BitVec.ofNat 64 i * size.setWidth 64 = BitVec.ofNat 64 j * size.setWidth 64 :=
    (BitVec.add_right_inj _).mp h
  have hsize := size.isLt
  have hmul : ∀ k < 2 ^ 16, (BitVec.ofNat 64 k * size.setWidth 64).toNat = k * size.toNat := by
    intro k hk
    have hprod : k * size.toNat < 2 ^ 16 * 2 ^ 16 := Nat.mul_lt_mul'' hk hsize
    rw [BitVec.toNat_mul, BitVec.toNat_ofNat, BitVec.toNat_setWidth,
      Nat.mod_eq_of_lt (show k < 2 ^ 64 by omega),
      Nat.mod_eq_of_lt (show size.toNat < 2 ^ 64 by omega), Nat.mod_eq_of_lt (by omega)]
  have hnat := congrArg BitVec.toNat hoff
  rw [hmul i (by omega), hmul j (by omega)] at hnat
  by_contra hne
  have hpos : 0 < size.toNat := Nat.pos_of_ne_zero fun h => hne (BitVec.eq_of_toNat_eq h)
  exact absurd (Nat.eq_of_mul_eq_mul_right hpos hnat) (by omega)

/-- A header the loop reaches, and all before it, are `PT_LOAD`. -/
theorem of_mem_takeWhile_phdrTable {phdr : BitVec 64}
    (h : phdr ∈ (phdrTable image).takeWhile (isLoad image)) :
    ∃ k, phdrAddr image k = phdr ∧ ∀ i ≤ k, isLoad image (phdrAddr image i) = true := by
  obtain ⟨k, hk, rfl⟩ := List.getElem_of_mem h
  have hget : ∀ i (hi : i < ((phdrTable image).takeWhile (isLoad image)).length),
      ((phdrTable image).takeWhile (isLoad image))[i] = phdrAddr image i := fun i hi => by
    rw [(List.takeWhile_prefix _).getElem hi]
    simp [phdrTable]
  refine ⟨k, (hget k hk).symm, fun i hi => ?_⟩
  rw [← hget i (by omega)]
  exact List.mem_takeWhile_imp (List.getElem_mem _)

/-- **If no wanted page is missed, the headers are in order.** -/
theorem headersInOrder_of_subset (h : Accepted image)
    (hsub : ∀ c ∈ wantedPages image, c ∈ loadSegmentCalls image) : HeadersInOrder image := by
  -- the first page of a segment is called for, if there is one
  have hfirst : ∀ i < (readEhdr image).ePhnum.toNat, isLoad image (phdrAddr image i) = true →
      (readPhdr image (phdrAddr image i)).pMemsz ≠ 0#64 →
      phdrAddr image i ∈ (phdrTable image).takeWhile (isLoad image)
        ∧ 0 < (readPhdr image (phdrAddr image i)).numPages := by
    intro i hi hload hsize
    have hpages : 0 < (readPhdr image (phdrAddr image i)).ceilPages :=
      Nat.pos_of_ne_zero fun h0 => hsize (Elf64Phdr.ceilPages_eq_zero.mp h0)
    have hmem := hsub (phdrAddr image i, 0) (List.mem_flatMap.mpr ⟨_, List.mem_filter.mpr
      ⟨List.mem_map_of_mem (List.mem_range.mpr hi), hload⟩, mem_withPages.mpr ⟨rfl, hpages⟩⟩)
    rw [loadSegmentCalls_eq h] at hmem
    obtain ⟨phdr, hphdr, hpage⟩ := List.mem_flatMap.mp hmem
    obtain ⟨rfl, hnum⟩ := mem_withPages.mp hpage
    exact ⟨hphdr, hnum⟩
  constructor
  · intro i j hij hj hother hload
    by_contra hsize
    obtain ⟨k, hk, hbefore⟩ := of_mem_takeWhile_phdrTable (hfirst j hj hload hsize).1
    have hki : k < i := by
      by_contra hle
      exact Bool.false_ne_true (hother.symm.trans (hbefore i (Nat.not_lt.mp hle)))
    have hzero := ePhentsize_eq_zero (by omega) hj hk
    have hsame : phdrAddr image i = phdrAddr image j := by simp [phdrAddr, hzero]
    rw [hsame, hload] at hother
    cases hother
  · intro i hi hload
    by_contra hwrap
    have hsize : (readPhdr image (phdrAddr image i)).pMemsz ≠ 0#64 := fun h0 => hwrap (by simp [h0])
    have hnum := (hfirst i hi hload hsize).2
    rw [Elf64Phdr.numPages_eq, if_neg hwrap] at hnum
    exact absurd hnum (Nat.lt_irrefl 0)

/-- Headers in order: those of another type come last, as far as there is something to load. -/
theorem flatMap_takeWhile_eq {phdrs : List (BitVec 64)}
    (horder : phdrs.Pairwise fun a b => isLoad image a = false → isLoad image b = true →
      (readPhdr image b).ceilPages = 0)
    (hsizes : ∀ a ∈ phdrs, isLoad image a = true →
      (readPhdr image a).numPages = (readPhdr image a).ceilPages) :
    ((phdrs.takeWhile (isLoad image)).flatMap fun a => withPages a (readPhdr image a).numPages)
      = (phdrs.filter (isLoad image)).flatMap
          fun a => withPages a (readPhdr image a).ceilPages := by
  induction phdrs with
  | nil => rfl
  | cons a phdrs ih =>
    obtain ⟨hhead, htail⟩ := List.pairwise_cons.mp horder
    cases ha : isLoad image a with
    | true =>
      rw [List.takeWhile_cons_of_pos ha, List.filter_cons_of_pos ha, List.flatMap_cons,
        List.flatMap_cons, hsizes a (by simp) ha, ih htail fun b hb => hsizes b (by simp [hb])]
    | false =>
      rw [List.takeWhile_cons_of_neg (by simp [ha]), List.filter_cons_of_neg (by simp [ha])]
      refine (List.flatMap_eq_nil_iff.mpr fun b hb => ?_).symm
      obtain ⟨hb, hload⟩ := List.mem_filter.mp hb
      rw [hhead b hb ha hload]
      rfl

/-- **Headers in order are traversed.** -/
theorem HeadersInOrder.loadSegmentCalls (hord : HeadersInOrder image) (h : Accepted image) :
    loadSegmentCalls image = wantedPages image := by
  rw [loadSegmentCalls_eq h, wantedPages]
  refine flatMap_takeWhile_eq ?_ fun a ha hload => ?_
  · rw [phdrTable, List.pairwise_map]
    refine List.pairwise_lt_range.imp_of_mem fun {i j} _ hj hij hother hload => ?_
    exact Elf64Phdr.ceilPages_eq_zero.mpr
      (hord.order i j hij (List.mem_range.mp hj) hother hload)
  · obtain ⟨i, hi, rfl⟩ := List.mem_map.mp ha
    rw [Elf64Phdr.numPages_eq, if_pos (hord.sizes i (List.mem_range.mp hi) hload)]

/-- **`load_segment` is called for the pages of the table, each once and in order, exactly when** no
page is behind a header of another type and no size wraps around. -/
theorem loadSegmentCalls_eq_iff (h : Accepted image) :
    loadSegmentCalls image = wantedPages image ↔ HeadersInOrder image :=
  ⟨fun heq => headersInOrder_of_subset h fun _ hc => heq ▸ hc, fun hord => hord.loadSegmentCalls h⟩

end Loop

/-- The image of one page has its header in order. -/
theorem headersInOrder_onePageElf : HeadersInOrder (onePageElf 0x400000#64) := by
  have hnum : (readEhdr (onePageElf 0x400000#64)).ePhnum.toNat = 1 := by decide +kernel
  refine ⟨fun i j hij hj => by omega, fun i hi _ => ?_⟩
  obtain rfl : i = 0 := by omega
  decide +kernel

theorem accepted_onePageElf : Accepted (onePageElf 0x400000#64) :=
  ⟨by decide +kernel, by decide +kernel⟩

theorem loadSegmentCalls_onePageElf :
    loadSegmentCalls (onePageElf 0x400000#64) = [(64#64, 0)] := by
  decide +kernel

theorem traversed_onePageElf :
    loadSegmentCalls (onePageElf 0x400000#64) = wantedPages (onePageElf 0x400000#64) :=
  (loadSegmentCalls_eq_iff accepted_onePageElf).mpr headersInOrder_onePageElf

/-- An image with a note, and behind it the page at `4 MiB`. -/
def noteAndPageElf : Mem :=
  let ehdr := store (store (onePageElf 0#64) 56#64 2 2#16) 64#64 4 4#32
  store (store (store ehdr 120#64 4 ptLoad) 136#64 8 0x400000#64) 160#64 8 4096#64

/-- The note is looked at twice, the page not at all. -/
theorem not_traversed_noteAndPageElf : Accepted noteAndPageElf
    ∧ loadSegmentCalls noteAndPageElf ≠ wantedPages noteAndPageElf := by
  have hcalls : loadSegmentCalls noteAndPageElf = [] := by decide +kernel
  have hwanted : wantedPages noteAndPageElf = [(120#64, 0)] := by decide +kernel
  exact ⟨⟨by decide +kernel, by decide +kernel⟩, by simp [hcalls, hwanted]⟩

/-! ## Pages that are refused -/

section Refused

variable (hhdm : BitVec 64) (image : Mem) (space : BitVec 64) (vm : Vm)

/-- One call of `load_segment` by `load_elf`. -/
def loadCall (s : Loading) (c : BitVec 64 × ℕ) : Option Loading :=
  loadSegment hhdm image space (readPhdr image c.1) c.2 s

/-- `load_segment` is called for a page in the state `s`. -/
def CalledIn (c : BitVec 64 × ℕ) (s : Loading) : Prop :=
  ∃ before after, loadSegmentCalls image = before ++ c :: after
    ∧ before.foldlM (loadCall hhdm image space) ⟨vm, []⟩ = some s

/-- The allocator has no page for the call that is made in a state. -/
def PageRefused (s : Loading) : Prop := ∃ vm', archAllocPage s.vm = some (0#64, vm')

/-- **No page is lost silently**: `Okay` means that every page of every segment was allocated and
mapped, and a page that is refused makes an `Error`. -/
structure ReportsExhaustion : Prop where
  okay : ∀ entry out, loadElf hhdm image space vm = some (.ok entry, out) →
    ∀ c ∈ wantedPages image, ∃ s phys vm₁ vm₂, CalledIn hhdm image space vm c s
      ∧ archAllocPage s.vm = some (phys, vm₁) ∧ phys ≠ 0#64
      ∧ archMapPage hhdm space ((readPhdr image c.1).vaddr c.2) (pa hhdm phys) mapUserRw vm₁
          = some vm₂
  error : ∀ c s, CalledIn hhdm image space vm c s → PageRefused s →
    ∃ message out, loadElf hhdm image space vm = some (.error message, out)

variable {hhdm image space vm}

/-- A call that goes on with a page has mapped it. -/
theorem mapped_of_loadCall {c : BitVec 64 × ℕ} {s s' : Loading}
    (hpage : ¬ PageRefused s) (h : loadCall hhdm image space s c = some s') :
    ∃ phys vm₁ vm₂, archAllocPage s.vm = some (phys, vm₁) ∧ phys ≠ 0#64
      ∧ archMapPage hhdm space ((readPhdr image c.1).vaddr c.2) (pa hhdm phys) mapUserRw vm₁
        = some vm₂ := by
  obtain ⟨phys, vm₁, hnew, ⟨rfl, -⟩ | ⟨hphys, vm₂, hmap, -⟩⟩ := loadSegment_cases h
  · exact absurd ⟨vm₁, hnew⟩ hpage
  · exact ⟨phys, vm₁, vm₂, hnew, hphys, hmap⟩

/-- **Nothing is lost silently exactly when** no page is refused, and the headers are in order or
the kernel stops on the way: it panics for want of a table, or waits for a lock it holds. -/
theorem reportsExhaustion_iff (h : Accepted image) :
    ReportsExhaustion hhdm image space vm
      ↔ (∀ c s, CalledIn hhdm image space vm c s → ¬ PageRefused s)
        ∧ (HeadersInOrder image
          ∨ ∃ c s, CalledIn hhdm image space vm c s ∧ loadCall hhdm image space s c = none) := by
  have hrun := loadElf_eq_loadSegmentCalls h hhdm space vm
  have hfold : ∀ out, (loadSegmentCalls image).foldlM (loadCall hhdm image space) ⟨vm, []⟩
      = some out → loadElf hhdm image space vm = some (.ok (readEhdr image).eEntry, out) :=
    fun out hout => by rw [hrun]; exact congrArg (Option.map _) hout
  constructor
  · intro hreport
    refine ⟨fun c s hcall hnull => ?_, ?_⟩
    · obtain ⟨message, out, herror⟩ := hreport.error c s hcall hnull
      obtain ⟨_, -, heq⟩ := Option.map_eq_some_iff.mp (hrun.symm.trans herror)
      exact nomatch (Prod.mk.inj heq).1
    · cases hout : (loadSegmentCalls image).foldlM (loadCall hhdm image space) ⟨vm, []⟩ with
      | none =>
        obtain ⟨before, c, after, s, heq, hbefore, hstop⟩ := stops_at hout
        exact .inr ⟨c, s, ⟨before, after, heq, hbefore⟩, hstop⟩
      | some out =>
        refine .inl (headersInOrder_of_subset h fun c hc => ?_)
        obtain ⟨s, -, -, -, ⟨before, after, heq, -⟩, -⟩ := hreport.okay _ out (hfold out hout) c hc
        simp [heq]
  · rintro ⟨hpages, hreach⟩
    refine ⟨fun entry out hok c hc => ?_, fun c s hcall hnull => absurd hnull (hpages c s hcall)⟩
    obtain ⟨out', hout, -⟩ := Option.map_eq_some_iff.mp (hrun.symm.trans hok)
    have hgo : ∀ {c s}, CalledIn hhdm image space vm c s →
        ∃ s', loadCall hhdm image space s c = some s' := by
      rintro c s ⟨before, after, heq, hbefore⟩
      obtain ⟨s₁, s₂, h₁, h₂⟩ := goes_through (heq ▸ hout)
      obtain rfl := Option.some.inj (hbefore.symm.trans h₁)
      exact ⟨s₂, h₂⟩
    rcases hreach with hord | ⟨c', s', hcall, hstop⟩
    · rw [← hord.loadSegmentCalls h] at hc
      obtain ⟨before, after, heq⟩ := List.append_of_mem hc
      obtain ⟨s, s', hbefore, hstep⟩ := goes_through (heq ▸ hout)
      have hcall : CalledIn hhdm image space vm c s := ⟨before, after, heq, hbefore⟩
      obtain ⟨phys, vm₁, vm₂, hnew, hphys, hmap⟩ := mapped_of_loadCall (hpages c s hcall) hstep
      exact ⟨s, phys, vm₁, vm₂, hcall, hnew, hphys, hmap⟩
    · obtain ⟨s'', hgo⟩ := hgo hcall
      exact nomatch hstop.symm.trans hgo

end Refused

/-- The one call for the image of one page is made at once. -/
theorem calledIn_onePageElf {hhdm space : BitVec 64} {vm : Vm} {c : BitVec 64 × ℕ} {s : Loading} :
    CalledIn hhdm (onePageElf 0x400000#64) space vm c s ↔ c = (64#64, 0) ∧ s = ⟨vm, []⟩ := by
  constructor
  · rintro ⟨before, after, heq, hbefore⟩
    rw [loadSegmentCalls_onePageElf] at heq
    cases before with
    | nil =>
      obtain ⟨rfl, -⟩ := List.cons.inj heq
      exact ⟨rfl, (Option.some.inj hbefore).symm⟩
    | cons d before => simp at heq
  · rintro ⟨rfl, rfl⟩
    exact ⟨[], [], loadSegmentCalls_onePageElf, rfl⟩

/-- With a page at hand the image of one page is loaded. -/
theorem reportsExhaustion_onePageElf : ReportsExhaustion 0xffff800000000000#64
    (onePageElf 0x400000#64) 0xffff800000002000#64 kernelAndProcess := by
  refine (reportsExhaustion_iff accepted_onePageElf).mpr
    ⟨fun c s hcall => ?_, .inl headersInOrder_onePageElf⟩
  obtain ⟨-, rfl⟩ := calledIn_onePageElf.mp hcall
  rintro ⟨vm', hnull⟩
  obtain ⟨-, hhead, -⟩ := archAllocPage_cases hnull
  exact absurd hhead (by decide)

/-- Without one it is not, and `load_elf` returns `Okay` all the same. -/
theorem not_reportsExhaustion_onePageElf :
    (∃ out, loadElf 0xffff800000000000#64 (onePageElf 0x400000#64) 0xffff800000002000#64
        { kernelAndProcess with frames := [] } = some (.ok 0#64, out) ∧ out.mapped = [])
      ∧ ¬ ReportsExhaustion 0xffff800000000000#64 (onePageElf 0x400000#64) 0xffff800000002000#64
        { kernelAndProcess with frames := [] } := by
  have hload : loadElf 0xffff800000000000#64 (onePageElf 0x400000#64) 0xffff800000002000#64
      { kernelAndProcess with frames := [] }
        = some (.ok 0#64, ⟨({ kernelAndProcess with frames := [] } : Vm).refused, []⟩) := by
    have hentry : (readEhdr (onePageElf 0x400000#64)).eEntry = 0#64 := by decide +kernel
    rw [loadElf_eq_loadSegmentCalls accepted_onePageElf, loadSegmentCalls_onePageElf, hentry,
      List.foldlM_cons, loadSegment_refused _ _ _ _ rfl rfl]
    rfl
  refine ⟨⟨_, hload, rfl⟩, fun hreport => ?_⟩
  obtain ⟨message, out, herror⟩ :=
    hreport.error _ _ (calledIn_onePageElf.mpr ⟨rfl, rfl⟩) ⟨_, archAllocPage_refused rfl rfl⟩
  exact nomatch (Prod.mk.inj (Option.some.inj (hload.symm.trans herror))).1

end MoonOS

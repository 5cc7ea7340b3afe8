import MoonOS.Mm.Tables

/-!
# Mm/Refine — the page tables refine a finite map from pages to mappings

What a pagemap is *for* is `AddrSpace`: a map from page numbers to the last mapping made there.
`Represents` relates it to the tables in memory — the walk of every address ends in exactly the
entry its last `arch_map_page` asked for, below entries that grant at least as much — and
`Represents.map` is the simulation of one call.  Translation and effective permission are then read
off the abstract map.
-/

namespace MoonOS

open ByteMemory TableForest

/-- The page of an address: bits 12 to 47. -/
def pageKey (vaddr : BitVec 64) : BitVec 36 := vaddr.extractLsb' 12 36

/-- One call of `arch_map_page`. -/
structure MapCall where
  vaddr : BitVec 64
  paddr : BitVec 64
  flags : BitVec 32
deriving DecidableEq, Repr

/-- What an address space says: the last mapping made at each page. -/
abbrev AddrSpace := BitVec 36 → Option MapCall

/-- The address space with one more page mapped. -/
def AddrSpace.map (M : AddrSpace) (c : MapCall) : AddrSpace :=
  Function.update M (pageKey c.vaddr) (some c)

/-- The address space after a sequence of calls, from the empty one. -/
def AddrSpace.ofCalls (calls : List MapCall) : AddrSpace := calls.foldl AddrSpace.map fun _ => none

/-- The translation an address space gives. -/
def AddrSpace.translate (hhdm : BitVec 64) (M : AddrSpace) (vaddr : BitVec 64) : BitVec 64 :=
  match M (pageKey vaddr) with
  | none => 0#64
  | some c => va hhdm (c.paddr &&& ~~~0xfff#64 ||| vaddr &&& 0xfff#64)

/-- A sequence of `arch_map_page` calls on one pagemap. -/
def archMapPages (hhdm pml4 : BitVec 64) (calls : List MapCall) (s : Vm) : Option Vm :=
  calls.foldlM (fun s c => archMapPage hhdm pml4 c.vaddr c.paddr c.flags s) s

/-- The entries on the path of an address, if all four are present. -/
def pathEntries (hhdm pml4 vaddr : BitVec 64) (m : Mem) : Option (List Pte) :=
  (pteView hhdm).walk (readPte m) pml4 (pathOf vaddr)

/-- The permission an access through all four entries has: writable, and open to user mode. -/
def effective (hhdm pml4 vaddr : BitVec 64) (m : Mem) : Option (Bool × Bool) :=
  (pathEntries hhdm pml4 vaddr m).map fun es =>
    (es.all Pte.readwrite, es.all Pte.supervisor)

/-! ## Paths and pages -/

theorem toNat_indexOf (vaddr : BitVec 64) (n : ℕ) :
    (indexOf vaddr n).toNat = vaddr.toNat / 2 ^ (12 + 9 * (n - 1)) % 512 := by
  have hmask : (0x1ff#64).toNat = 2 ^ 9 - 1 := by decide
  rw [indexOf, BitVec.toNat_setWidth, BitVec.toNat_and, hmask, Nat.and_two_pow_sub_one_eq_mod,
    BitVec.toNat_ushiftRight, Nat.shiftRight_eq_div_pow]
  omega

theorem toNat_pageKey (vaddr : BitVec 64) :
    (pageKey vaddr).toNat = vaddr.toNat / 4096 % 2 ^ 36 := by
  rw [pageKey, BitVec.extractLsb'_toNat, Nat.shiftRight_eq_div_pow]

/-- **Two addresses share their path exactly when they share their page.** -/
theorem pathOf_eq_iff {v w : BitVec 64} : pathOf v = pathOf w ↔ pageKey v = pageKey w := by
  have hidx : ∀ n, indexOf v n = indexOf w n ↔
      v.toNat / 2 ^ (12 + 9 * (n - 1)) % 512 = w.toNat / 2 ^ (12 + 9 * (n - 1)) % 512 := fun n => by
    rw [← BitVec.toNat_inj, toNat_indexOf, toNat_indexOf]
  rw [← BitVec.toNat_inj, toNat_pageKey, toNat_pageKey]
  simp only [pathOf, List.cons.injEq, and_true, hidx, Nat.reduceSub, Nat.reduceMul, Nat.reduceAdd,
    Nat.reducePow]
  omega

/-- `arch_translate` walks the path of its address and reads the last entry. -/
theorem archTranslate_eq {hhdm pml4 vaddr : BitVec 64} {m : Mem} (h : pml4 ≠ 0#64) :
    archTranslate hhdm pml4 vaddr m
      = some (match (pathEntries hhdm pml4 vaddr m).bind List.getLast? with
        | none => 0#64
        | some pte => va hhdm ((pte.address <<< 12).setWidth 64 ||| vaddr &&& 0xfff#64)) := by
  unfold archTranslate pathEntries pathOf
  rw [if_neg h]
  generalize readPte m = T
  simp only [View.walk_cons, View.walk_nil, pteView]
  generalize T pml4 (indexOf vaddr 4) = e₄
  by_cases h₄ : e₄.present = true <;> simp only [h₄]
  · generalize T _ (indexOf vaddr 3) = e₃
    by_cases h₃ : e₃.present = true <;> simp only [h₃]
    · generalize T _ (indexOf vaddr 2) = e₂
      by_cases h₂ : e₂.present = true <;> simp only [h₂]
      · generalize T _ (indexOf vaddr 1) = e₁
        by_cases h₁ : e₁.present = true <;> simp [h₁]
      · simp
    · simp
  · simp

/-! ## Simulation -/

/-- The walk that a mapping promises: down to exactly its entry, through entries that grant at
least its flags. -/
def Serves (walk : Option (List Pte)) : Option MapCall → Prop
  | none => walk = none
  | some c => ∃ es, walk = some (es ++ [pagingCreateEntry c.paddr c.flags])
      ∧ ∀ e ∈ es, Grants c.flags e

/-- **The tables under `pml4` say what `M` says.** -/
def Represents (hhdm pml4 : BitVec 64) (m : Mem) (M : AddrSpace) : Prop :=
  ∀ vaddr, Serves (pathEntries hhdm pml4 vaddr m) (M (pageKey vaddr))

theorem Grants.up {flags : BitVec 32} {e e' : Pte} (h : Grants flags e) (hup : PteUp e e') :
    Grants flags e' := ⟨hup.readwrite ∘ h.readwrite, hup.supervisor ∘ h.supervisor⟩

/-- What a walk promises survives the upgrades of its inner entries. -/
theorem Serves.up {w w' : Option (List Pte)} {x : Option MapCall} (h : Serves w x)
    (hup : WalkRel PteUp w w') : Serves w' x := by
  cases x with
  | none =>
    obtain rfl := h
    cases hup
    rfl
  | some c =>
    obtain ⟨es, rfl, hes⟩ := h
    cases hup with
    | some hup =>
      obtain ⟨es', rfl, hall⟩ := hup.exists_append
      refine ⟨es', rfl, fun e' he' => ?_⟩
      obtain ⟨e, he, hee'⟩ := hall e' he'
      exact (hes e he).up hee'

/-- A walk that serves a mapping ends in its entry. -/
theorem Serves.getLast? {walk : Option (List Pte)} {x : Option MapCall} (h : Serves walk x) :
    walk.bind List.getLast? = x.map fun c => pagingCreateEntry c.paddr c.flags := by
  cases x with
  | none =>
    obtain rfl := h
    rfl
  | some c =>
    obtain ⟨es, rfl, -⟩ := h
    simp

/-- The permission along a walk is the mapping's: the inner entries only ever grant more. -/
theorem Serves.permission {walk : Option (List Pte)} {x : Option MapCall} (h : Serves walk x) :
    walk.map (fun es => (es.all Pte.readwrite, es.all Pte.supervisor))
      = x.map fun c => (c.flags.getLsbD 1, c.flags.getLsbD 2) := by
  have hall : ∀ {es : List Pte} {leaf : Pte} {bit : Pte → Bool},
      (bit leaf = true → ∀ e ∈ es, bit e = true) → (es ++ [leaf]).all bit = bit leaf := by
    intro es leaf bit h
    cases hb : bit leaf with
    | false => simp [hb]
    | true => simpa [hb] using h hb
  cases x with
  | none =>
    obtain rfl := h
    rfl
  | some c =>
    obtain ⟨es, rfl, hgrant⟩ := h
    rw [Option.map_some, Option.map_some, hall fun h e he => (hgrant e he).readwrite h,
      hall fun h e he => (hgrant e he).supervisor h]
    simp only [pagingCreateEntry, checkFlag_eq (show 1 < 32 by decide),
      checkFlag_eq (show 2 < 32 by decide)]

section Simulation

variable {hhdm kernelPagemap pml4 o : BitVec 64} {s s' : Vm} {lab : Labels} {M : AddrSpace}
  {c : MapCall} {calls : List MapCall}

/-- **One call of `arch_map_page` is one update of the map.** -/
theorem Represents.map (hT : Tables hhdm kernelPagemap s lab) (hroot : lab pml4 = some (o, []))
    (hpml4 : pml4 ≠ 0#64) (hM : Represents hhdm pml4 s.mem M) (hflags : checkFlag c.flags 0 = true)
    (h : archMapPage hhdm pml4 c.vaddr c.paddr c.flags s = some s') :
    ∃ lab', Tables hhdm kernelPagemap s' lab' ∧ lab' pml4 = some (o, [])
      ∧ Represents hhdm pml4 s'.mem (M.map c) := by
  obtain ⟨lab', hT', hins⟩ := archMapPage_insert hT hroot hpml4 (flags_ne_zero hflags) h
  refine ⟨lab', hT', hins.mono hroot, fun vaddr => ?_⟩
  by_cases hkey : pageKey vaddr = pageKey c.vaddr
  · rw [AddrSpace.map, hkey, Function.update_self, pathEntries, pathOf_eq_iff.mpr hkey]
    exact hins.walk_self (isUpgrade_pteUp hhdm) hflags hT.labelled hroot rfl
  · rw [AddrSpace.map, Function.update_of_ne hkey]
    exact (hM vaddr).up (hins.walk_other (isUpgrade_pteUp hhdm) hT.labelled hroot rfl hroot
      (List.cons_ne_nil _ _) rfl fun h => hkey (pathOf_eq_iff.mp h))

/-- **A run of calls is the run of its updates.** -/
theorem Represents.mapAll (hpml4 : pml4 ≠ 0#64) (hflags : ∀ c ∈ calls, checkFlag c.flags 0 = true)
    (hT : Tables hhdm kernelPagemap s lab) (hroot : lab pml4 = some (o, []))
    (hM : Represents hhdm pml4 s.mem M) (h : archMapPages hhdm pml4 calls s = some s') :
    ∃ lab', Tables hhdm kernelPagemap s' lab' ∧ lab' pml4 = some (o, [])
      ∧ Represents hhdm pml4 s'.mem (calls.foldl AddrSpace.map M) := by
  induction calls generalizing s lab M with
  | nil =>
    obtain rfl : s = s' := Option.some.inj h
    exact ⟨lab, hT, hroot, hM⟩
  | cons c calls ih =>
    obtain ⟨s₁, h₁, h⟩ := Option.bind_eq_some_iff.mp h
    obtain ⟨lab₁, hT₁, hroot₁, hM₁⟩ := hM.map hT hroot hpml4 (hflags c (by simp)) h₁
    exact ih (fun c hc => hflags c (by simp [hc])) hT₁ hroot₁ hM₁ h

/-- Three blocks a call are enough for a run. -/
theorem archMapPages_isSome (hhdm pml4 : BitVec 64) (calls : List MapCall)
    (hs : Supplies hhdm s (3 * calls.length)) :
    ∃ s', archMapPages hhdm pml4 calls s = some s' := by
  induction calls generalizing s with
  | nil => exact ⟨s, rfl⟩
  | cons c calls ih =>
    obtain ⟨s₁, h₁, hs₁⟩ := archMapPage_isSome pml4 c.vaddr c.paddr c.flags hs
    obtain ⟨s', h'⟩ := ih hs₁
    exact ⟨s', Option.bind_eq_some_iff.mpr ⟨s₁, h₁, h'⟩⟩

end Simulation

/-! ## From an empty pagemap -/

/-- What is assumed of `arch_alloc_page`: its non-null answers start pages, and no block is
answered twice. -/
structure FreshBlocks (hhdm : BitVec 64) (frames : List (BitVec 64)) : Prop where
  onPage : ∀ f ∈ frames, f ≠ 0#64 → OnPage hhdm f
  distinct : (frames.filter (· ≠ 0#64)).Nodup

section NewPagemap

variable {hhdm pml4 : BitVec 64} {s₀ s s' : Vm} {calls : List MapCall}

/-- Before the first pagemap there is no table. -/
theorem FreshBlocks.tables (h : FreshBlocks hhdm s.frames) (kernelPagemap : BitVec 64) :
    Tables hhdm kernelPagemap s fun _ => none where
  labelled := ⟨fun h => nomatch h⟩
  onPage h := absurd rfl h
  fresh f hf hf0 := ⟨h.onPage f hf hf0, rfl⟩
  distinct := h.distinct

/-- A pagemap without a present entry maps nothing. -/
theorem represents_empty {m : Mem} (h : ∀ i, (readPte m pml4 i).present = false) :
    Represents hhdm pml4 m fun _ => none := fun _ => View.walk_cons_of_absent _ (h _)

/-- **A run of mappings from a new pagemap represents its calls.** -/
theorem represents_archMapPages (hfresh : FreshBlocks hhdm s₀.frames)
    (hnew : archCreateNewPagemap s₀ = some (pml4, s)) (hpml4 : pml4 ≠ 0#64)
    (hflags : ∀ c ∈ calls, c.flags.getLsbD 0 = true)
    (h : archMapPages hhdm pml4 calls s = some s') :
    ∃ lab, Tables hhdm pml4 s' lab ∧ lab pml4 = some (pml4, [])
      ∧ Represents hhdm pml4 s'.mem (AddrSpace.ofCalls calls) := by
  obtain ⟨-, hT, hempty, -⟩ := (hfresh.tables pml4).archAllocPage hnew hpml4 (pml4, [])
  exact (represents_empty hempty).mapAll hpml4
    (fun c hc => (checkFlag_eq (by decide)).trans (hflags c hc)) hT (Function.update_self ..) h

/-- What `arch_translate` answers from tables that represent a map of physical addresses below
`2 ^ 52`. -/
theorem Represents.archTranslate {M : AddrSpace} (hM : Represents hhdm pml4 s.mem M)
    (hpml4 : pml4 ≠ 0#64) {vaddr : BitVec 64}
    (hpaddr : ∀ c, M (pageKey vaddr) = some c → c.paddr.toNat < 2 ^ 52) :
    archTranslate hhdm pml4 vaddr s.mem = some (M.translate hhdm vaddr) := by
  rw [archTranslate_eq hpml4, AddrSpace.translate, (hM vaddr).getLast?]
  cases hx : M (pageKey vaddr) with
  | none => rfl
  | some c =>
    rw [Option.map_some]
    dsimp only
    rw [shiftLeft_address_setWidth (hpaddr c hx)]

/-- The permission of an address is its mapping's. -/
theorem Represents.effective {M : AddrSpace} {m : Mem} (hM : Represents hhdm pml4 m M)
    (vaddr : BitVec 64) :
    effective hhdm pml4 vaddr m
      = (M (pageKey vaddr)).map fun c => (c.flags.getLsbD 1, c.flags.getLsbD 2) :=
  (hM vaddr).permission

/-- What an address space holds at a page is one of the page's calls. -/
theorem AddrSpace.mem_of_foldl {M : AddrSpace} {k : BitVec 36} {c : MapCall}
    (h : calls.foldl AddrSpace.map M k = some c) :
    (c ∈ calls ∧ pageKey c.vaddr = k) ∨ M k = some c := by
  induction calls generalizing M with
  | nil => exact Or.inr h
  | cons d calls ih =>
    rcases ih h with ⟨hc, hk⟩ | hc
    · exact Or.inl ⟨List.mem_cons_of_mem _ hc, hk⟩
    · by_cases hk : k = pageKey d.vaddr
      · rw [AddrSpace.map, hk, Function.update_self] at hc
        obtain rfl := Option.some.inj hc
        exact Or.inl ⟨List.mem_cons_self, hk.symm⟩
      · rw [AddrSpace.map, Function.update_of_ne hk] at hc
        exact Or.inr hc

theorem AddrSpace.mem_of_ofCalls {k : BitVec 36} {c : MapCall}
    (h : AddrSpace.ofCalls calls k = some c) : c ∈ calls ∧ pageKey c.vaddr = k :=
  (AddrSpace.mem_of_foldl h).resolve_right nofun

/-- A run without a call for the page leaves it as it was… -/
theorem AddrSpace.foldl_of_not_mem {M : AddrSpace} {k : BitVec 36}
    (h : k ∉ calls.map fun c => pageKey c.vaddr) : calls.foldl AddrSpace.map M k = M k := by
  induction calls generalizing M with
  | nil => rfl
  | cons d calls ih =>
    rw [List.map_cons, List.mem_cons, not_or] at h
    rw [List.foldl_cons, ih h.2, AddrSpace.map, Function.update_of_ne h.1]

/-- …so what counts is the last call. -/
theorem AddrSpace.foldl_last {M : AddrSpace} {before after : List MapCall} {c : MapCall}
    (h : pageKey c.vaddr ∉ after.map fun c => pageKey c.vaddr) :
    (before ++ c :: after).foldl AddrSpace.map M (pageKey c.vaddr) = some c := by
  rw [List.foldl_append, List.foldl_cons, AddrSpace.foldl_of_not_mem h, AddrSpace.map,
    Function.update_self]

/-- Where it has a call it holds one. -/
theorem AddrSpace.foldl_ne_none {M : AddrSpace} {k : BitVec 36}
    (h : k ∈ calls.map (fun c => pageKey c.vaddr) ∨ M k ≠ none) :
    calls.foldl AddrSpace.map M k ≠ none := by
  induction calls generalizing M with
  | nil => simpa using h
  | cons d calls ih =>
    refine ih ?_
    by_cases hk : k = pageKey d.vaddr
    · exact Or.inr (by rw [AddrSpace.map, hk, Function.update_self]; simp)
    · rw [AddrSpace.map, Function.update_of_ne hk]
      simpa [hk] using h

/-- **Translating after any run of mappings is looking up the last call made for the page** — and
three blocks a call are all a run needs. -/
theorem archTranslate_archMapPages (hfresh : FreshBlocks hhdm s₀.frames)
    (hnew : archCreateNewPagemap s₀ = some (pml4, s)) (hpml4 : pml4 ≠ 0#64)
    (hcalls : ∀ c ∈ calls, c.paddr.toNat < 2 ^ 52 ∧ c.flags.getLsbD 0 = true) :
    (∀ s', archMapPages hhdm pml4 calls s = some s' → ∀ vaddr,
      archTranslate hhdm pml4 vaddr s'.mem
        = some ((AddrSpace.ofCalls calls).translate hhdm vaddr))
    ∧ (Supplies hhdm s (3 * calls.length) → ∃ s', archMapPages hhdm pml4 calls s = some s') := by
  refine ⟨fun s' h vaddr => ?_, archMapPages_isSome hhdm pml4 calls⟩
  obtain ⟨-, -, -, hM⟩ :=
    represents_archMapPages hfresh hnew hpml4 (fun c hc => (hcalls c hc).2) h
  exact hM.archTranslate hpml4 fun c hc => (hcalls c (AddrSpace.mem_of_ofCalls hc).1).1

/-- **The effective permission of every mapped page is what its last mapping asked for**, and a
mapping changes that of its own page only. -/
theorem effective_archMapPages (hfresh : FreshBlocks hhdm s₀.frames)
    (hnew : archCreateNewPagemap s₀ = some (pml4, s)) (hpml4 : pml4 ≠ 0#64)
    (hflags : ∀ c ∈ calls, c.flags.getLsbD 0 = true)
    (h : archMapPages hhdm pml4 calls s = some s') :
    (∀ vaddr, effective hhdm pml4 vaddr s'.mem
      = (AddrSpace.ofCalls calls (pageKey vaddr)).map fun c =>
          (c.flags.getLsbD 1, c.flags.getLsbD 2))
    ∧ ∀ (c : MapCall) (s'' : Vm), c.flags.getLsbD 0 = true →
        archMapPage hhdm pml4 c.vaddr c.paddr c.flags s' = some s'' →
        ∀ vaddr, pageKey vaddr ≠ pageKey c.vaddr →
          effective hhdm pml4 vaddr s''.mem = effective hhdm pml4 vaddr s'.mem := by
  obtain ⟨lab, hT, hroot, hM⟩ := represents_archMapPages hfresh hnew hpml4 hflags h
  refine ⟨hM.effective, fun c s'' hc hmap vaddr hkey => ?_⟩
  obtain ⟨-, -, -, hM'⟩ := hM.map hT hroot hpml4 ((checkFlag_eq (by decide)).trans hc) hmap
  rw [hM.effective, hM'.effective, AddrSpace.map, Function.update_of_ne hkey]

end NewPagemap

/-- A page allocator with four pages left, over memory that is not clear. -/
def fourPages : Vm where
  mem _ := 0xff#8
  frames := [0xffff800000001000#64, 0xffff800000002000#64, 0xffff800000003000#64,
    0xffff800000004000#64]
  pmmLock := false

theorem freshBlocks_fourPages : FreshBlocks 0xffff800000000000#64 fourPages.frames where
  onPage := by simp [fourPages, OnPage]
  distinct := by simp [fourPages]

theorem archCreateNewPagemap_fourPages : archCreateNewPagemap fourPages
    = some (0xffff800000001000#64, fourPages.served) := rfl

/-- Behind the pagemap there are three pages left. -/
theorem supplies_fourPages : Supplies 0xffff800000000000#64 fourPages.served 3 where
  unlocked := rfl
  good := by simp [fourPages, Vm.served]
  enough := Nat.le_refl _

theorem archTranslate_fourPages :
    ∃ s', archMapPages 0xffff800000000000#64 0xffff800000001000#64
        [⟨0x400123#64, 0x7000#64, mapUserRw⟩] fourPages.served = some s'
      ∧ archTranslate 0xffff800000000000#64 0xffff800000001000#64 0x400abc#64 s'.mem
          = some 0xffff800000007abc#64
      ∧ archTranslate 0xffff800000000000#64 0xffff800000001000#64 0x401abc#64 s'.mem
          = some 0#64 := by
  have hcalls : ∀ c ∈ [(⟨0x400123#64, 0x7000#64, mapUserRw⟩ : MapCall)],
      c.paddr.toNat < 2 ^ 52 ∧ c.flags.getLsbD 0 = true := by simp [mapUserRw]
  obtain ⟨htrans, hrun⟩ := archTranslate_archMapPages freshBlocks_fourPages
    archCreateNewPagemap_fourPages (by decide) hcalls
  obtain ⟨s', hs'⟩ := hrun supplies_fourPages
  exact ⟨s', hs', htrans s' hs' _, htrans s' hs' _⟩

theorem effective_fourPages :
    ∃ s', archMapPages 0xffff800000000000#64 0xffff800000001000#64
        [⟨0x400000#64, 0x7000#64, mapUserRo⟩] fourPages.served = some s'
      ∧ effective 0xffff800000000000#64 0xffff800000001000#64 0x400abc#64 s'.mem
          = some (false, true) := by
  obtain ⟨s', hs'⟩ := archMapPages_isSome 0xffff800000000000#64 0xffff800000001000#64
    [⟨0x400000#64, 0x7000#64, mapUserRo⟩] supplies_fourPages
  exact ⟨s', hs', (effective_archMapPages freshBlocks_fourPages archCreateNewPagemap_fourPages
    (by decide) (by simp [mapUserRo]) hs').1 _⟩

end MoonOS

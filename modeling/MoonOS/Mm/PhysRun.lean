import MoonOS.Mm.Phys

/-!
# Mm/PhysRun — the page allocator over whole runs

`arch_alloc_page_sz` asks one zone's buddy after another, and `arch_free_page` finds the zone of a
block again by its address alone.  A run is any sequence of the two that frees only live blocks.
Two things are followed: what the buddies have handed out and not got back (`taken`), which is all
their assumption `BuddyAnswers` is about, and what the callers hold (`live`).

Blocks of one zone are disjoint because its buddy says so, blocks of two zones because a zone keeps
to its entry of the memory map.

* `liveSafe_of_physReachable` — in every state of every run the live blocks are pages, each inside a
  usable entry, disjoint from each other and from all headers and metadata; and every one of them is
  freed where it came from.
-/

namespace MoonOS

open ByteMemory

/-! ## Runs -/

/-- A call of `arch_alloc_page_sz`, and the size `2 ^ order` the buddies round it up to. -/
structure BlockCall extends AllocCall where
  order : ℕ

/-- The zones, the blocks their buddies miss, and the blocks the callers hold. -/
structure PhysState where
  zones : List Zone
  taken : List Region
  live : List Region

section Run

variable (metaLen : ℕ → ℕ)

/-- A block of a zone's arena. -/
def Zone.Holds (z : Zone) (b : Region) : Prop :=
  (b.ptr - z.start).toNat + b.len ≤ (z.arena metaLen).len

instance (z : Zone) (b : Region) : Decidable (z.Holds metaLen b) :=
  inferInstanceAs (Decidable (_ ≤ _))

/-- **What is assumed of `buddy_malloc`**: its blocks are powers of two, naturally aligned, in the
arena, and off those it has handed out before. -/
structure BuddyAnswers (s : PhysState) (call : BlockCall) : Prop where
  size : call.sz.toNat ≤ 2 ^ call.order
  inside : ∀ z ∈ s.zones, ∀ ptr, call.answer z = some ptr → z.Holds metaLen ⟨ptr, 2 ^ call.order⟩
  natural : ∀ z ∈ s.zones, ∀ ptr, call.answer z = some ptr →
    (ptr - z.start).toNat % 2 ^ call.order = 0
  disjoint : ∀ z ∈ s.zones, ∀ ptr, call.answer z = some ptr → ∀ c ∈ s.taken, z.Holds metaLen c →
    Disjoint (⟨ptr, 2 ^ call.order⟩ : Region).bytes c.bytes

/-- What callers do. -/
inductive PhysEvent
  | alloc (call : BlockCall)
  | free (page : BitVec 64)

/-- What a run may do next: ask for a page or more, or free a live block. -/
def PhysEvent.Allowed (s : PhysState) : PhysEvent → Prop
  | alloc call => 4096 ≤ call.sz.toInt ∧ BuddyAnswers metaLen s call
  | free page => ∃ b ∈ s.live, b.ptr = page

/-- The zone `arch_free_page` takes a block to be from. -/
def zoneOf (page : BitVec 64) (zones : List Zone) : Option Zone :=
  zones.find? fun z => z.start ≤ page ∧ page ≤ z.start + z.len

/-- `arch_free_page`, on what the buddies miss.  What `buddy_free` does to a block that is not its
own is not known. -/
def archFreePage (page : BitVec 64) (s : PhysState) : Option (List Region) :=
  if page = 0#64 then some s.taken
  else
    match zoneOf page s.zones with
    | none => some s.taken
    | some z =>
      if ∃ b ∈ s.taken, b.ptr = page ∧ z.Holds metaLen b then some (s.taken.filter (·.ptr ≠ page))
      else none

/-- One event; a request that fails has no next state. -/
def PhysEvent.apply (s : PhysState) : PhysEvent → Option PhysState
  | alloc call => (archAllocPageSz call.toAllocCall s.zones).map fun ptr =>
      { s with taken := ⟨ptr, 2 ^ call.order⟩ :: s.taken, live := ⟨ptr, 2 ^ call.order⟩ :: s.live }
  | free page => (archFreePage metaLen page s).map fun taken =>
      { s with taken, live := s.live.filter (·.ptr ≠ page) }

/-- The states of all runs from `init_phys_allocator`. -/
inductive PhysReachable (hhdm : BitVec 64) (mmap : List MemmapEntry) : PhysState → Prop
  | init : PhysReachable hhdm mmap ⟨initPhysAllocator hhdm mmap, [], []⟩
  | step {s s' : PhysState} {e : PhysEvent} : PhysReachable hhdm mmap s → e.Allowed metaLen s →
      e.apply metaLen s = some s' → PhysReachable hhdm mmap s'

end Run

/-! ## What is claimed, and of which maps -/

/-- Two entries do not meet. -/
def MemmapEntry.Before (a b : MemmapEntry) : Prop :=
  a.base.toNat + a.length.toNat ≤ b.base.toNat ∨ b.base.toNat + b.length.toNat ≤ a.base.toNat

/-- **A memory map the page allocator is made for**: its usable entries are whole pages, disjoint,
and leave the last of the 1024 slots of `zone_list` empty. -/
structure UsableOk (mmap : List MemmapEntry) : Prop where
  paged : ∀ e ∈ mmap, e.type = .usable → e.Paged ∧ e.base.toNat + e.length.toNat ≤ 2 ^ 64
  disjoint : (mmap.filter (·.type = .usable)).Pairwise MemmapEntry.Before
  few : (mmap.filter (·.type = .usable)).length ≤ 1023

/-- A block as every caller needs it. -/
structure BlockSafe (hhdm : BitVec 64) (metaLen : ℕ → ℕ) (mmap : List MemmapEntry) (b : Region) :
    Prop where
  page : b.ptr.toNat % 4096 = 0 ∧ 4096 ≤ b.len
  usable : ∃ e ∈ mmap, e.type = .usable ∧ b.bytes ⊆ (e.span hhdm).bytes
  header : ∀ z ∈ initPhysAllocator hhdm mmap, Disjoint b.bytes z.headerRegion.bytes
  metadata : ∀ z ∈ initPhysAllocator hhdm mmap, Disjoint b.bytes (z.metadata metaLen).bytes

/-- **The live blocks are safe**, and each can be freed. -/
structure LiveSafe (hhdm : BitVec 64) (metaLen : ℕ → ℕ) (mmap : List MemmapEntry) (s : PhysState) :
    Prop where
  blocks : ∀ b ∈ s.live, BlockSafe hhdm metaLen mmap b
  disjoint : s.live.Pairwise fun b c => Disjoint b.bytes c.bytes
  freed : ∀ b ∈ s.live, ∃ s', (PhysEvent.free b.ptr).apply metaLen s = some s'

/-! ## Zones and entries -/

section Entries

variable {hhdm : BitVec 64} {metaLen : ℕ → ℕ} {mmap : List MemmapEntry} {e u : MemmapEntry}
  {z : Zone} {b : Region}

theorem Zone.Holds.subset (h : z.Holds metaLen b) : b.bytes ⊆ (z.arena metaLen).bytes := by
  have hptr : b = ⟨at' z.start (b.ptr - z.start).toNat, b.len⟩ := by rw [at'_toNat_sub]
  rw [hptr]
  exact Region.bytes_subset h

/-- A block has its first byte in it. -/
theorem Region.ptr_mem (hb : 0 < b.len) : b.ptr ∈ b.bytes := by
  show (b.ptr - b.ptr).toNat < b.len
  rwa [BitVec.sub_self]

theorem hasZone_usable (h : u.hasZone = true) : u.type = .usable := by
  simp only [MemmapEntry.hasZone, Bool.and_eq_true, beq_iff_eq] at h
  exact h.1

instance : Std.Symm MemmapEntry.Before := ⟨fun _ _ => Or.symm⟩

/-- **The entry of an address is unique**, among the usable ones. -/
theorem UsableOk.eq_of_mem_span (hmap : UsableOk mmap) (he : e ∈ mmap) (he' : e.type = .usable)
    (hu : u ∈ mmap) (hu' : u.type = .usable) {x : BitVec 64} (hx : x ∈ (e.span hhdm).bytes)
    (hx' : x ∈ (u.span hhdm).bytes) : e = u := by
  have hspan : (x - va hhdm e.base).toNat < e.length.toNat := hx
  have hspan' : (x - va hhdm u.base).toNat < u.length.toNat := hx'
  have hphys : ∀ base, x - va hhdm base = (x - hhdm) - base := fun base => by grind [va]
  rw [hphys, BitVec.toNat_sub] at hspan hspan'
  have hend := (hmap.paged e he he').2
  have hend' := (hmap.paged u hu hu').2
  by_contra hne
  have hbefore := hmap.disjoint.forall (List.mem_filter.mpr ⟨he, decide_eq_true he'⟩)
    (List.mem_filter.mpr ⟨hu, decide_eq_true hu'⟩) hne
  rw [MemmapEntry.Before] at hbefore
  omega

/-- The range of addresses a zone answers for stays one byte short of its entry's end. -/
theorem mem_span_of_covered (hhdm0 : hhdm.toNat % 4096 = 0) (hpaged : u.Paged)
    (hzone : u.hasZone = true) {x : BitVec 64}
    (hlo : (initZone (va hhdm u.base) (u.length - 1#64)).start ≤ x)
    (hhi : x ≤ (initZone (va hhdm u.base) (u.length - 1#64)).start
      + (initZone (va hhdm u.base) (u.length - 1#64)).len) : x ∈ (u.span hhdm).bytes := by
  have hlen := len_initZone hpaged hzone (va hhdm u.base)
  show (x - va hhdm u.base).toNat < u.length.toNat
  rw [start_initZone hhdm0 hpaged] at hlo hhi
  have hoff : x - va hhdm u.base = (x - at' (va hhdm u.base) 4096) + BitVec.ofNat 64 4096 := by
    grind
  have hle : (x - at' (va hhdm u.base) 4096).toNat
      ≤ (initZone (va hhdm u.base) (u.length - 1#64)).len.toNat := by
    generalize at' (va hhdm u.base) 4096 = start at hlo hhi ⊢
    generalize (initZone (va hhdm u.base) (u.length - 1#64)).len = len at hhi ⊢
    bv_omega
  rw [hoff, BitVec.toNat_add, BitVec.toNat_ofNat]
  have hlt := u.length.isLt
  omega

/-- The zone of an entry, with its parts one after the other. -/
theorem arena_disjoint (hmeta : ∀ n, metaLen n ≤ n) (hhdm0 : hhdm.toNat % 4096 = 0) (he : e.Paged)
    (hz : e.hasZone = true) (hzone : z = initZone (va hhdm e.base) (e.length - 1#64)) :
    Disjoint (z.arena metaLen).bytes z.headerRegion.bytes
      ∧ Disjoint (z.arena metaLen).bytes (z.metadata metaLen).bytes := by
  have hstart := start_initZone hhdm0 he
  have hlen := len_initZone he hz (va hhdm e.base)
  rw [← hzone] at hstart hlen
  have hm := hmeta z.len.toNat
  have hlt := e.length.isLt
  constructor
  · have hheader : z.headerRegion = ⟨at' (va hhdm e.base) 0, 56⟩ := by
      rw [at'_zero, hzone]
      rfl
    rw [hheader, Zone.arena, hstart]
    exact (Region.disjoint_of_le (by omega) (by omega)).symm
  · have harena : z.arena metaLen
        = ⟨at' z.start 0, z.len.toNat - metaLen z.len.toNat⟩ := by rw [at'_zero, Zone.arena]
    rw [harena, Zone.metadata]
    exact Region.disjoint_of_le (by omega) (by omega)

end Entries

/-! ## The invariant -/

/-- **What every run keeps**: the buddies' blocks are pages of their arenas, pairwise disjoint, and
the live ones are among them. -/
structure PhysInv (hhdm : BitVec 64) (metaLen : ℕ → ℕ) (mmap : List MemmapEntry) (s : PhysState) :
    Prop where
  zones : s.zones = initPhysAllocator hhdm mmap
  page : ∀ b ∈ s.taken, b.ptr.toNat % 4096 = 0 ∧ 4096 ≤ b.len
  held : ∀ b ∈ s.taken, ∃ z ∈ s.zones, z.Holds metaLen b
  disjoint : s.taken.Pairwise fun b c => Disjoint b.bytes c.bytes
  live : s.live.Sublist s.taken

section Invariant

variable {hhdm : BitVec 64} {metaLen : ℕ → ℕ} {mmap : List MemmapEntry} {s s' : PhysState}
  {z : Zone} {b : Region}

/-- A block a zone holds lies in the span of the zone's entry. -/
theorem UsableOk.holds (hmap : UsableOk mmap) (hhdm0 : hhdm.toNat % 4096 = 0)
    (hmeta : ∀ n, metaLen n ≤ n) (hz : z ∈ initPhysAllocator hhdm mmap) (hb : z.Holds metaLen b) :
    ∃ u ∈ mmap, u.hasZone = true ∧ initZone (va hhdm u.base) (u.length - 1#64) = z
      ∧ b.bytes ⊆ (u.span hhdm).bytes := by
  obtain ⟨u, hu, hzone, hzu⟩ := mem_initPhysAllocator.mp hz
  have hpaged := (hmap.paged u hu (hasZone_usable hzone)).1
  exact ⟨u, hu, hzone, hzu,
    hb.subset.trans (zone_subset_span hmeta hhdm0 hpaged hzone hzu.symm).2.2⟩

/-- **Blocks of two zones are disjoint.** -/
theorem UsableOk.disjoint_of_ne (hmap : UsableOk mmap) (hhdm0 : hhdm.toNat % 4096 = 0)
    (hmeta : ∀ n, metaLen n ≤ n) {z' : Zone} {c : Region} (hz : z ∈ initPhysAllocator hhdm mmap)
    (hz' : z' ∈ initPhysAllocator hhdm mmap) (hne : z ≠ z') (hb : z.Holds metaLen b)
    (hc : z'.Holds metaLen c) : Disjoint b.bytes c.bytes := by
  obtain ⟨u, hu, hzone, rfl, hsub⟩ := hmap.holds hhdm0 hmeta hz hb
  obtain ⟨u', hu', hzone', rfl, hsub'⟩ := hmap.holds hhdm0 hmeta hz' hc
  refine Set.disjoint_left.mpr fun x hx hx' => hne ?_
  rw [hmap.eq_of_mem_span hu (hasZone_usable hzone) hu' (hasZone_usable hzone')
    (hsub hx) (hsub' hx')]

/-- A naturally aligned block of a page or more starts a page. -/
theorem page_of_natural (hhdm0 : hhdm.toNat % 4096 = 0) (hmap : UsableOk mmap)
    (hz : z ∈ initPhysAllocator hhdm mmap) {ptr : BitVec 64} {order : ℕ} (hlong : 4096 ≤ 2 ^ order)
    (hnatural : (ptr - z.start).toNat % 2 ^ order = 0) : ptr.toNat % 4096 = 0 := by
  obtain ⟨u, hu, hzone, rfl⟩ := mem_initPhysAllocator.mp hz
  have hpaged := (hmap.paged u hu (hasZone_usable hzone)).1
  have hbase := hpaged.base
  have horder : 12 ≤ order := (Nat.pow_le_pow_iff_right (a := 2) (by decide)).mp hlong
  have hoff : 4096 ∣ (ptr - at' (va hhdm u.base) 4096).toNat := by
    rw [start_initZone hhdm0 hpaged] at hnatural
    exact (pow_dvd_pow 2 horder).trans (Nat.dvd_of_mod_eq_zero hnatural)
  rw [at', va] at hoff
  bv_omega

theorem PhysInv.init : PhysInv hhdm metaLen mmap ⟨initPhysAllocator hhdm mmap, [], []⟩ where
  zones := rfl
  page := nofun
  held := nofun
  disjoint := .nil
  live := .slnil

/-- **A block just returned joins the others.** -/
theorem PhysInv.alloc (h : PhysInv hhdm metaLen mmap s) (hmap : UsableOk mmap)
    (hhdm0 : hhdm.toNat % 4096 = 0) (hmeta : ∀ n, metaLen n ≤ n) {call : BlockCall}
    (hsz : 4096 ≤ call.sz.toInt) (hcall : BuddyAnswers metaLen s call)
    (hrun : (PhysEvent.alloc call).apply metaLen s = some s') : PhysInv hhdm metaLen mmap s' := by
  obtain ⟨ptr, halloc, rfl⟩ := Option.map_eq_some_iff.mp hrun
  obtain ⟨z, hz, hanswer⟩ := List.exists_of_findSome?_eq_some halloc
  have hanswer : call.answer z = some ptr := by
    split at hanswer
    · cases hanswer
    · exact hanswer
  have hlong : 4096 ≤ 2 ^ call.order := by
    have hsize := hcall.size
    have hint : call.sz.toInt ≤ call.sz.toNat := by
      rw [BitVec.toInt_eq_toNat_cond]
      split <;> omega
    omega
  have hholds := hcall.inside z hz ptr hanswer
  refine ⟨h.zones, ?_, ?_, ?_, h.live.cons_cons _⟩
  · refine List.forall_mem_cons.mpr ⟨⟨?_, hlong⟩, h.page⟩
    exact page_of_natural hhdm0 hmap (h.zones ▸ hz) hlong (hcall.natural z hz ptr hanswer)
  · exact List.forall_mem_cons.mpr ⟨⟨z, hz, hholds⟩, h.held⟩
  · refine List.pairwise_cons.mpr ⟨fun c hc => ?_, h.disjoint⟩
    obtain ⟨z', hz', hheld⟩ := h.held c hc
    by_cases hne : z = z'
    · subst hne
      exact hcall.disjoint z hz ptr hanswer c hc hheld
    · exact hmap.disjoint_of_ne hhdm0 hmeta (h.zones ▸ hz) (h.zones ▸ hz') hne hholds hheld

/-- A free takes blocks away, from both lists. -/
theorem PhysInv.free (h : PhysInv hhdm metaLen mmap s) {page : BitVec 64}
    (hrun : (PhysEvent.free page).apply metaLen s = some s') : PhysInv hhdm metaLen mmap s' := by
  obtain ⟨taken, hfree, rfl⟩ := Option.map_eq_some_iff.mp hrun
  have htaken : taken = s.taken ∨ taken = s.taken.filter (·.ptr ≠ page) := by
    rw [archFreePage] at hfree
    split at hfree
    · exact .inl (Option.some.inj hfree).symm
    · split at hfree
      · exact .inl (Option.some.inj hfree).symm
      · split at hfree
        · exact .inr (Option.some.inj hfree).symm
        · cases hfree
  have hsub : taken.Sublist s.taken := by
    rcases htaken with rfl | rfl
    · exact List.Sublist.refl _
    · exact List.filter_sublist
  refine ⟨h.zones, fun b hb => h.page b (hsub.subset hb), fun b hb => h.held b (hsub.subset hb),
    h.disjoint.sublist hsub, ?_⟩
  rcases htaken with rfl | rfl
  · exact List.filter_sublist.trans h.live
  · exact h.live.filter _

/-- The zone that is found by the address of a block is the one it is from. -/
theorem PhysInv.zoneOf_eq (h : PhysInv hhdm metaLen mmap s) (hmap : UsableOk mmap)
    (hhdm0 : hhdm.toNat % 4096 = 0) (hmeta : ∀ n, metaLen n ≤ n) (hb : b ∈ s.taken)
    (hfound : zoneOf b.ptr s.zones = some z) : z.Holds metaLen b := by
  obtain ⟨z', hz', hheld⟩ := h.held b hb
  have hrange := List.find?_some hfound
  have hz := List.mem_of_find?_eq_some hfound
  rw [h.zones] at hz hz'
  obtain ⟨u', hu', hzone', rfl, hsub⟩ := hmap.holds hhdm0 hmeta hz' hheld
  obtain ⟨u, hu, hzone, rfl⟩ := mem_initPhysAllocator.mp hz
  have hpaged := (hmap.paged u hu (hasZone_usable hzone)).1
  simp only [decide_eq_true_eq] at hrange
  have hmem := mem_span_of_covered hhdm0 hpaged hzone hrange.1 hrange.2
  have hfirst : b.ptr ∈ (u'.span hhdm).bytes := by
    have hlong := (h.page b hb).2
    exact hsub (Region.ptr_mem (by omega))
  rwa [hmap.eq_of_mem_span hu (hasZone_usable hzone) hu' (hasZone_usable hzone') hmem hfirst]

/-- A block of some arena is off every header and all metadata. -/
theorem PhysInv.blockSafe (h : PhysInv hhdm metaLen mmap s) (hmap : UsableOk mmap)
    (hhdm0 : hhdm.toNat % 4096 = 0) (hmeta : ∀ n, metaLen n ≤ n) (hb : b ∈ s.taken) :
    BlockSafe hhdm metaLen mmap b := by
  obtain ⟨z, hz, hheld⟩ := h.held b hb
  rw [h.zones] at hz
  obtain ⟨u, hu, hzone, hzu, hsub⟩ := hmap.holds hhdm0 hmeta hz hheld
  have husable := hasZone_usable hzone
  have hparts : ∀ z' ∈ initPhysAllocator hhdm mmap, Disjoint b.bytes z'.headerRegion.bytes
      ∧ Disjoint b.bytes (z'.metadata metaLen).bytes := by
    intro z' hz'
    obtain ⟨u', hu', hzone', hzu'⟩ := mem_initPhysAllocator.mp hz'
    have hpaged := (hmap.paged u' hu' (hasZone_usable hzone')).1
    by_cases hne : u = u'
    · -- its own zone: the arena lies between the two
      subst hne
      obtain rfl := hzu.symm.trans hzu'
      obtain ⟨hheader, hmetadata⟩ := arena_disjoint hmeta hhdm0 hpaged hzone hzu.symm
      exact ⟨hheader.mono_left hheld.subset, hmetadata.mono_left hheld.subset⟩
    · obtain ⟨hheader, hmetadata, -⟩ := zone_subset_span hmeta hhdm0 hpaged hzone' hzu'.symm
      have hspans : Disjoint b.bytes (u'.span hhdm).bytes := Set.disjoint_left.mpr fun x hx hx' =>
        hne (hmap.eq_of_mem_span hu husable hu' (hasZone_usable hzone') (hsub hx) hx')
      exact ⟨hspans.mono_right hheader, hspans.mono_right hmetadata⟩
  exact ⟨h.page b hb, ⟨u, hu, husable, hsub⟩, fun z' hz' => (hparts z' hz').1,
    fun z' hz' => (hparts z' hz').2⟩

/-- A live block is taken back. -/
theorem PhysInv.freed (h : PhysInv hhdm metaLen mmap s) (hmap : UsableOk mmap)
    (hhdm0 : hhdm.toNat % 4096 = 0) (hmeta : ∀ n, metaLen n ≤ n) (hb : b ∈ s.taken) :
    ∃ s', (PhysEvent.free b.ptr).apply metaLen s = some s' := by
  suffices hfree : ∃ taken, archFreePage metaLen b.ptr s = some taken by
    obtain ⟨taken, hfree⟩ := hfree
    exact ⟨_, by rw [PhysEvent.apply, hfree, Option.map_some]⟩
  rw [archFreePage]
  split
  · exact ⟨_, rfl⟩
  · cases hfound : zoneOf b.ptr s.zones with
    | none => exact ⟨_, rfl⟩
    | some z => exact ⟨_, if_pos ⟨b, hb, rfl, h.zoneOf_eq hmap hhdm0 hmeta hb hfound⟩⟩

theorem physInv_of_physReachable (hmap : UsableOk mmap) (hhdm0 : hhdm.toNat % 4096 = 0)
    (hmeta : ∀ n, metaLen n ≤ n) (h : PhysReachable metaLen hhdm mmap s) :
    PhysInv hhdm metaLen mmap s := by
  induction h with
  | init => exact .init
  | @step s s' e _ hallowed hrun ih =>
    cases e with
    | alloc call => exact ih.alloc hmap hhdm0 hmeta hallowed.1 hallowed.2 hrun
    | free page => exact ih.free hrun

/-- **In every state of every run the live blocks are safe**: page-aligned, each in one usable
entry, off each other, off the headers and the metadata — and each is freed where it came from. -/
theorem liveSafe_of_physReachable (hmap : UsableOk mmap) (hhdm0 : hhdm.toNat % 4096 = 0)
    (hmeta : ∀ n, metaLen n ≤ n) (h : PhysReachable metaLen hhdm mmap s) :
    LiveSafe hhdm metaLen mmap s := by
  have hinv := physInv_of_physReachable hmap hhdm0 hmeta h
  exact ⟨fun b hb => hinv.blockSafe hmap hhdm0 hmeta (hinv.live.subset hb),
    hinv.disjoint.sublist hinv.live, fun b hb => hinv.freed hmap hhdm0 hmeta (hinv.live.subset hb)⟩

end Invariant

/-- Two entries of 1 MiB with reserved memory between them. -/
def twoZones : List MemmapEntry :=
  [⟨0x100000#64, 0x100000#64, .usable⟩, ⟨0x200000#64, 0x100000#64, .reserved⟩,
    ⟨0x300000#64, 0x100000#64, .usable⟩]

theorem usableOk_twoZones : UsableOk twoZones where
  paged e he hu := by
    rcases List.mem_cons.mp he with rfl | he
    · exact ⟨⟨by decide, by decide, by decide⟩, by decide⟩
    rcases List.mem_pair.mp he with rfl | rfl
    · cases hu
    · exact ⟨⟨by decide, by decide, by decide⟩, by decide⟩
  disjoint := List.pairwise_pair.mpr (.inl (by decide))
  few := by decide

/-- A call the second zone's buddy answers with a page, and the first zone's with none. -/
def secondZoneCall (page : BitVec 64) : BlockCall where
  sz := 4096#32
  answer z := if z.start = 0xffff800000301000#64 then some page else none
  order := 12

/-- Two pages of the second zone, live. -/
def twoPagesLive : PhysState where
  zones := initPhysAllocator 0xffff800000000000#64 twoZones
  taken := [⟨0xffff800000302000#64, 4096⟩, ⟨0xffff800000301000#64, 4096⟩]
  live := [⟨0xffff800000302000#64, 4096⟩, ⟨0xffff800000301000#64, 4096⟩]

/-- A page of the zone's first MiB that is off the others is a good answer. -/
theorem buddyAnswers_secondZoneCall {page : BitVec 64} {taken live : List Region}
    (hinside : (page - 0xffff800000301000#64).toNat + 4096 ≤ 1028096)
    (hnatural : (page - 0xffff800000301000#64).toNat % 4096 = 0)
    (hdisjoint : ∀ c ∈ taken, Disjoint (⟨page, 4096⟩ : Region).bytes c.bytes) :
    BuddyAnswers (· / 64) ⟨initPhysAllocator 0xffff800000000000#64 twoZones, taken, live⟩
      (secondZoneCall page) := by
  have hsome : ∀ z ptr, (secondZoneCall page).answer z = some ptr →
      z.start = 0xffff800000301000#64 ∧ page = ptr := by
    intro z ptr h
    simp only [secondZoneCall, Option.ite_none_right_eq_some, Option.some.injEq] at h
    exact h
  refine ⟨Nat.le_refl 4096, fun z hz ptr h => ?_, fun z hz ptr h => ?_, fun z hz ptr h c hc _ => ?_⟩
  · obtain ⟨hstart, rfl⟩ := hsome z ptr h
    rcases List.mem_pair.mp hz with rfl | rfl
    · exact absurd hstart (by decide)
    · rw [Zone.Holds, hstart]
      exact hinside.trans (by decide)
  · obtain ⟨hstart, rfl⟩ := hsome z ptr h
    rw [hstart]
    exact hnatural
  · obtain ⟨-, rfl⟩ := hsome z ptr h
    exact hdisjoint c hc

theorem liveSafe_twoPagesLive :
    PhysReachable (· / 64) 0xffff800000000000#64 twoZones twoPagesLive
      ∧ LiveSafe 0xffff800000000000#64 (· / 64) twoZones twoPagesLive := by
  have hinit : PhysReachable (· / 64) 0xffff800000000000#64 twoZones
    ⟨initPhysAllocator 0xffff800000000000#64 twoZones, [], []⟩ := .init
  have hone := hinit.step (e := .alloc (secondZoneCall 0xffff800000301000#64))
    ⟨by decide, buddyAnswers_secondZoneCall (by decide) (by decide) (by simp)⟩ rfl
  have hreach : PhysReachable (· / 64) 0xffff800000000000#64 twoZones twoPagesLive := by
    refine hone.step (e := .alloc (secondZoneCall 0xffff800000302000#64))
      ⟨by decide, buddyAnswers_secondZoneCall (by decide) (by decide) fun c hc => ?_⟩ rfl
    obtain rfl := List.mem_singleton.mp hc
    exact (Region.disjoint_of_le (a := 0xffff800000301000#64) (p := 0) (n := 4096) (q := 4096)
      (k := 4096) (by decide) (by decide)).symm
  exact ⟨hreach, liveSafe_of_physReachable usableOk_twoZones (by decide)
    (fun n => Nat.div_le_self n 64) hreach⟩

end MoonOS

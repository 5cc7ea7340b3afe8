import MoonOS.Mm.BuddyRun

/-!
# Mm/BuddyPhys — the page allocator over the vendored buddy

`Mm/PhysRun` and `Mm/PhysBlock` take the buddy as a parameter and assume what they need of it.  Here
`kernel/arch/x86/mm/phys.c` runs over the buddy it is compiled with: `init_zone` embeds one in each
zone, and a run is any sequence of calls, with any pointer given to `arch_free_page`.

Each zone is, all along, a run of its own buddy (`ZoneRuns`), because a block is found again by its
address in the zone it came from and in no other.  So

* `physReachable_of_pagesReachable` — such a run is one of `Mm/PhysRun`'s: everything it assumes of
  the buddy holds;
* `blockSafe_of_pagesReachable` — hence what is held is safe;
* `archAllocPageSz_eq_null_iff` — a request fails exactly when no zone has an aligned place for it.
-/

namespace MoonOS

open ByteMemory SlotTree

/-! ## Runs -/

/-- The buddy of a zone, behind a pointer that is NULL where `buddy_embed` failed. -/
def vendoredBuddy : Buddy (Option BuddyAlloc) where
  malloc b sz :=
    match b with
    | none => (0#64, none)
    | some b => ((b.malloc sz.toNat).1, some (b.malloc sz.toNat).2)
  free b page := b.map (·.free page)
  toggleRangeReservation b base len := b.map (·.toggleRangeReservation base len.toNat true)

/-- `buddy_embed` in a zone, whose memory held `raw`. -/
def embedZone (raw : Zone → Bitset) (z : Zone) : Option BuddyAlloc :=
  buddyEmbed (raw z) z.start z.len.toNat

/-- The page allocator, and the blocks its callers hold. -/
structure PagesState where
  pmm : Pmm (Option BuddyAlloc)
  live : List Region

/-- What a run may do next: ask for a page or more, free any pointer, and reserve what is below all
zones, as the physical addresses are that `kernel_main` gives to `arch_reserve_range`. -/
def PagesState.Allowed (s : PagesState) : PmmCall → Prop
  | .alloc sz => 4096 ≤ sz.toInt
  | .free _ => True
  | .reserve base _ => ∀ z ∈ s.pmm.zones, base < z.start

/-- What a call leaves, if it returns. -/
def PagesState.apply (s : PagesState) : PmmCall → Option PagesState
  | .alloc sz => (s.pmm.archAllocPageSz vendoredBuddy sz).map fun (page, pmm) =>
      ⟨pmm, if page = 0#64 then s.live else ⟨page, slotSize sz.toNat⟩ :: s.live⟩
  | .free page => (s.pmm.archFreePage vendoredBuddy page).map fun pmm =>
      ⟨pmm, s.live.filter (·.ptr ≠ page)⟩
  | .reserve base len => (s.pmm.archReserveRange vendoredBuddy base len).map fun pmm =>
      ⟨pmm, s.live⟩

/-- The states of all runs from `init_phys_allocator`. -/
inductive PagesReachable (raw : Zone → Bitset) (hhdm : BitVec 64) (mmap : List MemmapEntry) :
    PagesState → Prop
  | init : PagesReachable raw hhdm mmap ⟨initPmm hhdm (embedZone raw) mmap, []⟩
  | step {s s' : PagesState} {call : PmmCall} : PagesReachable raw hhdm mmap s → s.Allowed call →
      s.apply call = some s' → PagesReachable raw hhdm mmap s'

/-! ## One zone -/

/-- A zone that ends below the last address and has at most half of the address space. -/
structure Zone.Ok (z : Zone) : Prop where
  start_ne : z.start ≠ 0#64
  bound : z.start.toNat + z.len.toNat < 2 ^ 64
  small : z.len.toNat ≤ 2 ^ 63

/-- The addresses `arch_free_page` takes to be a zone's. -/
def Zone.Covers (z : Zone) (page : BitVec 64) : Prop := z.start ≤ page ∧ page ≤ z.start + z.len

/-- The blocks that start in a zone. -/
def liveIn (z : Zone) (live : List Region) : List Region :=
  live.filter fun r => (r.ptr - z.start).toNat < z.len.toNat

/-- **A zone is a run of its own buddy**, as far as the blocks go that start in it. -/
structure ZoneRuns (raw : Zone → Bitset) (live : List Region) (z₀ : Zone)
    (z : BuddyZone (Option BuddyAlloc)) : Prop where
  start : z.start = z₀.start
  len : z.len = z₀.len
  null : embedZone raw z₀ = none → z.buddy = none ∧ liveIn z₀ live = []
  runs : ∀ b₀, embedZone raw z₀ = some b₀ →
    ∃ b, z.buddy = some b ∧ BuddyReachable b₀ ⟨b, liveIn z₀ live⟩

section Zone

variable {raw : Zone → Bitset} {live : List Region} {z₀ : Zone} {r : Region}
  {z : BuddyZone (Option BuddyAlloc)}

theorem Zone.Ok.covers (hz : z₀.Ok) {page : BitVec 64}
    (h : (page - z₀.start).toNat < z₀.len.toNat) : z₀.Covers page := by
  have hbound := hz.bound
  rw [Zone.Covers, BitVec.le_def, BitVec.le_def, BitVec.toNat_add]
  rw [BitVec.toNat_sub] at h
  omega

theorem Zone.Ok.covers_start (hz : z₀.Ok) : z₀.Covers z₀.start := by
  have hbound := hz.bound
  rw [Zone.Covers, BitVec.le_def, BitVec.le_def, BitVec.toNat_add]
  omega

/-- What a zone's buddy keeps to: the arena of `Mm/PhysRun`, with the metadata's real length. -/
theorem Zone.Ok.exists_inv (hz : z₀.Ok) {b₀ : BuddyAlloc} (hembed : embedZone raw z₀ = some b₀) :
    b₀.main = z₀.start ∧ b₀.memorySize ≤ (z₀.arena embedMetaLen).len
      ∧ embedMetaLen z₀.len.toNat ≤ z₀.len.toNat
      ∧ ∃ u₀, BuddyInv b₀ u₀ ⟨b₀, []⟩ u₀ := by
  have hbound := hz.bound
  obtain ⟨hmain, -, hmeta, -⟩ := buddyEmbed_tracks (by omega) hz.small hembed
  refine ⟨hmain, ?_, by omega, exists_buddyInv (by omega) hz.small hembed⟩
  show b₀.memorySize ≤ z₀.len.toNat - embedMetaLen z₀.len.toNat
  omega

/-- A block that a zone's buddy has given out. -/
theorem ZoneRuns.block (h : ZoneRuns raw live z₀ z) (hz : z₀.Ok) (hr : r ∈ liveIn z₀ live) :
    z₀.Holds embedMetaLen r ∧ (r.ptr - z₀.start).toNat % r.len = 0 ∧ 0 < r.len := by
  cases hembed : embedZone raw z₀ with
  | none =>
    rw [(h.null hembed).2] at hr
    exact absurd hr List.not_mem_nil
  | some b₀ =>
    obtain ⟨hmain, hmem, -, u₀, hinit⟩ := hz.exists_inv hembed
    obtain ⟨b, -, hreach⟩ := h.runs b₀ hembed
    obtain ⟨u, hinv⟩ := hreach.exists_inv hinit
    obtain ⟨hend, hnatural, k, -, hlen⟩ := hinv.block_of_live hr
    rw [hmain] at hend hnatural
    exact ⟨hend.trans hmem, hnatural, by omega⟩

/-- A block elsewhere is nothing to a zone. -/
theorem ZoneRuns.cons_of_not_mem (h : ZoneRuns raw live z₀ z)
    (hr : ¬ (r.ptr - z₀.start).toNat < z₀.len.toNat) : ZoneRuns raw (r :: live) z₀ z := by
  have hsame : liveIn z₀ (r :: live) = liveIn z₀ live :=
    List.filter_cons_of_neg (by simpa using hr)
  exact ⟨h.start, h.len, fun hnull => by rw [hsame]; exact h.null hnull,
    fun b₀ hb₀ => by rw [hsame]; exact h.runs b₀ hb₀⟩

/-- **A request to one zone**: refused, and nothing has changed, or met with a block of its arena
off the others. -/
theorem ZoneRuns.malloc (h : ZoneRuns raw live z₀ z) (hz : z₀.Ok) (n : BitVec 64) :
    vendoredBuddy.malloc z.buddy n = (0#64, z.buddy)
      ∨ ∃ ptr buddy, vendoredBuddy.malloc z.buddy n = (ptr, buddy) ∧ ptr ≠ 0#64
        ∧ z₀.Holds embedMetaLen ⟨ptr, slotSize n.toNat⟩
        ∧ (ptr - z₀.start).toNat % slotSize n.toNat = 0
        ∧ (∀ c ∈ liveIn z₀ live, Disjoint (⟨ptr, slotSize n.toNat⟩ : Region).bytes c.bytes)
        ∧ ZoneRuns raw (⟨ptr, slotSize n.toNat⟩ :: live) z₀ { z with buddy } := by
  cases hembed : embedZone raw z₀ with
  | none =>
    rw [(h.null hembed).1]
    exact .inl rfl
  | some b₀ =>
    obtain ⟨hmain, hmem, hmeta, u₀, hinit⟩ := hz.exists_inv hembed
    obtain ⟨b, hb, hreach⟩ := h.runs b₀ hembed
    obtain ⟨u, hinv⟩ := hreach.exists_inv hinit
    rw [hb]
    rcases hinv.tracks.malloc n.toNat with ⟨hnull, -⟩ | ⟨p, t, hlen, -, hfree, hsome, -, -⟩
    · left
      simp only [vendoredBuddy, hnull]
    · right
      have hne := hinv.tracks.block_ptr_ne hlen hfree
      have hreach' : BuddyReachable b₀ ⟨{ b with tree := t },
          ⟨(b.block p).ptr, slotSize n.toNat⟩ :: liveIn z₀ live⟩ := by
        have hstep := hreach.step (e := .malloc n.toNat) trivial
        rw [BuddyEvent.apply, hsome] at hstep
        dsimp only at hstep
        rwa [if_neg hne] at hstep
      obtain ⟨u', hinv'⟩ := hreach'.exists_inv hinit
      obtain ⟨hend, hnatural, k, -, hlong⟩ := hinv'.block_of_live List.mem_cons_self
      rw [hmain] at hend hnatural
      have hin : liveIn z₀ (⟨(b.block p).ptr, slotSize n.toNat⟩ :: live)
          = ⟨(b.block p).ptr, slotSize n.toNat⟩ :: liveIn z₀ live := by
        refine List.filter_cons_of_pos (decide_eq_true ?_)
        have hle : (z₀.arena embedMetaLen).len ≤ z₀.len.toNat := Nat.sub_le _ _
        dsimp only at hend hlong ⊢
        omega
      refine ⟨(b.block p).ptr, some { b with tree := t }, ?_, hne, hend.trans hmem, hnatural,
        (List.pairwise_cons.mp hinv'.disjoint).1, h.start, h.len, ?_, ?_⟩
      · dsimp only at hsome
        simp only [vendoredBuddy, hsome]
      · intro hnone
        cases hembed.symm.trans hnone
      · intro b₁ hb₁
        obtain rfl := Option.some.inj (hembed.symm.trans hb₁)
        rw [hin]
        exact ⟨_, rfl, hreach'⟩

/-- A zone refuses a request where no aligned place of its arena is free. -/
theorem ZoneRuns.null_iff (h : ZoneRuns raw live z₀ z) (hz : z₀.Ok) (n : BitVec 64) :
    (vendoredBuddy.malloc z.buddy n).1 = 0#64 ↔ ∀ b₀, embedZone raw z₀ = some b₀ →
      ∀ o, o % slotSize n.toNat = 0 → o + slotSize n.toNat ≤ b₀.memorySize →
        ∃ r ∈ liveIn z₀ live,
          ¬ Disjoint r.bytes (⟨at' z₀.start o, slotSize n.toNat⟩ : Region).bytes := by
  cases hembed : embedZone raw z₀ with
  | none =>
    refine iff_of_true ?_ fun b₀ hb₀ => by cases hb₀
    rw [(h.null hembed).1]
    rfl
  | some b₀ =>
    obtain ⟨hmain, -, -, u₀, hinit⟩ := hz.exists_inv hembed
    obtain ⟨b, hb, hreach⟩ := h.runs b₀ hembed
    obtain ⟨u, hinv⟩ := hreach.exists_inv hinit
    rw [hb, ← hmain]
    refine (hinv.null_iff n.toNat).trans ⟨fun hall b₁ hb₁ => ?_, fun hall => hall b₀ rfl⟩
    obtain rfl := Option.some.inj hb₁
    exact hall

/-- A pointer at which none of a zone's blocks starts. -/
theorem ZoneRuns.filter_of_ne (h : ZoneRuns raw live z₀ z) {page : BitVec 64}
    (hno : ∀ c ∈ liveIn z₀ live, c.ptr ≠ page) :
    ZoneRuns raw (live.filter (·.ptr ≠ page)) z₀ z := by
  have hsame : liveIn z₀ (live.filter (·.ptr ≠ page)) = liveIn z₀ live := by
    rw [liveIn, List.filter_comm]
    exact List.filter_eq_self.mpr fun c hc => decide_eq_true (hno c hc)
  exact ⟨h.start, h.len, fun hnull => by rw [hsame]; exact h.null hnull,
    fun b₀ hb₀ => by rw [hsame]; exact h.runs b₀ hb₀⟩

/-- **A pointer given back to one zone.** -/
theorem ZoneRuns.free (h : ZoneRuns raw live z₀ z) (page : BitVec 64) :
    ZoneRuns raw (live.filter (·.ptr ≠ page)) z₀
      { z with buddy := vendoredBuddy.free z.buddy page } := by
  have hcomm : liveIn z₀ (live.filter (·.ptr ≠ page)) = (liveIn z₀ live).filter (·.ptr ≠ page) :=
    List.filter_comm ..
  refine ⟨h.start, h.len, fun hnull => ?_, fun b₀ hb₀ => ?_⟩
  · obtain ⟨hbuddy, hlive⟩ := h.null hnull
    rw [hcomm, hlive, hbuddy]
    exact ⟨rfl, rfl⟩
  · obtain ⟨b, hb, hreach⟩ := h.runs b₀ hb₀
    rw [hcomm, hb]
    exact ⟨b.free page, rfl, hreach.step (e := .free page) trivial⟩

/-- A range below the zone is not reserved. -/
theorem ZoneRuns.toggle_of_lt (h : ZoneRuns raw live z₀ z) (hz : z₀.Ok) {base len : BitVec 64}
    (hbase : base < z₀.start) :
    vendoredBuddy.toggleRangeReservation z.buddy base len = z.buddy := by
  cases hembed : embedZone raw z₀ with
  | none =>
    rw [(h.null hembed).1]
    rfl
  | some b₀ =>
    obtain ⟨hmain, -, -, u₀, hinit⟩ := hz.exists_inv hembed
    obtain ⟨b, hb, hreach⟩ := h.runs b₀ hembed
    obtain ⟨u, hinv⟩ := hreach.exists_inv hinit
    have hstart : b.main = z₀.start := hinv.rest.main.trans hmain
    rw [hb]
    show some (b.toggleRangeReservation base len.toNat true) = some b
    have hrefused : base < b.main ∨ at' b.main b.memorySize < at' base len.toNat :=
      .inl (hstart ▸ hbase)
    simp only [BuddyAlloc.toggleRangeReservation, if_pos hrefused, ite_self]

end Zone

/-! ## All zones -/

section Zones

variable {raw : Zone → Bitset} {live : List Region} {zones₀ : List Zone}
  {zones : List (BuddyZone (Option BuddyAlloc))} {page : BitVec 64}

/-- **The search over the zones**: nothing is found and nothing changes, or one zone gives a block
and the others are as they were. -/
theorem findFirstFreeBlock_runs (sz : BitVec 32)
    (h : List.Forall₂ (ZoneRuns raw live) zones₀ zones) (hok : ∀ z ∈ zones₀, z.Ok)
    (hapart : zones₀.Pairwise fun a b => ∀ x, b.Covers x → ¬ a.Covers x) :
    findFirstFreeBlock vendoredBuddy sz zones = (0#64, zones)
      ∨ ∃ ptr zones', findFirstFreeBlock vendoredBuddy sz zones = (ptr, zones') ∧ ptr ≠ 0#64
        ∧ (∃ z ∈ zones₀, (ptr - z.start).toNat < z.len.toNat)
        ∧ List.Forall₂ (ZoneRuns raw (⟨ptr, slotSize (sz.signExtend 64).toNat⟩ :: live)) zones₀
          zones' := by
  induction h with
  | nil => exact .inl rfl
  | @cons z₀ z zones₀ zones hz hrest ih =>
    obtain ⟨hfirst, hapart⟩ := List.pairwise_cons.mp hapart
    have hok₀ := hok z₀ List.mem_cons_self
    have hok' : ∀ z ∈ zones₀, z.Ok := fun z hz => hok z (List.mem_cons_of_mem z₀ hz)
    -- where the zone is passed over
    have hskip : findFirstFreeBlock vendoredBuddy sz (z :: zones)
          = ((findFirstFreeBlock vendoredBuddy sz zones).1,
            z :: (findFirstFreeBlock vendoredBuddy sz zones).2) →
        findFirstFreeBlock vendoredBuddy sz (z :: zones) = (0#64, z :: zones)
          ∨ ∃ ptr zones', findFirstFreeBlock vendoredBuddy sz (z :: zones) = (ptr, zones')
            ∧ ptr ≠ 0#64 ∧ (∃ z ∈ z₀ :: zones₀, (ptr - z.start).toNat < z.len.toNat)
            ∧ List.Forall₂ (ZoneRuns raw (⟨ptr, slotSize (sz.signExtend 64).toNat⟩ :: live))
              (z₀ :: zones₀) zones' := by
      intro hpass
      rw [hpass]
      rcases ih hok' hapart with hnone | ⟨ptr, zones', hsome, hne, ⟨z', hz', hin⟩, hruns⟩
      · rw [hnone]
        exact .inl rfl
      · rw [hsome]
        refine .inr ⟨ptr, z :: zones', rfl, hne, ⟨z', List.mem_cons_of_mem _ hz', hin⟩, ?_⟩
        refine .cons (hz.cons_of_not_mem fun hmem => ?_) hruns
        exact hfirst z' hz' ptr ((hok' z' hz').covers hin) (hok₀.covers hmem)
    by_cases hshort : z.len < sz.signExtend 64
    · exact hskip (by rw [findFirstFreeBlock, if_pos hshort])
    rcases hz.malloc hok₀ (sz.signExtend 64) with
      hnull | ⟨ptr, buddy, hsome, hne, hholds, -, -, hruns⟩
    · refine hskip ?_
      rw [findFirstFreeBlock, if_neg hshort, hnull]
      exact if_pos rfl
    · have hin : (ptr - z₀.start).toNat < z₀.len.toNat := by
        have hpos : 0 < slotSize (sz.signExtend 64).toNat := Nat.two_pow_pos _
        have hle : (z₀.arena embedMetaLen).len ≤ z₀.len.toNat := Nat.sub_le _ _
        rw [Zone.Holds] at hholds
        dsimp only at hholds
        omega
      refine .inr ⟨ptr, { z with buddy } :: zones, ?_, hne, ⟨z₀, List.mem_cons_self, hin⟩, ?_⟩
      · rw [findFirstFreeBlock, if_neg hshort, hsome]
        exact if_neg hne
      · have hother : ∀ z' ∈ zones₀, ¬ (ptr - z'.start).toNat < z'.len.toNat := fun z' hz' hmem =>
          hfirst z' hz' ptr ((hok' z' hz').covers hmem) (hok₀.covers hin)
        exact .cons hruns (((List.forall₂_and_left _ _).mpr ⟨hother, hrest⟩).imp fun _ _ hboth =>
          hboth.2.cons_of_not_mem hboth.1)

/-- **A pointer given back** goes to the one zone that covers it. -/
theorem freeInZone_runs (h : List.Forall₂ (ZoneRuns raw live) zones₀ zones)
    (hok : ∀ z ∈ zones₀, z.Ok)
    (hapart : zones₀.Pairwise fun a b => ∀ x, b.Covers x → ¬ a.Covers x) :
    List.Forall₂ (ZoneRuns raw (live.filter (·.ptr ≠ page))) zones₀
      (freeInZone vendoredBuddy page zones) := by
  induction h with
  | nil => exact .nil
  | @cons z₀ z zones₀ zones hz hrest ih =>
    obtain ⟨hfirst, hapart⟩ := List.pairwise_cons.mp hapart
    have hok₀ := hok z₀ List.mem_cons_self
    have hok' : ∀ z ∈ zones₀, z.Ok := fun z hz => hok z (List.mem_cons_of_mem z₀ hz)
    -- no block of a zone starts at an address the zone does not cover
    have hmiss : ∀ z' : Zone, z'.Ok → ¬ z'.Covers page → ∀ c ∈ liveIn z' live, c.ptr ≠ page := by
      rintro z' hz' hnot c hc rfl
      exact hnot (hz'.covers (by simpa using (List.mem_filter.mp hc).2))
    have hsame : (z.start ≤ page ∧ page ≤ z.start + z.len) ↔ z₀.Covers page := by
      rw [Zone.Covers, hz.start, hz.len]
    rw [freeInZone]
    by_cases hcovers : z₀.Covers page
    · rw [if_pos (hsame.mpr hcovers)]
      have hother : ∀ z' ∈ zones₀, ∀ c ∈ liveIn z' live, c.ptr ≠ page := fun z' hz' =>
        hmiss z' (hok' z' hz') fun hcovers' => hfirst z' hz' page hcovers' hcovers
      have hall := (List.forall₂_and_left _ _).mpr ⟨hother, hrest⟩
      exact .cons (hz.free page) (hall.imp fun _ _ hboth => hboth.2.filter_of_ne hboth.1)
    · rw [if_neg (hsame.not.mpr hcovers)]
      exact .cons (hz.filter_of_ne (hmiss z₀ hok₀ hcovers)) (ih hok' hapart)

/-- What two relations of the zones give together. -/
theorem forall_of_runs {R S : Zone → BuddyZone (Option BuddyAlloc) → Prop} {P : Zone → Prop}
    (h : List.Forall₂ R zones₀ zones) (h' : List.Forall₂ S zones₀ zones)
    (himp : ∀ z₀ ∈ zones₀, ∀ z, R z₀ z → S z₀ z → P z₀) : ∀ z₀ ∈ zones₀, P z₀ := by
  induction h with
  | nil => simp
  | cons hz _ ih =>
    obtain ⟨hz', hrest'⟩ := List.forall₂_cons.mp h'
    obtain ⟨hfirst, hrest⟩ := List.forall_mem_cons.mp himp
    exact List.forall_mem_cons.mpr ⟨hfirst _ hz hz', ih hrest' hrest⟩

/-- What holds of all zones, read off them as they were made. -/
theorem forall_iff_of_runs {P : BuddyZone (Option BuddyAlloc) → Prop} {Q : Zone → Prop}
    (h : List.Forall₂ (ZoneRuns raw live) zones₀ zones)
    (hiff : ∀ z₀ ∈ zones₀, ∀ z, ZoneRuns raw live z₀ z → (P z ↔ Q z₀)) :
    (∀ z ∈ zones, P z) ↔ ∀ z₀ ∈ zones₀, Q z₀ := by
  induction h with
  | nil => simp
  | cons hz _ ih =>
    obtain ⟨hfirst, hrest⟩ := List.forall_mem_cons.mp hiff
    rw [List.forall_mem_cons, List.forall_mem_cons, hfirst _ hz, ih hrest]

/-- What the zones' buddies would answer to a request. -/
def pageAnswer (sz : BitVec 32) (zones : List (BuddyZone (Option BuddyAlloc))) (z₀ : Zone) :
    Option (BitVec 64) :=
  (zones.find? (·.start = z₀.start)).bind fun z =>
    let ptr := (vendoredBuddy.malloc z.buddy (sz.signExtend 64)).1
    if ptr = 0#64 then none else some ptr

/-- A zone is found again by where it starts. -/
theorem find_start_runs (h : List.Forall₂ (ZoneRuns raw live) zones₀ zones)
    (hapart : zones₀.Pairwise fun a b => a.start ≠ b.start) :
    List.Forall₂ (fun z₀ z => zones.find? (·.start = z₀.start) = some z) zones₀ zones := by
  induction h with
  | nil => exact .nil
  | @cons z₀ z zones₀ zones hz hrest ih =>
    obtain ⟨hfirst, hapart⟩ := List.pairwise_cons.mp hapart
    refine .cons (List.find?_cons_of_pos (decide_eq_true hz.start)) ?_
    refine ((List.forall₂_and_left _ _).mpr ⟨hfirst, ih hapart⟩).imp fun z₀' _ hboth => ?_
    rw [List.find?_cons_of_neg (by simpa [hz.start] using hboth.1)]
    exact hboth.2

/-- **The search of `Mm/PhysLock` is the one of `Mm/Phys`**, with these answers. -/
theorem archAllocPageSz_runs {sz : BitVec 32} {answer : Zone → Option (BitVec 64)}
    (h : List.Forall₂ (ZoneRuns raw live) zones₀ zones)
    (hanswer : List.Forall₂ (fun z₀ z => answer z₀
      = if (vendoredBuddy.malloc z.buddy (sz.signExtend 64)).1 = 0#64 then none
        else some (vendoredBuddy.malloc z.buddy (sz.signExtend 64)).1) zones₀ zones)
    (hne : (findFirstFreeBlock vendoredBuddy sz zones).1 ≠ 0#64) :
    archAllocPageSz ⟨sz, answer⟩ zones₀ = some (findFirstFreeBlock vendoredBuddy sz zones).1 := by
  induction h with
  | nil => exact absurd rfl hne
  | @cons z₀ z zones₀ zones hz hrest ih =>
    obtain ⟨hhead, htail⟩ := List.forall₂_cons.mp hanswer
    rw [findFirstFreeBlock] at hne ⊢
    rw [archAllocPageSz, List.findSome?_cons, ← hz.len]
    by_cases hshort : z.len < sz.signExtend 64
    · simp only [if_pos hshort] at hne ⊢
      exact ih htail hne
    · simp only [if_neg hshort, hhead] at hne ⊢
      by_cases hnull : (vendoredBuddy.malloc z.buddy (sz.signExtend 64)).1 = 0#64
      · simp only [if_pos hnull] at hne ⊢
        exact ih htail hne
      · simp only [if_neg hnull]

end Zones

/-! ## Every run -/

section Runs

variable {raw : Zone → Bitset} {hhdm : BitVec 64} {mmap : List MemmapEntry} {s s' : PagesState}

/-- Usable memory is in the upper half of the address space, where the direct map is. -/
def InDirectMap (hhdm : BitVec 64) (mmap : List MemmapEntry) : Prop :=
  ∀ e ∈ mmap, e.hasZone = true →
    2 ^ 63 ≤ (va hhdm e.base).toNat ∧ (va hhdm e.base).toNat + e.length.toNat ≤ 2 ^ 64

theorem InDirectMap.ok (hdirect : InDirectMap hhdm mmap) (hmap : UsableOk mmap)
    (hhdm0 : hhdm.toNat % 4096 = 0) {z : Zone} (hz : z ∈ initPhysAllocator hhdm mmap) : z.Ok := by
  obtain ⟨e, he, hzone, rfl⟩ := mem_initPhysAllocator.mp hz
  obtain ⟨hhigh, hend⟩ := hdirect e he hzone
  have hpaged := (hmap.paged e he (hasZone_usable hzone)).1
  have hlen := len_initZone hpaged hzone (va hhdm e.base)
  have hstart : (initZone (va hhdm e.base) (e.length - 1#64)).start.toNat
      = (va hhdm e.base).toNat + 4096 := by
    rw [start_initZone hhdm0 hpaged, toNat_at' (by omega)]
  refine ⟨fun hzero => ?_, by omega, by omega⟩
  rw [hzero, BitVec.toNat_ofNat] at hstart
  omega

theorem pairwise_zone_covers (hmap : UsableOk mmap) (hhdm0 : hhdm.toNat % 4096 = 0) :
    (initPhysAllocator hhdm mmap).Pairwise fun a b => ∀ x, b.Covers x → ¬ a.Covers x := by
  have hshape : (initPmm hhdm (fun _ => ()) mmap).zones.map (zoneShape fun _ => ⟨0#64, 0⟩)
      = (initPhysAllocator hhdm mmap).map fun z => (z.start, z.len, ⟨0#64, 0⟩) := by
    rw [initPmm, List.map_map]
    rfl
  have hpairs := @UsableOk.pairwise_covers _ _ _ (fun _ => ()) _ _ hmap hhdm0 hshape
  exact List.pairwise_map.mp hpairs

/-- **What every run keeps**: each zone is a run of its buddy, and all together are a run of
`Mm/PhysRun`. -/
structure PagesInv (raw : Zone → Bitset) (hhdm : BitVec 64) (mmap : List MemmapEntry)
    (s : PagesState) : Prop where
  zones : List.Forall₂ (ZoneRuns raw s.live) (initPhysAllocator hhdm mmap) s.pmm.zones
  reach : PhysReachable embedMetaLen hhdm mmap ⟨initPhysAllocator hhdm mmap, s.live, s.live⟩

theorem PagesInv.init : PagesInv raw hhdm mmap ⟨initPmm hhdm (embedZone raw) mmap, []⟩ where
  zones := by
    refine List.forall₂_map_right_iff.mpr (List.forall₂_same.mpr fun z _ => ⟨rfl, rfl, ?_, ?_⟩)
    · exact fun hnone => ⟨hnone, rfl⟩
    · exact fun b₀ hsome => ⟨b₀, hsome, .init⟩
  reach := .init

theorem toNat_signExtend_of_pos {sz : BitVec 32} (hsz : 4096 ≤ sz.toInt) :
    (sz.signExtend 64).toNat = sz.toNat := by
  have hmsb : sz.msb = false := by
    rw [BitVec.msb_eq_false_iff_two_mul_lt]
    rw [BitVec.toInt_eq_toNat_cond] at hsz
    split at hsz <;> omega
  rw [BitVec.signExtend_eq_setWidth_of_msb_false hmsb, BitVec.toNat_setWidth]
  have := sz.isLt
  omega

/-- **What `Mm/PhysRun` assumes of `buddy_malloc` is true** of the vendored one. -/
theorem PagesInv.buddyAnswers (h : PagesInv raw hhdm mmap s) (hmap : UsableOk mmap)
    (hhdm0 : hhdm.toNat % 4096 = 0) (hdirect : InDirectMap hhdm mmap) {sz : BitVec 32}
    (hsz : 4096 ≤ sz.toInt) {answer : Zone → Option (BitVec 64)}
    (hanswer : List.Forall₂ (fun z₀ z => answer z₀
      = if (vendoredBuddy.malloc z.buddy (sz.signExtend 64)).1 = 0#64 then none
        else some (vendoredBuddy.malloc z.buddy (sz.signExtend 64)).1)
      (initPhysAllocator hhdm mmap) s.pmm.zones) :
    BuddyAnswers embedMetaLen ⟨initPhysAllocator hhdm mmap, s.live, s.live⟩
      ⟨⟨sz, answer⟩, Nat.clog 2 (max sz.toNat 64)⟩ := by
  have hinv := physInv_of_physReachable hmap hhdm0 embedMetaLen_le h.reach
  have hwide := toNat_signExtend_of_pos hsz
  have hall : ∀ z₀ ∈ initPhysAllocator hhdm mmap, ∀ ptr, answer z₀ = some ptr →
      z₀.Holds embedMetaLen ⟨ptr, slotSize sz.toNat⟩
        ∧ (ptr - z₀.start).toNat % slotSize sz.toNat = 0
        ∧ ∀ c ∈ liveIn z₀ s.live, Disjoint (⟨ptr, slotSize sz.toNat⟩ : Region).bytes c.bytes := by
    refine forall_of_runs h.zones hanswer fun z₀ hz₀ z hruns hgives ptr hptr => ?_
    rcases hruns.malloc (hdirect.ok hmap hhdm0 hz₀) (sz.signExtend 64) with
      hnull | ⟨ptr', buddy, hsome, hne, hholds, hnatural, hdisjoint, -⟩
    · rw [hgives, hnull, if_pos rfl] at hptr
      cases hptr
    · rw [hgives, hsome, if_neg hne] at hptr
      obtain rfl := Option.some.inj hptr
      rw [hwide] at hholds hnatural hdisjoint
      exact ⟨hholds, hnatural, hdisjoint⟩
  refine ⟨BuddyAlloc.le_slotSize _, fun z hz ptr hptr => (hall z hz ptr hptr).1,
    fun z hz ptr hptr => (hall z hz ptr hptr).2.1, fun z hz ptr hptr c hc hheld => ?_⟩
  refine (hall z hz ptr hptr).2.2 c (List.mem_filter.mpr ⟨hc, decide_eq_true ?_⟩)
  have hlong := (hinv.page c hc).2
  have hle : (z.arena embedMetaLen).len ≤ z.len.toNat := Nat.sub_le _ _
  rw [Zone.Holds] at hheld
  omega

theorem PagesInv.alloc (h : PagesInv raw hhdm mmap s) (hmap : UsableOk mmap)
    (hhdm0 : hhdm.toNat % 4096 = 0) (hdirect : InDirectMap hhdm mmap) {sz : BitVec 32}
    (hsz : 4096 ≤ sz.toInt) (hrun : s.apply (.alloc sz) = some s') :
    PagesInv raw hhdm mmap s' := by
  have hok := fun z => hdirect.ok hmap hhdm0 (z := z)
  have hapart := pairwise_zone_covers hmap hhdm0
  obtain ⟨⟨page, pmm⟩, halloc, rfl⟩ := Option.map_eq_some_iff.mp hrun
  obtain ⟨lock, -, hpair⟩ := Option.map_eq_some_iff.mp halloc
  rcases findFirstFreeBlock_runs sz h.zones hok hapart with
    hnone | ⟨ptr, zones', hsome, hne, -, hruns⟩
  · rw [hnone] at hpair
    obtain ⟨rfl, rfl⟩ := Prod.mk.inj hpair
    exact ⟨h.zones, h.reach⟩
  · rw [hsome] at hpair
    dsimp only at hpair
    rw [if_neg hne] at hpair
    obtain ⟨rfl, rfl⟩ := Prod.mk.inj hpair
    dsimp only
    rw [if_neg hne]
    rw [toNat_signExtend_of_pos hsz] at hruns
    have hstarts : (initPhysAllocator hhdm mmap).Pairwise fun a b => a.start ≠ b.start := by
      refine hapart.imp_of_mem fun {a b} ha hb hcovers heq => ?_
      exact hcovers b.start (hok b hb).covers_start (heq ▸ (hok a ha).covers_start)
    have hanswer : List.Forall₂ (fun z₀ z => pageAnswer sz s.pmm.zones z₀
        = if (vendoredBuddy.malloc z.buddy (sz.signExtend 64)).1 = 0#64 then none
          else some (vendoredBuddy.malloc z.buddy (sz.signExtend 64)).1)
        (initPhysAllocator hhdm mmap) s.pmm.zones :=
      (find_start_runs h.zones hstarts).imp fun z₀ z hfound => by
        rw [pageAnswer, hfound]
        rfl
    have hcall := h.buddyAnswers hmap hhdm0 hdirect hsz hanswer
    have hphys := archAllocPageSz_runs h.zones hanswer (by rwa [hsome])
    rw [hsome] at hphys
    refine ⟨hruns, .step (e := .alloc _) h.reach ⟨hsz, hcall⟩ ?_⟩
    rw [PhysEvent.apply, hphys]
    rfl

/-- Every block that is held starts in a zone. -/
theorem PagesInv.covers (h : PagesInv raw hhdm mmap s) (hmap : UsableOk mmap)
    (hhdm0 : hhdm.toNat % 4096 = 0) (hdirect : InDirectMap hhdm mmap) {b : Region}
    (hb : b ∈ s.live) : b.ptr ≠ 0#64 ∧ ∃ z ∈ initPhysAllocator hhdm mmap, z.Covers b.ptr := by
  have hinv := physInv_of_physReachable hmap hhdm0 embedMetaLen_le h.reach
  obtain ⟨z, hz, hholds⟩ := hinv.held b hb
  have hok := hdirect.ok hmap hhdm0 hz
  have hlong := (hinv.page b hb).2
  have hle : (z.arena embedMetaLen).len ≤ z.len.toNat := Nat.sub_le _ _
  rw [Zone.Holds] at hholds
  have hcovers := hok.covers (show (b.ptr - z.start).toNat < z.len.toNat by omega)
  refine ⟨fun hzero => hok.start_ne ?_, z, hz, hcovers⟩
  have hlow := hcovers.1
  rw [hzero] at hlow
  exact BitVec.le_zero_iff.mp hlow

theorem PagesInv.free (h : PagesInv raw hhdm mmap s) (hmap : UsableOk mmap)
    (hhdm0 : hhdm.toNat % 4096 = 0) (hdirect : InDirectMap hhdm mmap) {page : BitVec 64}
    (hrun : s.apply (.free page) = some s') : PagesInv raw hhdm mmap s' := by
  have hok := fun z => hdirect.ok hmap hhdm0 (z := z)
  have hinv := physInv_of_physReachable hmap hhdm0 embedMetaLen_le h.reach
  obtain ⟨pmm, hfree, rfl⟩ := Option.map_eq_some_iff.mp hrun
  have hzones : List.Forall₂ (ZoneRuns raw (s.live.filter (·.ptr ≠ page)))
      (initPhysAllocator hhdm mmap) pmm.zones := by
    rw [Pmm.archFreePage] at hfree
    split at hfree
    · next hnull =>
      obtain rfl := Option.some.inj hfree
      rw [List.filter_eq_self.mpr fun b hb =>
        decide_eq_true (hnull ▸ (h.covers hmap hhdm0 hdirect hb).1)]
      exact h.zones
    · obtain ⟨lock, -, rfl⟩ := Option.map_eq_some_iff.mp hfree
      exact freeInZone_runs h.zones hok (pairwise_zone_covers hmap hhdm0)
  refine ⟨hzones, ?_⟩
  by_cases hlive : ∃ b ∈ s.live, b.ptr = page
  · refine .step (e := .free page) h.reach hlive ?_
    obtain ⟨b, hb, rfl⟩ := hlive
    obtain ⟨hne, z, hz, hcovers⟩ := h.covers hmap hhdm0 hdirect hb
    -- some zone is found by the address, and whichever it is, it holds the block
    obtain ⟨z', hfound⟩ : ∃ z', zoneOf b.ptr (initPhysAllocator hhdm mmap) = some z' := by
      rw [← Option.isSome_iff_exists, zoneOf, List.find?_isSome]
      exact ⟨z, hz, decide_eq_true hcovers⟩
    have hheld := hinv.zoneOf_eq hmap hhdm0 embedMetaLen_le hb hfound
    have hback : archFreePage embedMetaLen b.ptr ⟨initPhysAllocator hhdm mmap, s.live, s.live⟩
        = some (s.live.filter (·.ptr ≠ b.ptr)) := by
      rw [archFreePage, if_neg hne, hfound]
      exact if_pos ⟨b, hb, rfl, hheld⟩
    rw [PhysEvent.apply, hback]
    rfl
  · have hsame : s.live.filter (·.ptr ≠ page) = s.live :=
      List.filter_eq_self.mpr fun b hb => decide_eq_true fun heq => hlive ⟨b, hb, heq⟩
    dsimp only
    rw [hsame]
    exact h.reach

theorem PagesInv.reserve (h : PagesInv raw hhdm mmap s) (hmap : UsableOk mmap)
    (hhdm0 : hhdm.toNat % 4096 = 0) (hdirect : InDirectMap hhdm mmap) {base len : BitVec 64}
    (hbelow : ∀ z ∈ s.pmm.zones, base < z.start) (hrun : s.apply (.reserve base len) = some s') :
    PagesInv raw hhdm mmap s' := by
  obtain ⟨pmm, hreserve, rfl⟩ := Option.map_eq_some_iff.mp hrun
  obtain ⟨lock, -, rfl⟩ := Option.map_eq_some_iff.mp hreserve
  refine ⟨List.forall₂_map_right_iff.mpr ?_, h.reach⟩
  have hok : ∀ z ∈ initPhysAllocator hhdm mmap, z.Ok := fun z => hdirect.ok hmap hhdm0
  have hall := ((List.forall₂_and_left _ _).mpr ⟨hbelow, h.zones.flip⟩).flip
  refine ((List.forall₂_and_left _ _).mpr ⟨hok, hall⟩).imp ?_
  rintro z₀ z ⟨hz₀, hbase, hruns⟩
  split
  · exact hruns
  · rw [hruns.toggle_of_lt hz₀ (hruns.start ▸ hbase)]
    exact hruns

/-- The search finds nothing where no aligned place in any arena is free. -/
theorem PagesInv.null_iff (h : PagesInv raw hhdm mmap s) (hmap : UsableOk mmap)
    (hhdm0 : hhdm.toNat % 4096 = 0) (hdirect : InDirectMap hhdm mmap) {sz : BitVec 32}
    (hsz : 4096 ≤ sz.toInt) :
    (findFirstFreeBlock vendoredBuddy sz s.pmm.zones).1 = 0#64 ↔
      ∀ z ∈ initPhysAllocator hhdm mmap, ∀ b, embedZone raw z = some b →
        ∀ o, o % slotSize sz.toNat = 0 → o + slotSize sz.toNat ≤ b.memorySize →
          ∃ r ∈ s.live, ¬ Disjoint r.bytes (⟨at' z.start o, slotSize sz.toNat⟩ : Region).bytes := by
  have hphys := physInv_of_physReachable hmap hhdm0 embedMetaLen_le h.reach
  have hwide := toNat_signExtend_of_pos hsz
  rw [← not_iff_not, ← ne_eq, findFirstFreeBlock_ne_zero, ← not_iff_not]
  push Not
  refine forall_iff_of_runs h.zones fun z₀ hz₀ z hruns => ?_
  have hok := hdirect.ok hmap hhdm0 hz₀
  have hnull := hruns.null_iff hok (sz.signExtend 64)
  rw [hwide] at hnull
  constructor
  · intro hall b hb o haligned hend
    obtain ⟨-, hmem, -, -⟩ := hok.exists_inv hb
    have hle : (z₀.arena embedMetaLen).len ≤ z₀.len.toNat := Nat.sub_le _ _
    have hlong : ¬ z.len < sz.signExtend 64 := by
      have hsize := BuddyAlloc.le_slotSize sz.toNat
      rw [hruns.len, BitVec.lt_def, hwide]
      omega
    obtain ⟨r, hr, hmeet⟩ := hnull.mp (hall hlong) b hb o haligned hend
    exact ⟨r, List.mem_of_mem_filter hr, hmeet⟩
  · intro hall _
    refine hnull.mpr fun b hb o haligned hend => ?_
    obtain ⟨-, hmem, -, -⟩ := hok.exists_inv hb
    obtain ⟨r, hr, hmeet⟩ := hall b hb o haligned hend
    refine ⟨r, List.mem_filter.mpr ⟨hr, decide_eq_true ?_⟩, hmeet⟩
    -- a block that meets a place of this arena is one of this zone
    obtain ⟨z', hz', hheld⟩ := hphys.held r hr
    have hplace : z₀.Holds embedMetaLen ⟨at' z₀.start o, slotSize sz.toNat⟩ := by
      have hbound := hok.bound
      have hle : (z₀.arena embedMetaLen).len ≤ z₀.len.toNat := Nat.sub_le _ _
      rw [Zone.Holds, toNat_at'_sub _ (by omega)]
      exact hend.trans hmem
    have hsame : z' = z₀ := by
      by_contra hne
      exact hmeet (hmap.disjoint_of_ne hhdm0 embedMetaLen_le hz' hz₀ hne hheld hplace)
    have hlong := (hphys.page r hr).2
    have hle : (z₀.arena embedMetaLen).len ≤ z₀.len.toNat := Nat.sub_le _ _
    rw [hsame, Zone.Holds] at hheld
    omega

theorem PagesReachable.inv (h : PagesReachable raw hhdm mmap s) (hmap : UsableOk mmap)
    (hhdm0 : hhdm.toNat % 4096 = 0) (hdirect : InDirectMap hhdm mmap) :
    PagesInv raw hhdm mmap s := by
  induction h with
  | init => exact .init
  | @step s s' call _ hallowed hrun ih =>
    cases call with
    | alloc sz => exact ih.alloc hmap hhdm0 hdirect hallowed hrun
    | free page => exact ih.free hmap hhdm0 hdirect hrun
    | reserve base len => exact ih.reserve hmap hhdm0 hdirect hallowed hrun

/-- **A request, from any state of any run.**  While the lock is held it does not return.  While it
is free the request returns, and returns nothing exactly when every aligned place of the size it is
rounded up to, in any arena, meets a block that is held; then the lock stays held. -/
theorem archAllocPageSz_eq_null_iff (hmap : UsableOk mmap) (hhdm0 : hhdm.toNat % 4096 = 0)
    (hdirect : InDirectMap hhdm mmap) (h : PagesReachable raw hhdm mmap s) {sz : BitVec 32}
    (hsz : 4096 ≤ sz.toInt) :
    (s.pmm.lock = true → s.pmm.archAllocPageSz vendoredBuddy sz = none)
      ∧ (s.pmm.lock = false → ∃ page pmm,
        s.pmm.archAllocPageSz vendoredBuddy sz = some (page, pmm) ∧ (pmm.lock = true ↔ page = 0#64)
        ∧ (page = 0#64 ↔ ∀ z ∈ initPhysAllocator hhdm mmap, ∀ b, embedZone raw z = some b →
          ∀ o, o % slotSize sz.toNat = 0 → o + slotSize sz.toNat ≤ b.memorySize →
            ∃ r ∈ s.live,
              ¬ Disjoint r.bytes (⟨at' z.start o, slotSize sz.toNat⟩ : Region).bytes)) := by
  refine ⟨fun hlock => ?_, fun hlock => ?_⟩
  · rw [Pmm.archAllocPageSz, acquireLock, if_pos hlock, Option.map_none]
  · rw [← (h.inv hmap hhdm0 hdirect).null_iff hmap hhdm0 hdirect hsz, Pmm.archAllocPageSz,
      acquireLock, if_neg (by simp [hlock]), Option.map_some]
    dsimp only
    by_cases hnull : (findFirstFreeBlock vendoredBuddy sz s.pmm.zones).1 = 0#64
    · rw [if_pos hnull]
      exact ⟨_, _, rfl, by simp, iff_of_true rfl hnull⟩
    · rw [if_neg hnull]
      exact ⟨_, _, rfl, by simp [releaseLock, hnull], Iff.rfl⟩

/-- Requests for a page or more, one after the other. -/
theorem PagesReachable.requests {calls : List PmmCall} (h : PagesReachable raw hhdm mmap s)
    (hcalls : ∀ call ∈ calls, ∃ sz, call = .alloc sz ∧ 4096 ≤ sz.toInt)
    (hrun : calls.foldlM PagesState.apply s = some s') : PagesReachable raw hhdm mmap s' := by
  induction calls generalizing s with
  | nil =>
    obtain rfl := Option.some.inj hrun
    exact h
  | cons call calls ih =>
    rw [List.foldlM_cons] at hrun
    obtain ⟨s₁, h₁, hrest⟩ := Option.bind_eq_some_iff.mp hrun
    obtain ⟨⟨sz, rfl, hsz⟩, hmore⟩ := List.forall_mem_cons.mp hcalls
    have hallowed : s.Allowed (.alloc sz) := hsz
    exact ih (h.step hallowed h₁) hmore hrest

/-- Two entries of three pages: one for the zone, and one for the buddy and what is rounded off. -/
def smallZones : List MemmapEntry :=
  [⟨0x100000#64, 0x3000#64, .usable⟩, ⟨0x103000#64, 0x1000#64, .reserved⟩,
    ⟨0x104000#64, 0x3000#64, .usable⟩]

theorem usableOk_smallZones : UsableOk smallZones where
  paged e he hu := by
    rcases List.mem_cons.mp he with rfl | he
    · exact ⟨⟨by decide, by decide, by decide⟩, by decide⟩
    rcases List.mem_pair.mp he with rfl | rfl
    · cases hu
    · exact ⟨⟨by decide, by decide, by decide⟩, by decide⟩
  disjoint := List.pairwise_pair.mpr (.inl (by decide))
  few := by decide

theorem inDirectMap_smallZones : InDirectMap 0xffff800000000000#64 smallZones := by
  rw [InDirectMap]
  decide +kernel

/-- Of a zone's last two pages, 7936 bytes are for blocks. -/
theorem memorySize_smallZones : ∀ z ∈ initPhysAllocator 0xffff800000000000#64 smallZones,
    ∀ b, embedZone (fun _ _ => 0) z = some b → b.memorySize = 7936 := by
  have hsizes : ∀ z ∈ initPhysAllocator 0xffff800000000000#64 smallZones,
      (embedZone (fun _ _ => 0) z).map (·.memorySize) = some 7936 := by decide +kernel
  intro z hz b hb
  have hsize := hsizes z hz
  rw [hb] at hsize
  exact Option.some.inj hsize

/-- Both zones' pages. -/
def bothPages : List Region := [⟨0xffff800000105000#64, 4096⟩, ⟨0xffff800000101000#64, 4096⟩]

/-- Two requests take the one page of either zone. -/
theorem exists_pages_run : ∃ s, PagesReachable (fun _ _ => 0) 0xffff800000000000#64 smallZones s
    ∧ s.pmm.lock = false ∧ s.live = bothPages := by
  have hlive : ([PmmCall.alloc 4096#32, .alloc 4096#32].foldlM PagesState.apply
      ⟨initPmm 0xffff800000000000#64 (embedZone fun _ _ => 0) smallZones, []⟩).map
        (fun s => (s.pmm.lock, s.live)) = some (false, bothPages) := by
    decide +kernel
  obtain ⟨s, hrun, hs⟩ := Option.map_eq_some_iff.mp hlive
  obtain ⟨hlock, hblocks⟩ := Prod.mk.inj hs
  refine ⟨s, PagesReachable.init.requests (fun call hcall => ?_) hrun, hlock, hblocks⟩
  exact ⟨4096#32, by simpa using hcall, by decide⟩

/-- Then a request is met no more, and the lock stays held. -/
theorem archAllocPageSz_bothPages : ∃ s pmm,
    PagesReachable (fun _ _ => 0) 0xffff800000000000#64 smallZones s ∧ s.live = bothPages
      ∧ s.pmm.archAllocPageSz vendoredBuddy 4096#32 = some (0#64, pmm) ∧ pmm.lock = true := by
  obtain ⟨s, hreach, hlock, hlive⟩ := exists_pages_run
  obtain ⟨-, hreturns⟩ := archAllocPageSz_eq_null_iff usableOk_smallZones (by decide)
    inDirectMap_smallZones hreach (show (4096 : ℤ) ≤ (4096#32).toInt by decide)
  obtain ⟨page, pmm, hrun, hheld, hnull⟩ := hreturns hlock
  have hslot : slotSize (4096#32).toNat = 4096 := by decide +kernel
  have hpage : page = 0#64 := hnull.mpr fun z hz b hb o haligned hend => by
    rw [hslot] at haligned hend ⊢
    -- the only place is the first page of the arena
    obtain rfl : o = 0 := by
      have hsize := memorySize_smallZones z hz b hb
      omega
    rw [hlive, at'_zero]
    refine ⟨⟨z.start, 4096⟩, ?_, fun hdisjoint => ?_⟩
    · rcases List.mem_pair.mp hz with rfl | rfl <;> decide
    · have hfirst : z.start ∈ (⟨z.start, 4096⟩ : Region).bytes := Region.ptr_mem (Nat.succ_pos _)
      exact Set.disjoint_left.mp hdisjoint hfirst hfirst
  exact ⟨s, pmm, hreach, hlive, hpage ▸ hrun, hheld.mpr hpage⟩

/-- **Every run of the page allocator over the vendored buddy is a run as `Mm/PhysRun` has them**:
no assumption about the buddy is left. -/
theorem physReachable_of_pagesReachable (hmap : UsableOk mmap) (hhdm0 : hhdm.toNat % 4096 = 0)
    (hdirect : InDirectMap hhdm mmap) (h : PagesReachable raw hhdm mmap s) :
    PhysReachable embedMetaLen hhdm mmap ⟨initPhysAllocator hhdm mmap, s.live, s.live⟩ :=
  (h.inv hmap hhdm0 hdirect).reach

theorem physReachable_bothPages : PhysReachable embedMetaLen 0xffff800000000000#64 smallZones
    ⟨initPhysAllocator 0xffff800000000000#64 smallZones, bothPages, bothPages⟩ := by
  obtain ⟨s, hreach, -, hlive⟩ := exists_pages_run
  rw [← hlive]
  exact physReachable_of_pagesReachable usableOk_smallZones (by decide) inDirectMap_smallZones
    hreach

/-- **The blocks held are safe**, whatever pointers have been freed: whole pages, each in one usable
entry, off each other, off every header and off the metadata of every buddy. -/
theorem blockSafe_of_pagesReachable (hmap : UsableOk mmap) (hhdm0 : hhdm.toNat % 4096 = 0)
    (hdirect : InDirectMap hhdm mmap) (h : PagesReachable raw hhdm mmap s) :
    (∀ b ∈ s.live, BlockSafe hhdm embedMetaLen mmap b)
      ∧ s.live.Pairwise fun b c => Disjoint b.bytes c.bytes := by
  have hinv := physInv_of_physReachable hmap hhdm0 embedMetaLen_le (h.inv hmap hhdm0 hdirect).reach
  exact ⟨fun b hb => hinv.blockSafe hmap hhdm0 embedMetaLen_le hb, hinv.disjoint⟩

theorem blockSafe_bothPages :
    (∀ b ∈ bothPages, BlockSafe 0xffff800000000000#64 embedMetaLen smallZones b)
      ∧ bothPages.Pairwise fun b c => Disjoint b.bytes c.bytes := by
  obtain ⟨s, hreach, -, hlive⟩ := exists_pages_run
  rw [← hlive]
  exact blockSafe_of_pagesReachable usableOk_smallZones (by decide) inDirectMap_smallZones hreach

end Runs

end MoonOS

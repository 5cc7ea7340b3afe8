import MoonOS.Mm.BuddyTree

/-!
# Mm/BuddyReads — the allocation tree read as a tree of slots

`BuddyTree.Reads` takes the numbers in the nodes of `Mm/BuddyTree` for the statuses of a tree of
`Lib/SlotTree`.  Each operation of the source is then one of that tree:

* `BuddyTree.Reads.buddyTreeMark`, `BuddyTree.Reads.buddyTreeRelease` — marking uses a part,
  releasing frees it, and the nodes over it are right again, although the repair stops early;
* `BuddyTree.Reads.buddyTreeFindFree` — the search finds a free part of the wanted size if there is
  one;
* `reads_buddyTreeInit` — a new tree is free, and its table and its bits do not meet;
* `BuddyTree.Reads.eq_of_sameRest` — there is nothing else in the nodes.
-/

namespace MoonOS

open SlotTree

/-! ## The tree that is represented -/

/-- **A tree as `buddy_tree_init` sets it up**, whatever its bits: the table of `size_for_order` is
right, and lies behind the bits. -/
structure BuddyTree.Sound (t : BuddyTree) : Prop where
  order_pos : 0 < t.order
  order_le : t.order ≤ 60
  bound : t.upperPosBound = 2 ^ t.order
  offset : sizeForOrder t.order 0 ≤ 64 * t.sizeForOrderOffset
  table : ∀ i ≤ t.order, buddyTreeSizeForOrder t i = sizeForOrder t.order i

/-- A bit that belongs to no node. -/
def Spare (order i : ℕ) : Prop :=
  ∀ p : List Bool, p.length < order →
    ¬ (location order p ≤ i ∧ i < location order p + (order - p.length))

/-- **Two trees that differ in their nodes only.** -/
structure BuddyTree.SameRest (t t' : BuddyTree) : Prop where
  upperPosBound : t.upperPosBound = t'.upperPosBound
  sizeForOrderOffset : t.sizeForOrderOffset = t'.sizeForOrderOffset
  order : t.order = t'.order
  spare : ∀ i, Spare t'.order i → bitsetTest t.bytes i = bitsetTest t'.bytes i

/-- **The bits of a tree are the statuses of a slot tree.** -/
structure BuddyTree.Reads (t : BuddyTree) (s : Slots) : Prop where
  sound : t.Sound
  fits : s.Fits t.order
  shows : Tallies t.order t.bytes (s.look t.order)

section Sound

variable {t : BuddyTree} {p : List Bool} {v : ℕ}

/-- Where a node's bits are, found through the table. -/
theorem BuddyTree.Sound.internal (h : t.Sound) (hp : p.length < t.order) :
    buddyTreeInternalPosition t (posOf p) = bitsOf t.order p := by
  have hle := h.order_le
  have hdepth : t.order - (posOf p).depth + 1 = t.order - p.length := by
    show t.order - (p.length + 1) + 1 = t.order - p.length
    omega
  rw [buddyTreeInternalPosition, hdepth, Nat.mod_eq_of_lt (by omega), h.table _ (by omega),
    sizeForOrder_eq hp.le, buddyTreeIndex_posOf (by omega), bitsOf, location]

theorem BuddyTree.Sound.valid (h : t.Sound) (hp : p.length < t.order) :
    buddyTreeValid t (posOf p) = true := by
  have hrow := rowIndex_lt p
  have hpow : 2 ^ (p.length + 1) ≤ 2 ^ t.order := Nat.pow_le_pow_right (by decide) hp
  rw [pow_succ] at hpow
  rw [buddyTreeValid, h.bound, posOf, Bool.and_eq_true, bne_iff_ne, decide_eq_true_eq]
  dsimp only
  omega

theorem buddyTreeValid_invalidPos (t : BuddyTree) : buddyTreeValid t invalidPos = false := rfl

theorem BuddyTree.SameRest.refl (t : BuddyTree) : t.SameRest t := ⟨rfl, rfl, rfl, fun _ _ => rfl⟩

theorem BuddyTree.SameRest.trans {t₁ t₂ t₃ : BuddyTree} (h : t₁.SameRest t₂) (h' : t₂.SameRest t₃) :
    t₁.SameRest t₃ :=
  ⟨h.upperPosBound.trans h'.upperPosBound, h.sizeForOrderOffset.trans h'.sizeForOrderOffset,
    h.order.trans h'.order, fun i hi => (h.spare i (h'.order ▸ hi)).trans (h'.spare i hi)⟩

theorem BuddyTree.SameRest.symm {t t' : BuddyTree} (h : t.SameRest t') : t'.SameRest t :=
  ⟨h.upperPosBound.symm, h.sizeForOrderOffset.symm, h.order.symm,
    fun i hi => (h.spare i (h.order ▸ hi)).symm⟩

/-- **The statuses are all there is to a tree.** -/
theorem BuddyTree.Reads.eq_of_sameRest {t t' : BuddyTree} {s : Slots} (h : t.Reads s)
    (h' : t'.Reads s) (hrest : t.SameRest t') : t = t' := by
  have hbytes : t.bytes = t'.bytes := by
    refine bitset_ext fun i => ?_
    by_cases hspare : Spare t'.order i
    · exact hrest.spare i hspare
    · obtain ⟨p, hp, hlo, hhi⟩ : ∃ p : List Bool, p.length < t'.order
          ∧ location t'.order p ≤ i ∧ i < location t'.order p + (t'.order - p.length) := by
        simpa only [Spare, not_forall, not_not, exists_prop] using hspare
      have hbit := (h.shows p (hrest.order ▸ hp)).2 (i - location t'.order p)
      have hbit' := (h'.shows p hp).2 (i - location t'.order p) (by omega)
      rw [hrest.order, Nat.add_sub_cancel' hlo] at hbit
      rw [Nat.add_sub_cancel' hlo] at hbit'
      rw [hbit (by omega), hbit']
  exact BuddyTree.ext hrest.upperPosBound hrest.sizeForOrderOffset hrest.order hbytes

/-- A tree with a node rewritten. -/
def BuddyTree.write (t : BuddyTree) (p : List Bool) (v : ℕ) : BuddyTree :=
  { t with bytes := writeToInternalPosition t.bytes (bitsOf t.order p) v }

/-- A write to a node leaves the table. -/
theorem BuddyTree.Sound.write (h : t.Sound) (hp : p.length < t.order)
    (hv : v ≤ t.order - p.length) : (t.write p v).Sound where
  order_pos := h.order_pos
  order_le := h.order_le
  bound := h.bound
  offset := h.offset
  table i hi := by
    have hoff := h.offset
    have hbyte : ∀ j, (t.write p v).bytes (8 * (t.sizeForOrderOffset + i) + j)
        = t.bytes (8 * (t.sizeForOrderOffset + i) + j) := fun j =>
      write_apply_of_le hp hv (by omega)
    rw [show (t.write p v).order = t.order from rfl, ← h.table i hi, buddyTreeSizeForOrder,
      buddyTreeSizeForOrder, loadWord, loadWord]
    exact Finset.sum_congr rfl fun j _ => by rw [← hbyte j]; rfl

theorem BuddyTree.sameRest_write (hp : p.length < t.order) (hv : v ≤ t.order - p.length) :
    (t.write p v).SameRest t :=
  ⟨rfl, rfl, rfl, fun i hi => (bitsetTest_write hp hv i).trans (if_neg (hi p hp))⟩

end Sound

section Repair

variable {t : BuddyTree} {s : Slots} {p : List Bool} {new : Slots}

/-- The statuses in the middle of a repair: over `c` the old ones, elsewhere the new. -/
def repairing (h : ℕ) (s s' : Slots) (c q : List Bool) : ℕ :=
  if q <+: c ∧ q ≠ c then s.look h q else s'.look h q

theorem repairing_nil {h : ℕ} {s s' : Slots} : repairing h s s' [] = s'.look h := by
  funext q
  rw [repairing, if_neg]
  rintro ⟨hle, hne⟩
  exact hne (List.prefix_nil.mp hle)

/-- One node is repaired. -/
theorem update_repairing {h : ℕ} {s s' : Slots} {c : List Bool} {b : Bool} :
    Function.update (repairing h s s' (c ++ [b])) c (s'.look h c) = repairing h s s' c := by
  funext q
  by_cases hq : q = c
  · subst hq
    rw [Function.update_self, repairing, if_neg (by simp)]
  · rw [Function.update_of_ne hq, repairing, repairing]
    refine if_congr ⟨fun ⟨hle, hne⟩ => ⟨?_, hq⟩, fun ⟨hle, _⟩ => ⟨?_, ?_⟩⟩ rfl rfl
    · rcases List.prefix_concat_iff.mp hle with heq | hle
      · exact absurd heq hne
      · exact hle
    · exact hle.trans (List.prefix_append c [b])
    · rintro rfl
      exact absurd hle.length_le (by simp)

/-- The sibling's bits are next to a node's. -/
theorem bitsOf_sibling (order : ℕ) {c : List Bool} {b : Bool} :
    ({ bitsOf order (c ++ [b]) with
      bitsetLocation := (bitsOf order (c ++ [b])).bitsetLocation
        + (bitsOf order (c ++ [b])).localOffset
        - 2 * (bitsOf order (c ++ [b])).localOffset * ((posOf (c ++ [b])).index % 2) }
      : InternalPosition) = bitsOf order (c ++ [!b]) := by
  have hodd : (posOf (c ++ [b])).index % 2 = b.toNat := by
    have hb := b.toNat_le
    rw [index_concat]
    omega
  rw [hodd, bitsOf, bitsOf, location, location, rowIndex_concat, rowIndex_concat]
  simp only [List.length_append, List.length_singleton, InternalPosition.mk.injEq, true_and]
  generalize order - (c.length + 1) = w
  generalize rowLocation order (c.length + 1) = base
  cases b <;> simp only [Bool.not_false, Bool.not_true, Bool.toNat_false, Bool.toNat_true] <;>
    simp only [Nat.mul_add, Nat.mul_one, Nat.mul_zero, Nat.add_zero, Nat.sub_zero] <;> omega

/-- The product by which `update_parent_chain` joins two statuses. -/
theorem targetParent_eq (a b : ℕ) :
    (if a ≠ 0 ∨ b ≠ 0 then 1 else 0) * ((if a ≤ b then a else b) + 1) = Slots.combine a b := by
  rw [Slots.combine, ← min_def]
  by_cases h : a = 0 ∧ b = 0
  · rw [if_pos h, if_neg (by omega), Nat.zero_mul]
  · rw [if_neg h, if_pos (by omega), Nat.one_mul]

section Chain

variable (hs : s.Fits t.order) (hs' : (s.set p new).Fits t.order) (hp : p.length < t.order)
  {c : List Bool} {b : Bool}

include hs' hp in
/-- What a parent gets is its status in the new tree. -/
theorem targetParent_eq_look (hc : c ++ [b] <+: p) :
    Slots.combine ((s.set p new).look t.order (c ++ [b])) ((s.set p new).look t.order (c ++ [!b]))
      = (s.set p new).look t.order c := by
  have hlen := hc.length_le
  rw [List.length_append, List.length_singleton] at hlen
  have hsplit : (s.set p new).sub c ≠ .used := by
    obtain ⟨e, rfl⟩ := hc
    rw [List.append_assoc, Slots.sub_set_append]
    exact Slots.set_cons_ne_used
  exact (Slots.look_eq_combine hs' (by omega) hsplit b).symm

include hs hs' hp in
/-- **Where a parent has its number already, the repair is done.** -/
theorem repairing_eq_look (hnew : new ≠ .free ∨ s.sub p ≠ .free) (hc : c ++ [b] <+: p)
    (hsame : (s.set p new).look t.order c = s.look t.order c) :
    repairing t.order s (s.set p new) (c ++ [b]) = (s.set p new).look t.order := by
  have hlen := hc.length_le
  rw [List.length_append, List.length_singleton] at hlen
  have hcp : c <+: p := (List.prefix_append c [b]).trans hc
  have htaken : s.sub c ≠ .free := by
    rcases hnew with hnew | hnew
    · intro hfree
      have hzero : s.look t.order c = 0 := by rw [Slots.look, hfree, Slots.status_free]
      rw [hzero, Slots.look, Slots.status_eq_zero (Slots.fits_sub (by omega) hs')] at hsame
      obtain ⟨e, rfl⟩ := hcp
      have hsub : (s.set (c ++ e) new).sub (c ++ e) = new := Slots.sub_set s (c ++ e)
      rw [Slots.sub_append, hsame, Slots.sub_free] at hsub
      exact hnew hsub.symm
    · by_cases hcp' : c = p
      · rwa [hcp']
      · exact (Slots.split_of_sub_ne_free hnew hcp hcp').1
  funext q
  rw [repairing]
  split
  · next hq =>
    obtain ⟨e, rfl⟩ : q <+: c := by
      rcases List.prefix_concat_iff.mp hq.1 with heq | hle
      · exact absurd heq hq.2
      · exact hle
    exact (Slots.look_set_of_prefix hs hs' hcp hp.le htaken hsame).symm
  · rfl

include hs hs' hp in
/-- **The repair makes every node right**, from any node on the way up, although it stops at the
first parent that has its number already. -/
theorem updateParentChainLoop_reads (hnew : new ≠ .free ∨ s.sub p ≠ .free) :
    ∀ (n : ℕ) (t' : BuddyTree) (c : List Bool), t'.SameRest t → t'.Sound → c.length < n →
      c <+: p → Tallies t.order t'.bytes (repairing t.order s (s.set p new) c) →
      ∃ t'', updateParentChainLoop n t' (posOf c) (bitsOf t.order c)
          ((s.set p new).look t.order c) = t'' ∧ t''.Reads (s.set p new) ∧ t''.SameRest t := by
  intro n
  induction n with
  | zero => exact fun _ _ _ _ hc => absurd hc (Nat.not_lt_zero _)
  | succ n ih =>
    intro t' c hrest hsound hn hc hshows
    have horder := hrest.order
    rw [updateParentChainLoop]
    induction c using List.reverseRecOn with
    | nil =>
      rw [repairing_nil] at hshows
      exact ⟨t', if_pos rfl, ⟨hsound, horder ▸ hs', horder ▸ hshows⟩, hrest⟩
    | append_singleton c b _ =>
      have hlen := hc.length_le
      rw [List.length_append, List.length_singleton] at hlen hn
      have hindex : (posOf (c ++ [b])).index ≠ 1 := by
        have hpos := Nat.two_pow_pos c.length
        rw [index_concat, posOf]
        dsimp only
        omega
      have hcfits : (c ++ [!b]).length < t.order := by simp; omega
      -- the sibling has its new number, the parent still its old one
      have hsibling : repairing t.order s (s.set p new) (c ++ [b]) (c ++ [!b])
          = (s.set p new).look t.order (c ++ [!b]) :=
        if_neg fun hboth => hboth.2 (hboth.1.eq_of_length (by simp))
      have hparent : repairing t.order s (s.set p new) (c ++ [b]) c = s.look t.order c :=
        if_pos ⟨List.prefix_append c [b], by simp⟩
      rw [if_neg hindex]
      dsimp only
      rw [bitsOf_sibling, parent_posOf, hsound.internal (by omega), horder, hshows.read hcfits,
        hshows.read (by omega), hsibling, hparent, targetParent_eq,
        targetParent_eq_look hs' hp hc]
      by_cases hsame : (s.set p new).look t.order c = s.look t.order c
      · rw [repairing_eq_look hs hs' hp hnew hc hsame] at hshows
        exact ⟨t', if_pos hsame, ⟨hsound, horder ▸ hs', horder ▸ hshows⟩, hrest⟩
      · have hbound : (s.set p new).look t.order c ≤ t.order - c.length :=
          Slots.status_le (Slots.fits_sub (by omega) hs')
        have hwrite := hshows.write (p := c) (by omega) hbound
        rw [update_repairing] at hwrite
        have hstep := ih (t'.write c ((s.set p new).look t.order c)) c
          ((BuddyTree.sameRest_write (by omega) (by omega)).trans hrest)
          (hsound.write (by omega) (by omega)) (by omega)
          ((List.prefix_append c [b]).trans hc)
        rw [BuddyTree.write, horder] at hstep
        rw [if_neg hsame]
        exact hstep hwrite

end Chain

end Repair

/-! ## The operations are those of the slot tree -/

section Operations

variable {t : BuddyTree} {s : Slots} {p : List Bool}

/-- `buddy_tree_status` reads the status. -/
theorem BuddyTree.Reads.buddyTreeStatus (h : t.Reads s) (hp : p.length < t.order) :
    buddyTreeStatus t (posOf p) = s.look t.order p := by
  rw [MoonOS.buddyTreeStatus, h.sound.internal hp, h.shows.read hp]

/-- A node is rewritten, and the nodes over it are repaired. -/
theorem BuddyTree.Reads.replace (h : t.Reads s) (hp : p.length < t.order) {new : Slots} {v : ℕ}
    (hnew : new ≠ .free ∨ s.sub p ≠ .free) (hfits : new.Fits (t.order - p.length))
    (hv : new.status (t.order - p.length) = v)
    (hbelow : ∀ q, q ≠ [] → s.sub (p ++ q) = new.sub q) :
    ∃ t', updateParentChain (t.write p v) (posOf p) (bitsOf t.order p) v = t'
      ∧ t'.Reads (s.set p new) ∧ t'.SameRest t := by
  have hs' := Slots.fits_set h.fits hp.le hfits
  have hbound : v ≤ t.order - p.length := hv ▸ Slots.status_le hfits
  have hlook : (s.set p new).look t.order p = v := by
    rw [Slots.look, Slots.sub_set, hv]
  have hshows := h.shows.write hp hbound
  have hmiddle : Function.update (s.look t.order) p v = repairing t.order s (s.set p new) p := by
    funext q
    by_cases hq : q = p
    · subst hq
      rw [Function.update_self, repairing, if_neg (by simp), hlook]
    · rw [Function.update_of_ne hq, repairing]
      split
      · rfl
      · next hover =>
        by_cases hle : p <+: q
        · obtain ⟨e, rfl⟩ := hle
          have he : e ≠ [] := fun he => hq (by simp [he])
          rw [Slots.look, Slots.look, hbelow e he, Slots.sub_append, Slots.sub_set]
        · exact (Slots.look_set_of_not_prefix (fun hqp => hover ⟨hqp, hq⟩) hle).symm
  rw [hmiddle] at hshows
  have hloop := updateParentChainLoop_reads h.fits hs' hp hnew (p.length + 1)
    (t.write p v) p (BuddyTree.sameRest_write hp hbound) (h.sound.write hp hbound) (by omega)
    List.prefix_rfl hshows
  rw [hlook] at hloop
  exact hloop

/-- **`buddy_tree_mark` uses a part** under which nothing is taken up. -/
theorem BuddyTree.Reads.buddyTreeMark (h : t.Reads s) (hp : p.length < t.order)
    (hbelow : ∀ b, (s.sub p).half b = .free) :
    ∃ t', buddyTreeMark t (posOf p) = t' ∧ t'.Reads (s.set p .used) ∧ t'.SameRest t := by
  have hused : Slots.used.Fits (t.order - p.length) := Nat.sub_pos_of_lt hp
  rw [MoonOS.buddyTreeMark, h.sound.internal hp]
  refine h.replace hp (.inl (by simp)) hused Slots.status_used fun q hq => ?_
  cases q with
  | nil => exact absurd rfl hq
  | cons b q => rw [Slots.sub_append, Slots.sub_cons, hbelow, Slots.sub_cons, Slots.half_used]

/-- **`buddy_tree_release` frees a used part…** -/
theorem BuddyTree.Reads.buddyTreeRelease (h : t.Reads s) (hp : p.length < t.order)
    (hused : s.sub p = .used) :
    ∃ t', buddyTreeRelease t (posOf p) = t' ∧ t'.Reads (s.set p .free) ∧ t'.SameRest t := by
  have hfull : s.look t.order p = t.order - p.length := by
    rw [Slots.look, hused, Slots.status_used]
  have hread : ¬ (t.order - p.length ≠ (bitsOf t.order p).localOffset) := not_not.mpr rfl
  rw [MoonOS.buddyTreeRelease, h.sound.internal hp, h.shows.read hp, hfull, if_neg hread]
  refine h.replace hp (.inr (by simp [hused])) trivial Slots.status_free fun q hq => ?_
  rw [Slots.sub_of_used hused hq, Slots.sub_free]

/-- …and leaves a tree whose node is not full. -/
theorem BuddyTree.Reads.buddyTreeRelease_of_ne (h : t.Reads s) (hp : p.length < t.order)
    (hne : s.look t.order p ≠ t.order - p.length) : MoonOS.buddyTreeRelease t (posOf p) = t := by
  rw [MoonOS.buddyTreeRelease, h.sound.internal hp, h.shows.read hp]
  exact if_pos hne

end Operations

/-! ## The search -/

/-- The way `buddy_tree_find_free` goes down: to the half that is taken up more, if it has room. -/
def bestFit : ℕ → ℕ → Slots → List Bool
  | _, 0, _ => []
  | h, n + 1, s =>
    let left := (s.half false).status (h - 1)
    let right := (s.half true).status (h - 1)
    let b := if n + 1 ≤ left then true else if n + 1 ≤ right then false
      else if right ≠ 0 then !decide (right ≤ left) else false
    b :: bestFit (h - 1) n (s.half b)

section Search

variable {t : BuddyTree} {s : Slots} {p : List Bool}

theorem length_bestFit : ∀ (h n : ℕ) (s : Slots), (bestFit h n s).length = n
  | _, 0, _ => rfl
  | h, n + 1, _ => congrArg Nat.succ (length_bestFit (h - 1) n _)

/-- **It ends at a free part**, if the status promises one. -/
theorem freeAt_bestFit : ∀ {h n : ℕ} {s : Slots}, s.Fits h → n < h → s.status h ≤ n →
    s.FreeAt (bestFit h n s)
  | h, 0, s, hfits, _, hle => (Slots.status_eq_zero hfits).mp (by omega)
  | h + 1, n + 1, s, hfits, hn, hle => by
    have hused : s ≠ .used := by
      rintro rfl
      rw [Slots.status_used] at hle
      omega
    rw [Slots.status_eq_combine hfits hused, Slots.combine] at hle
    have hchosen : ∀ b, (if n + 1 ≤ (s.half false).status h then true
        else if n + 1 ≤ (s.half true).status h then false
        else if (s.half true).status h ≠ 0
          then !decide ((s.half true).status h ≤ (s.half false).status h) else false) = b →
        (s.half b).status h ≤ n := by
      intro b hb
      split at hb
      · subst hb
        split at hle <;> omega
      · split at hb
        · subst hb
          omega
        · cases b <;> omega
    rw [bestFit, Nat.add_sub_cancel]
    exact ⟨hused, freeAt_bestFit (Slots.fits_half hfits) (by omega) (hchosen _ rfl)⟩

/-- The search goes down to it. -/
theorem BuddyTree.Reads.findFreeLoop (h : t.Reads s) : ∀ {n : ℕ} {p : List Bool},
    p.length + n < t.order →
    findFreeLoop t n (posOf p) = posOf (p ++ bestFit (t.order - p.length) n (s.sub p))
  | 0, p, _ => by rw [MoonOS.findFreeLoop, bestFit, List.append_nil]
  | n + 1, p, hn => by
    have hchild : ∀ b, (p ++ [b]).length < t.order := fun b => by simp; omega
    have hlook : ∀ b, s.look t.order (p ++ [b])
        = ((s.sub p).half b).status (t.order - p.length - 1) := fun b => by
        rw [Slots.look, Slots.sub_append, List.length_append, List.length_singleton, Nat.sub_sub]
        rfl
    have hrest : ∀ b, MoonOS.findFreeLoop t n (posOf (p ++ [b])) = posOf (p ++ b
        :: bestFit (t.order - p.length - 1) n ((s.sub p).half b)) := fun b => by
      rw [h.findFreeLoop (by simp; omega), Slots.sub_append, List.length_append,
        List.length_singleton, ← Nat.sub_sub, List.append_assoc]
      rfl
    have hright : ({ bitsOf t.order (p ++ [false]) with
        bitsetLocation := (bitsOf t.order (p ++ [false])).bitsetLocation
          + (bitsOf t.order (p ++ [false])).localOffset } : InternalPosition)
          = bitsOf t.order (p ++ [true]) := by
      have hsibling := bitsOf_sibling t.order (c := p) (b := false)
      rw [index_concat] at hsibling
      simpa using hsibling
    have hlen : (p ++ [false]).length = p.length + 1 := by simp
    have hlen' : (p ++ [true]).length = p.length + 1 := by simp
    have hbound := (h.shows (p ++ [true]) (hchild true)).1
    rw [MoonOS.findFreeLoop, leftChild_posOf, sibling_posOf, h.sound.internal (hchild false)]
    dsimp only
    rw [Bool.not_false, hright, h.shows.compare (hchild false) (by omega) (by omega),
      h.shows.compare (hchild true) (by omega) (by omega), h.shows.read (hchild true), hlook, hlook,
      hrest, hrest, bestFit]
    rw [hlook] at hbound
    by_cases hleft : n + 1 ≤ ((s.sub p).half false).status (t.order - p.length - 1)
    · simp only [if_pos hleft, decide_eq_true hleft, if_true]
    · by_cases hright : n + 1 ≤ ((s.sub p).half true).status (t.order - p.length - 1)
      · simp [hleft, hright]
      · by_cases hzero : ((s.sub p).half true).status (t.order - p.length - 1) = 0
        · simp [hleft, hzero]
        · rw [h.shows.compare (hchild false) (by omega) (by omega), hlook]
          by_cases hmore : ((s.sub p).half true).status (t.order - p.length - 1)
              ≤ ((s.sub p).half false).status (t.order - p.length - 1)
          · simp [hleft, hright, hzero, hmore]
          · simp [hleft, hright, hzero, hmore]

/-- **`buddy_tree_find_free` finds a free part of the wanted size, if there is one.** -/
theorem BuddyTree.Reads.buddyTreeFindFree (h : t.Reads s) {d : ℕ} (hpos : 0 < d)
    (hd : d ≤ t.order) :
    buddyTreeFindFree t d = if s.status t.order ≤ d - 1
      then posOf (bestFit t.order (d - 1) s) else invalidPos := by
  have hroot : MoonOS.buddyTreeStatus t buddyTreeRoot = s.status t.order :=
    h.buddyTreeStatus (p := []) h.sound.order_pos
  rw [MoonOS.buddyTreeFindFree, hroot]
  by_cases hle : s.status t.order ≤ d - 1
  · rw [if_neg (by omega), if_pos hle]
    exact h.findFreeLoop (p := []) (by simp; omega)
  · rw [if_pos (by omega), if_neg hle]

end Search

/-! ## A new tree -/

section Init

variable {order : ℕ} {raw bytes : Bitset}

theorem rowLocation_add {order k : ℕ} (hk : k ≤ order) :
    rowLocation order k + (order + 2) = (order - k + 2) * 2 ^ k := by
  induction k with
  | zero => simp [rowLocation]
  | succ k ih =>
    have hstep : order - k = order - (k + 1) + 1 := by omega
    have ih := ih (by omega)
    rw [hstep] at ih
    rw [rowLocation, hstep, pow_succ, Nat.add_right_comm, ih]
    ring

/-- The entries of the table are words. -/
theorem sizeForOrder_lt {i : ℕ} (horder : order ≤ 60) (hi : i ≤ order) :
    sizeForOrder order i < 2 ^ 64 := by
  have hsize := sizeForOrder_eq (Nat.sub_le order i)
  rw [Nat.sub_sub_self hi] at hsize
  have hrow := rowLocation_add (Nat.sub_le order i)
  rw [Nat.sub_sub_self hi] at hrow
  have hbits : i + 2 ≤ 2 ^ (i + 1) := by
    have := Nat.lt_two_pow_self (n := i + 1)
    omega
  have hle : (i + 2) * 2 ^ (order - i) ≤ 2 ^ 61 := by
    calc (i + 2) * 2 ^ (order - i) ≤ 2 ^ (i + 1) * 2 ^ (order - i) := Nat.mul_le_mul_right _ hbits
      _ = 2 ^ (order + 1) := by rw [← pow_add]; congr 1; omega
      _ ≤ 2 ^ 61 := Nat.pow_le_pow_right (by decide) (by omega)
  omega

theorem sum_digits (v n : ℕ) :
    ∑ j ∈ Finset.range n, v / 256 ^ j % 256 * 256 ^ j = v % 256 ^ n := by
  induction n with
  | zero => simp [Nat.mod_one]
  | succ n ih => rw [Finset.sum_range_succ, ih, pow_succ, Nat.mod_mul, Nat.mul_comm (256 ^ n)]

/-- A word that was written is read back… -/
theorem loadWord_storeWord (bytes : Bitset) (w : ℕ) {v : ℕ} (hv : v < 2 ^ 64) :
    loadWord (storeWord bytes w v) w = v := by
  have hbyte : ∀ j ∈ Finset.range 8, (storeWord bytes w v (8 * w + j)).toNat * 256 ^ j
      = v / 256 ^ j % 256 * 256 ^ j := by
    intro j hj
    have hj : j < 8 := Finset.mem_range.mp hj
    rw [storeWord, if_pos (by omega), BitVec.toNat_ofNat, show (8 * w + j) % 8 = j by omega]
  rw [loadWord, Finset.sum_congr rfl hbyte, sum_digits, Nat.mod_eq_of_lt (by omega)]

/-- …and no other word is changed. -/
theorem loadWord_storeWord_of_ne (bytes : Bitset) {w w' : ℕ} (v : ℕ) (hne : w' ≠ w) :
    loadWord (storeWord bytes w v) w' = loadWord bytes w' := by
  refine Finset.sum_congr rfl fun j hj => ?_
  have hj : j < 8 := Finset.mem_range.mp hj
  rw [storeWord, if_neg (by omega)]

/-- The table, entry by entry. -/
theorem loadWord_table (f : ℕ → ℕ) (offset : ℕ) : ∀ (n : ℕ) (bytes : Bitset),
    (∀ i < n, f i < 2 ^ 64) → ∀ i < n,
      loadWord ((List.range n).foldl (fun bytes i => storeWord bytes (offset + i) (f i)) bytes)
        (offset + i) = f i
  | 0, _, _, i, hi => absurd hi (Nat.not_lt_zero i)
  | n + 1, bytes, hf, i, hi => by
    rw [List.range_succ, List.foldl_append]
    by_cases hlast : i = n
    · subst hlast
      exact loadWord_storeWord _ _ (hf i hi)
    · rw [List.foldl_cons, List.foldl_nil, loadWord_storeWord_of_ne _ _ (by omega)]
      exact loadWord_table f offset n bytes (fun j hj => hf j (by omega)) i (by omega)

/-- The table lies in its words. -/
theorem table_apply_of_lt (f : ℕ → ℕ) (offset : ℕ) {k : ℕ} (hk : k < 8 * offset) :
    ∀ (n : ℕ) (bytes : Bitset),
      (List.range n).foldl (fun bytes i => storeWord bytes (offset + i) (f i)) bytes k = bytes k
  | 0, _ => rfl
  | n + 1, bytes => by
    rw [List.range_succ, List.foldl_append, List.foldl_cons, List.foldl_nil, storeWord,
      if_neg (by omega)]
    exact table_apply_of_lt f offset hk n bytes

/-- **The bits and the table behind them fit in what `buddy_tree_sizeof` puts aside**, and do not
meet, although the padding is not to a multiple of a word. -/
theorem buddyTreeSizeof_spec (order : ℕ) :
    sizeForOrder order 0 ≤ 8 * paddedBitsetSize order
      ∧ paddedBitsetSize order ≤ 8 * (paddedBitsetSize order / 8 + 1)
      ∧ 8 * (paddedBitsetSize order / 8 + 1) + 8 * (order + 1) ≤ buddyTreeSizeof order - 24 := by
  have hbits : sizeForOrder order 0 ≤ 8 * paddedBitsetSize order := by
    rw [paddedBitsetSize]
    split <;> rw [bitsetSizeof] <;> omega
  rw [buddyTreeSizeof]
  omega

/-- **A new tree is free.** -/
theorem reads_buddyTreeInit (raw : Bitset) (hpos : 0 < order) (horder : order ≤ 60) :
    (buddyTreeInit raw order).Reads .free := by
  obtain ⟨hbits, hpad, hsize⟩ := buddyTreeSizeof_spec order
  refine ⟨⟨hpos, horder, twoToThePowerOf_eq order, ?_, fun i hi => ?_⟩, trivial, fun p hp => ?_⟩
  · show sizeForOrder order 0 ≤ 64 * (paddedBitsetSize order / 8 + 1)
    omega
  · exact loadWord_table (sizeForOrder order) _ (order + 1) _
      (fun i hi => sizeForOrder_lt horder (by omega)) i (Nat.lt_succ_of_le hi)
  · rw [Slots.look, Slots.sub_free, Slots.status_free]
    refine ⟨Nat.zero_le _, fun j hj => ?_⟩
    have hp : p.length < order := hp
    have htotal := location_add_le_total hp
    have hj : j < order - p.length := hj
    have hzero : (buddyTreeInit raw order).bytes ((location order p + j) / 8) = 0#8 := by
      rw [buddyTreeInit, buddyTreePopulateSizeForOrder]
      dsimp only
      rw [table_apply_of_lt _ _ (by omega), if_pos (by omega)]
    rw [bitsetTest_eq]
    show ((buddyTreeInit raw order).bytes ((location order p + j) / 8)).getLsbD _ = _
    rw [hzero]
    simp

end Init

end MoonOS

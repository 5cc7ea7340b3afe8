import MoonOS.Mm.BuddyAlloc

/-!
# Mm/BuddyEmbed — an allocator in the memory it manages

`buddy_embed` puts its metadata at the end of the memory it is given, trims the rest to whole slots
and marks the slots the tree has too many.  What comes out tracks an arena of which nothing is taken
(`buddyEmbed_tracks`), in front of its metadata, and it comes out whenever there is a kilobyte
(`exists_buddyEmbed`).
-/

namespace MoonOS

open ByteMemory SlotTree

/-! ## The slots behind the arena -/

namespace BuddyAlloc

section Virtual

variable {b : BuddyAlloc} {p : List Bool}

/-- What marking the last `k` slots of a part comes to: they are used, by blocks that cover nothing
in front of them, and nothing else has become used. -/
structure MarkedFrom (n first past : ℕ) (s s' : Slots) : Prop where
  keep : ∀ q, s.sub q = .used → s'.sub q = .used
  new : ∀ q, s'.sub q = .used → s.sub q = .used ∨ first ≤ start n q
  cover : ∀ x, first ≤ x → x < past →
    ∃ q, s'.sub q = .used ∧ first ≤ start n q ∧ start n q ≤ x ∧ x < start n q + width n q

/-- Using a free part marks it. -/
theorem markedFrom_set {n h : ℕ} {s : Slots} (hfits : s.Fits h) (hp : p.length ≤ h)
    (hfree : s.FreeAt p) :
    MarkedFrom n (start n p) (start n p + width n p) s (s.set p .used) where
  keep q hq := (Slots.sub_set_used hfits hp hfree).mpr (.inr hq)
  new q hq := by
    rcases (Slots.sub_set_used hfits hp hfree).mp hq with rfl | hq
    · exact .inr le_rfl
    · exact .inl hq
  cover x hlo hhi := ⟨p, Slots.sub_set s p, le_rfl, hlo, hhi⟩

/-- Two stretches marked one after the other. -/
theorem MarkedFrom.trans {n first mid past : ℕ} {s s' s'' : Slots} (h : MarkedFrom n mid past s s')
    (h' : MarkedFrom n first mid s' s'') (hle : first ≤ mid) : MarkedFrom n first past s s'' where
  keep q hq := h'.keep q (h.keep q hq)
  new q hq := by
    rcases h'.new q hq with hq | hq
    · exact (h.new q hq).imp_right hle.trans
    · exact .inr hq
  cover x hlo hhi := by
    by_cases hx : x < mid
    · exact h'.cover x hlo hx
    · obtain ⟨q, hq, hmid, hin⟩ := h.cover x (by omega) hhi
      exact ⟨q, h'.keep q hq, hle.trans hmid, hin⟩

/-- **The loop marks the last slots of a free part.** -/
theorem toggleVirtualSlotsLoop_marks (h : b.Sized) :
    ∀ (n : ℕ) (t : BuddyTree) (s : Slots) (p : List Bool) (k : ℕ), t.Reads s →
      t.order = b.levels + 1 → p.length ≤ b.levels → b.levels < p.length + n → s.FreeAt p →
      0 < k → k ≤ width b.levels p →
      ∃ t' s', b.toggleVirtualSlotsLoop buddyTreeMark n t (posOf p) (64 * k) = t' ∧ t'.Reads s'
        ∧ t'.SameRest t ∧ MarkedFrom b.levels (start b.levels p + width b.levels p - k)
          (start b.levels p + width b.levels p) s s' := by
  intro n
  induction n with
  | zero => exact fun t s p k _ _ hp hn => absurd hn (by omega)
  | succ n ih =>
    intro t s p k hreads horder hp hn hfree hk hle
    rw [toggleVirtualSlotsLoop, if_neg (by omega), h.sizeForDepth_eq hp]
    dsimp only
    by_cases hall : k = width b.levels p
    · -- the whole part
      obtain ⟨t', hmark, hreads', hrest⟩ := hreads.buddyTreeMark (p := p) (by omega) fun a => by
        rw [Slots.sub_of_freeAt hfree, Slots.half_free]
      refine ⟨t', _, by rw [if_pos (by rw [hall]), hmark], hreads', hrest, ?_⟩
      rw [hall, Nat.add_sub_cancel]
      exact markedFrom_set hreads.fits (by omega) hfree
    have hshort : p.length < b.levels := by
      by_contra hlong
      have hone : width b.levels p = 1 := by
        rw [width, show b.levels - p.length = 0 by omega, pow_zero]
      omega
    have hwidth : ∀ a, width b.levels p = 2 * width b.levels (p ++ [a]) := width_concat hshort
    have hchild : ∀ a, (p ++ [a]).length = p.length + 1 := fun a => by simp
    rw [if_neg (by omega), leftChild_posOf, rightChild_posOf]
    have hright := start_concat hshort true
    have hleft := start_concat hshort false
    simp only [if_true, Bool.false_eq_true, if_false, Nat.add_zero] at hright hleft
    have hw := hwidth true
    have hw' := hwidth false
    by_cases hhalf : 64 * k ≤ 64 * width b.levels p / 2
    · -- the marked slots are in the right half
      have := hchild true
      obtain ⟨t', s', hloop, hreads', hrest, hmarked⟩ := ih t s (p ++ [true]) k hreads horder
        (by omega) (by omega) (hfree.append _) hk (by omega)
      refine ⟨t', s', by rw [if_pos hhalf, hloop], hreads', hrest, ?_⟩
      rwa [show start b.levels (p ++ [true]) + width b.levels (p ++ [true])
        = start b.levels p + width b.levels p by omega] at hmarked
    · -- all of the right half, and the end of the left one
      have := hchild true
      have := hchild false
      have hfreeR := hfree.append [true]
      obtain ⟨t₁, hmark, hreads₁, hrest₁⟩ := hreads.buddyTreeMark (p := p ++ [true]) (by omega)
        fun a => by rw [Slots.sub_of_freeAt hfreeR, Slots.half_free]
      have hmarked₁ := markedFrom_set (n := b.levels) hreads.fits
        (show (p ++ [true]).length ≤ t.order by omega) hfreeR
      have hfreeL : (s.set (p ++ [true]) .used).FreeAt (p ++ [false]) := by
        refine (Slots.freeAt_iff hreads₁.fits (by rw [hrest₁.order]; omega)).mpr fun q hq => ?_
        rcases (Slots.sub_set_used hreads.fits (by omega) hfreeR).mp hq with rfl | hq
        · simp
        · exact (Slots.freeAt_iff hreads.fits (by omega)).mp (hfree.append [false]) q hq
      obtain ⟨t', s', hloop, hreads', hrest, hmarked⟩ := ih t₁ _ (p ++ [false])
        (k - width b.levels (p ++ [true])) hreads₁ (hrest₁.order.trans horder) (by omega) (by omega)
        hfreeL (by omega) (by omega)
      refine ⟨t', s', ?_, hreads', hrest.trans hrest₁, ?_⟩
      · rw [if_neg hhalf, hmark, show 64 * k - 64 * width b.levels p / 2
          = 64 * (k - width b.levels (p ++ [true])) by omega, hloop]
      · rw [show start b.levels (p ++ [false]) + width b.levels (p ++ [false])
            = start b.levels (p ++ [true]) by omega,
          show start b.levels (p ++ [true]) - (k - width b.levels (p ++ [true]))
            = start b.levels p + width b.levels p - k by omega] at hmarked
        rw [show start b.levels (p ++ [true]) + width b.levels (p ++ [true])
            = start b.levels p + width b.levels p by omega] at hmarked₁
        exact hmarked₁.trans hmarked (by omega)

/-- **Masking what is behind the arena leaves all of the arena free.** -/
theorem tracks_toggleVirtualSlots (h : b.Sized) (hreads : b.tree.Reads .free) :
    ∃ t s, b.toggleVirtualSlots true = { b with tree := t }
      ∧ ({ b with tree := t } : BuddyAlloc).Tracks s
      ∧ ∀ q, s.sub q = .used → b.slots ≤ start b.levels q := by
  have horder := h.order_eq
  have hmem := h.memorySize_eq
  have hslots := h.slots_le
  have hpos := h.slots_pos
  rw [toggleVirtualSlots]
  by_cases hexact : b.effectiveMemorySize = b.memorySize
  · rw [h.effectiveMemorySize_eq] at hexact
    refine ⟨b.tree, .free, if_pos (h.effectiveMemorySize_eq.trans hexact), ⟨h, hreads, ?_⟩, ?_⟩
    · intro x hlo hhi
      change b.slots ≤ x at hlo
      change x < 2 ^ b.levels at hhi
      omega
    · intro q hq
      rw [Slots.sub_free] at hq
      cases hq
  rw [if_neg hexact, h.effectiveMemorySize_eq]
  rw [h.effectiveMemorySize_eq] at hexact
  have hlevels : 0 < b.levels := by
    by_contra hzero
    rw [Nat.eq_zero_of_not_pos hzero] at hslots hexact
    omega
  -- more than half of the slots are the arena's
  have hmore : 2 ^ (b.levels - 1) < b.slots :=
    (Nat.lt_clog_iff_pow_lt (by decide)).mp (by rw [← h.levels_eq]; omega)
  have hpow : 2 ^ b.levels = 2 * 2 ^ (b.levels - 1) := by
    rw [← pow_succ']
    congr 1
    omega
  have hroot : buddyTreeRightChild buddyTreeRoot = posOf [true] := rightChild_posOf []
  have hwidth : width b.levels [true] = 2 ^ (b.levels - 1) := rfl
  have hstart : start b.levels [true] = 2 ^ (b.levels - 1) := by simp [start]
  obtain ⟨t, s, hloop, hreads', hrest, hmarked⟩ := toggleVirtualSlotsLoop_marks h b.tree.order
    b.tree .free [true] (2 ^ b.levels - b.slots) hreads horder hlevels
    (by simp; omega) (Slots.freeAt_free _) (by omega) (by omega)
  rw [hwidth, hstart, show 2 ^ (b.levels - 1) + 2 ^ (b.levels - 1) = 2 ^ b.levels by omega,
    show 2 ^ b.levels - (2 ^ b.levels - b.slots) = b.slots by omega] at hmarked
  have hkeep : ({ b with tree := t } : BuddyAlloc).levels = b.levels := by
    rw [levels, levels, ← hrest.order]
  refine ⟨t, s, ?_, ⟨⟨h.alignment, h.nonempty, h.trimmed, h.main_ne, h.small, h.bounded,
    hrest.order.trans h.order⟩, hreads', fun x hlo hhi => ?_⟩, fun q hq => ?_⟩
  · rw [if_pos rfl, hroot, show 64 * 2 ^ b.levels - b.memorySize
      = 64 * (2 ^ b.levels - b.slots) by omega]
    dsimp only
    rw [hloop]
  · rw [hkeep] at hhi
    obtain ⟨q, hq, hin⟩ := hmarked.cover x hlo hhi
    exact ⟨q, hq, by rw [hkeep]; exact hin⟩
  · rcases hmarked.new q hq with hfree | hq
    · rw [Slots.sub_free] at hfree
      cases hfree
    · exact hq

end Virtual

end BuddyAlloc

/-! ## Metadata at the end -/

section Embed

variable {raw : Bitset} {main : BitVec 64} {size : ℕ} {b : BuddyAlloc}

/-- The bytes `buddy_embed` keeps for itself. -/
def embedMetaLen (size : ℕ) : ℕ := (buddyEmbedOffset size 64).buddySize

theorem isValidAlignment_slot : isValidAlignment 64 = true := by decide

/-- The order of the tree for an arena. -/
theorem buddyTreeOrderForMemory_eq {m : ℕ} (hm : 64 ≤ m) (hsmall : m ≤ 2 ^ 63) :
    buddyTreeOrderForMemory m 64 = Nat.clog 2 (m / 64) + 1 ∧ Nat.clog 2 (m / 64) ≤ 57 := by
  have hclog : Nat.clog 2 (m / 64) ≤ 57 := Nat.clog_le_of_le_pow (by omega)
  have hpow : 2 ^ Nat.clog 2 (m / 64) < 2 ^ 64 := Nat.pow_lt_pow_right (by decide) (by omega)
  rw [buddyTreeOrderForMemory, ceilingPowerOfTwo_eq (by omega) (by omega),
    highestBitPosition_eq hpow, Nat.size_pow]
  exact ⟨rfl, hclog⟩

theorem buddySizeofAlignment_of_lt {m : ℕ} (hm : m < 64) : buddySizeofAlignment m 64 = 0 := by
  rw [buddySizeofAlignment, isValidAlignment_slot]
  simp [hm]

theorem buddySizeofAlignment_eq {m : ℕ} (hm : 64 ≤ m) (hsmall : m ≤ 2 ^ 63) :
    buddySizeofAlignment m 64 = 32 + buddyTreeSizeof (Nat.clog 2 (m / 64) + 1) := by
  obtain ⟨horder, hclog⟩ := buddyTreeOrderForMemory_eq hm hsmall
  rw [buddySizeofAlignment, isValidAlignment_slot, horder, Nat.mod_eq_of_lt (by omega)]
  simp [hm]

/-- The check passes where something is left, and what is left is aligned. -/
theorem buddyEmbedOffset_of_canFit (h : (buddyEmbedOffset size 64).canFit = true) :
    (buddyEmbedOffset size 64).offset + embedMetaLen size = size
      ∧ 0 < (buddyEmbedOffset size 64).offset ∧ (buddyEmbedOffset size 64).offset % 8 = 0
      ∧ buddySizeofAlignment size 64 ≤ embedMetaLen size := by
  rw [embedMetaLen]
  rw [buddyEmbedOffset] at h ⊢
  dsimp only at h ⊢
  split at h
  · cases h
  · next hfits =>
    rw [if_neg hfits]
    split at h
    · next hodd =>
      split at h
      · cases h
      · next hfits' =>
        rw [if_pos hodd, if_neg hfits']
        dsimp only
        omega
    · next heven =>
      rw [if_neg heven]
      dsimp only
      omega

theorem embedMetaLen_le (size : ℕ) : embedMetaLen size ≤ size := by
  by_cases hfit : (buddyEmbedOffset size 64).canFit = true
  · have hsum := (buddyEmbedOffset_of_canFit hfit).1
    omega
  · rw [embedMetaLen]
    rw [buddyEmbedOffset] at hfit ⊢
    dsimp only at hfit ⊢
    split at hfit
    · rw [if_pos ‹_›]
      exact Nat.zero_le _
    · split at hfit
      · split at hfit
        · rw [if_neg ‹_›, if_pos ‹_›, if_pos ‹_›]
          exact Nat.zero_le _
        · exact absurd rfl hfit
      · exact absurd rfl hfit

/-- **What `buddy_embed` returns**: an allocator at the end of the memory, for an arena in front of
it of which nothing is taken. -/
theorem buddyEmbed_tracks (hbound : main.toNat + size ≤ 2 ^ 64) (hsmall : size ≤ 2 ^ 63)
    (h : buddyEmbed raw main size = some b) :
    b.main = main ∧ b.self = at' main (size - embedMetaLen size)
      ∧ b.memorySize + embedMetaLen size ≤ size
      ∧ ∃ s, b.Tracks s ∧ ∀ q, s.sub q = .used → b.slots ≤ start b.levels q := by
  rw [buddyEmbed, buddyEmbedAlignment] at h
  split at h
  · cases h
  next hmain =>
  rw [isValidAlignment_slot, Bool.not_true, if_neg (by decide)] at h
  dsimp only at h
  split at h
  · cases h
  next hfit =>
  have hfit : (buddyEmbedOffset size 64).canFit = true := by simpa using hfit
  obtain ⟨hsum, hpos, -, hmeta⟩ := buddyEmbedOffset_of_canFit hfit
  generalize (buddyEmbedOffset size 64).offset = offset at h hsum hpos
  obtain ⟨b₀, hinit, rfl⟩ := Option.map_eq_some_iff.mp h
  -- the checks of `buddy_init_alignment`, one after the other
  rw [buddyInitAlignment, isValidAlignment_slot] at hinit
  simp only [Bool.not_true, Bool.false_eq_true, if_false, Option.ite_none_left_eq_some] at hinit
  obtain ⟨-, -, -, -, -, hsizeof, hb₀⟩ := hinit
  obtain ⟨m, hm⟩ : ∃ m, offset - offset % 64 = m := ⟨_, rfl⟩
  rw [hm] at hsizeof hb₀
  have hslot : 64 ≤ m := by
    by_contra hlt
    exact hsizeof (buddySizeofAlignment_of_lt (by omega))
  obtain ⟨horder, hclog⟩ := buddyTreeOrderForMemory_eq hslot (by omega)
  rw [horder, Nat.mod_eq_of_lt (show Nat.clog 2 (m / 64) + 1 < 256 by omega)] at hb₀
  have hmetapos : 0 < embedMetaLen size := by
    rw [buddySizeofAlignment_eq (by omega) hsmall] at hmeta
    omega
  have hsized : BuddyAlloc.Sized ⟨at' main offset, m, 64, main, 0,
      buddyTreeInit raw (Nat.clog 2 (m / 64) + 1)⟩ :=
    ⟨rfl, show 0 < m by omega, show m % 64 = 0 by omega, hmain, show m ≤ 2 ^ 63 by omega,
      show main.toNat + m < 2 ^ 64 by omega, rfl⟩
  obtain ⟨t, s, htoggle, htracks, hnew⟩ := BuddyAlloc.tracks_toggleVirtualSlots hsized
    (reads_buddyTreeInit raw (by omega) (by omega))
  rw [htoggle] at hb₀
  obtain rfl := Option.some.inj hb₀
  have hmain' : BuddyAlloc.main ⟨at' main offset, m, 64, at' main offset - main, 0 ||| 1, t⟩
      = main := by
    show at' main offset - (at' main offset - main) = main
    grind
  refine ⟨hmain', by rw [show size - embedMetaLen size = offset by omega], ?_, s, ?_, ?_⟩
  · show m + embedMetaLen size ≤ size
    omega
  · exact ⟨⟨htracks.alignment, htracks.nonempty, htracks.trimmed, hmain'.symm ▸ hmain,
      htracks.small, hmain'.symm ▸ htracks.bounded, htracks.order⟩, htracks.reads, htracks.masked⟩
  · have hlevels : BuddyAlloc.levels ⟨at' main offset, m, 64, at' main offset - main, 0 ||| 1, t⟩
        = Nat.clog 2 (m / 64) := htracks.levels_eq
    rw [hlevels]
    exact hnew

/-- Metadata takes a 64th of the memory, and not more than half a kilobyte besides. -/
theorem buddySizeofAlignment_le (hsize : 128 ≤ size) (hsmall : size ≤ 2 ^ 63) :
    buddySizeofAlignment size 64 ≤ size / 64 + 544 := by
  obtain ⟨-, hclog⟩ := buddyTreeOrderForMemory_eq (m := size) (by omega) hsmall
  rw [buddySizeofAlignment_eq (by omega) hsmall]
  have hpow := Nat.pow_pred_clog_lt_self (b := 2) (x := size / 64) (by decide) (by omega)
  have hpos := Nat.clog_pos (b := 2) (n := size / 64) (by decide) (by omega)
  generalize Nat.clog 2 (size / 64) = k at hclog hpow hpos
  have hbits := rowLocation_add (le_refl (k + 1))
  have hsize := sizeForOrder_eq (le_refl (k + 1))
  rw [Nat.sub_self] at hbits hsize
  have hdouble : 2 ^ (k + 1) = 4 * 2 ^ (k.pred) := by
    rw [Nat.pred_eq_sub_one, show k + 1 = 2 + (k - 1) by omega, pow_add]
    rfl
  rw [buddyTreeSizeof, paddedBitsetSize, hsize]
  split <;> rw [bitsetSizeof] <;> omega

/-- **A kilobyte is enough.** -/
theorem exists_buddyEmbed (raw : Bitset) (hmain : main ≠ 0#64) (haligned : main.toNat % 8 = 0)
    (hsize : 1024 ≤ size) (hsmall : size ≤ 2 ^ 63) (hbound : main.toNat + size ≤ 2 ^ 64) :
    ∃ b, buddyEmbed raw main size = some b := by
  have hmeta := buddySizeofAlignment_le (show 128 ≤ size by omega) hsmall
  have hfit : (buddyEmbedOffset size 64).canFit = true
      ∧ 64 ≤ (buddyEmbedOffset size 64).offset := by
    rw [buddyEmbedOffset]
    dsimp only
    rw [if_neg (by omega)]
    split
    · rw [if_neg (by omega)]
      exact ⟨rfl, by dsimp only; omega⟩
    · exact ⟨rfl, by dsimp only; omega⟩
  obtain ⟨hsum, -, height, -⟩ := buddyEmbedOffset_of_canFit hfit.1
  have hroom := hfit.2
  rw [buddyEmbed, buddyEmbedAlignment, if_neg hmain, isValidAlignment_slot, Bool.not_true,
    if_neg (by decide)]
  dsimp only
  rw [hfit.1, Bool.not_true, if_neg (by decide)]
  generalize (buddyEmbedOffset size 64).offset = offset at hsum height hroom
  have hmain' : main.toNat ≠ 0 := fun hzero => hmain (BitVec.eq_of_toNat_eq hzero)
  have hmetapos : 0 < embedMetaLen size := by
    have hsizeof := (buddyEmbedOffset_of_canFit hfit.1).2.2.2
    rw [buddySizeofAlignment_eq (by omega) hsmall] at hsizeof
    omega
  have hself := toNat_at' (a := main) (i := offset) (by omega)
  have hzero : at' main offset ≠ 0#64 := fun hzero => by
    rw [hzero] at hself
    simp only [BitVec.toNat_ofNat] at hself
    omega
  have hne : at' main offset ≠ main := fun heq => by
    rw [heq] at hself
    omega
  have hsizeof : buddySizeofAlignment (offset - offset % 64) 64 ≠ 0 := by
    rw [buddySizeofAlignment_eq (by omega) (by omega)]
    omega
  rw [buddyInitAlignment, isValidAlignment_slot]
  simp only [Bool.not_true, Bool.false_eq_true, if_false]
  rw [if_neg hzero, if_neg hmain, if_neg hne, if_neg (by rw [hself]; omega),
    if_neg (not_not.mpr haligned), if_neg hsizeof]
  exact ⟨_, rfl⟩

end Embed

end MoonOS

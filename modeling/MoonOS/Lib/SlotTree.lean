import Mathlib.Tactic
import Mathlib.Data.List.Infix

/-!
# Lib/SlotTree — memory halved again and again

A stretch of `2 ^ n` slots is either free, or used as a whole, or split into two halves of which at
least one is not free.  Halves are found by paths, `true` for the right one.

    Slots   ::=  free  |  used  |  node left right        (never  node free free)

Putting two free halves together gives a free whole (`join`), so a tree has one form only, and two
things can be read off each node alone: how far down the nearest free part is (`status`), and that
it is free exactly when this distance is zero (`status_eq_zero`).

* `set_set`, `set_free` — taking a free part and giving it back changes nothing;
* `freeAt_iff` — a part is free exactly when no used block lies over or under it;
* `eq_of_used_iff` — a tree is known by its used blocks;
* `exists_freeAt_iff` — the status of the whole says at which depths there is a free part;
* `overlap_iff` — two parts share a slot exactly when one path continues the other.
-/

namespace SlotTree

/-- How a stretch of memory is taken up. -/
inductive Slots
  | free
  | used
  | node (left right : Slots)
deriving DecidableEq, Repr

namespace Slots

variable {h n : ℕ} {t l r new x y : Slots} {p q : List Bool} {b : Bool}

/-! ## Halves -/

/-- A half of a stretch.  Under a stretch that is free or used as a whole nothing is taken up. -/
def half (b : Bool) : Slots → Slots
  | node l r => if b then r else l
  | _ => free

@[simp] theorem half_free : half b free = free := rfl

@[simp] theorem half_used : half b used = free := rfl

/-- Two halves put together. -/
def join (l r : Slots) : Slots := if l = free ∧ r = free then free else node l r

theorem half_join : half b (join l r) = if b then r else l := by
  rw [join]
  split
  · next hfree => cases b <;> simp [hfree]
  · rfl

theorem join_ne_used : join l r ≠ used := by
  rw [join]
  split <;> simp

/-- **A tree of `h` levels in its one form**: what is used has room, and no split is idle. -/
def Fits : ℕ → Slots → Prop
  | _, free => True
  | h, used => 0 < h
  | h, node l r => (l ≠ free ∨ r ≠ free) ∧ Fits (h - 1) l ∧ Fits (h - 1) r

theorem fits_half : ∀ {t : Slots}, Fits (h + 1) t → Fits h (half b t)
  | free, _ => trivial
  | used, _ => trivial
  | node _ _, hfits => by
    cases b
    · exact hfits.2.1
    · exact hfits.2.2

theorem fits_join (hl : Fits h l) (hr : Fits h r) : Fits (h + 1) (join l r) := by
  rw [join]
  split
  · trivial
  · next hne => exact ⟨not_and_or.mp hne, hl, hr⟩

/-- A tree of no levels is free. -/
theorem eq_free_of_fits_zero : ∀ {t : Slots}, Fits 0 t → t = free
  | free, _ => rfl
  | used, hfits => absurd hfits (lt_irrefl 0)
  | node _ _, ⟨hne, hl, hr⟩ =>
    absurd hne (by simp [eq_free_of_fits_zero hl, eq_free_of_fits_zero hr])

/-- A tree of one level is not split. -/
theorem half_of_fits_one (hfits : Fits 1 t) : half b t = free :=
  eq_free_of_fits_zero (fits_half hfits)

/-- A split tree is its two halves joined. -/
theorem join_half (hfits : Fits h t) (hused : t ≠ used) :
    join (half false t) (half true t) = t := by
  cases t with
  | free => rfl
  | used => exact absurd rfl hused
  | node l r => exact if_neg (not_and_or.mpr hfits.1)

/-! ## Status -/

/-- How far down the nearest free part is: `0` in a free tree, and past the last of the `h` levels
in a full one. -/
def status : ℕ → Slots → ℕ
  | _, free => 0
  | h, used => h
  | h, node l r => min (status (h - 1) l) (status (h - 1) r) + 1

/-- The status of a whole by those of its halves. -/
def combine (a b : ℕ) : ℕ := if a = 0 ∧ b = 0 then 0 else min a b + 1

@[simp] theorem status_free : status h free = 0 := by
  rw [status]

@[simp] theorem status_used : status h used = h := by
  rw [status]

theorem status_eq_zero (hfits : Fits h t) : status h t = 0 ↔ t = free := by
  cases t with
  | free => simp
  | used =>
    have hpos : 0 < h := hfits
    simp [hpos.ne']
  | node l r => simp [status]

theorem status_le : ∀ {h : ℕ} {t : Slots}, Fits h t → status h t ≤ h
  | _, free, _ => by simp
  | _, used, _ => by simp
  | 0, node _ _, hfits => absurd (eq_free_of_fits_zero hfits) (by simp)
  | h + 1, node l r, hfits => by
    have hl := status_le hfits.2.1
    rw [status]
    omega

theorem status_join (hl : Fits h l) (hr : Fits h r) :
    status (h + 1) (join l r) = combine (status h l) (status h r) := by
  have hl0 := status_eq_zero hl
  have hr0 := status_eq_zero hr
  rw [join, combine]
  by_cases hfree : l = free ∧ r = free
  · rw [if_pos hfree, if_pos ⟨hl0.mpr hfree.1, hr0.mpr hfree.2⟩, status_free]
  · rw [if_neg hfree, if_neg fun h => hfree ⟨hl0.mp h.1, hr0.mp h.2⟩, status, Nat.add_sub_cancel]

/-- A tree that is not used as a whole has the status its halves say. -/
theorem status_eq_combine (hfits : Fits (h + 1) t) (hused : t ≠ used) :
    status (h + 1) t = combine (status h (half false t)) (status h (half true t)) := by
  nth_rewrite 1 [← join_half hfits hused]
  exact status_join (fits_half hfits) (fits_half hfits)

/-! ## Parts -/

/-- The part at a path. -/
def sub : Slots → List Bool → Slots
  | t, [] => t
  | t, b :: p => sub (half b t) p

/-- A tree with one part replaced. -/
def set : Slots → List Bool → Slots → Slots
  | _, [], new => new
  | t, b :: p, new =>
    if b then join (half false t) (set (half true t) p new)
    else join (set (half false t) p new) (half true t)

/-- The status at a path, in a tree of `h` levels. -/
def look (h : ℕ) (t : Slots) (p : List Bool) : ℕ := status (h - p.length) (sub t p)

@[simp] theorem sub_nil : sub t [] = t := rfl

theorem sub_cons : sub t (b :: p) = sub (half b t) p := rfl

@[simp] theorem sub_free : ∀ p : List Bool, sub free p = free
  | [] => rfl
  | _ :: p => sub_free p

theorem sub_append : ∀ (t : Slots) (p q : List Bool), sub t (p ++ q) = sub (sub t p) q
  | _, [], _ => rfl
  | t, b :: p, q => sub_append (half b t) p q

/-- Under a used block nothing is taken up. -/
theorem sub_of_used (h : sub t p = used) (hq : q ≠ []) : sub t (p ++ q) = free := by
  cases q with
  | nil => exact absurd rfl hq
  | cons b q => rw [sub_append, h, sub_cons, half_used, sub_free]

theorem fits_sub : ∀ {h : ℕ} {p : List Bool} {t : Slots}, p.length ≤ h → Fits h t →
    Fits (h - p.length) (sub t p)
  | _, [], _, _, hfits => hfits
  | 0, _ :: _, _, hlen, _ => absurd hlen (by simp)
  | h + 1, b :: p, t, hlen, hfits => by
    rw [List.length_cons, Nat.add_sub_add_right]
    exact fits_sub (by simpa using hlen) (fits_half hfits)

theorem half_set_cons : half b (set t (b :: p) new) = set (half b t) p new := by
  cases b <;> rw [set] <;> simp [half_join]

theorem half_not_set_cons : half (!b) (set t (b :: p) new) = half (!b) t := by
  cases b <;> rw [set] <;> simp [half_join]

theorem set_cons_ne_used : set t (b :: p) new ≠ used := by
  rw [set]
  split <;> exact join_ne_used

/-- What was put in is found again… -/
@[simp] theorem sub_set : ∀ (t : Slots) (p : List Bool), sub (set t p new) p = new
  | _, [] => rfl
  | t, b :: p => by rw [sub_cons, half_set_cons, sub_set]

theorem set_append : ∀ (t : Slots) (p q : List Bool),
    set t (p ++ q) new = set t p (set (sub t p) q new)
  | _, [], _ => rfl
  | t, b :: p, q => by
    have ih := set_append (half b t) p q
    cases b <;> rw [List.cons_append, set, set] <;> simp [ih, sub_cons]

/-- …over it the change is seen as one of the part… -/
theorem sub_set_append : sub (set t (p ++ q) new) p = set (sub t p) q new := by
  rw [set_append, sub_set]

/-- …and elsewhere it is not seen. -/
theorem sub_set_fork (t : Slots) (c : List Bool) :
    sub (set t (c ++ b :: p) new) (c ++ (!b) :: q) = sub t (c ++ (!b) :: q) := by
  rw [sub_append, sub_set_append, sub_cons, half_not_set_cons, sub_append, sub_cons]

theorem fits_set : ∀ {h : ℕ} {t : Slots} {p : List Bool}, Fits h t → p.length ≤ h →
    Fits (h - p.length) new → Fits h (set t p new)
  | _, _, [], _, _, hnew => hnew
  | 0, _, _ :: _, _, hlen, _ => absurd hlen (by simp)
  | h + 1, t, b :: p, hfits, hlen, hnew => by
    rw [List.length_cons, Nat.add_sub_add_right] at hnew
    have hset := fits_set (fits_half (b := b) hfits) (by simpa using hlen) hnew
    cases b
    · exact fits_join hset (fits_half hfits)
    · exact fits_join (fits_half hfits) hset

theorem set_set : ∀ (t : Slots) (p : List Bool), set (set t p x) p y = set t p y
  | _, [] => rfl
  | t, b :: p => by
    have hsame : half b (set t (b :: p) x) = set (half b t) p x := half_set_cons
    have hother : half (!b) (set t (b :: p) x) = half (!b) t := half_not_set_cons
    cases b
    · rw [set, if_neg (by simp), hsame, set_set, show true = !false from rfl, hother, set]
      rfl
    · rw [set, if_pos rfl, hsame, set_set, show false = !true from rfl, hother, set]
      rfl

/-! ## Two paths -/

/-- **Two paths part, or one continues the other.** -/
theorem path_cases : ∀ p q : List Bool, p <+: q ∨ q <+: p
    ∨ ∃ c b p' q', p = c ++ b :: p' ∧ q = c ++ (!b) :: q'
  | [], q => .inl q.nil_prefix
  | p, [] => .inr (.inl p.nil_prefix)
  | a :: p, b :: q => by
    by_cases hab : a = b
    · subst hab
      rcases path_cases p q with hpq | hqp | ⟨c, b, p', q', rfl, rfl⟩
      · exact .inl (List.cons_prefix_cons.mpr ⟨rfl, hpq⟩)
      · exact .inr (.inl (List.cons_prefix_cons.mpr ⟨rfl, hqp⟩))
      · exact .inr (.inr ⟨a :: c, b, p', q', rfl, rfl⟩)
    · exact .inr (.inr ⟨[], a, p, q, rfl, by rw [← Bool.eq_not.mpr (Ne.symm hab)]; rfl⟩)

/-- The status at a path that does not lead to the change is as it was. -/
theorem look_set_of_not_prefix (hpq : ¬ q <+: p) (hqp : ¬ p <+: q) :
    look h (set t p new) q = look h t q := by
  rcases path_cases p q with hle | hle | ⟨c, b, p', q', rfl, rfl⟩
  · exact absurd hle hqp
  · exact absurd hle hpq
  · rw [look, look, sub_set_fork]

/-! ## Free parts -/

/-- A part that is free, alone or as part of something free. -/
def FreeAt (t : Slots) : List Bool → Prop
  | [] => t = free
  | b :: p => t ≠ used ∧ FreeAt (half b t) p

theorem freeAt_free : ∀ p : List Bool, FreeAt free p
  | [] => rfl
  | _ :: p => ⟨by simp, freeAt_free p⟩

theorem not_freeAt_used : ∀ p : List Bool, ¬ FreeAt used p
  | [], h => by cases h
  | _ :: _, h => h.1 rfl

theorem sub_of_freeAt : ∀ {t : Slots} {p : List Bool}, FreeAt t p → sub t p = free
  | _, [], hfree => hfree
  | t, b :: _, hfree => sub_of_freeAt (t := half b t) hfree.2

/-- A part of a free part is free. -/
theorem FreeAt.append : ∀ {t : Slots} {p : List Bool}, FreeAt t p → ∀ q, FreeAt t (p ++ q)
  | _, [], hfree, q => (show _ = free from hfree) ▸ freeAt_free q
  | t, b :: _, hfree, q => ⟨hfree.1, FreeAt.append (t := half b t) hfree.2 q⟩

/-- **A free part that is freed is as it was.** -/
theorem set_free : ∀ {h : ℕ} {t : Slots} {p : List Bool}, Fits h t → p.length ≤ h → FreeAt t p →
    set t p free = t
  | _, _, [], _, _, hfree => hfree.symm
  | 0, _, _ :: _, _, hlen, _ => absurd hlen (by simp)
  | h + 1, t, b :: p, hfits, hlen, ⟨hused, hfree⟩ => by
    have hrest := set_free (fits_half hfits) (by simpa using hlen) hfree
    have hwhole := join_half hfits hused
    cases b <;> rw [set] <;> simpa [hrest] using hwhole

/-- A tree with something taken up has a used block. -/
theorem exists_used : ∀ {h : ℕ} {t : Slots}, Fits h t → t ≠ free → ∃ p, sub t p = used
  | _, free, _, hne => absurd rfl hne
  | _, used, _, _ => ⟨[], rfl⟩
  | _, node l r, hfits, _ => by
    rcases hfits.1 with hne | hne
    · obtain ⟨p, hp⟩ := exists_used hfits.2.1 hne
      exact ⟨false :: p, hp⟩
    · obtain ⟨p, hp⟩ := exists_used hfits.2.2 hne
      exact ⟨true :: p, hp⟩

/-- **A part is free exactly when no used block lies over it or under it.** -/
theorem freeAt_iff : ∀ {h : ℕ} {t : Slots} {p : List Bool}, Fits h t → p.length ≤ h →
    (FreeAt t p ↔ ∀ q, sub t q = used → ¬ q <+: p ∧ ¬ p <+: q)
  | h, t, [], hfits, _ => by
    refine ⟨fun hfree q hq => ?_, fun hall => ?_⟩
    · rw [show t = free from hfree, sub_free] at hq
      cases hq
    · by_contra hne
      obtain ⟨q, hq⟩ := exists_used hfits hne
      exact (hall q hq).2 q.nil_prefix
  | 0, _, _ :: _, _, hlen => absurd hlen (by simp)
  | h + 1, t, b :: p, hfits, hlen => by
    have ih := freeAt_iff (t := half b t) (p := p) (fits_half hfits) (by simpa using hlen)
    rw [FreeAt, ih]
    refine ⟨fun ⟨hused, hall⟩ q hq => ?_, fun hall => ⟨fun hused => ?_, fun q hq => ?_⟩⟩
    · cases q with
      | nil => exact absurd hq hused
      | cons a q =>
        by_cases hab : a = b
        · subst hab
          obtain ⟨hqp, hpq⟩ := hall q hq
          exact ⟨fun hle => hqp (List.cons_prefix_cons.mp hle).2,
            fun hle => hpq (List.cons_prefix_cons.mp hle).2⟩
        · exact ⟨fun hle => hab (List.cons_prefix_cons.mp hle).1,
            fun hle => hab (List.cons_prefix_cons.mp hle).1.symm⟩
    · exact (hall [] hused).1 (List.nil_prefix)
    · obtain ⟨hqp, hpq⟩ := hall (b :: q) hq
      exact ⟨fun hle => hqp (List.cons_prefix_cons.mpr ⟨rfl, hle⟩),
        fun hle => hpq (List.cons_prefix_cons.mpr ⟨rfl, hle⟩)⟩

/-- **The status says at which depths there is a free part.** -/
theorem exists_freeAt_iff : ∀ {h k : ℕ} {t : Slots}, Fits h t → k < h →
    ((∃ p, p.length = k ∧ FreeAt t p) ↔ status h t ≤ k)
  | h, 0, t, hfits, _ => by
    rw [Nat.le_zero, status_eq_zero hfits]
    constructor
    · rintro ⟨p, hlen, hfree⟩
      rw [List.length_eq_zero_iff.mp hlen] at hfree
      exact hfree
    · exact fun hfree => ⟨[], rfl, hfree⟩
  | h + 1, k + 1, t, hfits, hk => by
    by_cases hused : t = used
    · subst hused
      refine iff_of_false (fun ⟨p, _, hfree⟩ => not_freeAt_used p hfree) ?_
      rw [status_used]
      omega
    have hhalf : ∀ b, (∃ p, p.length = k ∧ FreeAt (half b t) p) ↔ status h (half b t) ≤ k :=
      fun b => exists_freeAt_iff (fits_half hfits) (Nat.succ_lt_succ_iff.mp hk)
    have hwhole : status (h + 1) t ≤ k + 1
        ↔ status h (half false t) ≤ k ∨ status h (half true t) ≤ k := by
      rw [status_eq_combine hfits hused, combine]
      split <;> omega
    rw [hwhole, ← hhalf, ← hhalf]
    constructor
    · rintro ⟨p, hlen, hfree⟩
      cases p with
      | nil => cases hlen
      | cons b p =>
        have hp : ∃ p, p.length = k ∧ FreeAt (half b t) p := ⟨p, Nat.succ.inj hlen, hfree.2⟩
        cases b
        · exact .inl hp
        · exact .inr hp
    · rintro (⟨p, hlen, hfree⟩ | ⟨p, hlen, hfree⟩)
      · exact ⟨false :: p, congrArg Nat.succ hlen, hused, hfree⟩
      · exact ⟨true :: p, congrArg Nat.succ hlen, hused, hfree⟩

/-! ## What a change does to the statuses over it -/

theorem combine_comm (a b : ℕ) : combine a b = combine b a := by
  rw [combine, combine, min_comm]
  exact if_congr and_comm rfl rfl

/-- The status at a part that is not used as a whole, by the statuses of its halves. -/
theorem look_eq_combine (hfits : Fits h t) (hlen : p.length < h) (hused : sub t p ≠ used)
    (b : Bool) : look h t p = combine (look h t (p ++ [b])) (look h t (p ++ [!b])) := by
  obtain ⟨k, hk⟩ : ∃ k, h - p.length = k + 1 := ⟨h - p.length - 1, by omega⟩
  have hsub : Fits (k + 1) (sub t p) := hk ▸ fits_sub hlen.le hfits
  have hhalf : ∀ b, look h t (p ++ [b]) = status k (half b (sub t p)) := fun b => by
    rw [look, sub_append, List.length_append, List.length_singleton, ← Nat.sub_sub, hk]
    rfl
  rw [hhalf, hhalf, look, hk, status_eq_combine hsub hused]
  cases b
  · rfl
  · exact combine_comm _ _

/-- What lies over something taken up is split. -/
theorem split_of_sub_ne_free (h : sub t p ≠ free) (hle : q <+: p) (hne : q ≠ p) :
    sub t q ≠ free ∧ sub t q ≠ used := by
  obtain ⟨s, rfl⟩ := hle
  have hs : s ≠ [] := fun hs => hne (by simp [hs])
  refine ⟨fun hfree => h ?_, fun hused => h (sub_of_used hused hs)⟩
  rw [sub_append, hfree, sub_free]

/-- **A change that is not seen at a part is not seen over it.** -/
theorem look_set_of_prefix (hfits : Fits h t) (hset : Fits h (set t p new)) :
    ∀ {d e : List Bool}, d ++ e <+: p → p.length ≤ h → sub t (d ++ e) ≠ free →
      look h (set t p new) (d ++ e) = look h t (d ++ e) → look h (set t p new) d = look h t d
  | d, [], _, _, _, heq => by simpa using heq
  | d, b :: e, hle, hlen, hsub, heq => by
    have hsplit : d ++ b :: e = d ++ [b] ++ e := by simp
    have hbelow : look h (set t p new) (d ++ [b]) = look h t (d ++ [b]) := by
      rw [hsplit] at hle hsub heq
      exact look_set_of_prefix hfits hset hle hlen hsub heq
    obtain ⟨s, rfl⟩ := hle
    have hdlen : d.length < h := by
      simp only [List.length_append, List.length_cons] at hlen
      omega
    -- `d` is split in both trees
    have hsplitT := split_of_sub_ne_free hsub (q := d) (List.prefix_append d _) (by simp)
    have hforkT : sub (set t (d ++ b :: e ++ s) new) d ≠ used := by
      rw [List.append_assoc, sub_set_append, List.cons_append]
      exact set_cons_ne_used
    have hother : look h (set t (d ++ b :: e ++ s) new) (d ++ [!b]) = look h t (d ++ [!b]) := by
      rw [look, look, List.append_assoc, List.cons_append, sub_set_fork]
    rw [look_eq_combine hset hdlen hforkT b, look_eq_combine hfits hdlen hsplitT.2 b, hbelow,
      hother]

/-! ## Used blocks -/

/-- **Taking a free part adds one used block.** -/
theorem sub_set_used (hfits : Fits h t) (hlen : p.length ≤ h) (hfree : FreeAt t p) :
    sub (set t p used) q = used ↔ q = p ∨ sub t q = used := by
  have hapart := (freeAt_iff hfits hlen).mp hfree
  rcases path_cases p q with ⟨s, rfl⟩ | ⟨s, rfl⟩ | ⟨c, b, p', q', rfl, rfl⟩
  · -- at the part or under it
    by_cases hs : s = []
    · simp [hs]
    · rw [sub_append, sub_set]
      refine iff_of_false ?_ (not_or.mpr ⟨by simpa using hs, fun hused => ?_⟩)
      · cases s with
        | nil => exact absurd rfl hs
        | cons b s => simp [sub_cons]
      · exact (hapart _ hused).2 (p.prefix_append s)
  · -- over it: the whole is split now
    by_cases hs : s = []
    · simp [hs]
    · rw [sub_set_append]
      refine iff_of_false ?_ (not_or.mpr ⟨by simpa using Ne.symm hs, fun hused => ?_⟩)
      · cases s with
        | nil => exact absurd rfl hs
        | cons b s => exact set_cons_ne_used
      · exact (hapart _ hused).1 (q.prefix_append s)
  · rw [sub_set_fork]
    simp

/-- **Freeing a used block takes it away, and no other.** -/
theorem sub_set_free (hused : sub t p = used) :
    sub (set t p free) q = used ↔ q ≠ p ∧ sub t q = used := by
  rcases path_cases p q with ⟨s, rfl⟩ | ⟨s, rfl⟩ | ⟨c, b, p', q', rfl, rfl⟩
  · rw [sub_append, sub_set, sub_free]
    refine iff_of_false (by simp) fun ⟨hne, hboth⟩ => ?_
    rw [sub_of_used hused (by simpa using hne)] at hboth
    cases hboth
  · by_cases hs : s = []
    · simp [hs]
    · rw [sub_set_append]
      refine iff_of_false ?_ fun ⟨_, hboth⟩ => ?_
      · cases s with
        | nil => exact absurd rfl hs
        | cons b s => exact set_cons_ne_used
      · rw [sub_of_used hboth hs] at hused
        cases hused
  · rw [sub_set_fork]
    simp

/-- A used block is within the levels of the tree. -/
theorem length_lt_of_used : ∀ {h : ℕ} {t : Slots} {p : List Bool}, Fits h t → sub t p = used →
    p.length < h
  | h, t, [], hfits, hused => by
    rw [sub_nil] at hused
    rw [hused] at hfits
    exact hfits
  | 0, t, b :: p, hfits, hused => by
    rw [eq_free_of_fits_zero hfits, sub_free] at hused
    cases hused
  | h + 1, t, b :: p, hfits, hused =>
    Nat.succ_lt_succ (length_lt_of_used (fits_half hfits) hused)

/-- **A tree is known by its used blocks.** -/
theorem eq_of_used_iff : ∀ {h : ℕ} {t t' : Slots}, Fits h t → Fits h t' →
    (∀ p, sub t p = used ↔ sub t' p = used) → t = t'
  | 0, t, t', hfits, hfits', _ => by rw [eq_free_of_fits_zero hfits, eq_free_of_fits_zero hfits']
  | h + 1, t, t', hfits, hfits', hall => by
    by_cases hused : t = used
    · exact hused.trans ((hall []).mp hused).symm
    · have hused' : t' ≠ used := fun h' => hused ((hall []).mpr h')
      have hhalf : ∀ b, half b t = half b t' := fun b =>
        eq_of_used_iff (fits_half hfits) (fits_half hfits') fun p => hall (b :: p)
      rw [← join_half hfits hused, ← join_half hfits' hused', hhalf, hhalf]

/-- Used blocks lie side by side. -/
theorem eq_of_prefix (hp : sub t p = used) (hq : sub t q = used) (hle : p <+: q) : p = q := by
  obtain ⟨s, rfl⟩ := hle
  by_contra hne
  rw [sub_of_used hp (by simpa using hne)] at hq
  cases hq

end Slots

/-! ## Where a part lies -/

/-- The first slot of a part of `2 ^ n` slots. -/
def start : ℕ → List Bool → ℕ
  | _, [] => 0
  | n, b :: p => (if b then 2 ^ (n - 1) else 0) + start (n - 1) p

/-- How many slots it has. -/
def width (n : ℕ) (p : List Bool) : ℕ := 2 ^ (n - p.length)

section Places

variable {n : ℕ} {p q : List Bool}

theorem width_pos : 0 < width n p := Nat.two_pow_pos _

theorem start_add_width_le : ∀ {n : ℕ} {p : List Bool}, p.length ≤ n →
    start n p + width n p ≤ 2 ^ n
  | _, [], _ => by simp [start, width]
  | 0, _ :: _, h => absurd h (by simp)
  | n + 1, b :: p, h => by
    have ih := start_add_width_le (n := n) (p := p) (by simpa using h)
    have hwidth : width (n + 1) (b :: p) = width n p := by
      rw [width, width, List.length_cons, Nat.add_sub_add_right]
    rw [start, hwidth, Nat.add_sub_cancel, pow_succ]
    split <;> omega

theorem start_append : ∀ (n : ℕ) (p q : List Bool), p.length ≤ n →
    start n (p ++ q) = start n p + start (n - p.length) q
  | n, [], q, _ => by simp [start]
  | 0, _ :: _, _, h => absurd h (by simp)
  | n + 1, b :: p, q, h => by
    have ih := start_append n p q (by simpa using h)
    rw [List.cons_append, start, start, Nat.add_sub_cancel, ih, List.length_cons,
      Nat.add_sub_add_right, Nat.add_assoc]

theorem width_append : width n (p ++ q) = width (n - p.length) q := by
  rw [width, width, List.length_append, Nat.sub_sub]

/-- A half is half as long… -/
theorem width_concat (h : p.length < n) (b : Bool) : width n p = 2 * width n (p ++ [b]) := by
  obtain ⟨m, hm⟩ : ∃ m, n - p.length = m + 1 := ⟨n - p.length - 1, by omega⟩
  rw [width, width, List.length_append, List.length_singleton, ← Nat.sub_sub, hm,
    Nat.add_sub_cancel, pow_succ, Nat.mul_comm]

/-- …and the right one comes after the left. -/
theorem start_concat (h : p.length < n) (b : Bool) :
    start n (p ++ [b]) = start n p + if b then width n (p ++ [b]) else 0 := by
  rw [start_append n p [b] h.le, start, start, width, List.length_append, List.length_singleton,
    Nat.add_zero, Nat.sub_sub]

/-- A part of a part lies in it. -/
theorem contains_of_prefix (hle : p <+: q) (hq : q.length ≤ n) :
    start n p ≤ start n q ∧ start n q + width n q ≤ start n p + width n p := by
  obtain ⟨s, rfl⟩ := hle
  rw [List.length_append] at hq
  have hs := start_add_width_le (n := n - p.length) (p := s) (by omega)
  rw [start_append n p s (by omega), width_append]
  exact ⟨Nat.le_add_right _ _, by rw [Nat.add_assoc]; exact Nat.add_le_add_left hs _⟩

/-- Parts of two halves lie side by side. -/
theorem apart_of_fork {c p' q' : List Bool} {b : Bool} (hp : (c ++ b :: p').length ≤ n)
    (hq : (c ++ (!b) :: q').length ≤ n) :
    start n (c ++ b :: p') + width n (c ++ b :: p') ≤ start n (c ++ (!b) :: q')
      ∨ start n (c ++ (!b) :: q') + width n (c ++ (!b) :: q') ≤ start n (c ++ b :: p') := by
  rw [List.length_append, List.length_cons] at hp hq
  obtain ⟨m, hm⟩ : ∃ m, n - c.length = m + 1 := ⟨n - c.length - 1, by omega⟩
  have hp' := start_add_width_le (n := m) (p := p') (by omega)
  have hq' := start_add_width_le (n := m) (p := q') (by omega)
  have hwidth : ∀ (b : Bool) (s : List Bool), width (m + 1) (b :: s) = width m s := fun b s => by
    rw [width, width, List.length_cons, Nat.add_sub_add_right]
  rw [start_append n c _ (by omega), start_append n c _ (by omega), width_append, width_append, hm,
    hwidth, hwidth, start, start, Nat.add_sub_cancel]
  cases b
  · exact .inl (by simp; omega)
  · exact .inr (by simp; omega)

/-- **Two parts share a slot exactly when one path continues the other.** -/
theorem overlap_iff (hp : p.length ≤ n) (hq : q.length ≤ n) :
    (start n p < start n q + width n q ∧ start n q < start n p + width n p)
      ↔ p <+: q ∨ q <+: p := by
  have hwp := width_pos (n := n) (p := p)
  have hwq := width_pos (n := n) (p := q)
  rcases Slots.path_cases p q with hle | hle | ⟨c, b, p', q', rfl, rfl⟩
  · have := contains_of_prefix hle hq
    exact iff_of_true (by omega) (.inl hle)
  · have := contains_of_prefix hle hp
    exact iff_of_true (by omega) (.inr hle)
  · have hapart := apart_of_fork hp hq
    refine iff_of_false (by omega) ?_
    rintro (hle | hle)
    · have := (List.prefix_append_right_inj c).mp hle
      exact absurd (List.cons_prefix_cons.mp this).1 (by simp)
    · have := (List.prefix_append_right_inj c).mp hle
      exact absurd (List.cons_prefix_cons.mp this).1 (by simp)

/-- Two parts of one size that start together are the same. -/
theorem eq_of_start_eq (hp : p.length ≤ n) (hq : q.length ≤ n) (hlen : p.length = q.length)
    (h : start n p = start n q) : p = q := by
  have hwp := width_pos (n := n) (p := p)
  have hwq := width_pos (n := n) (p := q)
  rcases (overlap_iff hp hq).mp (by omega) with hle | hle
  · exact hle.eq_of_length hlen
  · exact (hle.eq_of_length hlen.symm).symm

/-- A part that starts where another is, or in it, and is not longer, continues its path. -/
theorem prefix_of_mem (hp : p.length ≤ n) (hq : q.length ≤ n) (hlen : p.length ≤ q.length)
    (hlo : start n p ≤ start n q) (hhi : start n q < start n p + width n p) : p <+: q := by
  have hwq := width_pos (n := n) (p := q)
  rcases (overlap_iff hp hq).mp (by omega) with hle | hle
  · exact hle
  · rw [hle.eq_of_length (le_antisymm hle.length_le hlen)]

/-- The path of a single slot. -/
def leaf : ℕ → ℕ → List Bool
  | 0, _ => []
  | n + 1, s => decide (2 ^ n ≤ s) :: leaf n (s % 2 ^ n)

theorem length_leaf : ∀ n s : ℕ, (leaf n s).length = n
  | 0, _ => rfl
  | n + 1, _ => congrArg Nat.succ (length_leaf n _)

theorem width_leaf (n s : ℕ) : width n (leaf n s) = 1 := by
  rw [width, length_leaf, Nat.sub_self, pow_zero]

theorem start_leaf : ∀ {n s : ℕ}, s < 2 ^ n → start n (leaf n s) = s
  | 0, s, h => by
    have hs : s = 0 := by simpa using h
    simp [hs, leaf, start]
  | n + 1, s, h => by
    have hmod : s % 2 ^ n < 2 ^ n := Nat.mod_lt _ (Nat.two_pow_pos n)
    rw [leaf, start, Nat.add_sub_cancel, start_leaf hmod]
    rw [pow_succ] at h
    by_cases hle : 2 ^ n ≤ s
    · rw [if_pos (by simpa using hle), Nat.mod_eq_sub_mod hle, Nat.mod_eq_of_lt (by omega)]
      omega
    · rw [if_neg (by simpa using hle), Nat.mod_eq_of_lt (by omega), Nat.zero_add]

/-- **A slot is in a part exactly when its path continues the part's.** -/
theorem prefix_leaf_iff {s : ℕ} (hp : p.length ≤ n) (hs : s < 2 ^ n) :
    p <+: leaf n s ↔ start n p ≤ s ∧ s < start n p + width n p := by
  have hstart := start_leaf hs
  have hlen := length_leaf n s
  constructor
  · intro hle
    have hin := contains_of_prefix hle hlen.le
    have hwidth := width_pos (n := n) (p := leaf n s)
    omega
  · intro hin
    exact prefix_of_mem hp hlen.le (hp.trans hlen.ge) (hstart.symm ▸ hin.1) (hstart.symm ▸ hin.2)

end Places

end SlotTree

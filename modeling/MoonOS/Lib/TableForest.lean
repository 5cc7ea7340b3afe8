import Mathlib.Tactic

/-!
# Lib/TableForest — multi-level tables that name each other by address

A store of tables is a function `T : A → I → E`: the entry at index `i` of the table at address `a`.
An entry is either absent or names the table one level down, and a lookup *walks* an index list from
a root.  Nothing in the store says that the tables form trees; that is what a **labelling** carries.
`lab a = some (o, p)` says that every walk reaching `a` has followed the indices `p`, in the tree
owned by `o`; a table of the owner `shared` may hang below the trees of others, where `cross`
allows.

`Insert T lab a is leaf T' lab'` is one descent that writes `leaf` at the end of `is`, reusing or
growing tables on the way.  From it, by induction on the descent:

* `Insert.walk_self` — the path it was made for now ends in `leaf`;
* `Insert.walk_other` — every other path walks as before, up to the upgrades on the shared prefix,
  and exactly as before if it shares none (`Insert.walk_off`);
* `Insert.walk_owner` — the trees of other owners walk exactly as before, if the descent does not
  cross; and whether or not it does, a third owner's own tables stay (`Insert.row_foreign`), which
  is all a walk that does not cross can see (`walk_eq_of_private`).
-/

namespace TableForest

variable {A I E O : Type*}

/-- How an entry is read: whether it is present, and which table it names. -/
structure View (A E : Type*) where
  present : E → Bool
  next : E → A

/-- The entries met walking `is` from the table at `a`, if all of them are present. -/
def View.walk (V : View A E) (T : A → I → E) : A → List I → Option (List E)
  | _, [] => some []
  | a, i :: is =>
    if V.present (T a i) then (V.walk T (V.next (T a i)) is).map (T a i :: ·) else none

/-- What is known of a table: whose tree it is in, and the indices that lead to it. -/
abbrev Labelling (A O I : Type*) := A → Option (O × List I)

section Walk

variable (V : View A E) {T T' : A → I → E} {a c : A} {i : I} {is js : List I}

@[simp] theorem View.walk_nil : V.walk T a ([] : List I) = some [] := rfl

theorem View.walk_cons : V.walk T a (i :: is) =
    if V.present (T a i) then (V.walk T (V.next (T a i)) is).map (T a i :: ·) else none := rfl

theorem View.walk_cons_of_present (h : V.present (T a i) = true) :
    V.walk T a (i :: is) = (V.walk T (V.next (T a i)) is).map (T a i :: ·) := if_pos h

theorem View.walk_cons_ne : V.walk T a (i :: is) ≠ some [] := by
  rw [V.walk_cons]
  split <;> simp

theorem View.walk_cons_of_absent (h : V.present (T a i) = false) :
    V.walk T a (i :: is) = none := if_neg (by simp [h])

end Walk

/-! ## Labelled stores -/

/-- **A labelling explains a store**: the table a present entry names carries the entry's own path,
and the owner of the entry's table unless the path crosses into the shared trees. -/
structure Labelled (V : View A E) (depth : ℕ) (shared : O) (cross : List I → Prop)
    (T : A → I → E) (lab : Labelling A O I) : Prop where
  child : ∀ {a o p i}, lab a = some (o, p) → p.length + 1 < depth → V.present (T a i) = true →
    ∃ o', lab (V.next (T a i)) = some (o', p ++ [i]) ∧ (o' = o ∨ o' = shared ∧ cross (p ++ [i]))

section Frame

variable {V : View A E} {depth : ℕ} {shared : O} {cross : List I → Prop}
  {T T' : A → I → E} {lab : Labelling A O I}

/-- The label of the next table, owner included. -/
theorem Labelled.next (hL : Labelled V depth shared cross T lab) {a : A} {o : O} {p : List I}
    {i j : I} {js : List I} (ha : lab a = some (o, p))
    (hlen : p.length + (i :: j :: js).length = depth)
    (hi : V.present (T a i) = true) :
    ∃ o', lab (V.next (T a i)) = some (o', p ++ [i])
      ∧ (p ++ [i]).length + (j :: js).length = depth ∧ (o' = o ∨ o' = shared) := by
  obtain ⟨o', ho', hoo⟩ := hL.child ha (by simp at hlen; omega) hi
  exact ⟨o', ho', by simp at hlen ⊢; omega, hoo.imp_right And.left⟩

/-- The tables of a tree, each at its distance from the root. -/
inductive View.TableAt (V : View A E) (T : A → I → E) (root : A) : ℕ → A → Prop
  | root : V.TableAt T root 0 root
  | next {n : ℕ} {a : A} {i : I} : V.TableAt T root n a → V.present (T a i) = true →
      V.TableAt T root (n + 1) (V.next (T a i))

/-- The tables of a labelled tree are labelled. -/
theorem Labelled.tableAt (hL : Labelled V depth shared cross T lab) {root a : A} {o : O} {n : ℕ}
    (hroot : lab root = some (o, [])) (h : V.TableAt T root n a) (hn : n < depth) :
    ∃ o' p, lab a = some (o', p) ∧ p.length = n := by
  induction h with
  | root => exact ⟨o, [], hroot, rfl⟩
  | next _ hp ih =>
    obtain ⟨o', p, ha, rfl⟩ := ih (by omega)
    obtain ⟨o'', hnext, -⟩ := hL.child ha hn hp
    exact ⟨o'', _, hnext, by simp⟩

/-- **Writes below one path are seen only by the walks that extend it.** -/
theorem walk_eq_of_off (hL : Labelled V depth shared cross T lab) {q : List I}
    (hoff : ∀ {c oc pc} j, lab c = some (oc, pc) → ¬ q <+: pc ++ [j] → T' c j = T c j) :
    ∀ (js : List I) {c : A} {oc : O} {pc : List I}, lab c = some (oc, pc) →
      pc.length + js.length = depth → ¬ q <+: pc ++ js → V.walk T' c js = V.walk T c js := by
  intro js
  induction js with
  | nil => intros; rfl
  | cons j js ih =>
    intro c oc pc hc hlen hpre
    have hrow : T' c j = T c j :=
      hoff j hc fun h => hpre (h.trans ⟨js, by simp⟩)
    rw [V.walk_cons, V.walk_cons, hrow]
    split
    case isFalse => rfl
    case isTrue hp =>
      cases js with
      | nil => rfl
      | cons j' js =>
        obtain ⟨o', ho', hlen', -⟩ := hL.next hc hlen hp
        rw [ih ho' hlen' (by simpa using hpre)]

/-- Tables at the full depth are leaves: what is in them is seen by no walk. -/
theorem walk_eq_of_rows (hL : Labelled V depth shared cross T lab)
    (hoff : ∀ {c oc pc} j, lab c = some (oc, pc) → pc.length < depth → T' c j = T c j) :
    ∀ (js : List I) {c : A} {oc : O} {pc : List I}, lab c = some (oc, pc) →
      pc.length + js.length = depth → V.walk T' c js = V.walk T c js := by
  intro js
  induction js with
  | nil => intros; rfl
  | cons j js ih =>
    intro c oc pc hc hlen
    rw [V.walk_cons, V.walk_cons, hoff j hc (by simp at hlen; omega)]
    split
    case isFalse => rfl
    case isTrue hp =>
      cases js with
      | nil => rfl
      | cons j' js =>
        obtain ⟨o', ho', hlen', -⟩ := hL.next hc hlen hp
        rw [ih ho' hlen']

/-- …and bears on no label. -/
theorem Labelled.rows (hL : Labelled V depth shared cross T lab)
    (hoff : ∀ {c oc pc} j, lab c = some (oc, pc) → pc.length < depth → T' c j = T c j) :
    Labelled V depth shared cross T' lab where
  child {c oc pc i} hc hlen hi := by
    rw [hoff i hc (by omega)] at hi ⊢
    exact hL.child hc hlen hi

/-- Walks from the tables of one owner see only the rows of that owner and of the shared trees. -/
theorem walk_eq_of_owner (hL : Labelled V depth shared cross T lab) {o : O} (hs : shared ≠ o)
    (hoff : ∀ c oc pc j, lab c = some (oc, pc) → oc ≠ o → T' c j = T c j) :
    ∀ (js : List I) {c : A} {oc : O} {pc : List I}, lab c = some (oc, pc) → oc ≠ o →
      pc.length + js.length = depth → V.walk T' c js = V.walk T c js := by
  intro js
  induction js with
  | nil => intros; rfl
  | cons j js ih =>
    intro c oc pc hc hne hlen
    rw [V.walk_cons, V.walk_cons, hoff c oc pc j hc hne]
    split
    case isFalse => rfl
    case isTrue hp =>
      cases js with
      | nil => rfl
      | cons j' js =>
        obtain ⟨o', ho', hlen', rfl | rfl⟩ := hL.next hc hlen hp
        · rw [ih ho' hne hlen']
        · rw [ih ho' hs hlen']

/-- Walks that never cross into the shared trees see only the rows of their own owner. -/
theorem walk_eq_of_private (hL : Labelled V depth shared cross T lab) {o : O}
    (hoff : ∀ c pc j, lab c = some (o, pc) → T' c j = T c j) :
    ∀ (js : List I) {c : A} {pc : List I}, lab c = some (o, pc) → pc.length + js.length = depth →
      (∀ q, q <+: pc ++ js → pc.length < q.length → ¬ cross q) →
      V.walk T' c js = V.walk T c js := by
  intro js
  induction js with
  | nil => intros; rfl
  | cons j js ih =>
    intro c pc hc hlen hcross
    rw [V.walk_cons, V.walk_cons, hoff c pc j hc]
    split
    case isFalse => rfl
    case isTrue hp =>
      cases js with
      | nil => rfl
      | cons j' js =>
        obtain ⟨o', ho', rfl | ⟨-, hx⟩⟩ := hL.child hc (by simp at hlen; omega) hp
        · rw [ih ho' (by simp at hlen ⊢; omega)
            fun q hq hlt => hcross q (by simpa using hq) (by simp at hlt; omega)]
        · exact absurd hx (hcross _ ⟨j' :: js, by simp⟩ (by simp))

end Frame

/-! ## One descent

`Upgraded up es es'` compares what two walks of one path met: each entry but the last may have been
upgraded by `up`, the last is the same. -/

/-- The same path, with the entries above the last one upgraded. -/
inductive Upgraded (up : E → E → Prop) : List E → List E → Prop
  | last (e : E) : Upgraded up [e] [e]
  | cons {e e' : E} {es es' : List E} : up e e' → Upgraded up es es' →
      Upgraded up (e :: es) (e' :: es')

/-- What an entry of a descent may turn into: it stays present and keeps naming the same table. -/
structure IsUpgrade (V : View A E) (up : E → E → Prop) : Prop where
  refl : ∀ e, up e e
  trans : ∀ {e f g}, up e f → up f g → up e g
  present : ∀ {e f}, up e f → V.present f = V.present e
  next : ∀ {e f}, up e f → V.next f = V.next e

section Upgrade

variable {V : View A E} {up : E → E → Prop} {T T' : A → I → E} {lab : Labelling A O I}

theorem Upgraded.trans (hup : IsUpgrade V up) {es fs gs : List E} (h : Upgraded up es fs)
    (h' : Upgraded up fs gs) : Upgraded up es gs := by
  induction h generalizing gs with
  | last e => exact h'
  | cons he _ ih =>
    cases h' with
    | last => cases ‹Upgraded up _ []›
    | cons he' hes => exact .cons (hup.trans he he') (ih hes)

/-- An upgraded walk ends in the same entry, under upgraded ones. -/
theorem Upgraded.exists_append {es fs : List E} {x : E} (h : Upgraded up (es ++ [x]) fs) :
    ∃ es', fs = es' ++ [x] ∧ ∀ e' ∈ es', ∃ e ∈ es, up e e' := by
  induction es generalizing fs with
  | nil =>
    cases h with
    | last => exact ⟨[], rfl, by simp⟩
    | cons _ h => cases h
  | cons e es ih =>
    generalize hl : e :: es ++ [x] = l at h
    cases h with
    | last f => simp at hl
    | cons he hes =>
      obtain ⟨rfl, rfl⟩ := List.cons.inj hl
      obtain ⟨es', rfl, hall⟩ := ih hes
      refine ⟨_ :: es', rfl, List.forall_mem_cons.mpr ⟨⟨e, by simp, he⟩, fun e' he' => ?_⟩⟩
      obtain ⟨e₁, he₁, hup⟩ := hall e' he'
      exact ⟨e₁, List.mem_cons_of_mem _ he₁, hup⟩

/-- Two walks compared: both break off, or one is the other upgraded. -/
abbrev WalkRel (up : E → E → Prop) : Option (List E) → Option (List E) → Prop :=
  Option.Rel (Upgraded up)

theorem WalkRel.trans (hup : IsUpgrade V up) {w w' w'' : Option (List E)} (h : WalkRel up w w')
    (h' : WalkRel up w' w'') : WalkRel up w w'' := by
  cases h with
  | none => exact h'
  | some h =>
    cases h' with
    | some h' => exact .some (h.trans hup h')

theorem Upgraded.refl (hup : IsUpgrade V up) : ∀ es : List E, es ≠ [] → Upgraded up es es
  | [], h => absurd rfl h
  | [e], _ => .last e
  | e :: f :: es, _ => .cons (hup.refl e) (Upgraded.refl hup (f :: es) (List.cons_ne_nil _ _))

theorem WalkRel.refl (hup : IsUpgrade V up) {w : Option (List E)} (h : w ≠ some []) :
    WalkRel up w w := by
  cases w with
  | none => exact .none
  | some es => exact .some (Upgraded.refl hup es fun he => h (congrArg some he))

/-- One more entry in front of two walks compared. -/
theorem WalkRel.cons {e e' : E} (he : up e e') {w w' : Option (List E)} (h : WalkRel up w w') :
    WalkRel up (w.map (e :: ·)) (w'.map (e' :: ·)) := by
  cases h with
  | none => exact .none
  | some h => exact .some (.cons he h)

end Upgrade

/-- **One descent that writes `leaf` at the end of a path**: on the way down each entry is reused,
upgraded to a `good` one, or made to name a table nobody has labelled yet, all of whose entries are
absent.  Such an entry is as present as the leaf is. -/
inductive Insert [DecidableEq A] (V : View A E) (up : E → E → Prop) (good : E → Prop) (leaf : E) :
    (A → I → E) → Labelling A O I → A → List I → (A → I → E) → Labelling A O I → Prop
  | leaf {T T' : A → I → E} {lab : Labelling A O I} {a : A} {i : I} :
      (∀ c j, lab c ≠ none → (c, j) ≠ (a, i) → T' c j = T c j) → T' a i = leaf →
      Insert V up good leaf T lab a [i] T' lab
  | reuse {T T₁ T' : A → I → E} {lab lab' : Labelling A O I} {a : A} {i j : I} {is : List I} :
      V.present (T a i) = true →
      (∀ c k, lab c ≠ none → (c, k) ≠ (a, i) → T₁ c k = T c k) → up (T a i) (T₁ a i) →
      good (T₁ a i) → Insert V up good leaf T₁ lab (V.next (T a i)) (j :: is) T' lab' →
      Insert V up good leaf T lab a (i :: j :: is) T' lab'
  | grow {T T₁ T' : A → I → E} {lab lab' : Labelling A O I} {a b : A} {o : O} {p : List I}
      {i j : I} {is : List I} :
      V.present (T a i) = false → lab a = some (o, p) → lab b = none →
      (∀ c k, lab c ≠ none → (c, k) ≠ (a, i) → T₁ c k = T c k) →
      V.present (T₁ a i) = V.present leaf → V.next (T₁ a i) = b → good (T₁ a i) →
      (∀ k, V.present (T₁ b k) = false) →
      Insert V up good leaf T₁ (Function.update lab b (some (o, p ++ [i]))) b (j :: is) T' lab' →
      Insert V up good leaf T lab a (i :: j :: is) T' lab'

section Insert

variable [DecidableEq A] {V : View A E} {up : E → E → Prop} {good : E → Prop} {leaf : E}
  {depth : ℕ} {shared : O} {cross : List I → Prop}
  {T T₁ T' : A → I → E} {lab lab' : Labelling A O I} {a b : A} {o : O} {p is : List I} {i : I}

/-- An upgrade in place keeps the labelling. -/
theorem Labelled.reuse (hup : IsUpgrade V up) (hL : Labelled V depth shared cross T lab)
    (hoff : ∀ c k, lab c ≠ none → (c, k) ≠ (a, i) → T₁ c k = T c k)
    (he : up (T a i) (T₁ a i)) : Labelled V depth shared cross T₁ lab where
  child {c oc pc k} hc hlen hk := by
    by_cases hck : (c, k) = (a, i)
    · obtain ⟨rfl, rfl⟩ := Prod.mk.inj hck
      rw [hup.next he]
      exact hL.child hc hlen ((hup.present he).symm.trans hk)
    · have hrow := hoff c k (by simp [hc]) hck
      rw [hrow] at hk ⊢
      exact hL.child hc hlen hk

/-- …and so does a table grown below an absent entry, under its new label. -/
theorem Labelled.grow (hL : Labelled V depth shared cross T lab) (ha : lab a = some (o, p))
    (hb : lab b = none) (hoff : ∀ c k, lab c ≠ none → (c, k) ≠ (a, i) → T₁ c k = T c k)
    (hnext : V.next (T₁ a i) = b) (hnew : ∀ k, V.present (T₁ b k) = false) :
    Labelled V depth shared cross T₁ (Function.update lab b (some (o, p ++ [i]))) where
  child {c oc pc k} hc hlen hk := by
    have hcb : c ≠ b := by
      rintro rfl
      simp [hnew k] at hk
    rw [Function.update_of_ne hcb] at hc
    by_cases hck : (c, k) = (a, i)
    · obtain ⟨rfl, rfl⟩ := Prod.mk.inj hck
      obtain ⟨rfl, rfl⟩ := Prod.mk.inj (Option.some.inj (hc.symm.trans ha))
      exact ⟨oc, by rw [hnext, Function.update_self], Or.inl rfl⟩
    · have hrow := hoff c k (by simp [hc]) hck
      rw [hrow] at hk ⊢
      obtain ⟨o', ho', hoo⟩ := hL.child hc hlen hk
      refine ⟨o', ?_, hoo⟩
      rwa [Function.update_of_ne (by rintro h; simp [h, hb] at ho')]

/-- …and so does an empty table that hangs nowhere yet, under any label. -/
theorem Labelled.root (hL : Labelled V depth shared cross T lab) (hb : lab b = none)
    (hoff : ∀ c k, lab c ≠ none → T₁ c k = T c k) (hnew : ∀ k, V.present (T₁ b k) = false)
    (l : O × List I) : Labelled V depth shared cross T₁ (Function.update lab b (some l)) where
  child {c oc pc k} hc hlen hk := by
    have hcb : c ≠ b := by
      rintro rfl
      simp [hnew k] at hk
    rw [Function.update_of_ne hcb] at hc
    rw [hoff c k (by simp [hc])] at hk ⊢
    obtain ⟨o', ho', hoo⟩ := hL.child hc hlen hk
    exact ⟨o', by rwa [Function.update_of_ne (by rintro h; simp [h, hb] at ho')], hoo⟩

/-- A table grown below an absent entry opens no path: the old walk broke off there, and the new one
breaks off one step later. -/
theorem walk_grow (hL : Labelled V depth shared cross T lab) (hab : V.present (T a i) = false)
    (hoff : ∀ c k, lab c ≠ none → (c, k) ≠ (a, i) → T₁ c k = T c k)
    (ha : lab a = some (o, p)) (hlen : p.length + 1 < depth) (hnext : V.next (T₁ a i) = b)
    (hnew : ∀ k, V.present (T₁ b k) = false) :
    ∀ (js : List I) {c : A} {oc : O} {pc : List I}, lab c = some (oc, pc) →
      pc.length + js.length = depth → V.walk T₁ c js = V.walk T c js := by
  intro js
  induction js with
  | nil => intros; rfl
  | cons j js ih =>
    intro c oc pc hc hdep
    by_cases hck : (c, j) = (a, i)
    · obtain ⟨rfl, rfl⟩ := Prod.mk.inj hck
      obtain ⟨rfl, rfl⟩ := Prod.mk.inj (Option.some.inj (hc.symm.trans ha))
      rw [V.walk_cons_of_absent hab, V.walk_cons, hnext]
      cases js with
      | nil => simp at hdep; omega
      | cons j' js => simp [V.walk_cons_of_absent (hnew j')]
    · rw [V.walk_cons, V.walk_cons, hoff c j (by simp [hc]) hck]
      split
      case isFalse => rfl
      case isTrue hp =>
        cases js with
        | nil => rfl
        | cons j' js =>
          obtain ⟨o', ho', hlen', -⟩ := hL.next hc hdep hp
          rw [ih ho' hlen']

/-- An upgrade in place shows up in the walks that pass there, and nowhere else. -/
theorem walk_reuse (hup : IsUpgrade V up) (hL : Labelled V depth shared cross T lab)
    (hoff : ∀ c k, lab c ≠ none → (c, k) ≠ (a, i) → T₁ c k = T c k)
    (ha : lab a = some (o, p)) (hlen : p.length + 1 < depth) (he : up (T a i) (T₁ a i)) :
    ∀ (js : List I) {c : A} {oc : O} {pc : List I}, lab c = some (oc, pc) → js ≠ [] →
      pc.length + js.length = depth → WalkRel up (V.walk T c js) (V.walk T₁ c js) := by
  intro js
  induction js with
  | nil => exact fun _ h => absurd rfl h
  | cons j js ih =>
    intro c oc pc hc _ hdep
    have hrow : up (T c j) (T₁ c j) := by
      by_cases hck : (c, j) = (a, i)
      · obtain ⟨rfl, rfl⟩ := Prod.mk.inj hck
        exact he
      · rw [hoff c j (by simp [hc]) hck]
        exact hup.refl _
    rw [V.walk_cons, V.walk_cons, hup.present hrow, hup.next hrow]
    split
    case isFalse => exact .none
    case isTrue hp =>
      cases js with
      | nil =>
        -- The last entry of a full walk lies one level below the upgraded one.
        have hne : (c, j) ≠ (a, i) := by
          rintro h
          obtain ⟨rfl, rfl⟩ := Prod.mk.inj h
          obtain ⟨rfl, rfl⟩ := Prod.mk.inj (Option.some.inj (hc.symm.trans ha))
          simp at hdep
          omega
        rw [hoff c j (by simp [hc]) hne]
        exact .some (.last _)
      | cons j' js =>
        obtain ⟨o', ho', hlen', -⟩ := hL.next hc hdep hp
        exact WalkRel.cons hrow (ih ho' (List.cons_ne_nil _ _) hlen')

/-- A descent forgets no label. -/
theorem Insert.mono (h : Insert V up good leaf T lab a is T' lab') {c : A} {l : O × List I}
    (hc : lab c = some l) : lab' c = some l := by
  induction h with
  | leaf => exact hc
  | reuse _ _ _ _ _ ih => exact ih hc
  | grow _ _ hb _ _ _ _ _ _ ih =>
    refine ih ?_
    rwa [Function.update_of_ne (by rintro rfl; simp [hb] at hc)]

/-- **A descent keeps the store labelled.** -/
theorem Insert.labelled (h : Insert V up good leaf T lab a is T' lab') (hup : IsUpgrade V up)
    (hL : Labelled V depth shared cross T lab) (ha : lab a = some (o, p))
    (hlen : p.length + is.length = depth) : Labelled V depth shared cross T' lab' := by
  induction h generalizing o p with
  | @leaf T T' lab a i hoff hset =>
    refine ⟨fun {c oc pc k} hc hdep hk => ?_⟩
    have hck : (c, k) ≠ (a, i) := by
      rintro hck
      obtain ⟨rfl, rfl⟩ := Prod.mk.inj hck
      obtain ⟨rfl, rfl⟩ := Prod.mk.inj (Option.some.inj (hc.symm.trans ha))
      simp at hlen
      omega
    have hrow := hoff c k (by simp [hc]) hck
    rw [hrow] at hk ⊢
    exact hL.child hc hdep hk
  | reuse hp hoff he _ _ ih =>
    obtain ⟨o', ho', hlen', -⟩ := hL.next ha hlen hp
    exact ih (hL.reuse hup hoff he) ho' hlen'
  | @grow T T₁ T' lab lab' a b oa pa i j is _ hla hb hoff _ hnext _ hnew _ ih =>
    obtain ⟨rfl, rfl⟩ := Prod.mk.inj (Option.some.inj (hla.symm.trans ha))
    exact ih (hL.grow ha hb hoff hnext hnew) (Function.update_self ..)
      (by simp at hlen ⊢; omega)

/-- A descent writes nothing above the table it starts from. -/
theorem Insert.row_above (h : Insert V up good leaf T lab a is T' lab')
    (hL : Labelled V depth shared cross T lab) (hup : IsUpgrade V up) (ha : lab a = some (o, p))
    (hlen : p.length + is.length = depth) {c : A} {oc : O} {pc : List I}
    (hc : lab c = some (oc, pc)) (hlt : pc.length < p.length) (j : I) : T' c j = T c j := by
  have hne : ∀ {lab : Labelling A O I} {a c : A} {o : O} {p : List I}, lab a = some (o, p) →
      lab c = some (oc, pc) → pc.length < p.length → ∀ i, (c, j) ≠ (a, i) := by
    rintro lab a c o p ha hc hlt i hck
    obtain ⟨rfl, rfl⟩ := Prod.mk.inj hck
    obtain ⟨rfl, rfl⟩ := Prod.mk.inj (Option.some.inj (hc.symm.trans ha))
    omega
  induction h generalizing o p with
  | leaf hoff _ => exact hoff c j (by simp [hc]) (hne ha hc hlt _)
  | reuse hp hoff he _ _ ih =>
    obtain ⟨o', ho', hlen', -⟩ := hL.next ha hlen hp
    rw [ih (hL.reuse hup hoff he) ho' hlen' hc (by simp; omega)]
    exact hoff c j (by simp [hc]) (hne ha hc hlt _)
  | @grow T T₁ T' lab lab' a b oa pa i j' is _ hla hb hoff _ hnext _ hnew _ ih =>
    obtain ⟨rfl, rfl⟩ := Prod.mk.inj (Option.some.inj (hla.symm.trans ha))
    rw [ih (hL.grow ha hb hoff hnext hnew) (Function.update_self ..) (by simp at hlen ⊢; omega)
      (by rwa [Function.update_of_ne (by rintro rfl; simp [hb] at hc)]) (by simp; omega)]
    exact hoff c j (by simp [hc]) (hne ha hc hlt _)

/-- **The path a descent was made for ends in its leaf**, under entries that are all `good`. -/
theorem Insert.walk_self (h : Insert V up good leaf T lab a is T' lab') (hup : IsUpgrade V up)
    (hleaf : V.present leaf = true) (hL : Labelled V depth shared cross T lab)
    (ha : lab a = some (o, p)) (hlen : p.length + is.length = depth) :
    ∃ es, V.walk T' a is = some (es ++ [leaf]) ∧ ∀ e ∈ es, good e := by
  induction h generalizing o p with
  | leaf _ hset => exact ⟨[], by simp [V.walk_cons, hset, hleaf], by simp⟩
  | @reuse T T₁ T' lab lab' a i j is hp hoff he hgood hins ih =>
    obtain ⟨o', ho', hlen', -⟩ := hL.next ha hlen hp
    have hL₁ := hL.reuse hup hoff he
    obtain ⟨es, hes, hg⟩ := ih hL₁ ho' hlen'
    have hrow : T' a i = T₁ a i := hins.row_above hL₁ hup ho' hlen' ha (by simp) i
    refine ⟨T₁ a i :: es, ?_, by simpa [hgood] using hg⟩
    rw [V.walk_cons_of_present (by rw [hrow, hup.present he, hp]), hrow, hup.next he, hes]
    rfl
  | @grow T T₁ T' lab lab' a b oa pa i j is _ hla hb hoff hp hnext hgood hnew hins ih =>
    obtain ⟨rfl, rfl⟩ := Prod.mk.inj (Option.some.inj (hla.symm.trans ha))
    have hL₁ := hL.grow ha hb hoff hnext hnew
    have hlen' : (pa ++ [i]).length + (j :: is).length = depth := by simp at hlen ⊢; omega
    have hab : a ≠ b := by rintro rfl; simp [hb] at ha
    obtain ⟨es, hes, hg⟩ := ih hL₁ (Function.update_self ..) hlen'
    have hrow : T' a i = T₁ a i := hins.row_above hL₁ hup (Function.update_self ..) hlen'
      (by rwa [Function.update_of_ne hab]) (by simp) i
    refine ⟨T₁ a i :: es, ?_, by simpa [hgood] using hg⟩
    rw [V.walk_cons_of_present (by rw [hrow, hp, hleaf]), hrow, hnext, hes]
    rfl

/-- …and with an absent leaf it breaks off. -/
theorem Insert.walk_self_of_absent (h : Insert V up good leaf T lab a is T' lab')
    (hup : IsUpgrade V up) (hleaf : V.present leaf = false)
    (hL : Labelled V depth shared cross T lab) (ha : lab a = some (o, p))
    (hlen : p.length + is.length = depth) : V.walk T' a is = none := by
  induction h generalizing o p with
  | leaf _ hset => exact V.walk_cons_of_absent (by rw [hset, hleaf])
  | @reuse T T₁ T' lab lab' a i j is hp hoff he _ hins ih =>
    obtain ⟨o', ho', hlen', -⟩ := hL.next ha hlen hp
    have hL₁ := hL.reuse hup hoff he
    have hrow : T' a i = T₁ a i := hins.row_above hL₁ hup ho' hlen' ha (by simp) i
    rw [V.walk_cons_of_present (by rw [hrow, hup.present he, hp]), hrow, hup.next he,
      ih hL₁ ho' hlen']
    rfl
  | @grow T T₁ T' lab lab' a b oa pa i j is _ hla hb hoff hp hnext _ hnew hins _ =>
    obtain ⟨rfl, rfl⟩ := Prod.mk.inj (Option.some.inj (hla.symm.trans ha))
    have hL₁ := hL.grow ha hb hoff hnext hnew
    have hab : a ≠ b := by rintro rfl; simp [hb] at ha
    have hrow : T' a i = T₁ a i := hins.row_above hL₁ hup (Function.update_self ..)
      (by simp at hlen ⊢; omega) (by rwa [Function.update_of_ne hab]) (by simp) i
    exact V.walk_cons_of_absent (by rw [hrow, hp, hleaf])

/-- A descent writes only below its first entry. -/
theorem Insert.row_off (h : Insert V up good leaf T lab a (i :: is) T' lab')
    (hL : Labelled V depth shared cross T lab) (hup : IsUpgrade V up) (ha : lab a = some (o, p))
    (hlen : p.length + (i :: is).length = depth) {c : A} {oc : O} {pc : List I} (j : I)
    (hc : lab c = some (oc, pc)) (hpre : ¬ p ++ [i] <+: pc ++ [j]) : T' c j = T c j := by
  have hne : ∀ {lab : Labelling A O I} {a c : A} {o : O} {p : List I} {i : I},
      lab a = some (o, p) → lab c = some (oc, pc) → ¬ p ++ [i] <+: pc ++ [j] →
        (c, j) ≠ (a, i) := by
    rintro lab a c o p i ha hc hpre hck
    obtain ⟨rfl, rfl⟩ := Prod.mk.inj hck
    obtain ⟨rfl, rfl⟩ := Prod.mk.inj (Option.some.inj (hc.symm.trans ha))
    exact hpre (List.prefix_refl _)
  generalize hpath : i :: is = path at h hlen
  induction h generalizing o p i is with
  | leaf hoff _ =>
    obtain ⟨rfl, -⟩ := List.cons.inj hpath
    exact hoff c j (by simp [hc]) (hne ha hc hpre)
  | @reuse T T₁ T' lab lab' a i' j' is' hp hoff he _ _ ih =>
    obtain ⟨rfl, -⟩ := List.cons.inj hpath
    obtain ⟨o', ho', hlen', -⟩ := hL.next ha hlen hp
    rw [ih (hL.reuse hup hoff he) ho' hc (fun h => hpre (.trans ⟨[j'], rfl⟩ h)) rfl hlen']
    exact hoff c j (by simp [hc]) (hne ha hc hpre)
  | @grow T T₁ T' lab lab' a b oa pa i' j' is' _ hla hb hoff _ hnext _ hnew _ ih =>
    obtain ⟨rfl, -⟩ := List.cons.inj hpath
    obtain ⟨rfl, rfl⟩ := Prod.mk.inj (Option.some.inj (hla.symm.trans ha))
    rw [ih (hL.grow ha hb hoff hnext hnew) (Function.update_self ..)
      (by rwa [Function.update_of_ne (by rintro rfl; simp [hb] at hc)])
      (fun h => hpre (.trans ⟨[j'], rfl⟩ h)) rfl (by simp at hlen ⊢; omega)]
    exact hoff c j (by simp [hc]) (hne ha hc hpre)

/-- **A path that parts from the descent at its first entry walks exactly as before.** -/
theorem Insert.walk_off (h : Insert V up good leaf T lab a (i :: is) T' lab')
    (hL : Labelled V depth shared cross T lab) (hup : IsUpgrade V up) (ha : lab a = some (o, p))
    (hlen : p.length + (i :: is).length = depth) {c : A} {oc : O} {pc js : List I}
    (hc : lab c = some (oc, pc)) (hdep : pc.length + js.length = depth)
    (hpre : ¬ p ++ [i] <+: pc ++ js) : V.walk T' c js = V.walk T c js :=
  walk_eq_of_off hL (fun j hc hpre => h.row_off hL hup ha hlen j hc hpre) js hc hdep hpre

/-- **Every other path walks as before**, up to the upgrades above its last entry. -/
theorem Insert.walk_other (h : Insert V up good leaf T lab a is T' lab') (hup : IsUpgrade V up)
    (hL : Labelled V depth shared cross T lab) (ha : lab a = some (o, p))
    (hlen : p.length + is.length = depth) {c : A} {oc : O} {pc js : List I}
    (hc : lab c = some (oc, pc)) (hjs : js ≠ []) (hdep : pc.length + js.length = depth)
    (hne : pc ++ js ≠ p ++ is) : WalkRel up (V.walk T c js) (V.walk T' c js) := by
  induction h generalizing o p with
  | @leaf T T' lab a i hoff hset =>
    have hpre : ¬ p ++ [i] <+: pc ++ js := fun hpre =>
      hne (hpre.eq_of_length (by simp at hlen ⊢; omega)).symm
    have hins : Insert V up good leaf T lab a [i] T' lab := .leaf hoff hset
    rw [hins.walk_off hL hup ha hlen hc hdep hpre]
    obtain ⟨j, js, rfl⟩ := List.exists_cons_of_ne_nil hjs
    exact WalkRel.refl hup V.walk_cons_ne
  | reuse hp hoff he _ _ ih =>
    obtain ⟨o', ho', hlen', -⟩ := hL.next ha hlen hp
    refine WalkRel.trans hup
      (walk_reuse hup hL hoff ha (by simp at hlen; omega) he js hc hjs hdep) ?_
    exact ih (hL.reuse hup hoff he) ho' hlen' hc (by simpa using hne)
  | @grow T T₁ T' lab lab' a b oa pa i j is hab hla hb hoff _ hnext _ hnew _ ih =>
    obtain ⟨rfl, rfl⟩ := Prod.mk.inj (Option.some.inj (hla.symm.trans ha))
    rw [← walk_grow hL hab hoff ha (by simp at hlen; omega) hnext hnew js hc hdep]
    exact ih (hL.grow ha hb hoff hnext hnew) (Function.update_self ..)
      (by simp at hlen ⊢; omega)
      (by rwa [Function.update_of_ne (by rintro rfl; simp [hb] at hc)]) (by simpa using hne)

/-- A descent that never crosses into the shared trees writes only tables of its own owner. -/
theorem Insert.row_owner (h : Insert V up good leaf T lab a is T' lab') (hup : IsUpgrade V up)
    (hL : Labelled V depth shared cross T lab) (ha : lab a = some (o, p))
    (hlen : p.length + is.length = depth)
    (hcross : ∀ q, q <+: p ++ is → p.length < q.length → ¬ cross q) {c : A} {oc : O}
    {pc : List I} (hc : lab c = some (oc, pc)) (hne : oc ≠ o) (j : I) : T' c j = T c j := by
  have hca : ∀ {lab : Labelling A O I} {a : A} {p : List I}, lab a = some (o, p) →
      lab c = some (oc, pc) → ∀ i, (c, j) ≠ (a, i) := by
    rintro lab a p ha hc i hck
    obtain ⟨rfl, rfl⟩ := Prod.mk.inj hck
    obtain ⟨rfl, rfl⟩ := Prod.mk.inj (Option.some.inj (hc.symm.trans ha))
    exact hne rfl
  induction h generalizing p with
  | leaf hoff _ => exact hoff c j (by simp [hc]) (hca ha hc _)
  | @reuse T T₁ T' lab lab' a i j' is hp hoff he _ _ ih =>
    obtain ⟨o', ho', rfl | ⟨-, hx⟩⟩ := hL.child ha (by simp at hlen; omega) hp
    · rw [ih (hL.reuse hup hoff he) ho' (by simp at hlen ⊢; omega)
        (fun q hq hlt => hcross q (by simpa using hq) (by simp at hlt; omega)) hc]
      exact hoff c j (by simp [hc]) (hca ha hc _)
    · exact absurd hx (hcross _ ⟨j' :: is, by simp⟩ (by simp))
  | @grow T T₁ T' lab lab' a b oa pa i j' is _ hla hb hoff _ hnext _ hnew _ ih =>
    obtain ⟨rfl, rfl⟩ := Prod.mk.inj (Option.some.inj (hla.symm.trans ha))
    rw [ih (hL.grow ha hb hoff hnext hnew) (Function.update_self ..) (by simp at hlen ⊢; omega)
      (fun q hq hlt => hcross q (by simpa using hq) (by simp at hlt; omega))
      (by rwa [Function.update_of_ne (by rintro rfl; simp [hb] at hc)])]
    exact hoff c j (by simp [hc]) (hca ha hc _)

/-- **The trees of other owners walk exactly as before.** -/
theorem Insert.walk_owner (h : Insert V up good leaf T lab a is T' lab') (hup : IsUpgrade V up)
    (hL : Labelled V depth shared cross T lab) (ha : lab a = some (o, p))
    (hlen : p.length + is.length = depth)
    (hcross : ∀ q, q <+: p ++ is → p.length < q.length → ¬ cross q) (hs : shared ≠ o) {c : A}
    {oc : O} {pc js : List I} (hc : lab c = some (oc, pc)) (hne : oc ≠ o)
    (hdep : pc.length + js.length = depth) : V.walk T' c js = V.walk T c js :=
  walk_eq_of_owner hL hs
    (fun _ _ _ j hc hne => h.row_owner hup hL ha hlen hcross hc hne j) js hc hne hdep

/-- Wherever a descent crosses, the tables of a third owner are left alone. -/
theorem Insert.row_foreign (h : Insert V up good leaf T lab a is T' lab') (hup : IsUpgrade V up)
    (hL : Labelled V depth shared cross T lab) (ha : lab a = some (o, p))
    (hlen : p.length + is.length = depth) {c : A} {oc : O} {pc : List I}
    (hc : lab c = some (oc, pc)) (hne : oc ≠ o) (hs : oc ≠ shared) (j : I) : T' c j = T c j := by
  have hca : ∀ {lab : Labelling A O I} {a : A} {o : O} {p : List I}, lab a = some (o, p) →
      lab c = some (oc, pc) → oc ≠ o → ∀ i, (c, j) ≠ (a, i) := by
    rintro lab a o p ha hc hne i hck
    obtain ⟨rfl, rfl⟩ := Prod.mk.inj hck
    obtain ⟨rfl, rfl⟩ := Prod.mk.inj (Option.some.inj (hc.symm.trans ha))
    exact hne rfl
  induction h generalizing o p with
  | leaf hoff _ => exact hoff c j (by simp [hc]) (hca ha hc hne _)
  | reuse hp hoff he _ _ ih =>
    obtain ⟨o', ho', hlen', hoo⟩ := hL.next ha hlen hp
    have hne' : oc ≠ o' := by
      rcases hoo with rfl | rfl
      · exact hne
      · exact hs
    rw [ih (hL.reuse hup hoff he) ho' hlen' hc hne']
    exact hoff c j (by simp [hc]) (hca ha hc hne _)
  | @grow T T₁ T' lab lab' a b oa pa i j' is _ hla hb hoff _ hnext _ hnew _ ih =>
    obtain ⟨rfl, rfl⟩ := Prod.mk.inj (Option.some.inj (hla.symm.trans ha))
    rw [ih (hL.grow ha hb hoff hnext hnew) (Function.update_self ..) (by simp at hlen ⊢; omega)
      (by rwa [Function.update_of_ne (by rintro rfl; simp [hb] at hc)]) hne]
    exact hoff c j (by simp [hc]) (hca ha hc hne _)

end Insert

end TableForest

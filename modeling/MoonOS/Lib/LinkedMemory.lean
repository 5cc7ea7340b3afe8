import MoonOS.Lib.ByteMemory

/-!
# Lib/LinkedMemory — linked lists and aligned blocks in byte memory

`Linked m a l`: from the pointer `a` on, the nodes of a list are at the addresses `l`.  A node's
first word is the pointer to the next node, and the null pointer ends the list.

* `Linked.unique` — memory and a pointer determine the list, and `Linked.nodup`, no node is in it
  twice;
* `Linked.congr` — what does not write the first word of a node keeps it;
* `load_store_block` — words in aligned blocks are seen apart by block and offset alone.
-/

namespace ByteMemory

variable {m m' : Mem} {a b p q : BitVec 64} {l l' : List (BitVec 64)} {i j k n : ℕ}

/-! ## Lists -/

/-- **The nodes of the list that starts at `a`.** -/
def Linked (m : Mem) : BitVec 64 → List (BitVec 64) → Prop
  | a, [] => a = 0#64
  | a, b :: l => a = b ∧ b ≠ 0#64 ∧ Linked m (load m b 8) l

@[simp] theorem linked_nil : Linked m a [] ↔ a = 0#64 := Iff.rfl

@[simp] theorem linked_cons :
    Linked m a (b :: l) ↔ a = b ∧ b ≠ 0#64 ∧ Linked m (load m b 8) l := Iff.rfl

/-- A list is empty exactly when its pointer is null. -/
theorem Linked.eq_zero_iff (h : Linked m a l) : a = 0#64 ↔ l = [] := by
  cases l with
  | nil => simpa using h
  | cons b l =>
    obtain ⟨rfl, hb, -⟩ := h
    simpa using hb

/-- **Memory and a pointer determine the list.** -/
theorem Linked.unique (h : Linked m a l) (h' : Linked m a l') : l = l' := by
  induction l generalizing a l' with
  | nil => exact (h'.eq_zero_iff.mp h).symm
  | cons b l ih =>
    obtain ⟨rfl, hb, hrest⟩ := h
    cases l' with
    | nil => exact absurd h' hb
    | cons b' l' =>
      obtain ⟨rfl, -, hrest'⟩ := h'
      rw [ih hrest hrest']

/-- A node that is linked to itself is in no list. -/
theorem not_linked_self (ha : a ≠ 0#64) (hself : load m a 8 = a) : ¬ Linked m a l := by
  intro h
  cases l with
  | nil => exact ha h
  | cons b l =>
    have hcons := h
    obtain ⟨rfl, -, hrest⟩ := h
    rw [hself] at hrest
    have hlen := congrArg List.length (hrest.unique hcons)
    rw [List.length_cons] at hlen
    omega

theorem Linked.congr (h : Linked m a l) (hm : ∀ b ∈ l, load m' b 8 = load m b 8) :
    Linked m' a l := by
  induction l generalizing a with
  | nil => exact h
  | cons b l ih =>
    obtain ⟨rfl, hb, hrest⟩ := h
    refine ⟨rfl, hb, ?_⟩
    rw [hm _ List.mem_cons_self]
    exact ih hrest fun c hc => hm c (List.mem_cons_of_mem _ hc)

/-- From any of its nodes on, a list is a list. -/
theorem Linked.from_node {pre : List (BitVec 64)} (h : Linked m a (pre ++ b :: l)) :
    Linked m b (b :: l) := by
  induction pre generalizing a with
  | nil =>
    obtain ⟨-, hb, hrest⟩ := h
    exact ⟨rfl, hb, hrest⟩
  | cons c pre ih => exact ih h.2.2

/-- **No node is in a list twice.** -/
theorem Linked.nodup (h : Linked m a l) : l.Nodup := by
  induction l generalizing a with
  | nil => exact List.nodup_nil
  | cons b l ih =>
    obtain ⟨-, hb, hrest⟩ := h
    refine List.nodup_cons.mpr ⟨fun hmem => ?_, ih hrest⟩
    obtain ⟨pre, post, rfl⟩ := List.append_of_mem hmem
    have htwice : Linked m b (b :: (pre ++ b :: post)) := ⟨rfl, hb, hrest⟩
    have hlen := congrArg List.length (hrest.from_node.unique htwice)
    simp only [List.length_cons, List.length_append] at hlen
    omega

/-- The nodes of an indexed family, linked one after the other. -/
theorem linked_range' {f : ℕ → BitVec 64} (hne : ∀ i < k, f i ≠ 0#64)
    (hnext : ∀ i, i + 1 < k → load m (f i) 8 = f (i + 1))
    (hlast : ∀ i, i + 1 = k → load m (f i) 8 = 0#64) :
    ∀ n i, i + n = k → Linked m (if i < k then f i else 0#64) ((List.range' i n).map f)
  | 0, i, h => if_neg (by omega)
  | n + 1, i, h => by
      have hi : i < k := by omega
      rw [if_pos hi, List.range'_succ, List.map_cons]
      refine ⟨rfl, hne i hi, ?_⟩
      have hrest := linked_range' hne hnext hlast n (i + 1) (by omega)
      by_cases hend : i + 1 < k
      · rwa [if_pos hend, ← hnext i hend] at hrest
      · rwa [if_neg hend, ← hlast i (by omega)] at hrest

theorem linked_range {f : ℕ → BitVec 64} (hpos : 0 < k) (hne : ∀ i < k, f i ≠ 0#64)
    (hnext : ∀ i, i + 1 < k → load m (f i) 8 = f (i + 1))
    (hlast : ∀ i, i + 1 = k → load m (f i) 8 = 0#64) : Linked m (f 0) ((List.range k).map f) := by
  have hall := linked_range' hne hnext hlast k 0 (by omega)
  rwa [if_pos hpos, ← List.range_eq_range'] at hall

/-! ## Words stored twice -/

/-- The second of two words stored in one place is what counts… -/
theorem store_store (m : Mem) (a : BitVec 64) (v w : BitVec (8 * n)) :
    store (store m a n v) a n w = store m a n w := by
  funext x
  simp only [store]
  split <;> rfl

/-- …and storing what is there changes nothing. -/
theorem store_load {v : BitVec (8 * n)} (h : load m a n = v) : store m a n v = m := by
  funext x
  rw [store]
  split
  · rename_i hx
    rw [← h, extractLsb'_load m a hx, at'_toNat_sub]
  · rfl

/-- What is stored into two memories with the same word, anywhere, leaves them the same word. -/
theorem load_store_congr (h : load m a k = load m' a k) (b : BitVec 64) (v : BitVec (8 * n)) :
    load (store m b n v) a k = load (store m' b n v) a k := by
  refine load_congr fun i hi => ?_
  rw [store, store, ← extractLsb'_load m a hi, ← extractLsb'_load m' a hi, h]

/-! ## Bytes of a block -/

/-- The bytes of a word whose value is known. -/
theorem byte_of_load {v : BitVec (8 * n)} (h : load m (at' p i) n = v) (hk : k < n) :
    m (at' p (i + k)) = v.extractLsb' (8 * k) 8 := by
  rw [← h, extractLsb'_load m _ hk, at'_at']

/-- A byte of a stored word… -/
theorem store_at'_of_mem (m : Mem) (p : BitVec 64) (hi : i ≤ j) (hj : j < i + n) (hlt : j < 2 ^ 64)
    (v : BitVec (8 * n)) : store m (at' p i) n v (at' p j) = v.extractLsb' (8 * (j - i)) 8 := by
  have hoff : (at' p j - at' p i).toNat = j - i := by bv_omega
  rw [store, hoff, if_pos (by omega)]

/-- …and one beside it. -/
theorem store_at'_of_not_mem (m : Mem) (p : BitVec 64) (h : j < i ∨ i + n ≤ j) (hi : i + n ≤ 2 ^ 64)
    (hj : j < 2 ^ 64) (v : BitVec (8 * n)) : store m (at' p i) n v (at' p j) = m (at' p j) := by
  refine store_of_outside ?_
  bv_omega

/-! ## Aligned blocks -/

section Blocks

variable {B : ℕ}

/-- Two aligned blocks are a block apart, both ways around. -/
theorem le_toNat_sub_of_dvd (hB : B ∣ 2 ^ 64) (hp : B ∣ p.toNat) (hq : B ∣ q.toNat) (hne : p ≠ q) :
    B ≤ (p - q).toNat ∧ (p - q).toNat + B ≤ 2 ^ 64 := by
  have hdvd : B ∣ (p - q).toNat := by
    rw [BitVec.toNat_sub]
    exact (Nat.dvd_mod_iff hB).mpr (dvd_add (Nat.dvd_sub hB hq) hp)
  have hpos : 0 < (p - q).toNat := by
    refine Nat.pos_of_ne_zero fun h => hne ?_
    rw [← at'_toNat_sub q p, h, at'_zero]
  have hlt := (p - q).isLt
  refine ⟨Nat.le_of_dvd hpos hdvd, ?_⟩
  have hrest := Nat.le_of_dvd (by omega) (Nat.dvd_sub hB hdvd)
  omega

/-- **Windows of two aligned blocks are apart.** -/
theorem apart_blocks (hB : B ∣ 2 ^ 64) (hp : B ∣ p.toNat) (hq : B ∣ q.toNat) (hne : p ≠ q)
    (hi : i + n ≤ B) (hj : j + k ≤ B) : Apart (at' p i) n (at' q j) k := by
  intro x hx
  obtain ⟨hlo, hhi⟩ := le_toNat_sub_of_dvd hB hp hq hne
  have hoff : at' (at' p i) x - at' q j
      = (p - q) + BitVec.ofNat 64 (i + x) - BitVec.ofNat 64 j := by
    simp only [at', BitVec.ofNat_add]
    grind
  rw [hoff, BitVec.toNat_sub, BitVec.toNat_add, BitVec.toNat_ofNat, BitVec.toNat_ofNat]
  omega

/-- **A word stored in an aligned block is not seen from another block**, nor beside it. -/
theorem load_store_block (hB : B ∣ 2 ^ 64) (hp : B ∣ p.toNat) (hq : B ∣ q.toNat)
    (hi : i + n ≤ B) (hj : j + k ≤ B) (h : p ≠ q ∨ i + n ≤ j ∨ j + k ≤ i) (v : BitVec (8 * n)) :
    load (store m (at' p i) n v) (at' q j) k = load m (at' q j) k := by
  have hle : B ≤ 2 ^ 64 := Nat.le_of_dvd (by decide) hB
  by_cases hne : p = q
  · subst hne
    exact load_store_at' p (h.resolve_left (· rfl)) (by omega) (by omega) v
  · exact load_store_apart (apart_blocks hB hq hp (Ne.symm hne) hj hi) v

end Blocks

end ByteMemory

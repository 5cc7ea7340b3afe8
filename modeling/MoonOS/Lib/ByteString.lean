import MoonOS.Lib.ByteMemory

/-!
# Lib/ByteString — strings of bytes in a memory

`Holds m a bs` says that the bytes from `a` on are `bs`, and `CString m a s` that they are a string
`s` and its terminator.  A loop over a string takes it apart at the front, so the lemmas follow the
list: `holds_cons`, `CString.cons`.
-/

namespace ByteMemory

variable {m m' : Mem} {a : BitVec 64} {c : BitVec 8} {s bs : List (BitVec 8)}

/-- The bytes from `a` on are `bs`. -/
def Holds (m : Mem) (a : BitVec 64) (bs : List (BitVec 8)) : Prop :=
  ∀ i (hi : i < bs.length), m (at' a i) = bs.get ⟨i, hi⟩

instance (m : Mem) (a : BitVec 64) (bs : List (BitVec 8)) : Decidable (Holds m a bs) :=
  inferInstanceAs (Decidable (∀ i (hi : i < bs.length), m (at' a i) = bs.get ⟨i, hi⟩))

theorem holds_nil (m : Mem) (a : BitVec 64) : Holds m a [] :=
  fun i hi => absurd hi (Nat.not_lt_zero i)

theorem holds_cons : Holds m a (c :: bs) ↔ m a = c ∧ Holds m (a + 1) bs := by
  constructor
  · intro h
    refine ⟨by simpa using h 0 (Nat.zero_lt_succ _), fun i hi => ?_⟩
    rw [at'_succ]
    exact h (i + 1) (Nat.succ_lt_succ hi)
  · rintro ⟨hhead, htail⟩ i hi
    cases i with
    | zero => simpa using hhead
    | succ i =>
      rw [← at'_succ]
      exact htail i (Nat.lt_of_succ_lt_succ hi)

theorem holds_append {bs' : List (BitVec 8)} :
    Holds m a (bs ++ bs') ↔ Holds m a bs ∧ Holds m (at' a bs.length) bs' := by
  induction bs generalizing a with
  | nil => simp [holds_nil]
  | cons b bs ih =>
    rw [List.cons_append, holds_cons, ih, holds_cons, and_assoc, at'_succ, List.length_cons]

theorem holds_singleton : Holds m a [c] ↔ m a = c := by
  rw [holds_cons, and_iff_left (holds_nil m _)]

/-- What a memory holds, one that agrees with it there holds. -/
theorem Holds.congr (h : Holds m a bs) (hsame : ∀ i < bs.length, m' (at' a i) = m (at' a i)) :
    Holds m' a bs :=
  fun i hi => (hsame i hi).trans (h i hi)

/-- The bytes read one by one. -/
theorem Holds.map_range (h : Holds m a bs) :
    ((List.range bs.length).map fun i => m (at' a i)) = bs := by
  refine List.ext_getElem (by simp) fun i hi hi' => ?_
  rw [List.getElem_map, List.getElem_range]
  exact h i hi'

/-- What a memory holds, writes apart from it leave. -/
theorem Holds.sameOutside {b : BitVec 64} {k : ℕ} (h : Holds m a bs) (hsame : SameOutside b k m m')
    (hapart : Apart a bs.length b k) : Holds m' a bs :=
  h.congr fun i hi => hsame _ (hapart i hi)

/-- Writing the byte behind `bs`. -/
theorem Holds.update {bs' : List (BitVec 8)} (h : Holds m a (bs ++ c :: bs')) (v : BitVec 8)
    (hlen : (bs ++ c :: bs').length ≤ 2 ^ 64) :
    Holds (Function.update m (at' a bs.length) v) a (bs ++ v :: bs') := by
  rw [List.length_append, List.length_cons] at hlen
  obtain ⟨hfront, hback⟩ := holds_append.mp h
  refine holds_append.mpr
    ⟨hfront.congr fun i hi => ?_, holds_cons.mpr ⟨Function.update_self .., ?_⟩⟩
  · exact Function.update_of_ne (by bv_omega) _ _
  · refine (holds_cons.mp hback).2.congr fun i hi => Function.update_of_ne ?_ _ _
    bv_omega

theorem holds_fill {n : ℕ} (hn : n ≤ 2 ^ 64) (m : Mem) (a : BitVec 64) (v : BitVec 8) :
    Holds (fill m a n v) a (List.replicate n v) := by
  intro i hi
  rw [List.length_replicate] at hi
  rw [fill, toNat_at'_sub a (by omega), if_pos hi, List.get_eq_getElem, List.getElem_replicate]

/-- Comparing the first bytes of two blocks. -/
theorem Holds.isPrefix_iff {b : BitVec 64} {bs' : List (BitVec 8)} (h : Holds m a bs)
    (h' : Holds m b bs') (hlen : bs.length ≤ bs'.length) :
    (∀ i < bs.length, m (at' a i) = m (at' b i)) ↔ bs <+: bs' := by
  rw [List.prefix_iff_getElem]
  constructor
  · intro hsame
    refine ⟨hlen, fun i hi => ?_⟩
    exact (h i hi).symm.trans ((hsame i hi).trans (h' i (hi.trans_le hlen)))
  · rintro ⟨_, hsame⟩ i hi
    exact (h i hi).trans ((hsame i hi).trans (h' i (hi.trans_le hlen)).symm)

/-- A string and its terminator. -/
structure CString (m : Mem) (a : BitVec 64) (s : List (BitVec 8)) : Prop where
  bytes : Holds m a (s ++ [0#8])
  text : 0#8 ∉ s

theorem CString.nil (h : CString m a []) : m a = 0#8 :=
  holds_singleton.mp h.bytes

/-- A string starts with a character, which is not the terminator, and goes on as one. -/
theorem CString.cons (h : CString m a (c :: s)) : m a = c ∧ c ≠ 0#8 ∧ CString m (a + 1) s := by
  obtain ⟨hhead, htail⟩ := holds_cons.mp h.bytes
  exact ⟨hhead, fun hzero => h.text (hzero ▸ List.mem_cons_self), htail,
    fun hmem => h.text (List.mem_cons_of_mem c hmem)⟩

/-- What is left of a string behind its first characters. -/
theorem CString.drop (h : CString m a s) {n : ℕ} (hn : n ≤ s.length) :
    CString m (at' a n) (s.drop n) := by
  have hsplit := h.bytes
  rw [← List.take_append_drop n s, List.append_assoc, holds_append, List.length_take_of_le hn]
    at hsplit
  exact ⟨hsplit.2, fun hmem => h.text (List.mem_of_mem_drop hmem)⟩

/-- A string is shorter than the address space: the terminator would be one of its characters. -/
theorem CString.length_lt (h : CString m a s) : s.length < 2 ^ 64 := by
  by_contra hlen
  have hwrap : at' a (s.length - 2 ^ 64) = at' a s.length := by bv_omega
  obtain ⟨hchars, hzero⟩ := holds_append.mp h.bytes
  have hchar := hchars (s.length - 2 ^ 64) (by omega)
  rw [hwrap, holds_singleton.mp hzero] at hchar
  exact h.text (hchar ▸ List.get_mem _ _)

end ByteMemory

import MoonOS.Mm.Addr

/-!
# Mm/Paging — page table entries

`Pte` is the packed bit-field structure of `kernel/arch/x86/paging/paging.h`, and `Pte.toWord` /
`Pte.ofWord` are its 64-bit layout: nine flag bits from bit 0 up, three available bits, and the page
frame number in the high 52.  Tables hold words; `ofWord_toWord` is what lets the rest of the
development speak of entries.
-/

namespace MoonOS

open ByteMemory

/-- `struct Pte`. -/
@[ext]
structure Pte where
  present : Bool
  readwrite : Bool
  supervisor : Bool
  writethrough : Bool
  cacheDisabled : Bool
  accessed : Bool
  dirty : Bool
  pagesize : Bool
  global : Bool
  avail : BitVec 3
  address : BitVec 52
deriving DecidableEq, Repr

/-- The word an entry is stored as. -/
def Pte.toWord (e : Pte) : BitVec 64 :=
  e.address ++ e.avail ++ BitVec.ofBool e.global ++ BitVec.ofBool e.pagesize
    ++ BitVec.ofBool e.dirty ++ BitVec.ofBool e.accessed ++ BitVec.ofBool e.cacheDisabled
    ++ BitVec.ofBool e.writethrough ++ BitVec.ofBool e.supervisor ++ BitVec.ofBool e.readwrite
    ++ BitVec.ofBool e.present

/-- The entry a word is read as. -/
def Pte.ofWord (w : BitVec 64) : Pte where
  present := w.getLsbD 0
  readwrite := w.getLsbD 1
  supervisor := w.getLsbD 2
  writethrough := w.getLsbD 3
  cacheDisabled := w.getLsbD 4
  accessed := w.getLsbD 5
  dirty := w.getLsbD 6
  pagesize := w.getLsbD 7
  global := w.getLsbD 8
  avail := w.extractLsb' 9 3
  address := w.extractLsb' 12 52

/-- **The layout loses nothing.** -/
@[simp] theorem Pte.ofWord_toWord (e : Pte) : Pte.ofWord e.toWord = e := by
  obtain ⟨p, rw', us, wt, cd, ac, di, ps, gl, av, ad⟩ := e
  simp only [Pte.ofWord, Pte.toWord, Pte.mk.injEq]
  refine ⟨?_, ?_, ?_, ?_, ?_, ?_, ?_, ?_, ?_, BitVec.eq_of_getLsbD_eq fun i hi => ?_,
    BitVec.eq_of_getLsbD_eq fun i hi => ?_⟩
  all_goals simp only [BitVec.getLsbD_extractLsb', BitVec.getLsbD_append, BitVec.getLsbD_ofBool]
  case refine_10 =>
    -- The nine flag bits lie below bit 9, so each `append` is taken on its left.
    simp only [hi, decide_true, Bool.true_and]
    repeat rw [if_neg (by omega)]
    rw [if_pos (by omega)]
    congr 1
    omega
  case refine_11 =>
    simp only [hi, decide_true, Bool.true_and]
    repeat rw [if_neg (by omega)]
    congr 1
    omega
  all_goals simp

/-- `check_flag`. -/
def checkFlag (flags : BitVec 32) (bit : ℕ) : Bool :=
  flags.sshiftRight bit &&& 1#32 != 0#32

/-- `paging_create_entry`. -/
def pagingCreateEntry (paddr : BitVec 64) (flags : BitVec 32) : Pte where
  present := checkFlag flags 0
  readwrite := checkFlag flags 1
  supervisor := checkFlag flags 2
  writethrough := false
  cacheDisabled := false
  accessed := false
  dirty := false
  pagesize := false
  global := false
  avail := 0#3
  address := (paddr >>> 12).setWidth 52

/-- `paging_purge_entry`. -/
def pagingPurgeEntry : Pte := pagingCreateEntry 0#64 0#32

/-- `MAP_READONLY`: present, read-only, kernel only. -/
def mapReadonly : BitVec 32 := 1#32

/-- `MAP_KERN`: read-write, kernel only. -/
def mapKern : BitVec 32 := 3#32

/-- `MAP_USER_RO`: user accessible, read-only. -/
def mapUserRo : BitVec 32 := 5#32

/-- `MAP_USER_RW`: user accessible, read-write. -/
def mapUserRw : BitVec 32 := 7#32

/-- **A flag is the bit it is numbered by** — the arithmetic shift only fills from above. -/
theorem checkFlag_eq {flags : BitVec 32} {bit : ℕ} (h : bit < 32) :
    checkFlag flags bit = flags.getLsbD bit := by
  have hbit : (flags.sshiftRight bit &&& 1#32).getLsbD 0 = flags.getLsbD bit := by
    simp [BitVec.getElem_sshiftRight, h]
  have hval : flags.sshiftRight bit &&& 1#32
      = if flags.getLsbD bit then 1#32 else 0#32 := by
    refine BitVec.eq_of_getLsbD_eq fun i _ => ?_
    cases i with
    | zero => rw [hbit]; split <;> simp_all
    | succ i => split <;> simp [BitVec.getLsbD_one]
  rw [checkFlag, hval]
  cases flags.getLsbD bit <;> rfl

/-- The frame number of an address, as an address again: the low twelve bits are gone. -/
theorem setWidth_shiftLeft_address (paddr : BitVec 64) (flags : BitVec 32) :
    (pagingCreateEntry paddr flags).address.setWidth 64 <<< 12 = paddr &&& ~~~0xfff#64 := by
  refine BitVec.eq_of_getLsbD_eq fun i hi => ?_
  have hmask : ∀ j : Fin 64, (~~~0xfff#64).getLsbD j = decide (12 ≤ (j : ℕ)) := by decide
  simp only [pagingCreateEntry, BitVec.getLsbD_shiftLeft, BitVec.getLsbD_setWidth,
    BitVec.getLsbD_ushiftRight, BitVec.getLsbD_and, hmask ⟨i, hi⟩]
  by_cases h : 12 ≤ i
  · simp [h, hi, show ¬ i < 12 by omega, show i - 12 < 64 by omega, show i - 12 < 52 by omega,
      show 12 + (i - 12) = i by omega]
  · simp [h, show i < 12 by omega]

/-- …and nothing else is lost at the field's own width, below `2 ^ 52`. -/
theorem shiftLeft_address_setWidth {paddr : BitVec 64} (h : paddr.toNat < 2 ^ 52)
    (flags : BitVec 32) :
    ((pagingCreateEntry paddr flags).address <<< 12).setWidth 64 = paddr &&& ~~~0xfff#64 := by
  rw [← setWidth_shiftLeft_address paddr flags]
  refine BitVec.eq_of_getLsbD_eq fun i hi => ?_
  have hhigh : ∀ j, 52 ≤ j → paddr.getLsbD j = false := fun j hj =>
    Nat.testBit_lt_two_pow (Nat.lt_of_lt_of_le h (Nat.pow_le_pow_right (by decide) hj))
  simp only [pagingCreateEntry, BitVec.getLsbD_shiftLeft, BitVec.getLsbD_setWidth,
    BitVec.getLsbD_ushiftRight]
  by_cases hlow : i < 12
  · simp [hlow]
  · by_cases hi52 : i < 52
    · simp [hi, hi52, show i - 12 < 64 by omega]
    · simp [hi52, hlow, hhigh (12 + (i - 12)) (by omega)]

/-- The low twelve bits of a multiple of the page size are clear already. -/
theorem and_not_pageMask {x : BitVec 64} (h : x.toNat % 4096 = 0) : x &&& ~~~0xfff#64 = x := by
  refine BitVec.eq_of_getLsbD_eq fun i hi => ?_
  have hmask : ∀ j : Fin 64, (~~~0xfff#64).getLsbD j = decide (12 ≤ (j : ℕ)) := by decide
  rw [BitVec.getLsbD_and, hmask ⟨i, hi⟩]
  by_cases hle : 12 ≤ i
  · simp [hle]
  · have hbit : (x.toNat % 2 ^ 12).testBit i = x.getLsbD i := by
      rw [Nat.testBit_mod_two_pow]
      simp [BitVec.getLsbD, show i < 12 by omega]
    rw [← hbit, show x.toNat % 2 ^ 12 = 0 from h]
    simp

/-- Clearing the low twelve bits is rounding down to a page. -/
theorem toNat_and_not_pageMask (x : BitVec 64) :
    (x &&& ~~~4095#64).toNat = x.toNat / 4096 * 4096 := by
  have hmask : ∀ j : Fin 64, (~~~4095#64).getLsbD j = decide (12 ≤ (j : ℕ)) := by decide
  have hshift : x &&& ~~~4095#64 = x >>> 12 <<< 12 := by
    refine BitVec.eq_of_getLsbD_eq fun i hi => ?_
    rw [BitVec.getLsbD_and, hmask ⟨i, hi⟩, BitVec.getLsbD_shiftLeft, BitVec.getLsbD_ushiftRight]
    by_cases hle : 12 ≤ i
    · simp [hle, hi]
    · simp [hle]
  have hlt := x.isLt
  rw [hshift, BitVec.toNat_shiftLeft, BitVec.toNat_ushiftRight, Nat.shiftLeft_eq,
    Nat.shiftRight_eq_div_pow]
  omega

/-! ## Entries in memory

A `struct Pml` is 512 entries of eight bytes.  Tables are handed around as direct-map pointers, so
"page-aligned" is said relative to the direct-map offset. -/

/-- `&pml->page_tables[i]`. -/
def pteAddr (pml : BitVec 64) (i : BitVec 9) : BitVec 64 := pml + 8#64 * i.setWidth 64

/-- `pml->page_tables[i]`, read. -/
def readPte (m : Mem) (pml : BitVec 64) (i : BitVec 9) : Pte :=
  Pte.ofWord (load m (pteAddr pml i) 8)

/-- `pml->page_tables[i] = e`. -/
def writePte (m : Mem) (pml : BitVec 64) (i : BitVec 9) (e : Pte) : Mem :=
  store m (pteAddr pml i) 8 e.toWord

/-- A direct-map pointer to the start of a physical page. -/
def OnPage (hhdm p : BitVec 64) : Prop := (p - hhdm).toNat % 4096 = 0

instance (hhdm p : BitVec 64) : Decidable (OnPage hhdm p) := inferInstanceAs (Decidable (_ = _))

section Memory

variable {hhdm p q : BitVec 64} {m m' : Mem} {i j : BitVec 9}

/-- The bytes of an entry, by their offset from the direct map. -/
theorem toNat_pteAddr_sub (hp : OnPage hhdm p) (i : BitVec 9) {k : ℕ} (hk : k < 8) :
    (at' (pteAddr p i) k - hhdm).toNat = (p - hhdm).toNat + 8 * i.toNat + k := by
  have hi := i.isLt
  have hsub : at' (pteAddr p i) k - hhdm
      = (p - hhdm) + (8#64 * i.setWidth 64 + BitVec.ofNat 64 k) := by
    rw [at', pteAddr]
    bv_omega
  rw [OnPage] at hp
  rw [hsub, BitVec.toNat_add, BitVec.toNat_add, BitVec.toNat_mul, BitVec.toNat_setWidth,
    BitVec.toNat_ofNat, BitVec.toNat_ofNat]
  omega

/-- The offset of one address from another, through the direct map. -/
theorem toNat_sub_hhdm (hhdm a b : BitVec 64) :
    (a - b).toNat = ((a - hhdm).toNat + (2 ^ 64 - (b - hhdm).toNat)) % 2 ^ 64 := by
  bv_omega

theorem eq_of_toNat_sub_eq {a b : BitVec 64} (h : (a - hhdm).toNat = (b - hhdm).toNat) : a = b := by
  bv_omega

theorem apart_pteAddr (hp : OnPage hhdm p) (hq : OnPage hhdm q) (h : (q, j) ≠ (p, i)) :
    Apart (pteAddr q j) 8 (pteAddr p i) 8 := by
  intro k hk
  have hqk := toNat_pteAddr_sub hq j hk
  have hp0 := toNat_pteAddr_sub hp i (k := 0) (by omega)
  rw [at', BitVec.add_zero] at hp0
  have hne : (q - hhdm).toNat + 8 * j.toNat ≠ (p - hhdm).toNat + 8 * i.toNat := by
    intro heq
    rw [OnPage] at hp hq
    have hij : j.toNat = i.toNat := by have := i.isLt; have := j.isLt; omega
    have hpq : (q - hhdm).toNat = (p - hhdm).toNat := by omega
    refine h (Prod.ext ?_ (BitVec.eq_of_toNat_eq hij))
    exact eq_of_toNat_sub_eq hpq
  rw [toNat_sub_hhdm hhdm, hqk, hp0]
  rw [OnPage] at hp hq
  have := i.isLt
  have := j.isLt
  omega

/-- **An entry written is read back**… -/
@[simp] theorem readPte_writePte_self (m : Mem) (p : BitVec 64) (i : BitVec 9) (e : Pte) :
    readPte (writePte m p i e) p i = e := by
  rw [readPte, writePte, load_store_same m _ (by omega), Pte.ofWord_toWord]

/-- …and no other entry of any table changes. -/
theorem readPte_writePte_of_ne (hp : OnPage hhdm p) (hq : OnPage hhdm q) (h : (q, j) ≠ (p, i))
    (e : Pte) : readPte (writePte m p i e) q j = readPte m q j := by
  rw [readPte, writePte, load_store_apart (apart_pteAddr hp hq h)]
  rfl

/-- A byte of one page is in no other. -/
theorem OnPage.le_toNat_sub (hp : OnPage hhdm p) (hq : OnPage hhdm q) (hne : q ≠ p)
    {x : BitVec 64} (hx : (x - q).toNat < 4096) : 4096 ≤ (x - p).toNat := by
  have hpq : (q - hhdm).toNat ≠ (p - hhdm).toNat := fun h => hne (eq_of_toNat_sub_eq h)
  have hoff : x - hhdm = (q - hhdm) + (x - q) := by bv_omega
  rw [toNat_sub_hhdm hhdm, hoff, BitVec.toNat_add]
  rw [OnPage] at hp hq
  have := (q - hhdm).isLt
  have := (p - hhdm).isLt
  omega

/-- So no byte of a page is in an entry of a table elsewhere. -/
theorem OnPage.le_toNat_sub_pteAddr (hp : OnPage hhdm p) (hq : OnPage hhdm q) (hne : q ≠ p)
    (i : BitVec 9) {x : BitVec 64} (hx : (x - q).toNat < 4096) :
    8 ≤ (x - pteAddr p i).toNat := by
  by_contra hlt
  have hi := i.isLt
  have hpage := hp.le_toNat_sub hq hne hx
  have hoff : x - p = (x - pteAddr p i) + 8#64 * i.setWidth 64 := by rw [pteAddr]; bv_omega
  rw [hoff, BitVec.toNat_add, BitVec.toNat_mul, BitVec.toNat_setWidth, BitVec.toNat_ofNat] at hpage
  omega

/-- The bytes of a table lie outside every other page. -/
theorem le_toNat_pteAddr_sub (hp : OnPage hhdm p) (hq : OnPage hhdm q) (hne : q ≠ p) (j : BitVec 9)
    {k : ℕ} (hk : k < 8) : 4096 ≤ (at' (pteAddr q j) k - p).toNat := by
  have hqk := toNat_pteAddr_sub hq j hk
  have hpq : (q - hhdm).toNat ≠ (p - hhdm).toNat := fun h =>
    hne (eq_of_toNat_sub_eq h)
  rw [toNat_sub_hhdm hhdm, hqk]
  rw [OnPage] at hp hq
  have := j.isLt
  omega

/-- **A change confined to one page is not seen in the tables on others.** -/
theorem readPte_of_page (hp : OnPage hhdm p) (hq : OnPage hhdm q) (hne : q ≠ p)
    (hm : ∀ b, 4096 ≤ (b - p).toNat → m' b = m b) : readPte m' q j = readPte m q j :=
  congrArg Pte.ofWord (load_congr fun _ hk => hm _ (le_toNat_pteAddr_sub hp hq hne j hk))

/-- Every entry of a zeroed page is absent. -/
theorem readPte_fill_zero (m : Mem) (p : BitVec 64) (i : BitVec 9) :
    readPte (fill m p 4096 0#8) p i = Pte.ofWord 0#64 := by
  refine congrArg Pte.ofWord (load_fill_zero fun k hk => ?_)
  have hi := i.isLt
  have hoff : at' (pteAddr p i) k - p = 8#64 * i.setWidth 64 + BitVec.ofNat 64 k := by
    rw [at', pteAddr]
    bv_omega
  rw [hoff, BitVec.toNat_add, BitVec.toNat_mul, BitVec.toNat_setWidth, BitVec.toNat_ofNat,
    BitVec.toNat_ofNat]
  omega

end Memory

end MoonOS

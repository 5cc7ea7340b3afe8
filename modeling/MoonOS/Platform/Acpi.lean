import MoonOS.Base.Str
import MoonOS.Mm.Addr

/-!
# Platform/Acpi — the search for a table, `kernel/platform/acpi/x86/acpi.c`

    RSDP ──revision──▸ XSDT or RSDT ──entries──▸ tables ──signature, checksum──▸ the table

The root table has a header with its length, and then the addresses of the other tables, of eight
bytes each or of four.  `acpi_find_table` counts them by what the length leaves behind the header.

* `findsTable_iff` — the subtraction is unsigned: for a length below the header's the count wraps
  and the search leaves the table at its first entry.  Otherwise it finds what it is to find, but
  for a null pointer in front, which `strncmp` takes for a match.
-/

namespace MoonOS

open ByteMemory

/-! ## `rsdp.c` and `acpi.c` -/

/-- The fields of `struct RSDP` that are read. -/
structure Rsdp where
  revision : BitVec 8
  rsdtAddress : BitVec 32
  xsdtAddress : BitVec 64

/-- A sum of bytes, in eight bits. -/
def byteSum (m : Mem) (a : BitVec 64) : ℕ → BitVec 8
  | 0 => 0#8
  | n + 1 => byteSum m a n + m (at' a n)

/-- `use_xsdt`. -/
def useXsdt (rsdp : Rsdp) : Bool := 2#8 ≤ rsdp.revision

/-- `acpi_validate_sdt_checksum`. -/
def acpiValidateSdtChecksum (m : Mem) (sdt : BitVec 64) : Bool :=
  byteSum m sdt (load m (at' sdt 4) 4).toNat = 0#8

section Find

-- the direct map's offset, the memory, and the identifier
variable (hhdm : BitVec 64) (m : Mem) (rsdp : Rsdp) (identifier : BitVec 64)

/-- The root table. -/
def rootTable : BitVec 64 :=
  if useXsdt rsdp then va hhdm rsdp.xsdtAddress else va hhdm (rsdp.rsdtAddress.setWidth 64)

/-- The size of an entry. -/
def entrySize : ℕ := if useXsdt rsdp then 8 else 4

/-- `va(use_xsdt() ? xsdt->next[i] : rsdt->next[i])`. -/
def tableAt (i : ℕ) : BitVec 64 :=
  if useXsdt rsdp then va hhdm (load m (at' (rootTable hhdm rsdp) (36 + 8 * i)) 8)
  else va hhdm ((load m (at' (rootTable hhdm rsdp) (36 + 4 * i)) 4).setWidth 64)

/-- Whether a table is the one: the condition of the loop. -/
def isTable (sdt : BitVec 64) : Bool :=
  strncmp m sdt identifier 4 = 0#32 ∧ acpiValidateSdtChecksum m sdt

/-- The loop from entry `i` on, with `left` more: what it returns, NULL at the end, and the entries
it has looked at. -/
def findTableLoop : ℕ → ℕ → BitVec 64 × List ℕ
  | 0, _ => (0#64, [])
  | left + 1, i =>
    if isTable m identifier (tableAt hhdm m rsdp i) then (tableAt hhdm m rsdp i, [i])
    else
      let (sdt, seen) := findTableLoop left (i + 1)
      (sdt, i :: seen)

/-- `header.length`. -/
def rootLength : BitVec 32 := load m (at' (rootTable hhdm rsdp) 4) 4

/-- `(header.length - sizeof(header)) / (use_xsdt() ? 8 : 4)`. -/
def entryCount : BitVec 64 :=
  ((rootLength hhdm m rsdp).setWidth 64 - 36#64) / BitVec.ofNat 64 (entrySize rsdp)

/-- `acpi_find_table`, with the entries it has looked at. -/
def acpiFindTable : BitVec 64 × List ℕ :=
  findTableLoop hhdm m rsdp identifier (entryCount hhdm m rsdp).toNat 0

/-! ## What is to be found -/

/-- The tables the root table lists: those of the entries that fit in its length. -/
def listedTables : List (BitVec 64) :=
  (List.range (((rootLength hhdm m rsdp).toNat - 36) / entrySize rsdp)).map (tableAt hhdm m rsdp)

/-- A table with the signature, and bytes that sum to 0. -/
def Identified (sdt : BitVec 64) : Prop :=
  (∀ i < 4, m (at' sdt i) = m (at' identifier i))
    ∧ ((List.range (load m (at' sdt 4) 4).toNat).map fun i => (m (at' sdt i)).toNat).sum % 256 = 0

instance (sdt : BitVec 64) : Decidable (Identified m identifier sdt) :=
  inferInstanceAs (Decidable (_ ∧ _))

/-- **The search works**: it looks at entries of the root table only, and returns the first of the
listed tables that is the one, or NULL. -/
structure FindsTable : Prop where
  inside : ∀ i ∈ (acpiFindTable hhdm m rsdp identifier).2,
    36 + entrySize rsdp * (i + 1) ≤ (rootLength hhdm m rsdp).toNat
  first : (acpiFindTable hhdm m rsdp identifier).1
    = ((listedTables hhdm m rsdp).find? (Identified m identifier ·)).getD 0#64

end Find

section Search

variable {hhdm : BitVec 64} {m : Mem} {rsdp : Rsdp} {identifier sdt : BitVec 64}

theorem byteSum_eq (m : Mem) (a : BitVec 64) : ∀ n, byteSum m a n
    = BitVec.ofNat 8 ((List.range n).map fun i => (m (at' a i)).toNat).sum
  | 0 => rfl
  | n + 1 => by
      rw [byteSum, byteSum_eq m a n, List.range_succ, List.map_append, List.sum_append,
        BitVec.ofNat_add]
      simp

theorem acpiValidateSdtChecksum_iff : acpiValidateSdtChecksum m sdt = true
    ↔ ((List.range (load m (at' sdt 4) 4).toNat).map fun i => (m (at' sdt i)).toNat).sum % 256
      = 0 := by
  rw [acpiValidateSdtChecksum, decide_eq_true_iff, byteSum_eq, ← BitVec.toNat_inj,
    BitVec.toNat_ofNat]
  rfl

/-- **What the loop takes for the table**: the one, and a null pointer where the bytes from 0 on sum
to 0. -/
theorem isTable_iff : isTable m identifier sdt = true
    ↔ Identified m identifier sdt ∨ sdt = 0#64 ∧ acpiValidateSdtChecksum m 0#64 = true := by
  rw [isTable, decide_eq_true_iff, strncmp_eq_zero, Identified, ← acpiValidateSdtChecksum_iff,
    or_and_right, or_comm]
  refine or_congr_right (and_congr_right ?_)
  rintro rfl
  rfl

/-- **The loop is a search over the entries.** -/
theorem findTableLoop_fst : ∀ left i, (findTableLoop hhdm m rsdp identifier left i).1
    = (((List.range' i left).map (tableAt hhdm m rsdp)).find? (isTable m identifier)).getD 0#64
  | 0, _ => rfl
  | left + 1, i => by
      rw [findTableLoop, List.range'_succ, List.map_cons, List.find?_cons]
      by_cases h : isTable m identifier (tableAt hhdm m rsdp i) = true
      · rw [if_pos h, h]
        rfl
      · rw [if_neg h, Bool.eq_false_of_not_eq_true h]
        exact findTableLoop_fst left (i + 1)

/-- …and looks at no others, but at the first. -/
theorem mem_findTableLoop_snd : ∀ left i, (∀ j ∈ (findTableLoop hhdm m rsdp identifier left i).2,
      i ≤ j ∧ j < i + left)
    ∧ (0 < left → i ∈ (findTableLoop hhdm m rsdp identifier left i).2)
  | 0, _ => by simp [findTableLoop]
  | left + 1, i => by
      rw [findTableLoop]
      split
      · simp
      · refine ⟨fun j hj => ?_, fun _ => List.mem_cons_self⟩
        rcases List.mem_cons.mp hj with rfl | hj
        · omega
        · have hrest := (mem_findTableLoop_snd left (i + 1)).1 j hj
          omega

/-- A search that also stops at `z`, if `c`, and gives `z` for nothing, is the search without `z`
unless there is something behind a `z`. -/
theorem getD_find?_eq_iff {α : Type*} {p : α → Prop} [DecidablePred p] {q : α → Bool} {z : α}
    {c : Prop} (hq : ∀ x, q x = true ↔ p x ∨ x = z ∧ c) : ∀ l : List α,
    (l.find? q).getD z = (l.find? (p ·)).getD z
      ↔ ∀ t ∈ l.find? (p ·), t ≠ z → z ∈ l.takeWhile (¬ p ·) → ¬ c
  | [] => by simp
  | x :: l => by
      by_cases hp : p x
      · simp [hp, (hq x).mpr (.inl hp)]
      · by_cases hx : x = z ∧ c
        · obtain ⟨rfl, hc⟩ := hx
          rw [List.find?_cons_of_pos ((hq x).mpr (.inr ⟨rfl, hc⟩)),
            List.find?_cons_of_neg (by simpa using hp),
            List.takeWhile_cons_of_pos (by simpa using hp)]
          cases l.find? (p ·) with
          | none => simp
          | some t => simp [hc, eq_comm]
        · have hqx : ¬ q x = true := fun h => ((hq x).mp h).elim hp hx
          rw [List.find?_cons_of_neg hqx, List.find?_cons_of_neg (by simpa using hp),
            List.takeWhile_cons_of_pos (by simpa using hp), getD_find?_eq_iff hq l]
          refine forall₃_congr fun t _ _ => ?_
          rw [List.mem_cons, or_imp, and_iff_right fun hz hc => hx ⟨hz.symm, hc⟩]

theorem entrySize_pos (rsdp : Rsdp) : 0 < entrySize rsdp ∧ entrySize rsdp ≤ 8 := by
  rw [entrySize]
  split <;> decide

theorem entryCount_of_le (h : 36 ≤ (rootLength hhdm m rsdp).toNat) :
    (entryCount hhdm m rsdp).toNat
      = ((rootLength hhdm m rsdp).toNat - 36) / entrySize rsdp := by
  have hsize := (entrySize_pos rsdp).2
  rw [entryCount, BitVec.toNat_udiv, BitVec.toNat_ofNat, Nat.mod_eq_of_lt (by omega)]
  congr 1
  bv_omega

theorem entryCount_pos_of_lt (h : (rootLength hhdm m rsdp).toNat < 36) :
    0 < (entryCount hhdm m rsdp).toNat := by
  have hsize := entrySize_pos rsdp
  rw [entryCount, BitVec.toNat_udiv, BitVec.toNat_ofNat, Nat.mod_eq_of_lt (by omega)]
  refine Nat.div_pos ?_ hsize.1
  bv_omega

/-- **A root table that is long enough for its header** is searched entry by entry. -/
theorem acpiFindTable_fst (h : 36 ≤ (rootLength hhdm m rsdp).toNat) :
    (acpiFindTable hhdm m rsdp identifier).1
      = ((listedTables hhdm m rsdp).find? (isTable m identifier)).getD 0#64 := by
  rw [acpiFindTable, findTableLoop_fst, entryCount_of_le h, listedTables, List.range_eq_range']

/-- …and no entry that does not fit is looked at. -/
theorem inside_of_le (h : 36 ≤ (rootLength hhdm m rsdp).toNat) :
    ∀ i ∈ (acpiFindTable hhdm m rsdp identifier).2,
      36 + entrySize rsdp * (i + 1) ≤ (rootLength hhdm m rsdp).toNat := by
  intro i hi
  have hlt := ((mem_findTableLoop_snd _ 0).1 i hi).2
  rw [Nat.zero_add, entryCount_of_le h] at hlt
  have hfits : (i + 1) * entrySize rsdp ≤ (rootLength hhdm m rsdp).toNat - 36 :=
    (Nat.le_div_iff_mul_le (entrySize_pos rsdp).1).mp hlt
  rw [Nat.mul_comm] at hfits
  omega

/-- A shorter one is left at the first entry. -/
theorem FindsTable.le_rootLength (h : FindsTable hhdm m rsdp identifier) :
    36 ≤ (rootLength hhdm m rsdp).toNat := by
  by_contra hlt
  have hfits := h.inside 0
    ((mem_findTableLoop_snd _ 0).2 (entryCount_pos_of_lt (Nat.lt_of_not_le hlt)))
  omega

/-- **When the search works**: when the root table's length covers its header, and no null pointer,
with bytes from 0 on that sum to 0, is listed in front of the table.  For root tables like that the
answer depends on the tables they list, and not on their format. -/
theorem findsTable_iff :
    (FindsTable hhdm m rsdp identifier ↔ 36 ≤ (rootLength hhdm m rsdp).toNat
      ∧ ∀ t ∈ (listedTables hhdm m rsdp).find? (Identified m identifier ·), t ≠ 0#64 →
        0#64 ∈ (listedTables hhdm m rsdp).takeWhile (¬ Identified m identifier ·) →
        ¬ acpiValidateSdtChecksum m 0#64 = true)
    ∧ ∀ rsdp' : Rsdp, 36 ≤ (rootLength hhdm m rsdp).toNat → 36 ≤ (rootLength hhdm m rsdp').toNat →
      listedTables hhdm m rsdp = listedTables hhdm m rsdp' →
      (acpiFindTable hhdm m rsdp identifier).1 = (acpiFindTable hhdm m rsdp' identifier).1 := by
  refine ⟨⟨fun hfinds => ?_, fun ⟨hlen, hnull⟩ => ?_⟩, fun rsdp' h h' hlisted => ?_⟩
  · have hlen := hfinds.le_rootLength
    have hfirst := hfinds.first
    rw [acpiFindTable_fst hlen] at hfirst
    exact ⟨hlen, (getD_find?_eq_iff (fun _ => isTable_iff) _).mp hfirst⟩
  · refine ⟨inside_of_le hlen, ?_⟩
    rw [acpiFindTable_fst hlen]
    exact (getD_find?_eq_iff (fun _ => isTable_iff) _).mpr hnull
  · rw [acpiFindTable_fst h, acpiFindTable_fst h', hlisted]

/-- A memory with the text `APIC` at 0x3000 and on a table at 0x2000, an XSDT at 0x1000 with two
entries, the first of them given, and an RSDT at 0x4000 with one. -/
def rootTables (length : BitVec 32) (entry : BitVec 64) : Mem :=
  let m := store (fun _ => 0#8) 0x3000#64 4 0x43495041#32
  let m := store m 0xffff800000002000#64 4 0x43495041#32
  let m := store m 0xffff800000001004#64 4 length
  let m := store m 0xffff800000001024#64 8 entry
  let m := store m 0xffff80000000102c#64 8 0x2000#64
  let m := store m 0xffff800000004004#64 4 40#32
  store m 0xffff800000004024#64 4 0x2000#32

/-- The table is found through the XSDT, and the RSDT with the same table gives the same. -/
theorem findsTable_rootTables :
    FindsTable 0xffff800000000000#64 (rootTables 44#32 0x2000#64) ⟨2#8, 0x4000#32, 0x1000#64⟩
        0x3000#64
      ∧ (acpiFindTable 0xffff800000000000#64 (rootTables 44#32 0x2000#64)
          ⟨2#8, 0x4000#32, 0x1000#64⟩ 0x3000#64).1
        = (acpiFindTable 0xffff800000000000#64 (rootTables 44#32 0x2000#64)
          ⟨0#8, 0x4000#32, 0x1000#64⟩ 0x3000#64).1 := by
  refine ⟨findsTable_iff.1.mpr ⟨by decide, fun t _ _ hnull => absurd hnull (by decide)⟩,
    findsTable_iff.2 _ (by decide) (by decide) (by decide)⟩

/-- **A root table of length 0 is searched past its end**, and a table behind a null pointer is not
found. -/
theorem not_findsTable_rootTables :
    ¬ FindsTable 0xffff800000000000#64 (rootTables 0#32 0x2000#64) ⟨2#8, 0x4000#32, 0x1000#64⟩
        0x3000#64
      ∧ ¬ FindsTable 0xffff800000000000#64 (rootTables 52#32 0x800000000000#64)
        ⟨2#8, 0x4000#32, 0x1000#64⟩ 0x3000#64 := by
  refine ⟨fun h => absurd h.le_rootLength (by decide), fun h => ?_⟩
  exact absurd h.first (by decide)

end Search

end MoonOS

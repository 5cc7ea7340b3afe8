import MoonOS.Lib.ByteMemory

/-!
# Platform/Madt — the walk over the records of the MADT, `kernel/platform/acpi/x86/madt/madt.c`

The MADT is a table the firmware left in memory: a header with the table's length, and from 0x2c on
records, each with its type in its first byte and its length in its second.
`enumarate_apic_devices` adds the length byte to its pointer and tests the bound after the body.

* `madtInside_iff` — it ends and reads bytes of the table only exactly when every record has its two
  first bytes in the table and a length that is not zero.  So a table without records is read past
  its end, and a record of length zero is never left.
* `madtDecodes_iff` — of a table in order it still does not decode the records: it keeps the
  *address* of an override instead of what is there, and of an I/O APIC the address's last byte.
-/

namespace MoonOS

open ByteMemory

/-! ## `madt.c` -/

/-- `struct ioapic_dev`. -/
structure IoapicDev where
  entryType : BitVec 8
  recordLen : BitVec 8
  ioApicId : BitVec 8
  reserved : BitVec 8
  address : BitVec 32
  gsib : BitVec 32
deriving DecidableEq, Repr

/-- What `enumarate_apic_devices` fills in of `struct apic_device_info`. -/
structure ApicDeviceInfo where
  lapicAddr : BitVec 64
  ioapics : List IoapicDev
deriving DecidableEq, Repr

/-- What `push(&apic_dev.ioapics, (struct ioapic_dev *)p)` pushes.  The vector's elements are of
type `struct ioapic_dev`, so the pointer initialises the first field of one; the record is not
read. -/
def IoapicDev.ofPointer (p : BitVec 64) : IoapicDev := ⟨p.setWidth 8, 0#8, 0#8, 0#8, 0#32, 0#32⟩

section Walk

-- `push` of `cc.h`, which appends, or leaves the vector as it is when the heap is exhausted
variable (push : List IoapicDev → IoapicDev → List IoapicDev)

/-- The body of the loop, but for its traces: what a record adds. -/
def madtRecord (m : Mem) (p : BitVec 64) (dev : ApicDeviceInfo) : ApicDeviceInfo :=
  if m p ≤ 5#8 then
    let dev := if m p = 5#8 then { dev with lapicAddr := p + 4#64 } else dev
    if m p = 1#8 then { dev with ioapics := push dev.ioapics (.ofPointer p) } else dev
  else dev -- an x2APIC, or "Invalid interrupt device detected …"

/-- The loop: what it found and the addresses it read, `none` when it has not ended. -/
def madtLoop (m : Mem) (limit : BitVec 64) :
    ℕ → BitVec 64 → ApicDeviceInfo → Option (ApicDeviceInfo × List (BitVec 64))
  | 0, _, _ => none
  | fuel + 1, p, dev =>
    let dev := madtRecord push m p dev
    let next := p + (m (at' p 1)).setWidth 64
    if next < limit then
      (madtLoop m limit fuel next dev).map fun (dev, reads) => (dev, p :: at' p 1 :: reads)
    else some (dev, [p, at' p 1])

/-- `enumarate_apic_devices`.  It reads the table's length first. -/
def enumarateApicDevices (m : Mem) (madt : BitVec 64) (dev : ApicDeviceInfo) (fuel : ℕ) :
    Option (ApicDeviceInfo × List (BitVec 64)) :=
  let length := load m (at' madt 4) 4
  (madtLoop push m (madt + length.setWidth 64) fuel (at' madt 0x2c) dev).map fun (dev, reads) =>
    (dev, (List.range 4).map (fun i => at' madt (4 + i)) ++ reads)

/-- `madt_init`.  The OEM strings are only traced. -/
def madtInit (m : Mem) (madt : BitVec 64) (fuel : ℕ) : Option ApicDeviceInfo :=
  let localApicAddr := load m (at' madt 36) 4
  (enumarateApicDevices push m madt ⟨localApicAddr.setWidth 64, []⟩ fuel).map Prod.fst

end Walk

/-! ## The table -/

/-- The length of the table, as its header has it. -/
def madtLength (m : Mem) (madt : BitVec 64) : ℕ := (load m (at' madt 4) 4).toNat

/-- The length byte of the record at an offset. -/
def recordLength (m : Mem) (madt : BitVec 64) (o : ℕ) : ℕ := (m (at' madt (o + 1))).toNat

/-- **Where the records of the table start**: the first behind the header, and each other one where
the one before it ends, up to the table's end. -/
inductive RecordAt (m : Mem) (madt : BitVec 64) : ℕ → Prop
  | first : RecordAt m madt 0x2c
  | next {o : ℕ} : RecordAt m madt o → o + recordLength m madt o < madtLength m madt →
      RecordAt m madt (o + recordLength m madt o)

/-- **The walk keeps to the table**: it ends, and what it reads is in the table. -/
def MadtInside (push : List IoapicDev → IoapicDev → List IoapicDev) (m : Mem) (madt : BitVec 64)
    (dev : ApicDeviceInfo) : Prop :=
  ∃ fuel dev' reads, enumarateApicDevices push m madt dev fuel = some (dev', reads)
    ∧ ∀ a ∈ reads, (a - madt).toNat < madtLength m madt

section Table

variable {push : List IoapicDev → IoapicDev → List IoapicDev} {m : Mem} {madt : BitVec 64}
  {dev dev' : ApicDeviceInfo} {fuel o : ℕ} {reads : List (BitVec 64)}

/-- One round of the loop, by offsets in the table. -/
theorem madtLoop_succ (hplace : madt.toNat + madtLength m madt < 2 ^ 64)
    (ho : madt.toNat + (o + recordLength m madt o) < 2 ^ 64) :
    madtLoop push m (at' madt (madtLength m madt)) (fuel + 1) (at' madt o) dev
      = if o + recordLength m madt o < madtLength m madt
        then (madtLoop push m (at' madt (madtLength m madt)) fuel
          (at' madt (o + recordLength m madt o)) (madtRecord push m (at' madt o) dev)).map
            fun (dev, reads) => (dev, at' madt o :: at' madt (o + 1) :: reads)
        else some (madtRecord push m (at' madt o) dev, [at' madt o, at' madt (o + 1)]) := by
  have hnext : at' madt o + (m (at' madt (o + 1))).setWidth 64
      = at' madt (o + recordLength m madt o) := by
    rw [← at'_at' madt o (recordLength m madt o), recordLength]
    refine congrArg (at' madt o + ·) (BitVec.eq_of_toNat_eq ?_)
    rw [BitVec.toNat_setWidth, BitVec.toNat_ofNat]
  have hlt : at' madt (o + recordLength m madt o) < at' madt (madtLength m madt)
      ↔ o + recordLength m madt o < madtLength m madt := by
    rw [BitVec.lt_def, toNat_at' (by omega), toNat_at' (by omega)]
    omega
  rw [madtLoop]
  simp only [at'_at', hnext, hlt]

/-- …as it is wherever the table leaves room for one more record. -/
theorem madtLoop_at (hplace : madt.toNat + madtLength m madt + 255 < 2 ^ 64)
    (ho : o < madtLength m madt ∨ o = 0x2c) (hlen : 0x2c ≤ madtLength m madt) :
    madtLoop push m (at' madt (madtLength m madt)) (fuel + 1) (at' madt o) dev
      = if o + recordLength m madt o < madtLength m madt
        then (madtLoop push m (at' madt (madtLength m madt)) fuel
          (at' madt (o + recordLength m madt o)) (madtRecord push m (at' madt o) dev)).map
            fun (dev, reads) => (dev, at' madt o :: at' madt (o + 1) :: reads)
        else some (madtRecord push m (at' madt o) dev, [at' madt o, at' madt (o + 1)]) := by
  have hbyte : recordLength m madt o < 256 := (m (at' madt (o + 1))).isLt
  exact madtLoop_succ (by omega) (by omega)

theorem enumarateApicDevices_eq : enumarateApicDevices push m madt dev fuel
    = (madtLoop push m (at' madt (madtLength m madt)) fuel (at' madt 0x2c) dev).map
      fun (dev, reads) => (dev, (List.range 4).map (fun i => at' madt (4 + i)) ++ reads) := by
  have hlimit : madt + (load m (at' madt 4) 4).setWidth 64 = at' madt (madtLength m madt) := by
    refine congrArg (madt + ·) (BitVec.eq_of_toNat_eq ?_)
    rw [madtLength, BitVec.toNat_setWidth, BitVec.toNat_ofNat]
  rw [enumarateApicDevices, hlimit]

/-- A record's length byte is read. -/
theorem mem_reads (h : madtLoop push m (at' madt (madtLength m madt)) fuel (at' madt o) dev
    = some (dev', reads)) : at' madt (o + 1) ∈ reads := by
  cases fuel with
  | zero => cases h
  | succ fuel =>
    rw [madtLoop] at h
    simp only [at'_at'] at h
    split at h
    · obtain ⟨rest, -, heq⟩ := Option.map_eq_some_iff.mp h
      obtain ⟨-, rfl⟩ := Prod.mk.inj heq
      simp
    · obtain ⟨-, rfl⟩ := Prod.mk.inj (Option.some.inj h)
      simp

/-- A record of length zero is never left. -/
theorem madtLoop_zero (hplace : madt.toNat + madtLength m madt + 255 < 2 ^ 64)
    (ho : o < madtLength m madt) (hlen : 0x2c ≤ madtLength m madt)
    (hzero : recordLength m madt o = 0) :
    madtLoop push m (at' madt (madtLength m madt)) fuel (at' madt o) dev = none := by
  induction fuel generalizing dev with
  | zero => rfl
  | succ fuel ih =>
    rw [madtLoop_at hplace (.inl ho) hlen, hzero, Nat.add_zero, if_pos ho, ih, Option.map_none]

/-- **From a walk that keeps to the table to its records**: from each record on it keeps to it. -/
theorem RecordAt.inside (h : RecordAt m madt o)
    (hplace : madt.toNat + madtLength m madt + 255 < 2 ^ 64) (hlen : 0x2c ≤ madtLength m madt)
    (hwalk : MadtInside push m madt dev) :
    (o < madtLength m madt ∨ o = 0x2c) ∧ ∃ fuel dev₁ dev' reads,
      madtLoop push m (at' madt (madtLength m madt)) fuel (at' madt o) dev₁ = some (dev', reads)
        ∧ ∀ a ∈ reads, (a - madt).toNat < madtLength m madt := by
  induction h with
  | first =>
    obtain ⟨fuel, dev', reads, hrun, hin⟩ := hwalk
    rw [enumarateApicDevices_eq] at hrun
    obtain ⟨⟨dev₁, reads₁⟩, hloop, heq⟩ := Option.map_eq_some_iff.mp hrun
    obtain ⟨-, rfl⟩ := Prod.mk.inj heq
    exact ⟨.inr rfl, fuel, dev, dev₁, reads₁, hloop, fun a ha => hin a (List.mem_append_right _ ha)⟩
  | @next o _ hlt ih =>
    obtain ⟨ho, fuel, dev₁, dev', reads, hloop, hin⟩ := ih
    cases fuel with
    | zero => cases hloop
    | succ fuel =>
      rw [madtLoop_at hplace ho hlen, if_pos hlt] at hloop
      obtain ⟨⟨dev₂, reads₂⟩, hrest, heq⟩ := Option.map_eq_some_iff.mp hloop
      obtain ⟨-, rfl⟩ := Prod.mk.inj heq
      exact ⟨.inl hlt, fuel, _, dev₂, reads₂, hrest, fun a ha => hin a (by simp [ha])⟩

/-- **From records in order to a walk that keeps to the table.** -/
theorem exists_madtLoop (hplace : madt.toNat + madtLength m madt + 255 < 2 ^ 64)
    (hlen : 0x2c ≤ madtLength m madt) (hok : ∀ o, RecordAt m madt o →
      o + 2 ≤ madtLength m madt ∧ recordLength m madt o ≠ 0) (h : RecordAt m madt o)
    (dev : ApicDeviceInfo) : ∃ fuel dev' reads,
      madtLoop push m (at' madt (madtLength m madt)) fuel (at' madt o) dev = some (dev', reads)
        ∧ ∀ a ∈ reads, (a - madt).toNat < madtLength m madt := by
  -- the offset grows by the record's length, so what is left of the table shrinks
  induction hleft : madtLength m madt - o using Nat.strong_induction_on generalizing o dev with
  | _ left ih =>
    obtain ⟨hin, hne⟩ := hok o h
    have htwo : ∀ a, a = at' madt o ∨ a = at' madt (o + 1) →
        (a - madt).toNat < madtLength m madt := by
      rintro a (rfl | rfl)
      · rw [toNat_at'_sub _ (by omega)]
        omega
      · rw [toNat_at'_sub _ (by omega)]
        omega
    by_cases hlt : o + recordLength m madt o < madtLength m madt
    · obtain ⟨fuel, dev', reads, hloop, hreads⟩ := ih _ (by omega) (h.next hlt)
        (madtRecord push m (at' madt o) dev) rfl
      refine ⟨fuel + 1, dev', at' madt o :: at' madt (o + 1) :: reads, ?_, fun a ha => ?_⟩
      · rw [madtLoop_at hplace (.inl (by omega)) hlen, if_pos hlt, hloop, Option.map_some]
      · simp only [List.mem_cons] at ha
        rcases ha with ha | ha | ha
        · exact htwo a (.inl ha)
        · exact htwo a (.inr ha)
        · exact hreads a ha
    · refine ⟨1, _, _, by rw [madtLoop_at hplace (.inl (by omega)) hlen, if_neg hlt],
        fun a ha => ?_⟩
      exact htwo a (by simpa using ha)

/-- **When the walk over the MADT keeps to the table**: exactly when every record has its first two
bytes there and a length that is not zero. -/
theorem madtInside_iff (hplace : madt.toNat + madtLength m madt + 255 < 2 ^ 64)
    (hlen : 0x2c ≤ madtLength m madt) :
    MadtInside push m madt dev ↔ ∀ o, RecordAt m madt o →
      o + 2 ≤ madtLength m madt ∧ recordLength m madt o ≠ 0 := by
  constructor
  · intro hwalk o h
    obtain ⟨ho, fuel, dev₁, dev', reads, hloop, hin⟩ := h.inside hplace hlen hwalk
    have hsecond := hin _ (mem_reads hloop)
    rw [toNat_at'_sub _ (by omega)] at hsecond
    refine ⟨by omega, fun hzero => ?_⟩
    rw [madtLoop_zero hplace (by omega) hlen hzero] at hloop
    cases hloop
  · intro hok
    obtain ⟨fuel, dev', reads, hloop, hreads⟩ := exists_madtLoop hplace hlen hok .first dev
    refine ⟨fuel, dev', _, by rw [enumarateApicDevices_eq, hloop, Option.map_some], fun a ha => ?_⟩
    rcases List.mem_append.mp ha with ha | ha
    · obtain ⟨i, hi, rfl⟩ := List.mem_map.mp ha
      rw [List.mem_range] at hi
      rw [toNat_at'_sub _ (by omega)]
      omega
    · exact hreads a ha

/-- A table at 0x1000 with a length, and nothing but zeros behind its header. -/
def bareTable (length : BitVec 32) : Mem := store (fun _ => 0#8) (at' 0x1000#64 4) 4 length

/-- A table with one record of 8 bytes. -/
theorem madtInside_oneRecord :
    MadtInside (fun l d => l ++ [d]) (store (bareTable 0x34#32) (at' 0x1000#64 0x2d) 1 8#8)
      0x1000#64 ⟨0#64, []⟩ := by
  refine (madtInside_iff (by decide) (by decide)).mpr fun o h => ?_
  have ho : o = 0x2c := by
    induction h with
    | first => rfl
    | next _ hlt ih =>
      subst ih
      exact absurd hlt (by decide)
  subst ho
  decide

/-- **A table without records is read past its end, and a record of length zero is not left.** -/
theorem not_madtInside_bareTable :
    ¬ MadtInside (fun l d => l ++ [d]) (bareTable 0x2c#32) 0x1000#64 ⟨0#64, []⟩
      ∧ ¬ MadtInside (fun l d => l ++ [d]) (bareTable 0x30#32) 0x1000#64 ⟨0#64, []⟩ := by
  constructor
  · intro hwalk
    obtain ⟨-, fuel, dev₁, dev', reads, hloop, hin⟩ := RecordAt.first.inside (by decide) (by decide)
      hwalk
    exact absurd (hin _ (mem_reads hloop)) (by decide)
  · rintro ⟨fuel, dev', reads, hrun, -⟩
    rw [enumarateApicDevices_eq,
      madtLoop_zero (by decide) (by decide) (by decide) (by decide)] at hrun
    cases hrun

end Table

/-! ## What the records say -/

/-- The type of the record at an offset. -/
def recordType (m : Mem) (madt : BitVec 64) (o : ℕ) : BitVec 8 := m (at' madt o)

/-- The offsets of the records of a type. -/
def recordsOf (m : Mem) (madt : BitVec 64) (ty : BitVec 8) (os : List ℕ) : List ℕ :=
  os.filter fun o => recordType m madt o = ty

/-- The record of an I/O APIC, decoded: its id, its address and its first interrupt. -/
def ioapicAt (m : Mem) (madt : BitVec 64) (o : ℕ) : BitVec 8 × BitVec 32 × BitVec 32 :=
  (m (at' madt (o + 2)), load m (at' madt (o + 4)) 4, load m (at' madt (o + 8)) 4)

/-- The same fields of what was kept of one. -/
def IoapicDev.decoded (dev : IoapicDev) : BitVec 8 × BitVec 32 × BitVec 32 :=
  (dev.ioApicId, dev.address, dev.gsib)

/-- The 64-bit address an override stores. -/
def overrideAt (m : Mem) (madt : BitVec 64) (o : ℕ) : BitVec 64 := load m (at' madt (o + 4)) 8

/-- The records from an offset on are at the offsets `os`, and fill the table.  A record has its
type, its length, and the fields of an I/O APIC or an override. -/
def RecordsFrom (m : Mem) (madt : BitVec 64) : ℕ → List ℕ → Prop
  | o, [] => o = madtLength m madt
  | o, o' :: os => o' = o ∧ 2 ≤ recordLength m madt o
      ∧ (recordType m madt o = 1#8 ∨ recordType m madt o = 5#8 → 12 ≤ recordLength m madt o)
      ∧ RecordsFrom m madt (o + recordLength m madt o) os

instance RecordsFrom.decidable (m : Mem) (madt : BitVec 64) :
    ∀ (o : ℕ) (os : List ℕ), Decidable (RecordsFrom m madt o os)
  | o, [] => inferInstanceAs (Decidable (o = madtLength m madt))
  | o, o' :: os =>
    haveI := RecordsFrom.decidable m madt (o + recordLength m madt o) os
    inferInstanceAs (Decidable (o' = o ∧ 2 ≤ recordLength m madt o
      ∧ (recordType m madt o = 1#8 ∨ recordType m madt o = 5#8 → 12 ≤ recordLength m madt o)
      ∧ RecordsFrom m madt (o + recordLength m madt o) os))

/-- **A table in order**: in one piece of memory, with a record, and its records fill it. -/
structure WellFormedMadt (m : Mem) (madt : BitVec 64) (os : List ℕ) : Prop where
  place : madt.toNat + madtLength m madt < 2 ^ 64
  ne_nil : os ≠ []
  records : RecordsFrom m madt 0x2c os

/-- **The table is decoded**: the I/O APICs in order, and the local APIC's address from the last
override or else from the header. -/
def MadtDecodes (m : Mem) (madt : BitVec 64) (os : List ℕ) : Prop :=
  ∃ fuel dev, madtInit (fun l d => l ++ [d]) m madt fuel = some dev
    ∧ dev.ioapics.map IoapicDev.decoded = (recordsOf m madt 1#8 os).map (ioapicAt m madt)
    ∧ dev.lapicAddr = ((recordsOf m madt 5#8 os).getLast?.map (overrideAt m madt)).getD
      ((load m (at' madt 36) 4).setWidth 64)

section Decoding

variable {push : List IoapicDev → IoapicDev → List IoapicDev} {m : Mem} {madt : BitVec 64}
  {dev : ApicDeviceInfo} {o : ℕ} {os : List ℕ}

theorem RecordsFrom.le : ∀ {os : List ℕ} {o : ℕ}, RecordsFrom m madt o os → o ≤ madtLength m madt
  | [], _, h => le_of_eq h
  | _ :: _, _, h => (Nat.le_add_right _ _).trans h.2.2.2.le

theorem RecordsFrom.lt {os : List ℕ} {o' : ℕ} (h : RecordsFrom m madt o (o' :: os)) :
    o < madtLength m madt := by
  have hle := h.2.2.2.le
  have htwo := h.2.1
  omega

/-- **The walk over a table in order** ends with its last record, and has had each in turn. -/
theorem madtLoop_records (hplace : madt.toNat + madtLength m madt < 2 ^ 64) :
    ∀ {os : List ℕ} {o fuel : ℕ} {dev : ApicDeviceInfo}, os ≠ [] → RecordsFrom m madt o os →
      (madtLoop push m (at' madt (madtLength m madt)) fuel (at' madt o) dev).map Prod.fst
        = if os.length ≤ fuel
          then some (os.foldl (fun dev o => madtRecord push m (at' madt o) dev) dev) else none
  | _ :: os, o, 0, _, _, _ => by simp [madtLoop]
  | o' :: os, o, fuel + 1, dev, _, h => by
      obtain ⟨rfl, -, -, hrest⟩ := h
      have hle := hrest.le
      rw [madtLoop_succ hplace (by omega), List.foldl_cons, List.length_cons]
      cases os with
      | nil =>
        have hend : o' + recordLength m madt o' = madtLength m madt := hrest
        simp [hend]
      | cons o'' os =>
        rw [if_pos hrest.lt, Option.map_map]
        refine (madtLoop_records hplace (List.cons_ne_nil _ _) hrest).trans ?_
        simp only [Nat.succ_le_succ_iff]

/-- What a record adds, when the heap has room for it. -/
theorem madtRecord_append (m : Mem) (p : BitVec 64) (dev : ApicDeviceInfo) :
    madtRecord (fun l d => l ++ [d]) m p dev
      = ⟨if m p = 5#8 then at' p 4 else dev.lapicAddr,
        dev.ioapics ++ if m p = 1#8 then [.ofPointer p] else []⟩ := by
  by_cases h5 : m p = 5#8
  · simp [madtRecord, h5]
  · by_cases h1 : m p = 1#8
    · simp [madtRecord, h1]
    · simp [madtRecord, h5, h1]

theorem recordsOf_cons (ty : BitVec 8) :
    recordsOf m madt ty (o :: os)
      = (if recordType m madt o = ty then [o] else []) ++ recordsOf m madt ty os := by
  by_cases h : recordType m madt o = ty
  · simp [recordsOf, h]
  · simp [recordsOf, h]

/-- **What the walk keeps**: where the last override is, and where the I/O APICs are. -/
theorem foldl_madtRecord : ∀ (os : List ℕ) (dev : ApicDeviceInfo),
    os.foldl (fun dev o => madtRecord (fun l d => l ++ [d]) m (at' madt o) dev) dev
      = ⟨((recordsOf m madt 5#8 os).getLast?.map fun o => at' madt (o + 4)).getD dev.lapicAddr,
        dev.ioapics ++ (recordsOf m madt 1#8 os).map fun o => .ofPointer (at' madt o)⟩
  | [], dev => by simp [recordsOf]
  | o :: os, dev => by
      rw [List.foldl_cons, foldl_madtRecord os, madtRecord_append, at'_at', recordsOf_cons,
        recordsOf_cons, List.getLast?_append, List.map_append, ← List.append_assoc]
      congr 1
      · by_cases h : recordType m madt o = 5#8
        · have hp : m (at' madt o) = 5#8 := h
          rw [if_pos hp, if_pos h]
          cases (recordsOf m madt 5#8 os).getLast? <;> rfl
        · have hp : ¬ m (at' madt o) = 5#8 := h
          rw [if_neg hp, if_neg h, List.getLast?_nil, Option.or_none]
      · by_cases h : recordType m madt o = 1#8
        · have hp : m (at' madt o) = 1#8 := h
          rw [if_pos hp, if_pos h]
          rfl
        · have hp : ¬ m (at' madt o) = 1#8 := h
          rw [if_neg hp, if_neg h]
          rfl

/-- **What `madt_init` returns for a table in order.** -/
theorem madtInit_eq (h : WellFormedMadt m madt os) (fuel : ℕ) :
    madtInit (fun l d => l ++ [d]) m madt fuel = if os.length ≤ fuel
      then some ⟨((recordsOf m madt 5#8 os).getLast?.map fun o => at' madt (o + 4)).getD
          ((load m (at' madt 36) 4).setWidth 64),
        (recordsOf m madt 1#8 os).map fun o => .ofPointer (at' madt o)⟩
      else none := by
  rw [madtInit, enumarateApicDevices_eq, Option.map_map]
  refine (madtLoop_records h.place h.ne_nil h.records).trans ?_
  rw [foldl_madtRecord, List.nil_append]

/-- …so the table is decoded when what is kept says the same as the records. -/
theorem madtDecodes_iff_eq (h : WellFormedMadt m madt os) : MadtDecodes m madt os
    ↔ ((recordsOf m madt 1#8 os).map fun o => IoapicDev.ofPointer (at' madt o)).map
        IoapicDev.decoded = (recordsOf m madt 1#8 os).map (ioapicAt m madt)
      ∧ ((recordsOf m madt 5#8 os).getLast?.map fun o => at' madt (o + 4)).getD
          ((load m (at' madt 36) 4).setWidth 64)
        = ((recordsOf m madt 5#8 os).getLast?.map (overrideAt m madt)).getD
          ((load m (at' madt 36) 4).setWidth 64) := by
  constructor
  · rintro ⟨fuel, dev, hrun, hio, haddr⟩
    rw [madtInit_eq h] at hrun
    split at hrun
    · obtain rfl := Option.some.inj hrun
      exact ⟨hio, haddr⟩
    · cases hrun
  · rintro ⟨hio, haddr⟩
    exact ⟨os.length, _, by rw [madtInit_eq h, if_pos le_rfl], hio, haddr⟩

/-- **When the table is decoded**: when each I/O APIC's fields are zero, as they are kept, and the
last override stores its own address. -/
theorem madtDecodes_iff (h : WellFormedMadt m madt os) : MadtDecodes m madt os
    ↔ (∀ o ∈ os, recordType m madt o = 1#8 → ioapicAt m madt o = (0#8, 0#32, 0#32))
      ∧ ∀ o ∈ (recordsOf m madt 5#8 os).getLast?, overrideAt m madt o = at' madt (o + 4) := by
  rw [madtDecodes_iff_eq h]
  refine and_congr ?_ ?_
  · rw [List.map_map, List.map_inj_left]
    simp [recordsOf, IoapicDev.ofPointer, IoapicDev.decoded, eq_comm]
  · cases (recordsOf m madt 5#8 os).getLast? with
    | none => simp
    | some o => simp [eq_comm]

/-- A table at 0x1000 with one record of 12 bytes, of a type, with a byte at offset 2. -/
def oneRecord (ty byte : BitVec 8) : Mem :=
  store (bareTable 0x38#32) (at' 0x1000#64 0x2c) 3 (byte ++ 12#8 ++ ty)

/-- A table at 0x1000 with three records of 12 bytes: a processor's local APIC, an I/O APIC whose
fields are zero, and an override that stores the address of its own field. -/
def threeRecords : Mem :=
  let m := store (bareTable 0x50#32) (at' 0x1000#64 0x2c) 3 0x030c00#24
  let m := store m (at' 0x1000#64 0x38) 3 0x000c01#24
  let m := store m (at' 0x1000#64 0x44) 3 0x000c05#24
  store m (at' 0x1000#64 0x48) 8 0x1048#64

/-- It is decoded: the first record is not kept, and the others are kept as they are. -/
theorem madtDecodes_threeRecords :
    MadtDecodes threeRecords 0x1000#64 [0x2c, 0x38, 0x44]
      ∧ [0x2c, 0x38, 0x44].map (recordType threeRecords 0x1000#64) = [0#8, 1#8, 5#8] := by
  have htable : WellFormedMadt threeRecords 0x1000#64 [0x2c, 0x38, 0x44] :=
    ⟨by decide +kernel, by decide +kernel, by decide +kernel⟩
  exact ⟨(madtDecodes_iff htable).mpr ⟨by decide +kernel, by decide +kernel⟩, by decide +kernel⟩

/-- **An I/O APIC with the id 7 is kept with the id 0**, and an override to the address 0 gives the
address the override is at. -/
theorem not_madtDecodes_oneRecord :
    WellFormedMadt (oneRecord 1#8 7#8) 0x1000#64 [0x2c]
      ∧ ¬ MadtDecodes (oneRecord 1#8 7#8) 0x1000#64 [0x2c]
      ∧ WellFormedMadt (oneRecord 5#8 0#8) 0x1000#64 [0x2c]
      ∧ ¬ MadtDecodes (oneRecord 5#8 0#8) 0x1000#64 [0x2c] := by
  have hio : WellFormedMadt (oneRecord 1#8 7#8) 0x1000#64 [0x2c] :=
    ⟨by decide, by decide, by decide⟩
  have hoverride : WellFormedMadt (oneRecord 5#8 0#8) 0x1000#64 [0x2c] :=
    ⟨by decide, by decide, by decide⟩
  rw [madtDecodes_iff_eq hio, madtDecodes_iff_eq hoverride]
  exact ⟨hio, by decide, hoverride, by decide⟩

end Decoding

end MoonOS

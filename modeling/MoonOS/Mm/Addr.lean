import MoonOS.Lib.ByteMemory

/-!
# Mm/Addr — physical, direct-map and user addresses

`hhdm` is the direct-map offset of `kernel/arch/x86/mm/addr.c`, set once at boot; every function
that reads the C global takes it as an argument.
-/

namespace MoonOS

/-- `PAGE_SIZE`. -/
def pageSize : ℕ := 4096

/-- `ALIGN_UP`, of `libs/base/align.h`. -/
def alignUp (n : BitVec 64) : BitVec 64 := (n + 4095#64) &&& ~~~4095#64

/-- `USER_REGION_BOTTOM`: 4 KiB, because page 0 stays unmapped. -/
def userRegionBottom : BitVec 64 := 0x0000000000001000#64

/-- `USER_REGION_TOP`, inclusive. -/
def userRegionTop : BitVec 64 := 0x00007fffffffffff#64

/-- `CANONICAL_ADDR_MASK`. -/
def canonicalAddrMask : BitVec 64 := 0xffff000000000000#64

/-- `IS_CANONICAL(addr)`. -/
def isCanonical (addr : BitVec 64) : Bool :=
  addr &&& canonicalAddrMask == 0#64 || addr &&& canonicalAddrMask == canonicalAddrMask

/-- `is_user_address`. -/
def isUserAddress (addr : BitVec 64) : Bool :=
  isCanonical addr && userRegionBottom ≤ addr && addr ≤ userRegionTop

/-- `va`: the direct-map address of a physical address. -/
def va (hhdm paddr : BitVec 64) : BitVec 64 := paddr + hhdm

/-- `pa`: back from the direct map; a null pointer stays null. -/
def pa (hhdm vaddr : BitVec 64) : BitVec 64 := if vaddr = 0#64 then 0#64 else vaddr - hhdm

/-- An address below `2⁴⁸` has no bit under the canonical mask. -/
theorem and_canonicalAddrMask_eq_zero {addr : BitVec 64} (h : addr.toNat < 2 ^ 48) :
    addr &&& canonicalAddrMask = 0#64 := by
  refine BitVec.eq_of_getLsbD_eq fun i hi => ?_
  have hmask : ∀ j : Fin 64, canonicalAddrMask.getLsbD j = decide (48 ≤ (j : ℕ)) := by decide
  rw [BitVec.getLsbD_and, hmask ⟨i, hi⟩, BitVec.getLsbD_zero]
  by_cases hle : 48 ≤ i
  · have hbit : addr.toNat.testBit i = false :=
      Nat.testBit_lt_two_pow (Nat.lt_of_lt_of_le h (Nat.pow_le_pow_right (by omega) hle))
    simp [BitVec.getLsbD, hbit]
  · simp [hle]

/-- **The canonical test is subsumed by the bounds**: a user address is one between them. -/
theorem isUserAddress_iff {addr : BitVec 64} :
    isUserAddress addr = true ↔ 0x1000 ≤ addr.toNat ∧ addr.toNat < 2 ^ 47 := by
  simp only [isUserAddress, Bool.and_eq_true, decide_eq_true_eq, BitVec.le_def]
  constructor
  · rintro ⟨⟨-, hlo⟩, hhi⟩
    exact ⟨hlo, by simpa [userRegionTop] using Nat.lt_succ_of_le hhi⟩
  · rintro ⟨hlo, hhi⟩
    refine ⟨⟨?_, hlo⟩, ?_⟩
    · rw [isCanonical, and_canonicalAddrMask_eq_zero (by omega)]
      rfl
    · simpa [userRegionTop] using Nat.le_of_lt_succ hhi

end MoonOS

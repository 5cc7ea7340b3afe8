import MoonOS.Service.Layout

/-!
# Service/Arguments — the argument vector, as the process reads it

The array of pointers and each string are blocks of their own, wherever the pool has them.  The
kernel writes them right (`copied_of_copyArgs`): in its memory the array names the copies, and each
copy is the argument.  But of all their pages only the one the array begins in is mapped for the
process.  So

* `handedOver_iff` — the process reads its arguments exactly when an `int` counts them and every
  byte of the array and of the strings is on that page or on the one mapped for the stack, or shown
  by the image.
-/

namespace MoonOS

open ByteMemory TableForest GuardedRun

/-! ## What the kernel writes -/

/-- The addresses of a block. -/
def Block.Holds (b : Block) (x : BitVec 64) : Prop := (x - b.ptr).toNat < b.len

/-- **The arguments are copied**: from slot `i` on the array names the blocks, each block holds its
string, and nothing else has changed. -/
structure Copied (hhdm argvBase : BitVec 64) (i : ℕ) (args : List (List (BitVec 8)))
    (given : List Block) (m m' : Mem) : Prop where
  length : given.length = args.length
  word : ∀ (j : ℕ) (block : Block), given[j]? = some block →
    load m' (at' argvBase (8 * (i + j))) 8 = pa hhdm block.ptr
  string : ∀ (j : ℕ) arg (block : Block), args[j]? = some arg → given[j]? = some block →
    ∀ k b, (arg ++ [0#8])[k]? = some b → block.Holds (at' block.ptr k) ∧ m' (at' block.ptr k) = b
  frame : ∀ x, (∀ j < args.length, 8 ≤ (x - at' argvBase (8 * (i + j))).toNat) →
    (∀ b ∈ given, ¬ b.Holds x) → m' x = m x

section Copying

variable {hhdm argvBase : BitVec 64} {cap : Capability} {w w' : Machine} {i : ℕ}
  {arg : List (BitVec 8)} {args : List (List (BitVec 8))} {block : Block} {given : List Block}
  {m m₁ m' : Mem}

theorem Block.holds_at' {k n : ℕ} (hk : k < n) (hlen : n ≤ block.len) (hn : n ≤ 2 ^ 64) :
    block.Holds (at' block.ptr k) := by
  rw [Block.Holds, toNat_at'_sub block.ptr (by omega)]
  omega

/-- **One argument**: `strcpy` to its block, and the slot. -/
theorem copied_one (hlen : arg.length + 1 ≤ block.len) (hshort : arg.length < 2 ^ 64)
    (hoff : ∀ x, block.Holds x → 8 ≤ (x - at' argvBase (8 * i)).toNat) :
    Copied hhdm argvBase i [arg] [block] m
      (store (strcpy (fill m block.ptr (arg.length + 1) 0#8) block.ptr arg)
        (at' argvBase (8 * i)) 8 (pa hhdm block.ptr)) where
  length := rfl
  word j b hb := by
    obtain ⟨rfl, rfl⟩ : j = 0 ∧ block = b := by simpa [List.getElem?_singleton] using hb
    exact load_store_same _ _ (by omega) _
  string j a b ha hb := by
    obtain ⟨rfl, rfl⟩ : j = 0 ∧ block = b := by simpa [List.getElem?_singleton] using hb
    obtain rfl : arg = a := by simpa using ha
    intro k b hk
    have hbound : k < arg.length + 1 := by
      obtain ⟨hlt, -⟩ := List.getElem?_eq_some_iff.mp hk
      simpa using hlt
    have hin := block.holds_at' hbound hlen (by omega)
    exact ⟨hin, by rw [store_of_outside (hoff _ hin), strcpy_inside hk hshort]⟩
  frame x hslots hblocks := by
    have hslot : 8 ≤ (x - at' argvBase (8 * i)).toNat := hslots 0 (by simp)
    have hfar : ¬ (x - block.ptr).toNat < block.len := hblocks block (by simp)
    rw [store_of_outside hslot, strcpy_of_outside (by omega), fill, if_neg (by omega)]

/-- **The rest of the arguments leaves it as it is**, if their slots and blocks are off it. -/
theorem Copied.cons (h : Copied hhdm argvBase i [arg] [block] m m₁)
    (h' : Copied hhdm argvBase (i + 1) args given m₁ m')
    (hsize : 8 * (i + (args.length + 1)) ≤ 2 ^ 64)
    (hslot : ∀ k < 8, ∀ b ∈ given, ¬ b.Holds (at' argvBase (8 * i + k)))
    (hoff : ∀ x, block.Holds x → ∀ j < args.length, 8 ≤ (x - at' argvBase (8 * (i + 1 + j))).toNat)
    (hblock : ∀ x, block.Holds x → ∀ b ∈ given, ¬ b.Holds x) :
    Copied hhdm argvBase i (arg :: args) (block :: given) m m' where
  length := by rw [List.length_cons, List.length_cons, h'.length]
  word j b hb := by
    cases j with
    | zero =>
      obtain rfl : block = b := by simpa using hb
      rw [← h.word 0 block rfl]
      refine load_congr fun k hk => h'.frame _ (fun j hj => ?_) fun b hb => ?_
      · rw [at'_at', at', at']
        bv_omega
      · rw [at'_at']
        exact hslot k hk b hb
    | succ j =>
      rw [show i + (j + 1) = i + 1 + j by omega]
      exact h'.word j b (by simpa using hb)
  string j a b ha hb := by
    cases j with
    | zero =>
      obtain rfl : arg = a := by simpa using ha
      obtain rfl : block = b := by simpa using hb
      intro k b hk
      obtain ⟨hin, hbyte⟩ := h.string 0 arg block rfl rfl k b hk
      exact ⟨hin, by rw [h'.frame _ (hoff _ hin) (hblock _ hin), hbyte]⟩
    | succ j => exact h'.string j a b (by simpa using ha) (by simpa using hb)
  frame x hslots hblocks := by
    have hlater : ∀ j < args.length, 8 ≤ (x - at' argvBase (8 * (i + 1 + j))).toNat := by
      intro j hj
      rw [show i + 1 + j = i + (j + 1) by omega]
      exact hslots (j + 1) (by simpa using hj)
    have hfirst : ∀ j < [arg].length, 8 ≤ (x - at' argvBase (8 * (i + j))).toNat := fun j hj =>
      hslots j (by simp at hj ⊢; omega)
    rw [h'.frame x hlater fun b hb => hblocks b (List.mem_cons_of_mem _ hb),
      h.frame x hfirst fun b hb => hblocks b (by simp_all)]

/-- A byte that is none of the array's first `n` is outside each slot among them. -/
theorem le_toNat_sub_slot {x : BitVec 64} {n j : ℕ} (hx : ∀ k < n, at' argvBase k ≠ x)
    (hj : 8 * j + 8 ≤ n) : 8 ≤ (x - at' argvBase (8 * j)).toNat := by
  by_contra hlt
  refine hx (8 * j + (x - at' argvBase (8 * j)).toNat) (by omega) ?_
  rw [← at'_at', at'_toNat_sub]

/-- **`create_execution_space` copies its arguments**, if the blocks of the pool are off the array
and off each other. -/
theorem copied_of_copyArgs (hrun : copyArgs hhdm cap argvBase i args w = some w')
    (hpair : (w.pools cap.pool).Pairwise fun b c => b.ptr ≠ 0#64 → c.ptr ≠ 0#64 →
      ∀ x, b.Holds x → ¬ c.Holds x)
    (harray : ∀ b ∈ w.pools cap.pool, b.ptr ≠ 0#64 → ∀ k < 8 * (i + args.length),
      ¬ b.Holds (at' argvBase k))
    (hsize : 8 * (i + args.length) ≤ 2 ^ 64) :
    ∃ given, w.pools cap.pool = given ++ w'.pools cap.pool ∧ (∀ b ∈ given, b.ptr ≠ 0#64)
      ∧ Copied hhdm argvBase i args given w.kernel.mem w'.kernel.mem := by
  induction args generalizing i w with
  | nil =>
    obtain rfl := Option.some.inj hrun
    exact ⟨[], rfl, by simp, rfl, by simp, by simp, fun _ _ _ => rfl⟩
  | cons arg args ih =>
    obtain ⟨argCopy, m₁, pools, hblock, hcopy, hrun⟩ := copyArgs_cons hrun
    obtain ⟨hnull, -⟩ | ⟨block, blocks, hpool, hlen, hptr, rfl, rfl, rfl⟩ :=
      capabilityAllocFrom_cases hblock
    · exact absurd hnull hcopy
    rw [List.length_cons] at harray hsize
    rw [hpool] at hpair harray ⊢
    obtain ⟨hhead, htail⟩ := List.pairwise_cons.mp hpair
    have hoff : ∀ x, block.Holds x → ∀ j < args.length + 1,
        8 ≤ (x - at' argvBase (8 * (i + j))).toNat := fun x hx j hj =>
      le_toNat_sub_slot (n := 8 * (i + (args.length + 1)))
        (fun k hk heq => harray block (by simp) hptr k hk (heq ▸ hx)) (by omega)
    -- a block that misses a byte is shorter than the address space
    have hshort : arg.length < 2 ^ 64 := by
      have hfirst := harray block (by simp) hptr 0 (by omega)
      rw [Block.Holds] at hfirst
      have := (at' argvBase 0 - block.ptr).isLt
      omega
    have hone : Copied hhdm argvBase i [arg] [block] w.kernel.mem _ :=
      copied_one hlen hshort fun x hx => hoff x hx 0 (by omega)
    generalize store (strcpy (fill w.kernel.mem block.ptr (arg.length + 1) 0#8) block.ptr arg)
      (at' argvBase (8 * i)) 8 (pa hhdm block.ptr) = m₁ at hrun hone
    have hblocks : (w.withPools m₁ (Function.update w.pools cap.pool blocks)).pools cap.pool
        = blocks := Function.update_self ..
    obtain ⟨given, hgiven, hne, hcopied⟩ := ih hrun (by rwa [hblocks])
      (fun b hb h0 k hk => harray b (by rw [hblocks] at hb; simp [hb]) h0 k (by omega)) (by omega)
    rw [hblocks] at hgiven
    have hafter : ∀ b ∈ given, b ∈ blocks := fun b hb => by simp [hgiven, hb]
    refine ⟨block :: given, by rw [hgiven]; rfl, by simpa [hptr] using hne,
      hone.cons hcopied (by omega) (fun k hk b hb => ?_) (fun x hx j hj => ?_)
        fun x hx b hb => hhead b (hafter b hb) hptr (hne b hb) x hx⟩
    · exact harray b (by simp [hafter b hb]) (hne b hb) _ (by omega)
    · rw [show i + 1 + j = i + (j + 1) by omega]
      exact hoff x hx (j + 1) (by omega)

end Copying

/-! ## The vector, through a view of memory -/

/-- **A view shows an argument vector**: from `base` on the pointers and a null word, and at each
pointer its argument and the end of the string. -/
structure ReadsVector (R : BitVec 64 → BitVec 8 → Prop) (base : BitVec 64)
    (argv : List (List (BitVec 8))) (ptrs : List (BitVec 64)) : Prop where
  array : ∀ i x, (ptrs ++ [0#64])[i]? = some x →
    ∀ k < 8, R (at' base (8 * i + k)) (x.extractLsb' (8 * k) 8)
  strings : ∀ (i : ℕ) arg ptr, argv[i]? = some arg → ptrs[i]? = some ptr →
    ∀ k b, (arg ++ [0#8])[k]? = some b → R (at' ptr k) b

/-- The words of the array as the kernel has it, without the last. -/
def storedPtrs (hhdm argvPtr : BitVec 64) (n : ℕ) (m : Mem) : List (BitVec 64) :=
  (List.range n).map fun i => load m (at' (va hhdm argvPtr) (8 * i)) 8

section Reads

variable {R R' : BitVec 64 → BitVec 8 → Prop} {hhdm base : BitVec 64}
  {argv : List (List (BitVec 8))} {ptrs : List (BitVec 64)} {m : Mem}

/-- Two views are one as to a vector if they are at each of its bytes. -/
theorem ReadsVector.congr {S : BitVec 64 → BitVec 8 → Prop} (hS : ReadsVector S base argv ptrs)
    (h : ∀ v b, S v b → (R v b ↔ R' v b)) :
    ReadsVector R base argv ptrs ↔ ReadsVector R' base argv ptrs := by
  constructor
  · rintro ⟨harray, hstrings⟩
    exact ⟨fun i x hx k hk => (h _ _ (hS.array i x hx k hk)).mp (harray i x hx k hk),
      fun i arg ptr harg hptr k b hb => (h _ _ (hS.strings i arg ptr harg hptr k b hb)).mp
        (hstrings i arg ptr harg hptr k b hb)⟩
  · rintro ⟨harray, hstrings⟩
    exact ⟨fun i x hx k hk => (h _ _ (hS.array i x hx k hk)).mpr (harray i x hx k hk),
      fun i arg ptr harg hptr k b hb => (h _ _ (hS.strings i arg ptr harg hptr k b hb)).mpr
        (hstrings i arg ptr harg hptr k b hb)⟩

theorem ReadsVector.imp (h : ReadsVector R base argv ptrs) (himp : ∀ v b, R v b → R' v b) :
    ReadsVector R' base argv ptrs where
  array i x hx k hk := himp _ _ (h.array i x hx k hk)
  strings i arg ptr harg hptr k b hb := himp _ _ (h.strings i arg ptr harg hptr k b hb)

theorem va_at' (hhdm v : BitVec 64) (k : ℕ) : va hhdm (at' v k) = at' (va hhdm v) k := by
  rw [va, va, at', at']
  grind

/-- The kernel's view shows the words it stored. -/
theorem ReadsVector.storedPtrs (h : ReadsVector (fun v b => m (va hhdm v) = b) base argv ptrs)
    {n : ℕ} (hn : ptrs.length = n) : storedPtrs hhdm base n m = ptrs := by
  subst hn
  refine List.ext_getElem (by simp [MoonOS.storedPtrs]) fun i _ hi => ?_
  simp only [MoonOS.storedPtrs, List.getElem_map, List.getElem_range]
  refine load_eq_of_bytes fun k hk => ?_
  have hword : (ptrs ++ [0#64])[i]? = some ptrs[i] := by
    rw [List.getElem?_append_left hi, List.getElem?_eq_getElem hi]
  have hbyte := h.array i ptrs[i] hword k hk
  rwa [← at'_at', va_at', va_at'] at hbyte

end Reads

/-! ## What the process sees -/

/-- **The pools are in the direct map**, which ends below the upper half, and no two blocks of one
pool share a byte. -/
structure PoolsInRam (hhdm : BitVec 64) (w : Machine) : Prop where
  window : ∀ pool, ∀ b ∈ w.pools pool, b.ptr ≠ 0#64 → ∀ x, b.Holds x → (x - hhdm).toNat < 2 ^ 47
  apart : ∀ pool, (w.pools pool).Pairwise fun b c => b.ptr ≠ 0#64 → c.ptr ≠ 0#64 →
    ∀ x, b.Holds x → ¬ c.Holds x

/-- A byte of a block of a pool, with what the kernel has there. -/
def PoolView (hhdm : BitVec 64) (blocks : List Block) (m : Mem) (v : BitVec 64) (b : BitVec 8) :
    Prop :=
  m (va hhdm v) = b ∧ ∃ block ∈ blocks, block.ptr ≠ 0#64 ∧ block.Holds (va hhdm v)

/-- Where the array is: the second block of the pool, or nowhere. -/
def vectorBase (hhdm : BitVec 64) (w : Machine) (capabilities : List Capability)
    (argv : List (List (BitVec 8))) : BitVec 64 :=
  if (argcOf argv).toInt ≤ 0 then 0#64 else pa hhdm (givenBlock w capabilities 1)

/-- Where the strings are: the blocks after it. -/
def vectorPtrs (hhdm : BitVec 64) (w : Machine) (capabilities : List Capability)
    (argv : List (List (BitVec 8))) : List (BitVec 64) :=
  (List.range argv.length).map fun i => pa hhdm (givenBlock w capabilities (2 + i))

/-- What is mapped before the image: one page for the stack, and the one the array begins in. -/
def mappedCalls (hhdm : BitVec 64) (w : Machine) (capabilities : List Capability)
    (argv : List (List (BitVec 8))) : List MapCall :=
  stackCall (pa hhdm (givenBlock w capabilities 0) + 0x7000#64)
    :: argvCalls argv (vectorBase hhdm w capabilities argv)

/-- **A byte is shown** where the image has it, and on the pages mapped before it. -/
def ByteShown (image : Mem) (loads : List (Elf64Phdr × ℕ)) (calls : List MapCall) (v : BitVec 64)
    (b : BitVec 8) : Prop :=
  match ImageMap.ofLoads loads (pageKey v) with
  | some l => segmentByte image l.1 (4096 * l.2 + v.toNat % 4096) = b
  | none => pageKey v ∈ calls.map fun c => pageKey c.vaddr

/-- **The process has its arguments**: it reads the array the kernel wrote, with as many pointers as
arguments and a null word behind them, and at each pointer the argument. -/
structure HandedOver (hhdm : BitVec 64) (es : ExecutionSpace) (argv : List (List (BitVec 8)))
    (m : Mem) : Prop where
  argc : es.argc.toInt = argv.length
  reads : ReadsVector (fun v b => userByte hhdm es.vmSpace v m = some b) es.argv argv
    (storedPtrs hhdm es.argv argv.length m)

section Passing

variable {hhdm p argvPtr : BitVec 64} {cap : Capability} {argv : List (List (BitVec 8))}
  {w w' : Machine}

theorem va_pa {x : BitVec 64} (hx : x ≠ 0#64) : va hhdm (pa hhdm x) = x := by
  rw [va, pa, if_neg hx, BitVec.sub_add_cancel]

/-- The words of the array, once its end is written. -/
theorem Copied.words {argvBase : BitVec 64} {given : List Block} {m m' : Mem} {i : ℕ}
    {x : BitVec 64} (h : Copied hhdm argvBase 0 argv given m m') (hsmall : argv.length + 1 < 2 ^ 31)
    (hx : (given.map (fun b => pa hhdm b.ptr) ++ [0#64])[i]? = some x) :
    load (store m' (at' argvBase (8 * argv.length)) 8 0#64) (at' argvBase (8 * i)) 8 = x := by
  have hlen : (given.map fun b => pa hhdm b.ptr).length = argv.length := by
    rw [List.length_map, h.length]
  rcases Nat.lt_trichotomy i argv.length with hlt | rfl | hlt
  · rw [List.getElem?_append_left (by omega), List.getElem?_map] at hx
    obtain ⟨block, hblock, rfl⟩ := Option.map_eq_some_iff.mp hx
    rw [load_store_at' argvBase (by omega) (by omega) (by omega), ← h.word i block hblock,
      Nat.zero_add]
  · rw [← hlen, List.getElem?_concat_length] at hx
    obtain rfl := Option.some.inj hx
    exact load_store_same _ _ (by omega) _
  · have hend := (List.getElem?_eq_some_iff.mp hx).1
    rw [List.length_append, hlen, List.length_singleton] at hend
    omega

/-- **The kernel writes the vector right**: the array is the next block of the pool, and the strings
are the blocks after it. -/
theorem poolView_of_passArguments (hargc : 0 < (argcOf argv).toInt)
    (hpair : (w.pools cap.pool).Pairwise fun b c => b.ptr ≠ 0#64 → c.ptr ≠ 0#64 →
      ∀ x, b.Holds x → ¬ c.Holds x)
    (hrun : passArguments hhdm p cap argv w = some (.ok argvPtr, w')) :
    ∃ array given rest, w.pools cap.pool = array :: (given ++ rest) ∧ given.length = argv.length
      ∧ argvPtr = pa hhdm array.ptr
      ∧ ReadsVector (PoolView hhdm (w.pools cap.pool) w'.kernel.mem) argvPtr argv
          (given.map fun b => pa hhdm b.ptr) := by
  obtain ⟨hsmall, argvBase, m, pools, vm, w₂, halloc, hne, -, hcopy, rfl, rfl⟩ :=
    passed_of_passArguments hargc hrun
  obtain ⟨hnull, -⟩ | ⟨array, blocks, hpool, hroom, -, rfl, -, rfl⟩ :=
    capabilityAllocFrom_cases halloc
  · exact absurd hnull hne
  have hblocks : ((w.withPools m (Function.update w.pools cap.pool blocks)).withVm vm).pools
      cap.pool = blocks := Function.update_self ..
  rw [hpool] at hpair ⊢
  obtain ⟨harray, hrest⟩ := List.pairwise_cons.mp hpair
  have hinside : ∀ k < 8 * (argv.length + 1), array.Holds (at' array.ptr k) := fun k hk =>
    array.holds_at' hk (by omega) (by omega)
  obtain ⟨given, hgiven, hgiven0, hcopied⟩ := copied_of_copyArgs hcopy (by rwa [hblocks])
    (fun b hb hb0 k hk hin => harray b (by rwa [hblocks] at hb) hne hb0 _
      (hinside k (by omega)) hin) (by omega)
  rw [hblocks] at hgiven
  refine ⟨array, given, w₂.pools cap.pool, by rw [hgiven], hcopied.length, rfl, ?_, ?_⟩
  · intro i x hx k hk
    have hi : i < argv.length + 1 := by
      obtain ⟨hlt, -⟩ := List.getElem?_eq_some_iff.mp hx
      simpa [hcopied.length] using hlt
    have hword := hcopied.words hsmall hx
    rw [PoolView, va_at', va_pa hne]
    refine ⟨?_, array, List.mem_cons_self, hne, hinside _ (by omega)⟩
    rw [← at'_at', ← hword]
    exact (extractLsb'_load _ _ hk).symm
  · intro i arg ptr harg hptr k b hb
    rw [List.getElem?_map] at hptr
    obtain ⟨block, hblock, rfl⟩ := Option.map_eq_some_iff.mp hptr
    have hmem := List.mem_of_getElem? hblock
    have hblock0 := hgiven0 block hmem
    have hin : block ∈ blocks := by simp [hgiven, hmem]
    obtain ⟨hholds, hbyte⟩ := hcopied.string i arg block harg hblock k b hb
    have hslot := le_toNat_sub_slot (j := argv.length) (n := 8 * (argv.length + 1))
      (fun k hk heq => harray block hin hne hblock0 _ (hinside k hk) (heq ▸ hholds)) (by omega)
    rw [PoolView, va_at', va_pa hblock0]
    refine ⟨?_, block, List.mem_cons_of_mem _ hin, hblock0, hholds⟩
    rw [← hbyte]
    exact store_of_outside hslot

end Passing

section Handover

variable {hhdm kernelPagemap cap : BitVec 64} {image : Mem} {argv : List (List (BitVec 8))}
  {capabilities : List Capability} {w w₁ : Machine} {es : ExecutionSpace} {lab : Labels}
  {spaces : Set (BitVec 64)}

theorem Creation.argv_eq_vectorBase
    (c : Creation hhdm kernelPagemap image argv capabilities w es w₁) :
    es.argv = vectorBase hhdm w capabilities argv := by
  have hes : es.argv = c.argvPtr := congrArg ExecutionSpace.argv c.space
  obtain ⟨hargc, hptr, -⟩ | ⟨hargc, -⟩ := passArguments_cases c.args
  · rw [vectorBase, if_pos hargc, hes, Except.ok.inj hptr]
  · rw [vectorBase, if_neg (by omega), c.argv_eq hargc]

/-- **The kernel has the vector right**, in the blocks of the pool from the second on. -/
theorem Creation.poolView (c : Creation hhdm kernelPagemap image argv capabilities w es w₁)
    (hpools : PoolsInRam hhdm w) (hargc : 0 < (argcOf argv).toInt) :
    ReadsVector (PoolView hhdm (w.pools c.cap.pool) c.wArgs.kernel.mem)
      (vectorBase hhdm w capabilities argv) argv (vectorPtrs hhdm w capabilities argv) := by
  have hes : es.argv = c.argvPtr := congrArg ExecutionSpace.argv c.space
  obtain ⟨-, first, hfirst⟩ := c.stack_eq
  have hpair := hpools.apart c.cap.pool
  rw [hfirst, List.pairwise_cons] at hpair
  obtain ⟨array, given, rest, hblocks, hlen, -, hreads⟩ :=
    poolView_of_passArguments hargc hpair.2 c.args
  have hpool : w.pools c.cap.pool = first :: array :: (given ++ rest) := by
    rw [hfirst, ← hblocks]
    rfl
  have hptrs : vectorPtrs hhdm w capabilities argv = given.map fun b => pa hhdm b.ptr := by
    refine List.ext_getElem (by simp [vectorPtrs, hlen]) fun i hi hi' => ?_
    rw [List.length_map] at hi'
    have hgiven : (w.pools c.cap.pool)[2 + i]? = some given[i] := by
      rw [hpool, Nat.add_comm, List.getElem?_cons_succ, List.getElem?_cons_succ,
        List.getElem?_append_left hi', List.getElem?_eq_getElem hi']
    simp [vectorPtrs, givenBlock, c.region, hgiven]
  rw [← c.argv_eq_vectorBase, hes, hptrs]
  refine hreads.imp fun v b hv => ?_
  obtain ⟨hbyte, block, hmem, hblock⟩ := hv
  refine ⟨hbyte, block, ?_, hblock⟩
  rw [hfirst]
  exact List.mem_cons_of_mem _ hmem

/-- The segment pages that `load_segment` was given a page for. -/
def Creation.loads (c : Creation hhdm kernelPagemap image argv capabilities w es w₁) :
    List (Elf64Phdr × ℕ) :=
  (loadTrace hhdm image es.vmSpace (calledLoads image) ⟨c.wArgs.vm, []⟩).map Prod.fst

/-- No page of a segment is beyond the address space. -/
theorem lt_of_mem_calledLoads (haccept : Accepted image) {l : Elf64Phdr × ℕ}
    (hl : l ∈ calledLoads image) : 4096 * (l.2 + 1) < 2 ^ 64 := by
  rw [calledLoads, loadSegmentCalls_eq haccept] at hl
  obtain ⟨⟨a, j⟩, hcall, rfl⟩ := List.mem_map.mp hl
  obtain ⟨phdr, -, hpage⟩ := List.mem_flatMap.mp hcall
  have hj := (mem_withPages.mp hpage).2
  rw [Elf64Phdr.numPages, pageSize] at hj
  have := (alignUp (readPhdr image phdr).pMemsz).isLt
  dsimp only at hj ⊢
  omega

/-- **After its image is loaded, a process shows the image, and elsewhere its stack and its
arguments.** -/
theorem Creation.loaded (c : Creation hhdm kernelPagemap image argv capabilities w es w₁)
    (h : Ready hhdm kernelPagemap w lab spaces) :
    ∃ lab₁ lab₂, Loaded hhdm kernelPagemap es.vmSpace image c.wArgs.kernel.mem lab₁
        (ImageMap.ofLoads c.loads) c.out.vm lab₂
      ∧ (∀ {a x}, lab a = some x → lab₁ a = some x)
      ∧ Shows hhdm es.vmSpace c.wArgs.kernel.mem
          (AddrSpace.ofCalls (mappedCalls hhdm w capabilities argv)) := by
  obtain ⟨lab₁, h₁, hmono, hshows⟩ := c.shows h
  rw [c.stackPage_eq, c.argv_eq_vectorBase] at hshows
  obtain ⟨haccept, hload⟩ := calledLoads_of_loadElf c.load
  obtain ⟨lab₂, hloaded⟩ := (h₁.spaces.tables.loaded es.vmSpace image).loadPages
    (s := ⟨c.wArgs.vm, []⟩) (h₁.spaces.root _ (Set.mem_insert ..)) c.vmSpace_ne
    (fun l hl => lt_of_mem_calledLoads haccept hl) hload
  exact ⟨lab₁, lab₂, hloaded, hmono, hshows⟩

/-- What is mapped before the image is mapped to itself, for the user. -/
theorem identity_of_mem_mappedCalls {call : MapCall}
    (hcall : call ∈ mappedCalls hhdm w capabilities argv) :
    call.paddr = call.vaddr ∧ checkFlag call.flags 2 = true := by
  have hrw : checkFlag mapUserRw 2 = true := by decide
  have hro : checkFlag mapUserRo 2 = true := by decide
  rw [mappedCalls, argvCalls] at hcall
  split at hcall <;> simp only [List.mem_cons, List.not_mem_nil, or_false] at hcall
  · subst hcall
    exact ⟨rfl, hrw⟩
  · rcases hcall with rfl | rfl
    · exact ⟨rfl, hrw⟩
    · exact ⟨rfl, hro⟩

/-- **A byte of a pool is read where it is shown**, and nowhere else. -/
theorem Creation.userByte_iff (c : Creation hhdm kernelPagemap image argv capabilities w es w₁)
    (h : Ready hhdm kernelPagemap w lab spaces)
    (hcalls : ∀ call ∈ mappedCalls hhdm w capabilities argv, call.vaddr.toNat < 2 ^ 48)
    {v : BitVec 64} {b : BitVec 8} (hlow : v.toNat < 2 ^ 47)
    (hbyte : pageKey v ∈ (mappedCalls hhdm w capabilities argv).map (fun c => pageKey c.vaddr) →
      c.wArgs.kernel.mem (va hhdm v) = b ∧ PoolByte lab (va hhdm v)) :
    userByte hhdm es.vmSpace v w₁.kernel.mem = some b
      ↔ ByteShown image c.loads (mappedCalls hhdm w capabilities argv) v b := by
  obtain ⟨lab₁, lab₂, hloaded, hmono, hshows⟩ := c.loaded h
  have hmem : w₁.kernel.mem = c.out.vm.mem := congrArg (fun w => w.kernel.mem) c.machine
  rw [hmem, ByteShown]
  cases hM : ImageMap.ofLoads c.loads (pageKey v) with
  | some l => rw [hloaded.userByte (.inl hlow) hM, Option.some.injEq]
  | none =>
    have hserve := (hshows v fun _ => lowerHalf_of_lt hlow).up (hloaded.others v hM)
    cases hcall : AddrSpace.ofCalls (mappedCalls hhdm w capabilities argv) (pageKey v) with
    | none =>
      rw [hcall] at hserve
      have hnot : pageKey v ∉ (mappedCalls hhdm w capabilities argv).map fun c => pageKey c.vaddr :=
        fun hmem => AddrSpace.foldl_ne_none (.inl hmem) hcall
      simp [userByte_eq_none hserve, hnot]
    | some call =>
      rw [hcall] at hserve
      obtain ⟨hin, hkey⟩ := AddrSpace.mem_of_ofCalls hcall
      obtain ⟨hself, huser⟩ := identity_of_mem_mappedCalls hin
      have hmapped : pageKey v ∈ (mappedCalls hhdm w capabilities argv).map
          fun c => pageKey c.vaddr := List.mem_map.mpr ⟨call, hin, hkey⟩
      obtain ⟨hval, f, hf, hoff⟩ := hbyte hmapped
      rw [userByte_of_identity hserve huser hself hkey.symm hlow (hcalls call hin),
        hloaded.bytes (hf.mono hmono) hoff, hval]
      simp only [hmapped]

/-- A byte of a block is a byte of a pool. -/
theorem Ready.poolByte (h : Ready hhdm kernelPagemap w lab spaces) {pool : BitVec 64}
    {block : Block} {x : BitVec 64} (hblock : block ∈ w.pools pool) (h0 : block.ptr ≠ 0#64)
    (hx : block.Holds x) : PoolByte lab x := by
  have hbyte := h.pools pool block hblock h0 _ hx
  rwa [at'_toNat_sub] at hbyte

theorem PoolView.lt (hpools : PoolsInRam hhdm w) {pool v : BitVec 64} {m : Mem} {b : BitVec 8}
    (hv : PoolView hhdm (w.pools pool) m v b) : v.toNat < 2 ^ 47 := by
  obtain ⟨-, block, hblock, h0, hx⟩ := hv
  have hlt := hpools.window pool block hblock h0 _ hx
  rwa [va, BitVec.add_sub_cancel] at hlt

/-- The page for the stack is eight pages up in the direct map. -/
theorem Creation.stack_lt (c : Creation hhdm kernelPagemap image argv capabilities w es w₁)
    (hpools : PoolsInRam hhdm w) : (pa hhdm (givenBlock w capabilities 0)).toNat < 2 ^ 47 := by
  rw [← c.stack_eq.1]
  obtain ⟨hnull, -⟩ | ⟨block, blocks, hpool, hlen, h0, hptr, -, -⟩ :=
    capabilityAllocFrom_cases c.alloc
  · exact absurd hnull c.stack_ne
  · have hin : block.Holds block.ptr := by
      rw [Block.Holds, BitVec.sub_self, BitVec.toNat_zero]
      exact Nat.lt_of_lt_of_le (by decide) hlen
    rw [hptr, pa, if_neg h0]
    exact hpools.window c.cap.pool block (by simp [hpool]) h0 _ hin

theorem toInt_argcOf_iff : (argcOf argv).toInt = argv.length ↔ argv.length < 2 ^ 31 := by
  rw [argcOf, BitVec.toInt_eq_toNat_cond, BitVec.toNat_ofNat]
  split <;> omega

/-- There is a vector, unless there are no arguments. -/
theorem argc_pos (hne : argv ≠ []) (hsmall : argv.length < 2 ^ 31) : 0 < (argcOf argv).toInt := by
  rw [toInt_argcOf_iff.mpr hsmall]
  exact_mod_cast List.length_pos_iff.mpr hne

theorem argc_nil : (argcOf []).toInt ≤ 0 := by decide

theorem Creation.mappedCalls_lt (c : Creation hhdm kernelPagemap image argv capabilities w es w₁)
    (hpools : PoolsInRam hhdm w) :
    ∀ call ∈ mappedCalls hhdm w capabilities argv, call.vaddr.toNat < 2 ^ 48 := by
  intro call hcall
  rcases List.mem_cons.mp hcall with rfl | hcall
  · have hlt := c.stack_lt hpools
    rw [stackCall]
    dsimp only
    bv_omega
  · rw [argvCalls] at hcall
    split at hcall
    case isTrue => cases hcall
    case isFalse hargc =>
      obtain rfl := List.mem_singleton.mp hcall
      have hview := c.poolView hpools (by omega)
      have hfirst : ∃ x, (vectorPtrs hhdm w capabilities argv ++ [0#64])[0]? = some x :=
        ⟨_, List.getElem?_eq_getElem (by simp)⟩
      obtain ⟨x, hx⟩ := hfirst
      have hlt := (hview.array 0 x hx 0 (by omega)).lt hpools
      rw [Nat.mul_zero, Nat.zero_add, at'_zero] at hlt
      dsimp only
      omega

/-- **What is known of each byte of the vector**: it is low, and on a mapped page the kernel has it
in a pool. -/
theorem Creation.view (c : Creation hhdm kernelPagemap image argv capabilities w es w₁)
    (h : Ready hhdm kernelPagemap w lab spaces) (hpools : PoolsInRam hhdm w)
    (hsmall : argv.length < 2 ^ 31) :
    ReadsVector (fun v b => v.toNat < 2 ^ 47
        ∧ (pageKey v ∈ (mappedCalls hhdm w capabilities argv).map (fun c => pageKey c.vaddr) →
          c.wArgs.kernel.mem (va hhdm v) = b ∧ PoolByte lab (va hhdm v)))
      (vectorBase hhdm w capabilities argv) argv (vectorPtrs hhdm w capabilities argv) := by
  by_cases hnil : argv = []
  · subst hnil
    have hstack := c.stack_lt hpools
    refine ⟨fun i x hx k hk => ?_, fun i arg ptr harg => by simp at harg⟩
    obtain rfl : i = 0 := by
      obtain ⟨hlt, -⟩ := List.getElem?_eq_some_iff.mp hx
      simpa [vectorPtrs] using hlt
    rw [vectorBase, if_pos argc_nil, mappedCalls, argvCalls, if_pos argc_nil]
    have hlow : (at' 0#64 (8 * 0 + k)).toNat = k := by
      rw [toNat_at' (by simp; omega)]
      simp
    refine ⟨by omega, fun hkey => ?_⟩
    -- the page at zero is not the stack's
    have hpage := congrArg BitVec.toNat (List.mem_singleton.mp hkey)
    rw [toNat_pageKey, toNat_pageKey, hlow, stackCall] at hpage
    dsimp only at hpage
    bv_omega
  · refine (c.poolView hpools (argc_pos hnil hsmall)).imp fun v b hv => ⟨hv.lt hpools, fun _ => ?_⟩
    obtain ⟨hbyte, block, hblock, h0, hx⟩ := hv
    exact ⟨hbyte, h.poolByte hblock h0 hx⟩

/-- The words the kernel stored are still there when the image is loaded. -/
theorem Creation.storedPtrs_eq (c : Creation hhdm kernelPagemap image argv capabilities w es w₁)
    (h : Ready hhdm kernelPagemap w lab spaces) (hpools : PoolsInRam hhdm w)
    (hsmall : argv.length < 2 ^ 31) :
    storedPtrs hhdm (vectorBase hhdm w capabilities argv) argv.length w₁.kernel.mem
      = vectorPtrs hhdm w capabilities argv := by
  by_cases hnil : argv = []
  · subst hnil
    rfl
  · obtain ⟨lab₁, lab₂, hloaded, hmono, -⟩ := c.loaded h
    have hmem : w₁.kernel.mem = c.out.vm.mem := congrArg (fun w => w.kernel.mem) c.machine
    have hkernel : ReadsVector (fun v b => w₁.kernel.mem (va hhdm v) = b)
        (vectorBase hhdm w capabilities argv) argv (vectorPtrs hhdm w capabilities argv) := by
      refine (c.poolView hpools (argc_pos hnil hsmall)).imp fun v b hv => ?_
      obtain ⟨hbyte, block, hblock, h0, hx⟩ := hv
      obtain ⟨f, hf, hoff⟩ := h.poolByte hblock h0 hx
      rw [hmem, hloaded.bytes (hf.mono hmono) hoff, hbyte]
    exact hkernel.storedPtrs (by simp [vectorPtrs])

/-- **The arguments are handed over exactly when** an `int` counts them and every byte of the array
and of the strings, which are the blocks of the pool from the second on, is on the page the array
begins in or on the one mapped for the stack, or shown by the image. -/
theorem handedOver_iff (c : Creation hhdm kernelPagemap image argv capabilities w es w₁)
    (h : Ready hhdm kernelPagemap w lab spaces) (hpools : PoolsInRam hhdm w) :
    HandedOver hhdm es argv w₁.kernel.mem
      ↔ argv.length < 2 ^ 31
        ∧ ReadsVector (ByteShown image c.loads (mappedCalls hhdm w capabilities argv))
            (vectorBase hhdm w capabilities argv) argv (vectorPtrs hhdm w capabilities argv) := by
  have hargc : es.argc.toInt = argv.length ↔ argv.length < 2 ^ 31 := by
    have hes : es.argc = argcOf argv := congrArg ExecutionSpace.argc c.space
    rw [hes, toInt_argcOf_iff]
  have hreads (hsmall : argv.length < 2 ^ 31) := (c.view h hpools hsmall).congr
    (R := fun v b => userByte hhdm es.vmSpace v w₁.kernel.mem = some b) fun v b hv =>
      c.userByte_iff h (c.mappedCalls_lt hpools) hv.1 hv.2
  constructor
  · rintro ⟨hcount, hvector⟩
    have hsmall := hargc.mp hcount
    rw [c.argv_eq_vectorBase, c.storedPtrs_eq h hpools hsmall] at hvector
    exact ⟨hsmall, (hreads hsmall).mp hvector⟩
  · rintro ⟨hsmall, hvector⟩
    refine ⟨hargc.mpr hsmall, ?_⟩
    rw [c.argv_eq_vectorBase, c.storedPtrs_eq h hpools hsmall]
    exact (hreads hsmall).mpr hvector

/-- A process with arguments takes two blocks of its pool and one for each argument, and seven pages
besides four for each page of its image. -/
theorem createExecutionSpace_isSome {cap : Capability} {stack array : Block}
    {given rest : List Block} (kernelPagemap : BitVec 64) (haccept : Accepted image)
    (hcap : memoryRegionCap capabilities = some cap)
    (hregion : cap.HasPool) (hargc : 0 < (argcOf argv).toInt)
    (hsmall : argv.length + 1 < 2 ^ 31)
    (hpool : w.pools cap.pool = stack :: array :: (given ++ rest))
    (hstack : pageSize ≤ stack.len ∧ stack.ptr ≠ 0#64)
    (harray : (argv.length + 1) * 8 ≤ array.len ∧ array.ptr ≠ 0#64)
    (hfit : List.Forall₂ (fun arg b => arg.length + 1 ≤ b.len ∧ b.ptr ≠ 0#64) argv given)
    (hpid : w.kernel.sched.nextAvailablePid < maxPids)
    (hs : Supplies hhdm w.vm (7 + 4 * (segmentPages image).length)) :
    ∃ es w₁, createExecutionSpace hhdm kernelPagemap image argv capabilities w
      = some (.ok es, w₁) := by
  obtain ⟨⟨pid, sched⟩, hpid'⟩ : ∃ x, schedAllocatePid w.kernel.sched = some x :=
    ⟨_, if_neg (Nat.not_le.mpr hpid)⟩
  obtain ⟨p, vm, m, vm', hnew, hp0, halloc, hmap, hs₁⟩ := exists_stackMapped
    (n := 4 * (segmentPages image).length + 3) kernelPagemap hregion hpool hstack.1 hstack.2
    (hs.mono (by omega))
  obtain ⟨argvPtr, wArgs, hargs, hs₂⟩ := passArguments_isSome
    (w := (((w.withVm vm).withSched sched).withPools m
      (Function.update w.pools cap.pool (array :: (given ++ rest)))).withVm vm') p hregion hargc
    hsmall (Function.update_self ..) harray.1 harray.2 hfit hs₁
  obtain ⟨out, hload, -⟩ := loadElf_isSome (n := 0) haccept (hs₂.mono (by omega)) p
  exact ⟨_, _, createExecutionSpace_eq hnew hp0 hpid' hcap halloc hstack.2 hmap hargs hload⟩

end Handover

/-! ## One argument -/

/-- A machine whose first pool has a page, a short block in the next page, and one block more. -/
def argMachine (string : Block) : Machine :=
  { twoPools with
    pools := fun pool => if pool = 1#64 then
      [⟨0xffff800000100000#64, 4096⟩, ⟨0xffff800000101000#64, 64⟩, string] else [] }

/-- The pages of its pool. -/
def argLabels : Labels := fun c =>
  if OnPage 0xffff800000000000#64 c ∧ 0xffff800000100000#64 ≤ c ∧ c < 0xffff800000104000#64
  then some (c, [0#9, 0#9, 0#9, 0#9]) else none

theorem pageLabels_argLabels : PageLabels argLabels := fun c l hl => by
  rw [argLabels] at hl
  split at hl
  case isTrue h =>
    obtain rfl := Option.some.inj hl
    exact ⟨rfl, h.1, BitVec.le_trans (by decide) h.2.1⟩
  case isFalse => cases hl

/-- A byte of those pages. -/
theorem argLabels_of_mem {x : BitVec 64} (hge : 0xffff800000100000#64 ≤ x)
    (hlt : x < 0xffff800000104000#64) : ∃ f, argLabels f ≠ none ∧ (x - f).toNat < 4096 := by
  have hoff := toNat_and_pageMask x
  generalize x &&& 0xfff#64 = o at hoff
  have hpage : OnPage 0xffff800000000000#64 (x - o) := by
    rw [OnPage]
    bv_omega
  refine ⟨x - o, ?_, by bv_omega⟩
  rw [argLabels, if_pos ⟨hpage, by bv_omega, by bv_omega⟩]
  simp

section OneArgument

variable {string : Block} {arg : List (BitVec 8)}

/-- A block of its pool beyond the first two. -/
structure ArgBlock (string : Block) : Prop where
  ge : 0xffff800000101040#64 ≤ string.ptr
  le : string.ptr.toNat + string.len ≤ 0xffff800000104000

theorem ready_argMachine (h : ArgBlock string) :
    ∃ lab, Ready 0xffff800000000000#64 0xffff800000001000#64 (argMachine string) lab ∅ := by
  have hge := h.ge
  have hle := h.le
  refine pageLabels_argLabels.ready fun pool block hblock i hi => ?_
  split at hblock
  case isFalse => cases hblock
  case isTrue =>
    simp only [List.mem_cons, List.not_mem_nil, or_false] at hblock
    rcases hblock with rfl | rfl | rfl
    · exact argLabels_of_mem (by bv_omega) (by bv_omega)
    · exact argLabels_of_mem (by bv_omega) (by bv_omega)
    · exact argLabels_of_mem (by bv_omega) (by bv_omega)

theorem poolsInRam_argMachine (h : ArgBlock string) :
    PoolsInRam 0xffff800000000000#64 (argMachine string) where
  window pool block hblock _ x hx := by
    have hge := h.ge
    have hle := h.le
    rw [Block.Holds] at hx
    simp only [argMachine] at hblock
    split at hblock
    case isFalse => cases hblock
    case isTrue =>
      simp only [List.mem_cons, List.not_mem_nil, or_false] at hblock
      rcases hblock with rfl | rfl | rfl <;> bv_omega
  apart pool := by
    have hge := h.ge
    have hle := h.le
    simp only [argMachine]
    split
    case isFalse => exact .nil
    case isTrue =>
      simp only [List.pairwise_cons, List.mem_cons, List.not_mem_nil, or_false, Block.Holds]
      refine ⟨?_, ?_, by simp⟩
      · rintro b (rfl | rfl) - - x hx
        · bv_omega
        · bv_omega
      · rintro b rfl - - x hx
        bv_omega

/-- A process with one argument is made. -/
theorem created_argMachine (h : ArgBlock string) (hfit : arg.length + 1 ≤ string.len) :
    ∃ es w₁, createExecutionSpace 0xffff800000000000#64 0xffff800000001000#64
      (onePageElf 0x400000#64) [arg] [poolCap 1#64] (argMachine string) = some (.ok es, w₁) := by
  have hne : string.ptr ≠ 0#64 := by
    have hge := h.ge
    bv_omega
  have hpages : (segmentPages (onePageElf 0x400000#64)).length = 1 := by decide +kernel
  have hpool : (argMachine string).pools (poolCap 1#64).pool
      = ⟨0xffff800000100000#64, 4096⟩ :: ⟨0xffff800000101000#64, 64⟩ :: ([string] ++ []) := rfl
  exact createExecutionSpace_isSome 0xffff800000001000#64 accepted_onePageElf
    (memoryRegionCap_poolCap 1#64) (hasPool_poolCap (by decide)) (argc_pos (by simp) (by simp))
    (by simp) hpool ⟨le_refl 4096, by decide⟩ ⟨by simp, by decide⟩ (.cons ⟨hfit, hne⟩ .nil)
    (show 0 < maxPids by decide) (supplies_twoPools.mono (by rw [hpages]; decide))

theorem givenBlock_argMachine : givenBlock (argMachine string) [poolCap 1#64] 0
      = 0xffff800000100000#64
    ∧ givenBlock (argMachine string) [poolCap 1#64] 1 = 0xffff800000101000#64
    ∧ givenBlock (argMachine string) [poolCap 1#64] 2 = string.ptr := by
  refine ⟨?_, ?_, ?_⟩ <;> rw [givenBlock, memoryRegionCap_poolCap] <;> rfl

theorem vectorBase_argMachine : vectorBase 0xffff800000000000#64 (argMachine string) [poolCap 1#64]
    [arg] = 0x101000#64 := by
  have hargc : 0 < (argcOf [arg]).toInt := argc_pos (by simp) (by simp)
  rw [vectorBase, if_neg (by omega), givenBlock_argMachine.2.1]
  decide

theorem vectorPtrs_argMachine : vectorPtrs 0xffff800000000000#64 (argMachine string) [poolCap 1#64]
    [arg] = [pa 0xffff800000000000#64 string.ptr] := by
  simp [vectorPtrs, givenBlock_argMachine]

theorem mappedCalls_argMachine : mappedCalls 0xffff800000000000#64 (argMachine string)
    [poolCap 1#64] [arg]
      = [stackCall 0x107000#64, ⟨0x101000#64, 0x101000#64, mapUserRo⟩] := by
  have hargc : 0 < (argcOf [arg]).toInt := argc_pos (by simp) (by simp)
  have hstack : pa 0xffff800000000000#64 0xffff800000100000#64 + 0x7000#64 = 0x107000#64 := by
    decide
  rw [mappedCalls, givenBlock_argMachine.1, hstack, vectorBase_argMachine, argvCalls,
    if_neg (by omega)]

/-- Off the page of the image, the page of the array is shown and one for the stack. -/
theorem byteShown_argMachine {es : ExecutionSpace} {w₁ : Machine}
    (c : Creation 0xffff800000000000#64 0xffff800000001000#64 (onePageElf 0x400000#64) [arg]
      [poolCap 1#64] (argMachine string) es w₁) {v : BitVec 64} {b : BitVec 8}
    (hv : pageKey v ≠ 0x400#36) :
    ByteShown (onePageElf 0x400000#64) c.loads
        (mappedCalls 0xffff800000000000#64 (argMachine string) [poolCap 1#64] [arg]) v b
      ↔ pageKey v = 0x107#36 ∨ pageKey v = 0x101#36 := by
  have hkey : loadKey (readPhdr (onePageElf 0x400000#64) 64#64, 0) = 0x400#36 := by decide +kernel
  have hnone : ImageMap.ofLoads c.loads (pageKey v) = none := by
    refine ImageMap.ofLoads_eq_none fun l hl heq => ?_
    have hmem := loadTrace_sublist.subset hl
    rw [calledLoads, loadSegmentCalls_onePageElf, List.map_singleton] at hmem
    obtain rfl := List.mem_singleton.mp hmem
    exact hv (heq.symm.trans hkey)
  have hpages : pageKey 0x107000#64 = 0x107#36 ∧ pageKey 0x101000#64 = 0x101#36 := by decide
  rw [ByteShown, hnone, mappedCalls_argMachine]
  simp [stackCall, hpages]

end OneArgument

/-- A short argument is handed over if its block is on the page of the array. -/
theorem handedOver_argMachine : ∃ es w₁,
    createExecutionSpace 0xffff800000000000#64 0xffff800000001000#64 (onePageElf 0x400000#64)
        [[0x61#8]] [poolCap 1#64] (argMachine ⟨0xffff800000101040#64, 64⟩) = some (.ok es, w₁)
      ∧ HandedOver 0xffff800000000000#64 es [[0x61#8]] w₁.kernel.mem := by
  have hblock : ArgBlock ⟨0xffff800000101040#64, 64⟩ := ⟨by decide, by decide⟩
  have hfit : [0x61#8].length + 1 ≤ 64 := by decide
  obtain ⟨es, w₁, hrun⟩ := created_argMachine hblock hfit
  obtain ⟨c⟩ := creation_of_createExecutionSpace hrun
  obtain ⟨lab, h⟩ := ready_argMachine hblock
  refine ⟨es, w₁, hrun, (handedOver_iff c h (poolsInRam_argMachine hblock)).mpr ⟨by simp, ?_⟩⟩
  -- every byte of the array and of the string is on one page
  have hpage : ∀ v : BitVec 64, 0x101000#64 ≤ v → v < 0x102000#64 → pageKey v = 0x101#36 :=
    fun v hge hlt => by
      refine BitVec.eq_of_toNat_eq ?_
      rw [toNat_pageKey]
      bv_omega
  rw [vectorBase_argMachine, vectorPtrs_argMachine]
  refine ⟨fun i x hx k hk => ?_, fun i arg ptr harg hptr k b hb => ?_⟩
  · have hi : i < 2 := by
      obtain ⟨hlt, -⟩ := List.getElem?_eq_some_iff.mp hx
      simpa using hlt
    have hkey := hpage (at' 0x101000#64 (8 * i + k)) (by bv_omega) (by bv_omega)
    exact (byteShown_argMachine c (by rw [hkey]; decide)).mpr (.inr hkey)
  · obtain ⟨rfl, rfl⟩ : i = 0 ∧ 0x101040#64 = ptr := by
      simpa [List.getElem?_singleton, pa] using hptr
    obtain rfl : [0x61#8] = arg := by simpa using harg
    have hk : k < 2 := by
      obtain ⟨hlt, -⟩ := List.getElem?_eq_some_iff.mp hb
      simpa using hlt
    have hkey := hpage (at' 0x101040#64 k) (by bv_omega) (by bv_omega)
    exact (byteShown_argMachine c (by rw [hkey]; decide)).mpr (.inr hkey)

/-- A long one is not: its block is on pages of its own, and they are not mapped. -/
theorem not_handedOver_argMachine : ∃ es w₁,
    createExecutionSpace 0xffff800000000000#64 0xffff800000001000#64 (onePageElf 0x400000#64)
        [List.replicate 4096 0x61#8] [poolCap 1#64] (argMachine ⟨0xffff800000102000#64, 8192⟩)
          = some (.ok es, w₁)
      ∧ storedPtrs 0xffff800000000000#64 es.argv 1 w₁.kernel.mem = [0x102000#64]
      ∧ userByte 0xffff800000000000#64 es.vmSpace 0x102000#64 w₁.kernel.mem = none
      ∧ ¬ HandedOver 0xffff800000000000#64 es [List.replicate 4096 0x61#8] w₁.kernel.mem := by
  have hblock : ArgBlock ⟨0xffff800000102000#64, 8192⟩ := ⟨by decide, by decide⟩
  have hfit : (List.replicate 4096 0x61#8).length + 1 ≤ 8192 := by
    rw [List.length_replicate]
    decide
  obtain ⟨es, w₁, hrun⟩ := created_argMachine hblock hfit
  obtain ⟨c⟩ := creation_of_createExecutionSpace hrun
  obtain ⟨lab, h⟩ := ready_argMachine hblock
  have hpools := poolsInRam_argMachine hblock
  have hstored := c.storedPtrs_eq h hpools (by rw [List.length_singleton]; decide)
  rw [← c.argv_eq_vectorBase, vectorPtrs_argMachine] at hstored
  have hptr : pa 0xffff800000000000#64 0xffff800000102000#64 = 0x102000#64 := by decide
  rw [hptr] at hstored
  have hkey : pageKey 0x102000#64 = 0x102#36 := by decide
  have hfault : userByte 0xffff800000000000#64 es.vmSpace 0x102000#64 w₁.kernel.mem = none := by
    refine Option.eq_none_iff_forall_ne_some.mpr fun b hb => ?_
    have hshown := (c.userByte_iff h (c.mappedCalls_lt hpools) (by decide) fun hmapped => by
      rw [mappedCalls_argMachine, hkey] at hmapped
      exact absurd hmapped (by decide)).mp hb
    rw [byteShown_argMachine c (by rw [hkey]; decide), hkey] at hshown
    exact absurd hshown (by decide)
  refine ⟨es, w₁, hrun, hstored, hfault, fun hover => ?_⟩
  have hfirst := hover.reads.strings 0 _ 0x102000#64 rfl (by rw [hstored]; rfl) 0 0x61#8 rfl
  rw [at'_zero, hfault] at hfirst
  cases hfirst

end MoonOS

import MoonOS.Mm.Refine

/-!
# Mm/Slab — the slab caches of `kernel/mm/slab.c` and `kernel/mm/kmem_cache.c`

A cache is a page holding its `struct slab_cache`; a slab is a page with a `struct slab` in its last
32 bytes and objects from its first byte on.  A free object is a `struct slab_bufctl`: the link to
the next free one, its own address, and its slab.  Everything lives in the one byte memory, so a
client's write to an object it owns is a write to a `slab_bufctl` to be.

A walk along a list of slabs that never ends, a wait for `pmm_lock` while it is held, a panic and a
division by zero are `none`.
-/

namespace MoonOS

open ByteMemory

/-! ## `slab.c` -/

/-- `align`: `(size + align - 1) & ~(align - 1)` on `int`, returned as a `uint64_t`. -/
def align (size align : BitVec 32) : BitVec 64 :=
  (size + align - 1#32 &&& ~~~(align - 1#32)).signExtend 64

/-- `list_foreach(out, next, …) tail = out;`, `none` when the list does not end. -/
def slabTail (m : Mem) : ℕ → BitVec 64 → BitVec 64 → Option (BitVec 64)
  | 0, _, _ => none
  | fuel + 1, out, tail => if out = 0#64 then some tail else slabTail m fuel (load m out 8) out

/-- `create_slab`, for the small slabs it supports.  Appending to a cache that has slabs sets the
last slab's link and clears it again. -/
def createSlab (cache : BitVec 64) (s : Vm) : Option (BitVec 64 × Vm) :=
  (archAllocPage s).bind fun (buf, s) =>
    if buf = 0#64 then some (0#64, s)
    else
      let m := store s.mem buf 8 0#64
      let slab := buf + 4096#64 - 32#64
      let m := store m slab 8 0#64
      let m := store m (at' slab 24) 4 0#32
      let m := store m (at' slab 16) 8 buf
      let nodes := load m (at' cache 16) 8
      if nodes = 0#64 then some (slab, { s with mem := store m (at' cache 16) 8 slab })
      else
        (slabTail m (2 ^ 64) nodes 0#64).map fun tail =>
          (slab, { s with mem := store (store m tail 8 slab) tail 8 0#64 })

/-- One round of the loop of `slab_cache_grow` over the objects: memory, `buf` and `tail`. -/
def initBufctl (slab : BitVec 64) (size : BitVec 32) :
    Mem × BitVec 64 × BitVec 64 → ℕ → Mem × BitVec 64 × BitVec 64
  | (m, buf, tail), i =>
    let offset := buf + (size * BitVec.ofNat 32 i).signExtend 64
    let m := store m (at' offset 16) 8 slab
    let m := store m (at' offset 8) 8 offset
    if tail = 0#64 then (m, offset, offset) else (store m tail 8 offset, buf, offset)

/-- `slab_cache_grow`. -/
def slabCacheGrow (cache : BitVec 64) : ℕ → Vm → Option (Bool × Vm)
  | 0, s => some (true, s)
  | count + 1, s =>
    (createSlab cache s).bind fun (slab, s) =>
      if slab = 0#64 then some (false, s)
      else
        let buf := load s.mem (at' slab 16) 8
        let size := load s.mem cache 4
        if size = 0#32 then none
        else
          let elements := (load s.mem (at' cache 4) 4).sdiv size
          let (m, _, tail) :=
            (List.range elements.toInt.toNat).foldl (initBufctl slab size) (s.mem, buf, buf)
          slabCacheGrow cache count { s with mem := store m tail 8 0#64 }

/-- The object size a cache is made with: `size` rounded up to `alignment`. -/
def slabSize (size : BitVec 64) (alignment : BitVec 32) : BitVec 64 :=
  if size % alignment.signExtend 64 ≠ 0#64 then align (size.setWidth 32) alignment else size

/-- `slab_create_cache`. -/
def slabCreateCache (name size : BitVec 64) (alignment : BitVec 32) (s : Vm) :
    Option (BitVec 64 × Vm) :=
  let size := slabSize size alignment
  if 512#64 < size then none -- "Large slabs are not supported yet"
  else
    (archAllocPage s).bind fun (cache, s) =>
      if cache = 0#64 then some (0#64, s)
      else
        let m := store s.mem cache 4 (size.setWidth 32)
        let m := store m (at' cache 8) 8 name
        let m := store m (at' cache 4) 4 4072#32
        let m := store m (at' cache 16) 8 0#64
        (slabCacheGrow cache 1 { s with mem := m }).map fun (_, s) => (cache, s)

/-! ## `kmem_cache.c` -/

/-- The alignment `kmem_cache_create` goes on with. -/
def kmemAlignment (alignment : BitVec 32) : BitVec 32 :=
  if alignment = 0#32 then 8#32 else alignment

/-- `kmem_cache_create`. -/
def kmemCacheCreate (name size : BitVec 64) (alignment : BitVec 32) (s : Vm) :
    Option (BitVec 64 × Vm) :=
  if size = 0#64 then some (0#64, s) else slabCreateCache name size (kmemAlignment alignment) s

/-- The first slab with a free object, null when there is none. -/
def slabWithFree (m : Mem) : ℕ → BitVec 64 → Option (BitVec 64)
  | 0, _ => none
  | fuel + 1, slab =>
    if slab = 0#64 then some 0#64
    else if load m (at' slab 16) 8 ≠ 0#64 then some slab
    else slabWithFree m fuel (load m slab 8)

/-- Take the first object off a slab's free list: the address it holds for itself, and the
memory. -/
def takeBufctl (m : Mem) (slab : BitVec 64) : BitVec 64 × Mem :=
  let freelist := load m (at' slab 16) 8
  let ptr := load m (at' freelist 8) 8
  let m := store m (at' slab 16) 8 (load m freelist 8)
  (ptr, store m (at' slab 24) 4 (load m (at' slab 24) 4 + 1#32))

/-- `kmem_cache_alloc`, with a bound on how often it may call itself. -/
def kmemCacheAllocFuel (cache : BitVec 64) (flags : BitVec 32) :
    ℕ → Vm → Option (BitVec 64 × Vm)
  | 0, _ => none
  | fuel + 1, s =>
    if cache = 0#64 then some (0#64, s)
    else if load s.mem (at' cache 16) 8 = 0#64 then
      if checkFlag flags 1 then none -- "No nodes for this cache …"
      else some (0#64, s)
    else
      (slabWithFree s.mem (2 ^ 64) (load s.mem (at' cache 16) 8)).bind fun slab =>
        if slab ≠ 0#64 then
          let (ptr, m) := takeBufctl s.mem slab
          some (ptr, { s with mem := m })
        else if checkFlag flags 2 then some (0#64, s)
        else
          (slabCacheGrow cache 1 s).bind fun (success, s) =>
            if success then kmemCacheAllocFuel cache flags fuel s
            else if checkFlag flags 1 then none -- "Tried to grow cache …"
            else some (0#64, s)

/-- `kmem_cache_alloc`.  It calls itself only after a page was taken for the cache, so the answers
left bound its depth. -/
def kmemCacheAlloc (cache : BitVec 64) (flags : BitVec 32) (s : Vm) : Option (BitVec 64 × Vm) :=
  kmemCacheAllocFuel cache flags (s.frames.length + 1) s

/-- `kmem_cache_free`. -/
def kmemCacheFree (cache ptr : BitVec 64) (s : Vm) : Option Vm :=
  if ptr = 0#64 ∨ cache = 0#64 then some s
  else
    (slabWithFree s.mem (2 ^ 64) (load s.mem (at' cache 16) 8)).map fun slab =>
      if slab = 0#64 then s
      else
        let m := store s.mem (at' slab 24) 4 (load s.mem (at' slab 24) 4 - 1#32)
        let m := store m ptr 8 (load m (at' slab 16) 8)
        { s with mem := store m (at' slab 16) 8 ptr }

/-! ## Runs of one cache -/

/-- A cache in use: memory and page allocator, the slab pages it took, and the objects handed out
and not yet freed. -/
structure SlabState where
  vm : Vm
  pages : List (BitVec 64)
  live : List (BitVec 64)

/-- What a client of a cache does. -/
inductive SlabEvent
  | alloc (flags : BitVec 32)
  | free (ptr : BitVec 64)
  | write (addr : BitVec 64) (n : ℕ) (v : BitVec (8 * n))

/-- The pages `arch_alloc_page` handed out between two states. -/
def pagesTaken (s s' : Vm) : List (BitVec 64) :=
  (s.frames.take (s.frames.length - s'.frames.length)).filter (· ≠ 0#64)

/-- A client frees what it holds, and writes inside what it holds. -/
def SlabEvent.Allowed (size : ℕ) (t : SlabState) : SlabEvent → Prop
  | .alloc _ => True
  | .free ptr => ptr ∈ t.live
  | .write addr n _ => ∃ ptr ∈ t.live, (addr - ptr).toNat + n ≤ size

/-- One event: the pointer `kmem_cache_alloc` returned, null for the others, and the new state. -/
def SlabEvent.apply (cache : BitVec 64) (t : SlabState) : SlabEvent → Option (BitVec 64 × SlabState)
  | .alloc flags =>
    (kmemCacheAlloc cache flags t.vm).map fun (ptr, vm) =>
      (ptr, ⟨vm, t.pages ++ pagesTaken t.vm vm, if ptr = 0#64 then t.live else ptr :: t.live⟩)
  | .free ptr =>
    (kmemCacheFree cache ptr t.vm).map fun vm => (0#64, ⟨vm, t.pages, t.live.erase ptr⟩)
  | .write addr n v => some (0#64, { t with vm := { t.vm with mem := store t.vm.mem addr n v } })

/-- An object slot of one of the pages: as many as the cache makes of a page, from its start on. -/
def IsSlot (size : ℕ) (pages : List (BitVec 64)) (ptr : BitVec 64) : Prop :=
  ∃ page ∈ pages, ∃ i < 4072 / size, ptr = at' page (size * i)

end MoonOS

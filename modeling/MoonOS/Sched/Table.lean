import MoonOS.Ds.Vec
import MoonOS.Sched.Scheduler

/-!
# Sched/Table — `sched_dequeue` on the vector in memory

The process table is a `cc` vector of `ExecutionSpace`s, 200 bytes each.  Here `sched_dequeue` works
on its bytes: it looks for the first record with the pid and erases it.  An erase leaves the records
where they are and counts one less (`ccVecErase_isVec`), so

* `schedDequeueVec_of_findIdx?` — it drops the *last* record, whichever was found;
* `dequeuesExactly_iff` — the named process goes and the others stay exactly when the named process
  is the last, or there is none;
* `schedDequeue_toSpace` — and read as a list, the table goes through `schedDequeue` of
  `Sched/Scheduler` with the erase that drops the last.
-/

namespace MoonOS

open ByteMemory

/-! ## Records -/

/-- `sizeof(ExecutionSpace)`. -/
def executionSpaceSize : ℕ := 200

/-- The bytes of an `ExecutionSpace`, as one little-endian word. -/
abbrev ProcessRecord := BitVec (8 * executionSpaceSize)

namespace ProcessRecord

/-- `es->pid`, the first field. -/
def pid (r : ProcessRecord) : BitVec 32 := r.extractLsb' 0 32

/-- The field of eight bytes at an offset. -/
def word (r : ProcessRecord) (offset : ℕ) : BitVec 64 := r.extractLsb' (8 * offset) 64

/-- The `ExecutionSpace` that a record holds; the four bytes behind `argc` are padding. -/
def toSpace (r : ProcessRecord) : ExecutionSpace where
  pid := r.pid
  port := r.extractLsb' 32 32
  argc := r.extractLsb' 64 32
  argv := r.word 16
  vmSpace := r.word 24
  stackPointer := r.word 32
  ec :=
    { entry := r.word 40
      registers :=
        { registers :=
            { r15 := r.word 48, r14 := r.word 56, r13 := r.word 64, r12 := r.word 72
              r11 := r.word 80, r10 := r.word 88, r9 := r.word 96, r8 := r.word 104
              rsi := r.word 112, rdi := r.word 120, rbp := r.word 128, rdx := r.word 136
              rcx := r.word 144, rbx := r.word 152, rax := r.word 160 }
          ip := r.word 168
          rsp := r.word 176 } }
  messageQueue := r.word 184
  capabilities := r.word 192

end ProcessRecord

/-- The records of the vector at `processes`. -/
def tableOf (m : Mem) (processes : BitVec 64) : List ProcessRecord :=
  (List.range (ccVecSize m processes).toNat).map fun i =>
    load m (ccVecGet executionSpaceSize processes (BitVec.ofNat 64 i)) executionSpaceSize

/-- `sched_dequeue` on the vector at `processes`: the loop's first hit is erased. -/
def schedDequeueVec (processes : BitVec 64) (pid : BitVec 32) (m : Mem) : BitVec 32 × Mem :=
  let hit := (List.range (ccVecSize m processes).toNat).find? fun i =>
    let es := ccVecGet executionSpaceSize processes (BitVec.ofNat 64 i)
    es ≠ 0#64 ∧ load m es 4 = pid
  match hit with
  | none => (-1#32, m)
  | some i => (0#32, (ccVecErase executionSpaceSize processes (BitVec.ofNat 64 i) m).2)

/-- **`sched_dequeue` removes exactly the process of the pid**, and nothing if there is none. -/
structure DequeuesExactly (processes : BitVec 64) (pid : BitVec 32) (m : Mem) : Prop where
  present : pid ∈ (tableOf m processes).map ProcessRecord.pid →
    (schedDequeueVec processes pid m).1 = 0#32
      ∧ tableOf (schedDequeueVec processes pid m).2 processes
        = (tableOf m processes).filter (·.pid ≠ pid)
  absent : pid ∉ (tableOf m processes).map ProcessRecord.pid →
    schedDequeueVec processes pid m = (-1#32, m)

section Table

variable {m : Mem} {processes : BitVec 64} {cap i : ℕ} {records : List ProcessRecord}
  {pid : BitVec 32}

/-- The pid of a record is its first four bytes in memory. -/
theorem ProcessRecord.pid_load (m : Mem) (a : BitVec 64) :
    ProcessRecord.pid (load m a executionSpaceSize) = load m a 4 := by
  have hwindow := extractLsb'_load_window m a (show 0 + 4 ≤ executionSpaceSize by decide)
  rwa [at'_zero] at hwindow

theorem IsVec.tableOf_eq (hv : IsVec m processes cap records) : tableOf m processes = records := by
  have hsmall := hv.small
  have hfits := hv.fits
  have hcap : cap ≤ executionSpaceSize * cap := Nat.le_mul_of_pos_left _ (by decide)
  have hsize : (ccVecSize m processes).toNat = records.length := by
    rw [hv.size, BitVec.toNat_ofNat, Nat.mod_eq_of_lt (by omega)]
  refine List.ext_getElem (by simp [tableOf, hsize]) fun j hj hj' => ?_
  simp only [tableOf, List.getElem_map, List.getElem_range]
  rw [ccVecGet_ofNat (by omega), hv.get j hj']
  rfl

/-- The loop finds what a search through the list finds. -/
theorem IsVec.find?_range (hv : IsVec m processes cap records) (pid : BitVec 32) :
    (List.range (ccVecSize m processes).toNat).find? (fun i =>
        ccVecGet executionSpaceSize processes (BitVec.ofNat 64 i) ≠ 0#64
          ∧ load m (ccVecGet executionSpaceSize processes (BitVec.ofNat 64 i)) 4 = pid)
      = records.findIdx? fun r => r.pid = pid := by
  have hsmall := hv.small
  have hfits := hv.fits
  have hinside := hv.inside
  have hcap : cap ≤ executionSpaceSize * cap := Nat.le_mul_of_pos_left _ (by decide)
  have hsize : (ccVecSize m processes).toNat = records.length := by
    rw [hv.size, BitVec.toNat_ofNat, Nat.mod_eq_of_lt (by omega)]
  -- No slot of the vector is at the null address, and each holds its record.
  have hslot : ∀ j (hj : j < records.length),
      (ccVecGet executionSpaceSize processes (BitVec.ofNat 64 j) ≠ 0#64
        ∧ load m (ccVecGet executionSpaceSize processes (BitVec.ofNat 64 j)) 4 = pid)
      ↔ (records[j]).pid = pid := by
    intro j hj
    have hoff := offset_le executionSpaceSize (Nat.lt_of_lt_of_le hj hfits)
    have hne : at' processes (16 + executionSpaceSize * j) ≠ 0#64 := fun hz => by
      have hnat := toNat_at' (a := processes) (i := 16 + executionSpaceSize * j) (by omega)
      rw [hz, BitVec.toNat_zero] at hnat
      omega
    rw [ccVecGet_ofNat (by omega), ← ProcessRecord.pid_load, hv.get j hj, and_iff_right hne]
    rfl
  rw [hsize]
  cases hfind : records.findIdx? (fun r => r.pid = pid) with
  | none =>
    rw [List.findIdx?_eq_none_iff] at hfind
    refine List.find?_eq_none.mpr fun j hj => ?_
    have hlt : j < records.length := by simpa using hj
    simpa using mt (hslot j hlt).mp (by simpa using hfind _ (List.getElem_mem hlt))
  | some i =>
    obtain ⟨hi, hpid, hfirst⟩ := List.findIdx?_eq_some_iff_getElem.mp hfind
    refine List.find?_range_eq_some.mpr ⟨?_, by simpa using hi, fun j hj => ?_⟩
    · simpa using (hslot i hi).mpr (by simpa using hpid)
    · have hmiss := mt (hslot j (by omega)).mp (by simpa using hfirst j hj)
      simpa [Classical.or_iff_not_imp_left] using hmiss

/-- **With a process of the pid, `sched_dequeue` drops the last record**… -/
theorem schedDequeueVec_of_findIdx? (hv : IsVec m processes cap records)
    (hfind : records.findIdx? (fun r => r.pid = pid) = some i) :
    ∃ m', schedDequeueVec processes pid m = (0#32, m')
      ∧ IsVec m' processes cap records.dropLast := by
  obtain ⟨hi, -⟩ := List.findIdx?_eq_some_iff_getElem.mp hfind
  obtain ⟨-, hv', -⟩ := ccVecErase_isVec (by decide) hv hi
  refine ⟨_, ?_, hv'⟩
  simp only [schedDequeueVec]
  rw [hv.find?_range, hfind]

/-- …and without one it does nothing. -/
theorem schedDequeueVec_of_none (hv : IsVec m processes cap records)
    (hfind : records.findIdx? (fun r => r.pid = pid) = none) :
    schedDequeueVec processes pid m = (-1#32, m) := by
  simp only [schedDequeueVec]
  rw [hv.find?_range, hfind]

/-- **Read as a list, the table goes through `schedDequeue`**, the erase dropping the last. -/
theorem schedDequeue_toSpace (hv : IsVec m processes cap records) {s : Sched}
    (hs : s.processes = records.map ProcessRecord.toSpace) (pid : BitVec 32) :
    ∃ m' records', schedDequeueVec processes pid m
        = ((schedDequeue (fun processes _ => processes.dropLast) pid s).1, m')
      ∧ IsVec m' processes cap records'
      ∧ (schedDequeue (fun processes _ => processes.dropLast) pid s).2.processes
        = records'.map ProcessRecord.toSpace := by
  have hsearch : s.processes.findIdx? (fun es => es.pid = pid)
      = records.findIdx? fun r => r.pid = pid := by
    rw [hs, List.findIdx?_map]
    rfl
  cases hfind : records.findIdx? (fun r => r.pid = pid) with
  | none =>
    rw [schedDequeue_of_none _ (hsearch.trans hfind)]
    exact ⟨m, records, schedDequeueVec_of_none hv hfind, hv, hs⟩
  | some i =>
    obtain ⟨m', hrun, hv'⟩ := schedDequeueVec_of_findIdx? hv hfind
    obtain ⟨hstatus, hproc, -, -⟩ :=
      schedDequeue_of_findIdx? (fun processes _ => processes.dropLast) (hsearch.trans hfind)
    refine ⟨m', records.dropLast, by rw [hrun, hstatus], hv', ?_⟩
    rw [hproc, hs, List.map_dropLast]

/-- Dropping the last of distinct keys takes out a key that is there exactly when it is the
last. -/
theorem dropLast_eq_filter_iff {α β : Type*} [DecidableEq β] {f : α → β} {xs : List α}
    (hnodup : (xs.map f).Nodup) {b : β} (hb : b ∈ xs.map f) :
    xs.dropLast = xs.filter (fun x => f x ≠ b) ↔ (xs.map f).getLast? = some b := by
  obtain ⟨ys, y, rfl⟩ := List.eq_nil_or_concat xs |>.resolve_left (by rintro rfl; simp at hb)
  rw [List.concat_eq_append] at *
  rw [List.map_append, List.map_singleton, List.nodup_append] at hnodup
  rw [List.dropLast_concat, List.map_append, List.map_singleton, List.getLast?_concat,
    Option.some.injEq, List.filter_append]
  constructor
  · intro heq
    -- The record of the key is among those the filter keeps, unless it is the last.
    obtain ⟨x, hx, rfl⟩ := List.mem_map.mp hb
    rcases List.mem_append.mp hx with hys | hlast
    · rw [heq, ← List.filter_append] at hys
      simp at hys
    · rw [List.mem_singleton.mp hlast]
  · rintro rfl
    have hkept : ys.filter (fun x => f x ≠ f y) = ys :=
      List.filter_eq_self.mpr fun x hx => by
        simpa using hnodup.2.2 (f x) (List.mem_map_of_mem hx) (f y) (by simp)
    rw [hkept, List.filter_cons_of_neg (by simp), List.filter_nil, List.append_nil]

/-- **`sched_dequeue` removes exactly the process it is given when that process is the last of the
table, or is not there** — and otherwise the last process goes in its place. -/
theorem dequeuesExactly_iff (hv : IsVec m processes cap records)
    (hpids : (records.map ProcessRecord.pid).Nodup) (pid : BitVec 32) :
    DequeuesExactly processes pid m
      ↔ (pid ∈ records.map ProcessRecord.pid
        → (records.map ProcessRecord.pid).getLast? = some pid) := by
  by_cases hmem : pid ∈ records.map ProcessRecord.pid
  · obtain ⟨i, hfind⟩ : ∃ i, records.findIdx? (fun r => r.pid = pid) = some i := by
      obtain ⟨r, hr, hpid⟩ := List.mem_map.mp hmem
      exact Option.isSome_iff_exists.mp
        (List.findIdx?_isSome.trans (List.any_eq_true.mpr ⟨r, hr, by simpa using hpid⟩))
    obtain ⟨m', hrun, hv'⟩ := schedDequeueVec_of_findIdx? hv hfind
    rw [forall_prop_of_true hmem, ← dropLast_eq_filter_iff hpids hmem]
    constructor
    · intro h
      have htable := (h.present (hv.tableOf_eq ▸ hmem)).2
      rwa [hrun, hv'.tableOf_eq, hv.tableOf_eq] at htable
    · intro h
      refine ⟨fun _ => ⟨by rw [hrun], ?_⟩, fun habs => absurd hmem (hv.tableOf_eq ▸ habs)⟩
      rw [hrun, hv'.tableOf_eq, hv.tableOf_eq, h]
  · have hfind : records.findIdx? (fun r => r.pid = pid) = none :=
      List.findIdx?_eq_none_iff.mpr fun r hr => by
        simpa using fun hpid => hmem (List.mem_map.mpr ⟨r, hr, hpid⟩)
    refine iff_of_true ⟨fun h => ?_, fun _ => schedDequeueVec_of_none hv hfind⟩ fun h =>
      absurd h hmem
    rw [hv.tableOf_eq] at h
    exact absurd h hmem

end Table

/-! ## Two processes -/

/-- A record of a given pid, everything else clear. -/
def recordOf (pid : BitVec 32) : ProcessRecord := pid.setWidth _

/-- The block at `block` with one more record behind its `n`. -/
def pushRecord (block : BitVec 64) (n : ℕ) (r : ProcessRecord) (m : Mem) : Mem :=
  store (store m (at' block (16 + executionSpaceSize * n)) executionSpaceSize r)
    (at' block 0) 8 (BitVec.ofNat 64 (n + 1))

/-- A vector without records, in the block at `0xffff800010000000`. -/
def noRecords : Mem :=
  store (store (fun _ => 0#8) (at' 0xffff800010000000#64 0) 8 0#64) (at' 0xffff800010000000#64 8) 8
    (BitVec.ofNat 64 2)

/-- The processes `0` and `1` in it. -/
def twoRecords : Mem :=
  pushRecord 0xffff800010000000#64 1 (recordOf 1#32)
    (pushRecord 0xffff800010000000#64 0 (recordOf 0#32) noRecords)

theorem isVec_twoRecords :
    IsVec twoRecords 0xffff800010000000#64 2 [recordOf 0#32, recordOf 1#32] := by
  have hnil : @IsVec executionSpaceSize noRecords 0xffff800010000000#64 2 [] :=
    isVec_nil _ (by decide) (by decide)
  have hone : IsVec (pushRecord 0xffff800010000000#64 0 (recordOf 0#32) noRecords)
      0xffff800010000000#64 2 [recordOf 0#32] := hnil.append (by decide)
  exact hone.append (by decide)

theorem nodup_twoRecords :
    ([recordOf 0#32, recordOf 1#32].map ProcessRecord.pid).Nodup := by decide

/-- The last of the two leaves. -/
theorem dequeuesExactly_twoRecords : DequeuesExactly 0xffff800010000000#64 1#32 twoRecords :=
  (dequeuesExactly_iff isVec_twoRecords nodup_twoRecords 1#32).mpr fun _ => by decide

/-- **The first is to leave, and the second is gone.** -/
theorem not_dequeuesExactly_twoRecords :
    (tableOf twoRecords 0xffff800010000000#64).map ProcessRecord.pid = [0#32, 1#32]
      ∧ ¬ DequeuesExactly 0xffff800010000000#64 0#32 twoRecords := by
  have htable := isVec_twoRecords.tableOf_eq
  have hfind : [recordOf 0#32, recordOf 1#32].findIdx? (fun r => r.pid = 0#32) = some 0 := by
    decide
  obtain ⟨m', hrun, hv⟩ := schedDequeueVec_of_findIdx? isVec_twoRecords hfind
  refine ⟨by rw [htable]; decide, fun hexact => ?_⟩
  have hleft := (hexact.present (by rw [htable]; decide)).2
  rw [hrun, hv.tableOf_eq, htable] at hleft
  exact absurd hleft (by decide)

end MoonOS

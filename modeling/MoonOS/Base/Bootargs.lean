import MoonOS.Base.Fmt
import MoonOS.Base.Mem
import MoonOS.Base.Str

/-!
# Base/Bootargs — looking up a tag on the kernel's command line

`bootarg_find` (`libs/base/sources/bootargs.c`) collects the command line's characters in a buffer
as long as the tag, compares the buffer with the tag at every comma and once more at the end, and
starts the buffer afresh behind a comma.

* `bootargLoop` is the source's loop over memory, with the addresses it reads through `cmdline` and
  writes in `buff`.  `scan` is the same walk over lists, `none` once it leaves either of them, and
  `answers_bootargLoop` says that the loop is the walk.
* The walk compares as many bytes as it has *collected*, so at a comma every beginning of the tag
  passes; it skips a character for each comma and still counts `len` rounds, so the second comma
  that does not match sends it past the terminator; and nothing stops an element longer than the
  tag.
* `bootargFinds_iff` — when the answer is right and no access is out of bounds all the same.
-/

namespace MoonOS

open ByteMemory

/-! ## The source -/

/-- `','`. -/
abbrev comma : BitVec 8 := 0x2C#8

/-- What a call did: its result, the addresses it read through `cmdline`, and those it wrote through
`buff[buff_i]`. -/
structure BootargRun where
  result : Bool
  reads : List (BitVec 64)
  writes : List (BitVec 64)
deriving DecidableEq, Repr

/-- A run with one more round in front. -/
def BootargRun.round (reads : List (BitVec 64)) (write : BitVec 64) (run : BootargRun) :
    BootargRun :=
  { run with reads := reads ++ run.reads, writes := write :: run.writes }

/-- `buff[buff_i++] = *cmdline;` and on to the next round.  `buff_i` is an `int`, and stepping it
from its largest value is undefined. -/
def bootargStore (buff : BitVec 64) (reads : List (BitVec 64)) (m : Mem) (cmdline : BitVec 64)
    (buffI : ℕ) (next : Mem → BitVec 64 → ℕ → Option BootargRun) : Option BootargRun :=
  if buffI + 1 = 2 ^ 31 then none
  else
    (next (Function.update m (at' buff buffI) (m cmdline)) (cmdline + 1) (buffI + 1)).map
      (BootargRun.round reads (at' buff buffI))

/-- The loop, by the rounds that are left, and the comparison behind it. -/
def bootargLoop (tag buff : BitVec 64) (tagLen : ℕ) : ℕ → Mem → BitVec 64 → ℕ → Option BootargRun
  | 0, m, _, _ => some ⟨strncmp m buff tag tagLen = 0#32, [], []⟩
  | left + 1, m, cmdline, buffI =>
    if m cmdline = comma then
      if strncmp m buff tag buffI = 0#32 then some ⟨true, [cmdline], []⟩
      else
        bootargStore buff [cmdline, cmdline + 1] (memset m buff 0#8 tagLen) (cmdline + 1) 0
          (bootargLoop tag buff tagLen left)
    else bootargStore buff [cmdline] m cmdline buffI (bootargLoop tag buff tagLen left)

/-- `bootarg_find`, with `buff` where the call's array lies and what `m` has there in it. -/
def bootargFind (m : Mem) (tag cmdline buff : BitVec 64) : Option BootargRun := do
  let len ← strlen m cmdline
  if tag = 0#64 ∨ cmdline = 0#64 then
    return ⟨false, [], []⟩
  let tagLen ← strlen m tag
  bootargLoop tag buff tagLen len m cmdline 0

/-! ## The walk over lists -/

variable {m : Mem} {tag cmdline buff : BitVec 64} {t s word stale line : List (BitVec 8)}
  {b : Bool}

/-- One more character in a buffer that has `word`, with `stale` bytes behind it. -/
def scanStore (word stale : List (BitVec 8)) (c : BitVec 8)
    (next : List (BitVec 8) → List (BitVec 8) → Option Bool) : Option Bool :=
  match stale with
  | [] => none
  | _ :: stale => if word.length + 1 = 2 ^ 31 then none else next (word ++ [c]) stale

/-- The round of a comma that does not match: a cleared buffer, and the character behind the comma
in it. -/
def scanSkip (n : ℕ) (next : List (BitVec 8) → List (BitVec 8) → List (BitVec 8) → Option Bool) :
    List (BitVec 8) → Option Bool
  | [] => none
  | c :: line => scanStore [] (List.replicate n 0#8) c fun word stale => next word stale line

/-- The walk over what is left of the command line, its terminator included. -/
def scan (t : List (BitVec 8)) : ℕ → List (BitVec 8) → List (BitVec 8) → List (BitVec 8) →
    Option Bool
  | 0, word, stale, _ => some (word ++ stale = t)
  | _ + 1, _, _, [] => none
  | left + 1, word, stale, x :: line =>
    if x = comma then
      if word <+: t then some true else scanSkip t.length (scan t left) line
    else scanStore word stale x fun word stale => scan t left word stale line

/-- The buffer lies apart from the two strings, as an array of the call's own does. -/
structure BootargFrame (tag cmdline buff : BitVec 64) (t s : List (BitVec 8)) : Prop where
  buff_ne : buff ≠ 0#64
  line_apart : Apart cmdline (s.length + 1) buff t.length
  tag_apart : Apart tag (t.length + 1) buff t.length
  tag_lt : t.length < 2 ^ 64
  line_lt : s.length + 1 < 2 ^ 64

/-- The memory of a call between two rounds. -/
structure Scanning (tag cmdline buff : BitVec 64) (t s : List (BitVec 8)) (m : Mem)
    (word stale : List (BitVec 8)) : Prop where
  tagAt : Holds m tag t
  lineAt : Holds m cmdline (s ++ [0#8])
  buffAt : Holds m buff (word ++ stale)
  size : word.length + stale.length = t.length

/-- A call that answers `b` and keeps to the command line and to the buffer. -/
def Answers (cmdline buff : BitVec 64) (len tagLen : ℕ) (call : Option BootargRun) (b : Bool) :
    Prop :=
  ∃ run, call = some run ∧ run.result = b ∧ (∀ a ∈ run.reads, (a - cmdline).toNat ≤ len) ∧
    ∀ a ∈ run.writes, (a - buff).toNat < tagLen

theorem not_answers_none {len tagLen : ℕ} : ¬ Answers cmdline buff len tagLen none b := by
  rintro ⟨run, hrun, -⟩
  cases hrun

/-- One round in front adds its own accesses. -/
theorem answers_round {len tagLen : ℕ} {reads : List (BitVec 64)} {write : BitVec 64}
    {call : Option BootargRun} :
    Answers cmdline buff len tagLen (call.map (BootargRun.round reads write)) b ↔
      (∀ a ∈ reads, (a - cmdline).toNat ≤ len) ∧ (write - buff).toNat < tagLen ∧
        Answers cmdline buff len tagLen call b := by
  cases call with
  | none => exact iff_of_false not_answers_none fun h => not_answers_none h.2.2
  | some run =>
    simp only [Answers, Option.map_some, Option.some.injEq, exists_eq_left', BootargRun.round,
      List.forall_mem_append, List.forall_mem_cons]
    tauto

/-! ### What a round keeps -/

/-- A byte written inside the buffer leaves both strings. -/
theorem Scanning.write (hf : BootargFrame tag cmdline buff t s)
    (h : Scanning tag cmdline buff t s m word stale) {m' : Mem} {word' stale' : List (BitVec 8)}
    (hsame : SameOutside buff t.length m m') (hbuff : Holds m' buff (word' ++ stale'))
    (hsize : word'.length + stale'.length = t.length) :
    Scanning tag cmdline buff t s m' word' stale' where
  tagAt := h.tagAt.sameOutside hsame fun i hi => hf.tag_apart i (hi.trans (Nat.lt_succ_self _))
  lineAt := h.lineAt.sameOutside hsame (by simpa using hf.line_apart)
  buffAt := hbuff
  size := hsize

theorem Scanning.store (hf : BootargFrame tag cmdline buff t s) {old : BitVec 8}
    (h : Scanning tag cmdline buff t s m word (old :: stale)) (c : BitVec 8) :
    Scanning tag cmdline buff t s (Function.update m (at' buff word.length) c) (word ++ [c])
      stale := by
  have hsize := h.size
  have htag := hf.tag_lt
  rw [List.length_cons] at hsize
  refine h.write hf (fun x hx => Function.update_of_ne ?_ _ _) ?_ ?_
  · rintro rfl
    rw [toNat_at'_sub buff (by omega)] at hx
    omega
  · rw [List.append_assoc, List.singleton_append]
    exact h.buffAt.update c (by rw [List.length_append, List.length_cons]; omega)
  · rw [List.length_append, List.length_singleton]
    omega

theorem Scanning.clear (hf : BootargFrame tag cmdline buff t s)
    (h : Scanning tag cmdline buff t s m word stale) :
    Scanning tag cmdline buff t s (memset m buff 0#8 t.length) []
      (List.replicate t.length 0#8) := by
  rw [memset_eq_fill]
  refine h.write hf (fun x hx => if_neg (Nat.not_lt.mpr hx)) ?_ (by simp)
  exact holds_fill hf.tag_lt.le m buff 0#8

/-- The character the loop is at. -/
theorem Scanning.char (h : Scanning tag cmdline buff t s m word stale) {pos : ℕ} {x : BitVec 8}
    (hpos : (s ++ [0#8]).drop pos = x :: line) :
    m (at' cmdline pos) = x ∧ pos ≤ s.length ∧ (s ++ [0#8]).drop (pos + 1) = line := by
  have hlt : pos < (s ++ [0#8]).length := by
    by_contra hge
    rw [List.drop_eq_nil_of_le (Nat.le_of_not_lt hge)] at hpos
    cases hpos
  rw [List.drop_eq_getElem_cons hlt, List.cons.injEq] at hpos
  refine ⟨(h.lineAt pos hlt).trans hpos.1, ?_, hpos.2⟩
  rw [List.length_append, List.length_singleton] at hlt
  omega

/-- The comparison at a comma: with the beginning of the tag as long as the buffer's word. -/
theorem Scanning.strncmp_word (hf : BootargFrame tag cmdline buff t s)
    (h : Scanning tag cmdline buff t s m word stale) :
    strncmp m buff tag word.length = 0#32 ↔ word <+: t := by
  rw [strncmp_eq_zero, or_iff_right hf.buff_ne]
  exact (holds_append.mp h.buffAt).1.isPrefix_iff h.tagAt (by have := h.size; omega)

/-- …and the one behind the loop: with all of it. -/
theorem Scanning.strncmp_buffer (hf : BootargFrame tag cmdline buff t s)
    (h : Scanning tag cmdline buff t s m word stale) :
    strncmp m buff tag t.length = 0#32 ↔ word ++ stale = t := by
  have hlen : (word ++ stale).length = t.length := by rw [List.length_append, h.size]
  rw [strncmp_eq_zero, or_iff_right hf.buff_ne, ← hlen,
    h.buffAt.isPrefix_iff h.tagAt hlen.le]
  exact ⟨fun hpre => hpre.eq_of_length hlen, fun heq => heq ▸ List.prefix_rfl⟩

/-! ### The loop is the walk -/

theorem mem_reads_bootargStore {a : BitVec 64} {reads : List (BitVec 64)} {buffI : ℕ}
    {next : Mem → BitVec 64 → ℕ → Option BootargRun} {run : BootargRun} (ha : a ∈ reads)
    (h : bootargStore buff reads m cmdline buffI next = some run) : a ∈ run.reads := by
  rw [bootargStore] at h
  split at h
  · cases h
  · obtain ⟨rest, -, rfl⟩ := Option.map_eq_some_iff.mp h
    exact List.mem_append_left _ ha

/-- A round reads the character it is at, whatever it does with it. -/
theorem mem_reads_bootargLoop {tagLen left buffI : ℕ} {run : BootargRun}
    (h : bootargLoop tag buff tagLen (left + 1) m cmdline buffI = some run) :
    cmdline ∈ run.reads := by
  rw [bootargLoop] at h
  split at h
  · split at h
    · cases h
      exact List.mem_singleton_self _
    · exact mem_reads_bootargStore List.mem_cons_self h
  · exact mem_reads_bootargStore List.mem_cons_self h

/-- Up to the terminator a read is in bounds… -/
theorem BootargFrame.read_le (hf : BootargFrame tag cmdline buff t s) {pos : ℕ}
    (hpos : pos ≤ s.length) : (at' cmdline pos - cmdline).toNat ≤ s.length := by
  rw [toNat_at'_sub cmdline (by have := hf.line_lt; omega)]
  exact hpos

/-- …and one behind it is not. -/
theorem not_answers_of_reads (hf : BootargFrame tag cmdline buff t s) {call : Option BootargRun}
    (hread : ∀ run, call = some run → at' cmdline (s.length + 1) ∈ run.reads) :
    ¬ Answers cmdline buff s.length t.length call b := by
  rintro ⟨run, hrun, -, hreads, -⟩
  have hfar := hreads _ (hread run hrun)
  rw [toNat_at'_sub cmdline hf.line_lt] at hfar
  omega

/-- A store is the walk's, if what follows is. -/
theorem answers_bootargStore (hf : BootargFrame tag cmdline buff t s)
    (h : Scanning tag cmdline buff t s m word stale) {pos : ℕ} {c : BitVec 8}
    {reads : List (BitVec 64)} {next : Mem → BitVec 64 → ℕ → Option BootargRun}
    {next' : List (BitVec 8) → List (BitVec 8) → Option Bool}
    (hreads : ∀ a ∈ reads, (a - cmdline).toNat ≤ s.length) (hchar : m (at' cmdline pos) = c)
    (hnext : ∀ {m' : Mem} {word' stale' : List (BitVec 8)},
      Scanning tag cmdline buff t s m' word' stale' →
      (Answers cmdline buff s.length t.length (next m' (at' cmdline (pos + 1)) word'.length) b ↔
        next' word' stale' = some b)) :
    Answers cmdline buff s.length t.length
        (bootargStore buff reads m (at' cmdline pos) word.length next) b ↔
      scanStore word stale c next' = some b := by
  have hsize := h.size
  have htag := hf.tag_lt
  rw [bootargStore]
  by_cases hint : word.length + 1 = 2 ^ 31
  · rw [if_pos hint]
    refine iff_of_false not_answers_none ?_
    cases stale <;> simp [scanStore, hint]
  · rw [if_neg hint, answers_round, toNat_at'_sub buff (by omega), hchar, at'_add_one]
    cases stale with
    | nil =>
      -- the byte behind the buffer
      rw [List.length_nil] at hsize
      refine iff_of_false (fun hall => ?_) (by simp [scanStore])
      exact absurd hall.2.1 (by omega)
    | cons old stale =>
      rw [List.length_cons] at hsize
      have hlen : (word ++ [c]).length = word.length + 1 := by simp
      rw [and_iff_right hreads, and_iff_right (by omega), ← hlen, hnext (h.store hf c), scanStore,
        if_neg hint]

/-- The walk is past the terminator when nothing is left. -/
theorem eq_of_drop_eq_nil {pos : ℕ} (hpos : pos ≤ s.length + 1)
    (hdrop : (s ++ [0#8]).drop pos = []) : pos = s.length + 1 := by
  have hend := List.drop_eq_nil_iff.mp hdrop
  rw [List.length_append, List.length_singleton] at hend
  exact Nat.le_antisymm hpos hend

/-- The round of a comma is the walk's, if what follows is. -/
theorem answers_skip (hf : BootargFrame tag cmdline buff t s)
    (h : Scanning tag cmdline buff t s m word stale) {pos : ℕ} (hpos : pos ≤ s.length)
    {next : Mem → BitVec 64 → ℕ → Option BootargRun}
    {next' : List (BitVec 8) → List (BitVec 8) → List (BitVec 8) → Option Bool}
    (hnext : ∀ {m' : Mem} {word' stale' : List (BitVec 8)}, pos + 1 ≤ s.length →
      Scanning tag cmdline buff t s m' word' stale' →
      (Answers cmdline buff s.length t.length (next m' (at' cmdline (pos + 2)) word'.length) b ↔
        next' word' stale' ((s ++ [0#8]).drop (pos + 2)) = some b)) :
    Answers cmdline buff s.length t.length
        (bootargStore buff [at' cmdline pos, at' cmdline (pos + 1)] (memset m buff 0#8 t.length)
          (at' cmdline (pos + 1)) 0 next) b ↔
      scanSkip t.length next' ((s ++ [0#8]).drop (pos + 1)) = some b := by
  cases hdrop : (s ++ [0#8]).drop (pos + 1) with
  | nil =>
    rw [eq_of_drop_eq_nil (Nat.add_le_add_right hpos 1) hdrop]
    exact iff_of_false (not_answers_of_reads hf fun _ =>
      mem_reads_bootargStore (List.mem_cons_of_mem _ List.mem_cons_self)) (by simp [scanSkip])
  | cons c line =>
    obtain ⟨hchar, hle, hline⟩ := (h.clear hf).char hdrop
    rw [scanSkip, ← hline]
    refine answers_bootargStore hf (h.clear hf) ?_ hchar (hnext hle)
    exact List.forall_mem_cons.mpr
      ⟨hf.read_le hpos, List.forall_mem_singleton.mpr (hf.read_le hle)⟩

/-- **The loop is the walk**: it answers within its bounds exactly when the walk does. -/
theorem answers_bootargLoop (hf : BootargFrame tag cmdline buff t s) :
    ∀ (left : ℕ) {m : Mem} {word stale : List (BitVec 8)} {pos : ℕ},
      Scanning tag cmdline buff t s m word stale → pos ≤ s.length + 1 →
      (Answers cmdline buff s.length t.length
          (bootargLoop tag buff t.length left m (at' cmdline pos) word.length) b ↔
        scan t left word stale ((s ++ [0#8]).drop pos) = some b)
  | 0, m, word, stale, pos, h, _ => by
      simp [bootargLoop, scan, Answers, h.strncmp_buffer hf]
  | left + 1, m, word, stale, pos, h, hpos => by
      cases hdrop : (s ++ [0#8]).drop pos with
      | nil =>
        rw [eq_of_drop_eq_nil hpos hdrop]
        exact iff_of_false (not_answers_of_reads hf fun _ => mem_reads_bootargLoop) (by simp [scan])
      | cons x line =>
        obtain ⟨hchar, hle, hnext⟩ := h.char hdrop
        rw [bootargLoop, hchar]
        by_cases hcomma : x = comma
        · rw [if_pos hcomma, scan, if_pos hcomma]
          by_cases hword : word <+: t
          · rw [if_pos ((h.strncmp_word hf).mpr hword), if_pos hword]
            simp only [Answers, Option.some.injEq, exists_eq_left', List.forall_mem_singleton,
              hf.read_le hle, List.not_mem_nil, IsEmpty.forall_iff, implies_true, and_true]
          · rw [if_neg (mt (h.strncmp_word hf).mp hword), if_neg hword, at'_add_one, ← hnext]
            exact answers_skip hf h hle fun hle' h' =>
              answers_bootargLoop hf left h' (Nat.succ_le_succ hle')
        · rw [if_neg hcomma, scan, if_neg hcomma, ← hnext]
          exact answers_bootargStore hf h (List.forall_mem_singleton.mpr (hf.read_le hle)) hchar
            fun h' => answers_bootargLoop hf left h' (Nat.succ_le_succ hle)

/-! ## What the walk finds -/

/-- A word of `n` characters fits the buffer, and `buff_i`. -/
def FitsBuffer (t : List (BitVec 8)) (n : ℕ) : Prop := n ≤ t.length ∧ n < 2 ^ 31

instance (t : List (BitVec 8)) (n : ℕ) : Decidable (FitsBuffer t n) :=
  inferInstanceAs (Decidable (_ ∧ _))

theorem FitsBuffer.mono {n k : ℕ} (h : FitsBuffer t n) (hk : k ≤ n) : FitsBuffer t k :=
  ⟨hk.trans h.1, hk.trans_lt h.2⟩

mutual

/-- With `word` in the buffer, one of the commas in `rest` is reached with the beginning of the tag
in the buffer, and every word on the way fits. -/
def stopsAt (t : List (BitVec 8)) : List (BitVec 8) → List (BitVec 8) → Bool
  | _, [] => false
  | word, c :: rest =>
    if c = comma then word <+: t || stopsBehind t rest
    else FitsBuffer t (word.length + 1) && stopsAt t (word ++ [c]) rest

/-- The same behind a comma, where the first character belongs to the word, even if it is a comma
itself. -/
def stopsBehind (t : List (BitVec 8)) : List (BitVec 8) → Bool
  | [] => false
  | c :: rest => stopsAt t [c] rest

end

/-- A character moves from what is left to the word. -/
theorem length_add_cons (word w : List (BitVec 8)) (c : BitVec 8) :
    word.length + (c :: w).length = (word ++ [c]).length + w.length := by
  simp [Nat.add_assoc, Nat.add_comm 1]

theorem FitsBuffer.size_snoc (hfits : FitsBuffer t (word.length + 1))
    (hsize : word.length + stale.length = t.length) (c : BitVec 8) :
    (word ++ [c]).length + stale.tail.length = t.length := by
  have hroom := hfits.1
  simp only [List.length_append, List.length_singleton, List.length_tail]
  omega

theorem scan_char {c : BitVec 8} (hc : c ≠ comma) (hsize : word.length + stale.length = t.length)
    (hword : word.length < 2 ^ 31) (left : ℕ) :
    scan t (left + 1) word stale (c :: line) =
      if FitsBuffer t (word.length + 1) then scan t left (word ++ [c]) stale.tail line
      else none := by
  rw [scan, if_neg hc]
  cases stale with
  | nil =>
    rw [if_neg fun h => by have := h.1; simp at hsize; omega, scanStore]
  | cons old stale =>
    rw [scanStore, List.tail_cons]
    rw [List.length_cons] at hsize
    by_cases hint : word.length + 1 = 2 ^ 31
    · rw [if_pos hint, if_neg fun h => by have := h.2; omega]
    · rw [if_neg hint, if_pos ⟨by omega, by omega⟩]

theorem scan_comma (left : ℕ) :
    scan t (left + 1) word stale (comma :: line) =
      if word <+: t then some true else scanSkip t.length (scan t left) line := by
  rw [scan, if_pos rfl]

mutual

/-- **Behind a comma**: after `k` others the walk has `k` rounds more than characters, so it gets to
the end in its bounds only with `k` zero, and has the terminator in its buffer then. -/
theorem scanSkip_eq (hne : t ≠ []) (hzero : 0#8 ∉ t) : ∀ (rest : List (BitVec 8)) (k : ℕ),
    scanSkip t.length (scan t (rest.length + k)) (rest ++ [0#8]) =
      if stopsBehind t rest then some true
      else if k = 0 ∧ comma ∉ rest.tail ∧ FitsBuffer t (rest.length + 1) then some false
      else none
  | [], k => by
      obtain ⟨n, hn⟩ := Nat.exists_eq_succ_of_ne_zero (mt List.length_eq_zero_iff.mp hne)
      have hfits : FitsBuffer t 1 := ⟨by omega, by decide⟩
      rw [List.nil_append, scanSkip, hn, List.replicate_succ, scanStore, if_neg (by decide)]
      cases k with
      | zero =>
        have hother : 0#8 :: List.replicate n 0#8 ≠ t := fun h => hzero (h ▸ List.mem_cons_self)
        simp [scan, stopsBehind, hfits, hother]
      | succ k => simp [scan, stopsBehind]
  | c :: rest, k => by
      obtain ⟨n, hn⟩ := Nat.exists_eq_succ_of_ne_zero (mt List.length_eq_zero_iff.mp hne)
      have hlen : (c :: rest).length + k = rest.length + (k + 1) := by
        rw [List.length_cons]
        omega
      have hnext := scan_eq hne hzero rest k [c] (List.replicate n 0#8)
        (by simp [hn, Nat.add_comm]) (by simp)
      rw [List.cons_append, scanSkip, hn, List.replicate_succ, scanStore, if_neg (by decide), hlen]
      simpa [stopsBehind, Nat.add_comm] using hnext
termination_by rest => rest.length

/-- **With a word in the buffer**, `k + 1` commas behind. -/
theorem scan_eq (hne : t ≠ []) (hzero : 0#8 ∉ t) : ∀ (rest : List (BitVec 8)) (k : ℕ)
    (word stale : List (BitVec 8)), word.length + stale.length = t.length →
    word.length < 2 ^ 31 →
    scan t (rest.length + (k + 1)) word stale (rest ++ [0#8]) =
      if stopsAt t word rest then some true
      else if k = 0 ∧ comma ∉ rest ∧ FitsBuffer t (word.length + rest.length + 1) then some false
      else none
  | [], k, word, stale, hsize, hword => by
      have hother : word ++ 0#8 :: stale.tail ≠ t := fun h => hzero (h ▸ by simp)
      rw [List.nil_append, List.length_nil, Nat.zero_add, scan_char (by decide) hsize hword]
      cases k with
      | zero => simp [scan, stopsAt, hother]
      | succ k => simp [scan, stopsAt]
  | c :: rest, k, word, stale, hsize, hword => by
      have hlen : (c :: rest).length + (k + 1) = rest.length + (k + 1) + 1 := by
        rw [List.length_cons]
        omega
      rw [List.cons_append, hlen]
      by_cases hc : c = comma
      · subst hc
        rw [scan_comma, scanSkip_eq hne hzero rest (k + 1)]
        by_cases hpre : word <+: t <;> simp [stopsAt, hpre]
      · rw [scan_char hc hsize hword]
        by_cases hfits : FitsBuffer t (word.length + 1)
        · rw [if_pos hfits, length_add_cons, scan_eq hne hzero rest k (word ++ [c]) stale.tail
            (hfits.size_snoc hsize c) (by simpa using hfits.2)]
          simp only [stopsAt, hc, hfits, if_false, decide_true, Bool.true_and, List.mem_cons,
            Ne.symm hc, false_or]
        · have hlong : ¬ FitsBuffer t (word.length + (c :: rest).length + 1) :=
            fun h => hfits (h.mono (by simp))
          simp only [stopsAt, hc, hfits, hlong, if_false, decide_false, Bool.false_and, and_false,
            Bool.false_eq_true]
termination_by rest => rest.length

end

/-- The characters up to a comma, or to the end. -/
theorem scan_word (left : ℕ) : ∀ {w word stale : List (BitVec 8)}, comma ∉ w →
    word.length + stale.length = t.length → word.length < 2 ^ 31 →
    scan t (w.length + left) word stale (w ++ line) =
      if FitsBuffer t (word.length + w.length) then
        scan t left (word ++ w) (stale.drop w.length) line
      else none
  | [], word, stale, _, hsize, hword => by
      have hfits : FitsBuffer t word.length := ⟨by omega, hword⟩
      simp [hfits]
  | c :: w, word, stale, hw, hsize, hword => by
      obtain ⟨hc, hw⟩ := not_or.mp (mt List.mem_cons.mpr hw)
      rw [List.cons_append, List.length_cons, Nat.add_right_comm,
        scan_char (Ne.symm hc) hsize hword]
      by_cases hfits : FitsBuffer t (word.length + 1)
      · rw [if_pos hfits, scan_word left hw (hfits.size_snoc hsize c) (by simpa using hfits.2),
          ← length_add_cons, List.append_assoc, List.singleton_append, List.drop_tail,
          List.length_cons]
      · rw [if_neg hfits, if_neg fun h => hfits (h.mono (by simp))]

theorem stopsAt_of_not_mem : ∀ {rest word : List (BitVec 8)}, comma ∉ rest →
    stopsAt t word rest = false
  | [], _, _ => rfl
  | c :: rest, word, h => by
      obtain ⟨hc, hrest⟩ := not_or.mp (mt List.mem_cons.mpr h)
      rw [stopsAt, if_neg (Ne.symm hc), stopsAt_of_not_mem hrest, Bool.and_false]

theorem stopsBehind_of_not_mem : ∀ {rest : List (BitVec 8)}, comma ∉ rest.tail →
    stopsBehind t rest = false
  | [], _ => rfl
  | _ :: _, h => stopsAt_of_not_mem h

theorem stopsAt_word {r : List (BitVec 8)} : ∀ {w word : List (BitVec 8)}, comma ∉ w →
    FitsBuffer t word.length →
    stopsAt t word (w ++ comma :: r) =
      (decide (FitsBuffer t (word.length + w.length)) && (decide (word ++ w <+: t) ||
        stopsBehind t r))
  | [], word, _, hfits => by simp [stopsAt, hfits]
  | c :: w, word, hw, _ => by
      obtain ⟨hc, hw⟩ := not_or.mp (mt List.mem_cons.mpr hw)
      rw [List.cons_append, stopsAt, if_neg (Ne.symm hc)]
      by_cases hfits : FitsBuffer t (word.length + 1)
      · rw [stopsAt_word hw (by simpa using hfits), length_add_cons, List.append_assoc,
          List.singleton_append, decide_eq_true hfits, Bool.true_and]
      · rw [decide_eq_false hfits, decide_eq_false fun h => hfits (h.mono (by simp)),
          Bool.false_and, Bool.false_and]

/-- **The whole walk over a line with a comma.** -/
theorem scan_line (hne : t ≠ []) (hzero : 0#8 ∉ t) {e r : List (BitVec 8)} (he : comma ∉ e)
    (hstale : stale.length = t.length) :
    scan t (e ++ comma :: r).length [] stale (e ++ comma :: r ++ [0#8]) =
      if stopsAt t [] (e ++ comma :: r) then some true
      else if FitsBuffer t e.length ∧ comma ∉ r.tail ∧ FitsBuffer t (r.length + 1) then some false
      else none := by
  have hskip := scanSkip_eq hne hzero r 0
  rw [Nat.add_zero] at hskip
  rw [List.length_append, List.append_assoc, scan_word _ he (by simpa using hstale) (by simp),
    stopsAt_word he ⟨Nat.zero_le _, by decide⟩, List.nil_append, List.length_nil, Nat.zero_add,
    List.cons_append, List.length_cons, scan_comma, hskip]
  by_cases hfits : FitsBuffer t e.length
  · by_cases hpre : e <+: t <;> simp [hfits, hpre]
  · simp [hfits]

/-- It says yes where it stops… -/
theorem scan_line_eq_true (hne : t ≠ []) (hzero : 0#8 ∉ t) {e r : List (BitVec 8)}
    (he : comma ∉ e) (hstale : stale.length = t.length) :
    scan t (e ++ comma :: r).length [] stale (e ++ comma :: r ++ [0#8]) = some true ↔
      stopsAt t [] (e ++ comma :: r) := by
  rw [scan_line hne hzero he hstale]
  by_cases hstop : stopsAt t [] (e ++ comma :: r)
  · simp [hstop]
  · rw [if_neg hstop]
    refine iff_of_false (fun hyes => ?_) hstop
    split at hyes <;> cases hyes

/-- …and no when it gets to the end, one comma behind. -/
theorem scan_line_eq_false (hne : t ≠ []) (hzero : 0#8 ∉ t) {e r : List (BitVec 8)}
    (he : comma ∉ e) (hstale : stale.length = t.length) :
    scan t (e ++ comma :: r).length [] stale (e ++ comma :: r ++ [0#8]) = some false ↔
      FitsBuffer t e.length ∧ ¬ e <+: t ∧ comma ∉ r.tail ∧ FitsBuffer t (r.length + 1) := by
  rw [scan_line hne hzero he hstale, stopsAt_word he ⟨Nat.zero_le _, by decide⟩, List.nil_append,
    List.length_nil, Nat.zero_add]
  by_cases htail : comma ∈ r.tail
  · simp [htail]
  · by_cases hfits : FitsBuffer t e.length <;> by_cases hpre : e <+: t <;>
      simp [htail, hfits, hpre, stopsBehind_of_not_mem htail]

/-! ## The answer -/

theorem length_le_of_mem_splitOn {α : Type*} [BEq α] {a : α} : ∀ {l x : List α},
    x ∈ l.splitOn a → x.length ≤ l.length
  | [], x, hx => by simp_all
  | c :: l, x, hx => by
      rw [List.splitOn_cons_eq_if_modifyHead] at hx
      obtain ⟨y, ys, hsplit⟩ := List.exists_cons_of_ne_nil (List.splitOn_ne_nil a l)
      have hall : ∀ z ∈ y :: ys, z.length ≤ l.length :=
        fun z hz => length_le_of_mem_splitOn (hsplit ▸ hz)
      rw [hsplit, List.modifyHead_cons] at hx
      split at hx
      · rcases List.mem_cons.mp hx with rfl | hx
        · exact Nat.zero_le _
        · exact (hall x hx).trans (Nat.le_succ _)
      · rcases List.mem_cons.mp hx with rfl | hx
        · exact Nat.succ_le_succ (hall y List.mem_cons_self)
        · exact (hall x (List.mem_cons_of_mem _ hx)).trans (Nat.le_succ _)

/-- Neither the first element nor one of a short rest is the tag. -/
theorem not_mem_splitOn_of_short {e r : List (BitVec 8)} (he : comma ∉ e) (hpre : ¬ e <+: t)
    (hr : r.length < t.length) : t ∉ (e ++ comma :: r).splitOn comma := by
  rw [List.splitOn_append_cons_self_of_not_mem he]
  intro hmem
  rcases List.mem_cons.mp hmem with rfl | hmem
  · exact hpre List.prefix_rfl
  · exact absurd (length_le_of_mem_splitOn hmem) (Nat.not_le.mpr hr)

/-- The bytes the call finds in its buffer. -/
def staleBytes (m : Mem) (buff : BitVec 64) (n : ℕ) : List (BitVec 8) :=
  (List.range n).map fun i => m (at' buff i)

theorem holds_staleBytes (m : Mem) (buff : BitVec 64) (n : ℕ) :
    Holds m buff (staleBytes m buff n) := by
  intro i hi
  simp [staleBytes]

theorem length_staleBytes (m : Mem) (buff : BitVec 64) (n : ℕ) :
    (staleBytes m buff n).length = n := by
  simp [staleBytes]

/-- A call: two strings, a tag that could be an element, and the call's own array. -/
structure BootargCall (m : Mem) (tag cmdline buff : BitVec 64) (t s : List (BitVec 8)) : Prop where
  tagText : CString m tag t
  lineText : CString m cmdline s
  nonempty : t ≠ []
  element : comma ∉ t
  tag_ne : tag ≠ 0#64
  line_ne : cmdline ≠ 0#64
  buff_ne : buff ≠ 0#64
  line_apart : Apart cmdline (s.length + 1) buff t.length
  tag_apart : Apart tag (t.length + 1) buff t.length

/-- **The call answers whether the tag is an element of the command line**, reads no further than
the terminator and writes no further than the buffer. -/
def BootargFinds (m : Mem) (tag cmdline buff : BitVec 64) (t s : List (BitVec 8)) : Prop :=
  ∃ b, Answers cmdline buff s.length t.length (bootargFind m tag cmdline buff) b ∧
    (b = true ↔ t ∈ s.splitOn comma)

theorem BootargCall.frame (h : BootargCall m tag cmdline buff t s) :
    BootargFrame tag cmdline buff t s where
  buff_ne := h.buff_ne
  line_apart := h.line_apart
  tag_apart := h.tag_apart
  tag_lt := h.tagText.length_lt
  line_lt := by
    -- the buffer's first byte is none of the command line's
    by_contra hge
    have hfar := h.line_apart (buff - cmdline).toNat (by have := h.lineText.length_lt; omega)
    rw [at'_toNat_sub, BitVec.sub_self] at hfar
    exact h.nonempty (by simpa using hfar)

/-- A call is the walk over its line. -/
theorem BootargCall.answers_iff (h : BootargCall m tag cmdline buff t s) :
    Answers cmdline buff s.length t.length (bootargFind m tag cmdline buff) b ↔
      scan t s.length [] (staleBytes m buff t.length) (s ++ [0#8]) = some b := by
  have hfind : bootargFind m tag cmdline buff =
      bootargLoop tag buff t.length s.length m cmdline 0 := by
    simp [bootargFind, strlen_eq h.lineText, strlen_eq h.tagText, h.tag_ne, h.line_ne]
  have hstart : Scanning tag cmdline buff t s m [] (staleBytes m buff t.length) :=
    ⟨(holds_append.mp h.tagText.bytes).1, h.lineText.bytes, holds_staleBytes m buff t.length,
      by simp [length_staleBytes]⟩
  have hloop := answers_bootargLoop (b := b) h.frame s.length hstart (Nat.zero_le _)
  rwa [at'_zero, List.drop_zero, List.length_nil, ← hfind] at hloop

/-- A line without a comma is one element, and the walk compares it with what its buffer had behind
it as well. -/
theorem BootargCall.finds_iff_of_not_mem (h : BootargCall m tag cmdline buff t s)
    (hs : comma ∉ s) :
    BootargFinds m tag cmdline buff t s ↔
      FitsBuffer t s.length ∧
        (s = t ∨ s ++ (staleBytes m buff t.length).drop s.length ≠ t) := by
  have hlen := length_staleBytes m buff t.length
  have hwalk : scan t s.length [] (staleBytes m buff t.length) (s ++ [0#8]) =
      if FitsBuffer t s.length then
        some (decide (s ++ (staleBytes m buff t.length).drop s.length = t))
      else none := by
    rw [← Nat.add_zero s.length, scan_word 0 hs (by simpa using hlen) (by simp), scan,
      List.nil_append, List.length_nil, Nat.zero_add, Nat.add_zero]
  have hfull : s = t → s ++ (staleBytes m buff t.length).drop s.length = t := by
    rintro rfl
    rw [List.drop_eq_nil_of_le hlen.le, List.append_nil]
  simp only [BootargFinds, h.answers_iff, hwalk, List.splitOn_eq_singleton hs, List.mem_singleton]
  by_cases hfits : FitsBuffer t s.length
  · simp only [hfits, if_true, Option.some.injEq, exists_eq_left', decide_eq_true_eq,
      eq_comm (a := t), true_and]
    tauto
  · simp [hfits]

/-- A line with a comma. -/
theorem BootargCall.finds_iff_of_mem (h : BootargCall m tag cmdline buff t s) (hs : comma ∈ s) :
    BootargFinds m tag cmdline buff t s ↔
      stopsAt t [] s ∧ t ∈ s.splitOn comma ∨
        ∃ e r, s = e ++ comma :: r ∧ comma ∉ e ∧ FitsBuffer t e.length ∧ ¬ e <+: t ∧
          comma ∉ r.tail ∧ FitsBuffer t (r.length + 1) := by
  have hzero := h.tagText.text
  have hlen := length_staleBytes m buff t.length
  obtain ⟨e, r, rfl, he⟩ := List.eq_append_cons_of_mem hs
  constructor
  · rintro ⟨b, hans, hb⟩
    rw [h.answers_iff] at hans
    cases b with
    | true => exact .inl ⟨(scan_line_eq_true h.nonempty hzero he hlen).mp hans, hb.mp rfl⟩
    | false =>
      exact .inr ⟨e, r, rfl, he, (scan_line_eq_false h.nonempty hzero he hlen).mp hans⟩
  · rintro (⟨hstop, hmem⟩ | ⟨e, r, hs, he, hno⟩)
    · refine ⟨true, h.answers_iff.mpr ?_, iff_of_true rfl hmem⟩
      exact (scan_line_eq_true h.nonempty hzero he hlen).mpr hstop
    · rw [hs] at h ⊢
      have ⟨_, hpre, _, hend⟩ := hno
      refine ⟨false, h.answers_iff.mpr ?_, iff_of_false Bool.false_ne_true ?_⟩
      · exact (scan_line_eq_false h.nonempty hzero he hlen).mpr hno
      · exact not_mem_splitOn_of_short he hpre hend.1

/-- **When a call of `bootarg_find` answers, rightly and within its bounds**:

* a line without a comma has to fit the buffer, and not be completed to the tag by what the buffer
  had in it;
* or some comma is reached with the beginning of the tag in the buffer, all words up to there fit,
  and the tag is an element, whichever one stopped the walk;
* or the first element is no beginning of the tag, and what follows its comma is shorter than the
  tag and has no further comma behind its first character: then the answer is no. -/
theorem bootargFinds_iff (h : BootargCall m tag cmdline buff t s) :
    BootargFinds m tag cmdline buff t s ↔
      (comma ∉ s ∧ FitsBuffer t s.length ∧
        (s = t ∨ s ++ (staleBytes m buff t.length).drop s.length ≠ t)) ∨
      (stopsAt t [] s ∧ t ∈ s.splitOn comma) ∨
      ∃ e r, s = e ++ comma :: r ∧ comma ∉ e ∧ FitsBuffer t e.length ∧ ¬ e <+: t ∧
        comma ∉ r.tail ∧ FitsBuffer t (r.length + 1) := by
  by_cases hs : comma ∈ s
  · exact (h.finds_iff_of_mem hs).trans (or_iff_right fun hno => hno.1 hs).symm
  · refine (h.finds_iff_of_not_mem hs).trans ((and_iff_right hs).symm.trans (or_iff_left ?_).symm)
    rintro (hstop | ⟨e, r, rfl, -⟩)
    · exact Bool.false_ne_true ((stopsAt_of_not_mem hs).symm.trans hstop.1)
    · exact hs (by simp)

/-- A memory with the tag `"foo"` at `0x2000`, a command line at `0x1000` and zeros elsewhere. -/
def fooMem (line : List (BitVec 8)) : Mem := fun b =>
  if b.toNat < 0x2000 then line.getD (b - 0x1000#64).toNat 0#8
  else (ascii "foo").getD (b - 0x2000#64).toNat 0#8

theorem bootargCall_foo (line : List (BitVec 8)) (hline : CString (fooMem line) 0x1000#64 line)
    (hlen : line.length < 0x1000) :
    BootargCall (fooMem line) 0x2000#64 0x1000#64 0x3000#64 (ascii "foo") line where
  tagText :=
    ⟨holds_cons.mpr ⟨rfl, holds_cons.mpr ⟨rfl, holds_cons.mpr ⟨rfl, holds_singleton.mpr rfl⟩⟩⟩,
      by decide⟩
  lineText := hline
  nonempty := by decide
  element := by decide
  tag_ne := by decide
  line_ne := by decide
  buff_ne := by decide
  line_apart := fun i hi => show 3 ≤ _ by bv_omega
  tag_apart := fun i (hi : i < 4) => show 3 ≤ _ by bv_omega

theorem bootargFinds_foo :
    BootargFinds (fooMem (ascii "foo,x")) 0x2000#64 0x1000#64 0x3000#64 (ascii "foo")
      (ascii "foo,x") :=
  (bootargFinds_iff (bootargCall_foo _ ⟨by decide, by decide⟩ (by decide))).mpr
    (.inr (.inl (by decide)))

/-- **`"fo"` in front of a comma passes for `"foo"`, and `"foo"` behind one overruns the
buffer.** -/
theorem not_bootargFinds_foo :
    BootargCall (fooMem (ascii "fo,x")) 0x2000#64 0x1000#64 0x3000#64 (ascii "foo") (ascii "fo,x")
    ∧ ¬ BootargFinds (fooMem (ascii "fo,x")) 0x2000#64 0x1000#64 0x3000#64 (ascii "foo")
        (ascii "fo,x")
    ∧ BootargCall (fooMem (ascii "a,foo")) 0x2000#64 0x1000#64 0x3000#64 (ascii "foo")
        (ascii "a,foo")
    ∧ ¬ BootargFinds (fooMem (ascii "a,foo")) 0x2000#64 0x1000#64 0x3000#64 (ascii "foo")
        (ascii "a,foo") := by
  have hfo := bootargCall_foo (ascii "fo,x") ⟨by decide, by decide⟩ (by decide)
  have ha := bootargCall_foo (ascii "a,foo") ⟨by decide, by decide⟩ (by decide)
  refine ⟨hfo, ?_, ha, ?_⟩
  · rw [BootargFinds]
    simp only [hfo.answers_iff]
    decide
  · rw [BootargFinds]
    simp only [ha.answers_iff]
    decide

end MoonOS

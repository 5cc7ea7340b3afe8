import MoonOS.Lib.ByteString
import MoonOS.Lib.Numeral

/-!
# Service/Tar — init's walk over the ramdisk, `service/apps/init/utils/tar.c`

The ramdisk is a ustar archive: a header block with a file's name and its size in octal, the file's
blocks, the next header, and a block of zeros at the end.

* `tarGetContentSize_octal` — the size is read back from its eleven digits, and no round loses a bit
  of it: the weight leaves 32 bits only after the last digit.
* `tarParseHeaders_iff` — the walk does not find every archive's headers.  It looks for the end at
  the *index of the header* in its name, so the `k`-th name has to have a byte there; and a size
  within a block of `2³²` wraps to no distance at all.
-/

namespace MoonOS

open ByteMemory Numeral

variable {m : Mem} {a field : BitVec 64} {n : ℕ}

/-! ## `tar.c` -/

/-- `size` and `count` of `tar_get_content_size` after so many rounds of
`for (j = 11; j > 0; j--, count *= 8)`.  The next one reads `in[10 - rounds]`, a signed `char`. -/
def contentSizeRounds (m : Mem) (field : BitVec 64) : ℕ → BitVec 32 × BitVec 32
  | 0 => (0#32, 1#32)
  | rounds + 1 =>
    let (size, count) := contentSizeRounds m field rounds
    (size + ((m (at' field (10 - rounds))).signExtend 32 - 48#32) * count, count * 8#32)

/-- `tar_get_content_size`. -/
def tarGetContentSize (m : Mem) (field : BitVec 64) : BitVec 32 :=
  (contentSizeRounds m field 11).1

/-- How `tar_parse_headers` moves its address on: whole blocks in 32 bits, and one more for what is
left. -/
def tarAdvance (address : BitVec 64) (size : BitVec 32) : BitVec 64 :=
  let address := address + ((size / 512#32 + 1#32) * 512#32).setWidth 64
  if size % 512#32 ≠ 0#32 then address + 512#64 else address

/-- The loop of `tar_parse_headers`: the index it ends with and the headers it has listed from
there on, `none` when it has not ended. -/
def tarParseLoop (m : Mem) : ℕ → ℕ → BitVec 64 → Option (ℕ × List (BitVec 64))
  | 0, _, _ => none
  | fuel + 1, i, address =>
    if m (at' address i) = 0#8 then some (i, [])
    else
      let size := tarGetContentSize m (at' address 124)
      (tarParseLoop m fuel (i + 1) (tarAdvance address size)).map fun (i, headers) =>
        (i, address :: headers)

/-- `tar_parse_headers`. -/
def tarParseHeaders (m : Mem) (fuel : ℕ) (address : BitVec 64) :
    Option (ℕ × List (BitVec 64)) :=
  tarParseLoop m fuel 0 address

/-! ## Sizes -/

/-- A size as the archive has it: eleven octal digits. -/
def octalField (n : ℕ) : List (BitVec 8) := (numeral 8 11 n).map fun d => BitVec.ofNat 8 (48 + d)

theorem digit_octalField (h : Holds m field (octalField n)) {k : ℕ} (hk : k < 11) :
    (m (at' field (10 - k))).signExtend 32 - 48#32 = BitVec.ofNat 32 (n / 8 ^ k % 8) := by
  have hdigit : ∀ d < 8, (BitVec.ofNat 8 (48 + d)).signExtend 32 - 48#32 = BitVec.ofNat 32 d := by
    decide
  have hlen : 10 - k < (octalField n).length := by
    rw [octalField, List.length_map, length_numeral]
    omega
  have hget : (octalField n)[10 - k]? = some (BitVec.ofNat 8 (48 + n / 8 ^ k % 8)) := by
    rw [octalField, List.getElem?_map, show 10 - k = 11 - 1 - k from rfl, getElem?_numeral hk,
      Option.map_some]
  rw [h _ hlen, List.get_eq_getElem, (List.getElem_eq_iff hlen).mpr hget]
  exact hdigit _ (Nat.mod_lt _ (by decide))

/-- Each round adds its digit at its weight. -/
theorem contentSizeRounds_octalField (h : Holds m field (octalField n)) {k : ℕ} (hk : k ≤ 11) :
    contentSizeRounds m field k = (BitVec.ofNat 32 (n % 8 ^ k), BitVec.ofNat 32 (8 ^ k)) := by
  induction k with
  | zero => simp [contentSizeRounds, Nat.mod_one]
  | succ k ih =>
    rw [contentSizeRounds, ih (by omega)]
    dsimp only
    rw [digit_octalField h (by omega), Nat.pow_succ, Nat.mod_mul, Nat.mul_comm (8 ^ k) (_ % 8),
      BitVec.ofNat_add, BitVec.ofNat_mul, BitVec.ofNat_mul]

/-- **A size is read back from its digits**, and after each round the digits so far are there as
they are, as is the weight of the next. -/
theorem tarGetContentSize_octal (hn : n < 2 ^ 32) (h : Holds m field (octalField n)) :
    (tarGetContentSize m field).toNat = n
      ∧ ∀ k ≤ 11, (contentSizeRounds m field k).1.toNat = n % 8 ^ k
        ∧ (k < 11 → (contentSizeRounds m field k).2.toNat = 8 ^ k) := by
  have hround : ∀ k ≤ 11, (contentSizeRounds m field k).1.toNat = n % 8 ^ k := fun k hk => by
    rw [contentSizeRounds_octalField h hk, BitVec.toNat_ofNat]
    exact Nat.mod_eq_of_lt (lt_of_le_of_lt (Nat.mod_le n _) hn)
  refine ⟨?_, fun k hk => ⟨hround k hk, fun hlt => ?_⟩⟩
  · rw [tarGetContentSize, hround 11 le_rfl]
    exact Nat.mod_eq_of_lt (by omega)
  · have hweight : 8 ^ k ≤ 8 ^ 10 := Nat.pow_le_pow_right (by decide) (by omega)
    rw [contentSizeRounds_octalField h hk, BitVec.toNat_ofNat]
    exact Nat.mod_eq_of_lt (by omega)

/-- Of the largest size, every digit counts. -/
theorem tarGetContentSize_largest :
    (tarGetContentSize (fun b => (octalField 0xffffffff).getD b.toNat 0#8) 0#64).toNat
      = 0xffffffff :=
  (tarGetContentSize_octal (by decide) (by decide)).1

/-! ## Archives -/

/-- A file of the archive, as its header names it. -/
structure TarEntry where
  name : List (BitVec 8)
  size : ℕ
  named : name ≠ []
  fits : name.length ≤ 100
  text : 0#8 ∉ name
  small : size < 2 ^ 32

/-- Where the header behind a file is. -/
def nextHeader (a : BitVec 64) (e : TarEntry) : BitVec 64 :=
  at' a (512 + (e.size + 511) / 512 * 512)

/-- **An archive in memory**: headers with a name and a size, each where the one before leads, and a
block of zeros.  What is behind the terminator of a name is left open. -/
def Archive (m : Mem) : BitVec 64 → List TarEntry → Prop
  | a, [] => ∀ i < 512, m (at' a i) = 0#8
  | a, e :: es =>
    Holds m a e.name ∧ (e.name.length < 100 → m (at' a e.name.length) = 0#8)
      ∧ Holds m (at' a 124) (octalField e.size) ∧ Archive m (nextHeader a e) es

/-- The addresses of the headers. -/
def tarHeaders : BitVec 64 → List TarEntry → List (BitVec 64)
  | _, [] => []
  | a, e :: es => a :: tarHeaders (nextHeader a e) es

/-- **The walk finds the archive's headers**, all of them and nothing else. -/
def Enumerates (m : Mem) (a : BitVec 64) (es : List TarEntry) : Prop :=
  ∃ fuel, tarParseHeaders m fuel a = some (es.length, tarHeaders a es)

theorem tarAdvance_ofNat (a : BitVec 64) (hn : n < 2 ^ 32) : tarAdvance a (BitVec.ofNat 32 n)
    = at' a ((n / 512 + 1) * 512 % 2 ^ 32 + if n % 512 = 0 then 0 else 512) := by
  have hblocks : ((BitVec.ofNat 32 n / 512#32 + 1#32) * 512#32).setWidth 64
      = BitVec.ofNat 64 ((n / 512 + 1) * 512 % 2 ^ 32) := by
    refine BitVec.eq_of_toNat_eq ?_
    simp only [BitVec.toNat_setWidth, BitVec.toNat_mul, BitVec.toNat_add, BitVec.toNat_udiv,
      BitVec.toNat_ofNat, Nat.reduceMod, Nat.reducePow]
    omega
  have hrest : BitVec.ofNat 32 n % 512#32 = 0#32 ↔ n % 512 = 0 := by
    rw [← BitVec.toNat_inj, BitVec.toNat_umod, BitVec.toNat_ofNat, BitVec.toNat_ofNat,
      Nat.mod_eq_of_lt hn]
    rfl
  rw [tarAdvance, hblocks]
  by_cases h : n % 512 = 0
  · rw [if_neg (not_not_intro (hrest.mpr h)), if_pos h]
    rfl
  · rw [if_pos (mt hrest.mp h), if_neg h, ← at'_at']

/-- The walk's step is the archive's, but for the last block of sizes. -/
theorem tarAdvance_eq_iff (a : BitVec 64) (e : TarEntry) :
    tarAdvance a (BitVec.ofNat 32 e.size) = nextHeader a e ↔ e.size < 2 ^ 32 - 512 := by
  have hsmall := e.small
  rw [tarAdvance_ofNat a hsmall, nextHeader, BitVec.add_right_inj, ← BitVec.toNat_inj,
    BitVec.toNat_ofNat, BitVec.toNat_ofNat]
  split <;> omega

theorem tarGetContentSize_octalField (e : TarEntry) (h : Holds m field (octalField e.size)) :
    tarGetContentSize m field = BitVec.ofNat 32 e.size := by
  have hsmall := e.small
  rw [tarGetContentSize, contentSizeRounds_octalField h le_rfl, Nat.mod_eq_of_lt (by omega)]

section Walk

variable {e : TarEntry} {es : List TarEntry} {i : ℕ}

/-- A walk that ends with nothing listed has met a NUL. -/
theorem exists_tarParseLoop_nil :
    (∃ fuel, tarParseLoop m fuel i a = some (i, [])) ↔ m (at' a i) = 0#8 := by
  constructor
  · rintro ⟨fuel, hrun⟩
    by_contra hne
    cases fuel with
    | zero => cases hrun
    | succ fuel =>
      rw [tarParseLoop, if_neg hne] at hrun
      obtain ⟨_, -, heq⟩ := Option.map_eq_some_iff.mp hrun
      cases congrArg Prod.snd heq
  · intro hzero
    exact ⟨1, by rw [tarParseLoop, if_pos hzero]⟩

/-- A walk that ends with a header listed has listed where it started, and gone on. -/
theorem exists_tarParseLoop_cons {k : ℕ} {b : BitVec 64} {headers : List (BitVec 64)} :
    (∃ fuel, tarParseLoop m fuel i a = some (k, b :: headers)) ↔ m (at' a i) ≠ 0#8 ∧ b = a
      ∧ ∃ fuel, tarParseLoop m fuel (i + 1) (tarAdvance a (tarGetContentSize m (at' a 124)))
        = some (k, headers) := by
  constructor
  · rintro ⟨fuel, hrun⟩
    cases fuel with
    | zero => cases hrun
    | succ fuel =>
      rw [tarParseLoop] at hrun
      split at hrun
      case isTrue => cases congrArg Prod.snd (Option.some.inj hrun)
      case isFalse hne =>
        obtain ⟨⟨k', headers'⟩, hrest, heq⟩ := Option.map_eq_some_iff.mp hrun
        obtain ⟨rfl, htail⟩ := Prod.mk.inj heq
        obtain ⟨rfl, rfl⟩ := List.cons.inj htail
        exact ⟨hne, rfl, fuel, hrest⟩
  · rintro ⟨hne, rfl, fuel, hrest⟩
    exact ⟨fuel + 1, by simp only [tarParseLoop, if_neg hne, hrest, Option.map_some]⟩

/-- The same of a list of headers, one more in front. -/
theorem forall_getElem?_cons {p : ℕ → BitVec 64 → Prop} {b : BitVec 64} {bs : List (BitVec 64)} :
    (∀ k c, (b :: bs)[k]? = some c → p k c) ↔ p 0 b ∧ ∀ k c, bs[k]? = some c → p (k + 1) c := by
  constructor
  · intro h
    exact ⟨h 0 b rfl, fun k c hc => h (k + 1) c hc⟩
  · rintro ⟨h0, hsucc⟩ k c hc
    cases k with
    | zero => exact Option.some.inj hc ▸ h0
    | succ k => exact hsucc k c hc

/-- **From header `i` on**, the walk finds the rest exactly when each name has a byte at its index,
every file but the last keeps out of the last block of sizes, and behind the last one the walk meets
a NUL. -/
theorem tarParseLoop_iff (h : Archive m a es) (hlen : i + es.length < 512) :
    (∃ fuel, tarParseLoop m fuel i a = some (i + es.length, tarHeaders a es))
      ↔ (∀ k b, (tarHeaders a es)[k]? = some b → m (at' b (i + k)) ≠ 0#8)
        ∧ (∀ e ∈ es.dropLast, e.size < 2 ^ 32 - 512)
        ∧ ∀ e ∈ es.getLast?, 2 ^ 32 - 512 ≤ e.size → ∀ b ∈ (tarHeaders a es).getLast?,
          m (at' (tarAdvance b (BitVec.ofNat 32 e.size)) (i + es.length)) = 0#8 := by
  induction es generalizing a i with
  | nil =>
    rw [List.length_nil, Nat.add_zero, tarHeaders, exists_tarParseLoop_nil]
    simpa using h i (by simpa using hlen)
  | cons e es ih =>
    obtain ⟨-, -, hsize, hrest⟩ := h
    rw [List.length_cons] at hlen
    rw [tarHeaders, exists_tarParseLoop_cons, tarGetContentSize_octalField e hsize,
      forall_getElem?_cons, List.length_cons, and_iff_right rfl, and_assoc]
    refine and_congr_right fun _ => ?_
    cases es with
    | nil =>
      rw [List.length_nil, Nat.zero_add, tarHeaders, exists_tarParseLoop_nil]
      constructor
      · intro hzero
        simpa using fun _ => hzero
      · rintro ⟨-, -, hlast⟩
        by_cases hbig : 2 ^ 32 - 512 ≤ e.size
        · exact hlast e rfl hbig a rfl
        · rw [(tarAdvance_eq_iff a e).mpr (by omega)]
          exact hrest (i + 1) hlen
    | cons e' es =>
      have hnext : ∀ k, i + 1 + k = i + (k + 1) := fun k => by omega
      rw [List.dropLast_cons_cons, List.forall_mem_cons]
      by_cases hsmall : e.size < 2 ^ 32 - 512
      · have hih := ih (i := i + 1) hrest (by omega)
        simp only [hnext] at hih
        rw [(tarAdvance_eq_iff a e).mpr hsmall, hih, and_iff_right hsmall]
        rfl
      · -- the walk goes on elsewhere, and what it lists next is not the next header
        refine iff_of_false (fun hrun => hsmall ?_) fun hright => hsmall hright.2.1.1
        exact (tarAdvance_eq_iff a e).mp (exists_tarParseLoop_cons.mp hrun).2.1.symm

/-- **When `tar_parse_headers` finds an archive's headers**: when the `k`-th name field has a byte
at `k`, and no file but the last is within a block of `2³²` long; behind such a last file, whose own
header or first block is taken for the end, only if there is a NUL. -/
theorem tarParseHeaders_iff (h : Archive m a es) (hn : es.length ≤ 32) :
    Enumerates m a es ↔ (∀ k b, (tarHeaders a es)[k]? = some b → m (at' b k) ≠ 0#8)
      ∧ (∀ e ∈ es.dropLast, e.size < 2 ^ 32 - 512)
      ∧ ∀ e ∈ es.getLast?, 2 ^ 32 - 512 ≤ e.size → ∀ b ∈ (tarHeaders a es).getLast?,
        m (at' (tarAdvance b (BitVec.ofNat 32 e.size)) es.length) = 0#8 := by
  have hwalk := tarParseLoop_iff (i := 0) h (by omega)
  simp only [Nat.zero_add] at hwalk
  exact hwalk

end Walk

/-! ## Two files -/

/-- An empty file `a`. -/
def aFile : TarEntry := ⟨[97#8], 0, by decide, by decide, by decide, by decide⟩

/-- An empty file `ab`. -/
def abFile : TarEntry := ⟨[97#8, 98#8], 0, by decide, by decide, by decide, by decide⟩

/-- A file `ab` of all blocks but one that a 32-bit size can count. -/
def hugeFile : TarEntry :=
  ⟨[97#8, 98#8], 0xfffffe00, by decide, by decide, by decide, by decide⟩

/-- The headers of two files, the second one empty: names of an `a` and a letter, and the sizes. -/
def twoHeaders (letter : BitVec 8) (size : ℕ) (next : BitVec 64) : Mem := fun b =>
  if b = 0x1000#64 ∨ b = next then 97#8
  else if b = 0x1001#64 ∨ b = next + 1#64 then letter
  else if (b - 0x107c#64).toNat < 11 then (octalField size).getD (b - 0x107c#64).toNat 0#8
  else if (b - (next + 124#64)).toNat < 11 then 48#8
  else 0#8

theorem twoHeaders_end (next : BitVec 64) {letter : BitVec 8} {size : ℕ} (hlo : 0x1200#64 ≤ next)
    (hhi : next < 0x200000000#64) {i : ℕ} (hi : i < 512) :
    twoHeaders letter size next (at' (at' next 512) i) = 0#8 := by
  rw [twoHeaders, if_neg (by bv_omega), if_neg (by bv_omega), if_neg (by bv_omega),
    if_neg (by bv_omega)]

theorem archive_aFiles : Archive (twoHeaders 0#8 0 0x1200#64) 0x1000#64 [aFile, aFile] := by
  refine ⟨by decide, by decide, by decide, by decide, by decide, by decide, fun i hi => ?_⟩
  exact twoHeaders_end 0x1200#64 (by decide) (by decide) hi

theorem archive_hugeFile :
    Archive (twoHeaders 98#8 0xfffffe00 0x100001000#64) 0x1000#64 [hugeFile, abFile] := by
  refine ⟨by decide, by decide, by decide, by decide, by decide, by decide, fun i hi => ?_⟩
  exact twoHeaders_end 0x100001000#64 (by decide) (by decide) hi

/-- Two empty files `ab` are found. -/
theorem enumerates_abFiles :
    Enumerates (twoHeaders 98#8 0 0x1200#64) 0x1000#64 [abFile, abFile] := by
  have harchive : Archive (twoHeaders 98#8 0 0x1200#64) 0x1000#64 [abFile, abFile] := by
    refine ⟨by decide, by decide, by decide, by decide, by decide, by decide, fun i hi => ?_⟩
    exact twoHeaders_end 0x1200#64 (by decide) (by decide) hi
  refine (tarParseHeaders_iff harchive (by decide)).mpr ⟨?_, by decide, ?_⟩
  · rw [tarHeaders, forall_getElem?_cons, tarHeaders, forall_getElem?_cons]
    exact ⟨by decide, by decide, by simp [tarHeaders]⟩
  · intro e he hbig
    obtain rfl : abFile = e := Option.some.inj he
    exact absurd hbig (by decide)

/-- **Of two files `a` the walk lists one**, for the second name has no second letter; **and behind
a file of `2³² - 512` bytes it is back at that file's header.** -/
theorem not_enumerates_twoFiles :
    Archive (twoHeaders 0#8 0 0x1200#64) 0x1000#64 [aFile, aFile]
      ∧ ¬ Enumerates (twoHeaders 0#8 0 0x1200#64) 0x1000#64 [aFile, aFile]
      ∧ tarParseHeaders (twoHeaders 0#8 0 0x1200#64) 2 0x1000#64 = some (1, [0x1000#64])
      ∧ Archive (twoHeaders 98#8 0xfffffe00 0x100001000#64) 0x1000#64 [hugeFile, abFile]
      ∧ ¬ Enumerates (twoHeaders 98#8 0xfffffe00 0x100001000#64) 0x1000#64 [hugeFile, abFile]
      ∧ tarParseHeaders (twoHeaders 98#8 0xfffffe00 0x100001000#64) 3 0x1000#64
        = some (2, [0x1000#64, 0x1000#64]) := by
  refine ⟨archive_aFiles, fun hfound => ?_, by decide, archive_hugeFile, fun hfound => ?_,
    by decide⟩
  · obtain ⟨hnames, -, -⟩ := (tarParseLoop_iff archive_aFiles (by decide)).mp hfound
    exact hnames 1 0x1200#64 rfl (by decide)
  · obtain ⟨-, hsizes, -⟩ := (tarParseLoop_iff archive_hugeFile (by decide)).mp hfound
    exact absurd (hsizes hugeFile List.mem_cons_self) (by decide)

end MoonOS

import Mathlib.Tactic

/-!
# Trace/Sym — the symbol table, from `scripts/gensym.py` to `kernel/trace/sym.c`

`gensym.py` writes one entry a function, and `{0xFFFFFFFF, ""}` behind them; `sym_lookup` runs over
the entries up to that one and keeps the greatest address below the given one.  The entry at the end
takes part in the search, and so answers for an address above it that no function is below.

* `looksUp_iff` — for an address up to the one at the end the search keeps the index it started
  with, and answers with the first function; for the address 0 it does not stop at the end.
-/

namespace MoonOS

/-- `SymbolTable`, an entry of the table. -/
structure Symbol where
  addr : BitVec 64
  name : String
deriving DecidableEq, Repr

/-! ## `gensym.py` -/

/-- `write_data`: a symbol without a name is not written. -/
def writeData (table : List Symbol) (sym : Symbol) : List Symbol :=
  if sym.name = "" then table else table ++ [sym]

/-- The entry at the end. -/
def lastSymbol : Symbol := ⟨0xFFFFFFFF#64, ""⟩

/-- The table `gensym.py` writes for the function symbols of the kernel: `write_data` for each, and
`destroy_writer`. -/
def generateTable (symbols : List Symbol) : List Symbol :=
  symbols.foldl writeData [] ++ [lastSymbol]

/-- The symbols that are written. -/
def named (symbols : List Symbol) : List Symbol := symbols.filter (·.name ≠ "")

theorem foldl_writeData : ∀ (symbols table : List Symbol),
    symbols.foldl writeData table = table ++ named symbols
  | [], table => (List.append_nil table).symm
  | sym :: symbols, table => by
      rw [List.foldl_cons, foldl_writeData symbols, writeData, named, named]
      by_cases h : sym.name = ""
      · rw [if_pos h, List.filter_cons_of_neg (by simpa using h)]
      · rw [if_neg h, List.filter_cons_of_pos (by simpa using h), List.append_assoc,
          List.singleton_append]

theorem generateTable_eq (symbols : List Symbol) :
    generateTable symbols = named symbols ++ [lastSymbol] := by
  rw [generateTable, foldl_writeData, List.nil_append]

/-! ## `sym_lookup` -/

/-- `corrected_address` and `index_new`. -/
structure Search where
  corrected : BitVec 64
  index : ℕ

/-- What entry `i` changes in the search. -/
def Search.visit (address : BitVec 64) (i : ℕ) (sym : Symbol) (found : Search) : Search :=
  if sym.addr < address then
    if found.corrected < sym.addr then ⟨sym.addr, i⟩ else found
  else found

/-- What `sym_lookup` returns of it. -/
def Search.answer (table : List Symbol) (found : Search) : Option Symbol :=
  table[found.index]?.map fun entry => ⟨found.corrected, entry.name⟩

/-- The loop of `sym_lookup` from entry `i` on, `none` when it has left the table.  The `continue`
skips the test for the end. -/
def symLookupLoop (table : List Symbol) (address : BitVec 64) :
    List Symbol → ℕ → Search → Option Symbol
  | [], _, _ => none
  | sym :: rest, i, found =>
    if address ≤ found.corrected then symLookupLoop table address rest (i + 1) found
    else
      let found := found.visit address i sym
      if sym.addr = 0xFFFFFFFF#64 then found.answer table
      else symLookupLoop table address rest (i + 1) found

/-- `sym_lookup`. -/
def symLookup (table : List Symbol) (address : BitVec 64) : Option Symbol :=
  symLookupLoop table address table 0 ⟨0#64, 0⟩

/-! ## What is looked up -/

/-- **The symbol an address belongs to**: the one with the greatest address below it, and one
without a name when there is none. -/
def IsNearest (symbols : List Symbol) (address : BitVec 64) (sym : Symbol) : Prop :=
  (sym ∈ symbols ∧ sym.addr < address ∧ ∀ s ∈ symbols, s.addr < address → s.addr ≤ sym.addr)
    ∨ (∀ s ∈ symbols, ¬ s.addr < address) ∧ sym.name = ""

/-- **The lookup works**: it ends in the table, with the symbol the address belongs to. -/
def LooksUp (symbols : List Symbol) (address : BitVec 64) : Prop :=
  ∃ sym, symLookup (generateTable symbols) address = some sym
    ∧ IsNearest (named symbols) address sym

variable {table symbols pre rest : List Symbol} {address : BitVec 64} {found : Search} {i : ℕ}
  {sym : Symbol}

/-- **What the search has after the entries `pre`**: nothing yet, or the nearest of them. -/
structure Search.Best (table pre : List Symbol) (address : BitVec 64) (found : Search) : Prop where
  le : ∀ s ∈ pre, s.addr < address → s.addr ≤ found.corrected
  entry : found = ⟨0#64, 0⟩
    ∨ ∃ sym ∈ pre, table[found.index]? = some sym ∧ sym.addr = found.corrected ∧ sym.addr < address

theorem Search.Best.corrected_lt (h : found.Best table pre address) (hne : address ≠ 0#64) :
    found.corrected < address := by
  rcases h.entry with rfl | ⟨sym, -, -, heq, hlt⟩
  · bv_omega
  · exact heq ▸ hlt

/-- **One entry further.** -/
theorem Search.Best.visit (h : found.Best table pre address)
    (hget : table[pre.length]? = some sym) :
    (found.visit address pre.length sym).Best table (pre ++ [sym]) address := by
  -- the entries so far, of a search that has not moved down
  have hkeep : ∀ next : Search, found.corrected ≤ next.corrected →
      (sym.addr < address → sym.addr ≤ next.corrected) →
      ∀ s ∈ pre ++ [sym], s.addr < address → s.addr ≤ next.corrected := by
    intro next hle hsym
    refine List.forall_mem_append.mpr ⟨fun s hs hlt => BitVec.le_trans (h.le s hs hlt) hle, ?_⟩
    simpa using hsym
  have hsame : (sym.addr < address → sym.addr ≤ found.corrected) →
      found.Best table (pre ++ [sym]) address := fun hsym =>
    ⟨hkeep found (BitVec.le_refl _) hsym, h.entry.imp_right fun ⟨best, hmem, hbest⟩ =>
      ⟨best, List.mem_append_left _ hmem, hbest⟩⟩
  rw [Search.visit]
  split
  case isFalse hlt => exact hsame fun hlt' => absurd hlt' hlt
  case isTrue hlt =>
    split
    case isFalse hle => exact hsame fun _ => BitVec.not_lt.mp hle
    case isTrue hmore =>
      exact ⟨hkeep _ (BitVec.le_of_lt hmore) fun _ => BitVec.le_refl _,
        .inr ⟨sym, List.mem_append_right _ (List.mem_singleton_self _), hget, rfl, hlt⟩⟩

/-- **The search over the functions**, up to the entry at the end. -/
theorem exists_symLookupLoop (hne : address ≠ 0#64) : ∀ (rest pre : List Symbol) {found : Search},
    table = pre ++ rest ++ [lastSymbol] → (∀ s ∈ rest, 0xFFFFFFFF#64 < s.addr) →
    found.Best table pre address →
    ∃ found' : Search, found'.Best table (pre ++ rest) address
      ∧ symLookupLoop table address (rest ++ [lastSymbol]) pre.length found
        = symLookupLoop table address [lastSymbol] (pre ++ rest).length found'
  | [], pre, found, _, _, h => ⟨found, by rwa [List.append_nil], by rw [List.append_nil]; rfl⟩
  | sym :: rest, pre, found, htable, habove, h => by
      have hget : table[pre.length]? = some sym := by simp [htable]
      have hfar : sym.addr ≠ 0xFFFFFFFF#64 := by
        have hlt := habove sym List.mem_cons_self
        bv_omega
      obtain ⟨found', hbest, hloop⟩ := exists_symLookupLoop hne rest (pre ++ [sym])
        (by simpa using htable) (fun s hs => habove s (List.mem_cons_of_mem sym hs)) (h.visit hget)
      rw [List.append_assoc, List.singleton_append] at hbest hloop
      refine ⟨found', hbest, ?_⟩
      rw [List.cons_append, symLookupLoop, if_neg (BitVec.not_le.mpr (h.corrected_lt hne)),
        ← hloop, List.length_append, List.length_singleton]
      exact if_neg hfar

/-- For the address 0 no entry is the end. -/
theorem symLookupLoop_zero : ∀ (rest : List Symbol) (i : ℕ) (found : Search),
    symLookupLoop table 0#64 rest i found = none
  | [], _, _ => rfl
  | _ :: rest, i, found => by
      rw [symLookupLoop, if_pos (by bv_omega), symLookupLoop_zero rest]

/-- The functions of the table are above the entry at the end, as the symbols are. -/
theorem above_named (habove : ∀ s ∈ symbols, 0xFFFFFFFF#64 < s.addr) :
    ∀ s ∈ named symbols, 0xFFFFFFFF#64 < s.addr :=
  fun s hs => habove s (List.mem_of_mem_filter hs)

/-- **The whole search**: what it has of the functions, and then the entry at the end. -/
theorem exists_symLookup (hne : address ≠ 0#64) (habove : ∀ s ∈ symbols, 0xFFFFFFFF#64 < s.addr) :
    ∃ found : Search, found.Best (generateTable symbols) (named symbols) address
      ∧ symLookup (generateTable symbols) address
        = (found.visit address (named symbols).length lastSymbol).answer
          (generateTable symbols) := by
  have hstart : Search.Best (generateTable symbols) [] address ⟨0#64, 0⟩ :=
    ⟨fun s hs => absurd hs List.not_mem_nil, .inl rfl⟩
  obtain ⟨found, hbest, hloop⟩ := exists_symLookupLoop hne (named symbols) []
    (generateTable_eq symbols) (above_named habove) hstart
  rw [← generateTable_eq] at hloop
  refine ⟨found, hbest, hloop.trans ?_⟩
  rw [symLookupLoop, if_neg (BitVec.not_le.mpr (hbest.corrected_lt hne))]
  exact if_pos rfl

theorem getElem?_generateTable_last :
    (generateTable symbols)[(named symbols).length]? = some lastSymbol := by
  simp [generateTable_eq]

/-- A search that has nothing was below every function. -/
theorem Search.Best.not_lt (h : Search.Best table (named symbols) address ⟨0#64, 0⟩)
    (habove : ∀ s ∈ symbols, 0xFFFFFFFF#64 < s.addr) : ∀ s ∈ named symbols, ¬ s.addr < address := by
  intro s hs hlt
  have hle : s.addr ≤ 0#64 := h.le s hs hlt
  have hpos := above_named habove s hs
  bv_omega

/-- The entry at the end does not come before a function. -/
theorem Search.visit_lastSymbol (h : 0xFFFFFFFF#64 < found.corrected) :
    found.visit address i lastSymbol = found := by
  rw [Search.visit, if_neg (show ¬ found.corrected < lastSymbol.addr from BitVec.not_lt.mpr
    (BitVec.le_of_lt h)), ite_self]

/-- **An address that no function is below** is looked up right if it is above the entry at the end,
or there is no function to answer with. -/
theorem exists_answer_iff (hnone : ∀ s ∈ named symbols, ¬ s.addr < address) :
    (∃ sym, (Search.visit address (named symbols).length lastSymbol ⟨0#64, 0⟩).answer
        (generateTable symbols) = some sym ∧ IsNearest (named symbols) address sym)
      ↔ named symbols = [] ∨ 0xFFFFFFFF#64 < address := by
  by_cases hlt : lastSymbol.addr < address
  · refine iff_of_true ⟨lastSymbol, ?_, .inr ⟨hnone, rfl⟩⟩ (.inr hlt)
    rw [Search.visit, if_pos hlt, if_pos (by decide), Search.answer, getElem?_generateTable_last]
    rfl
  · rw [or_iff_left (show ¬ 0xFFFFFFFF#64 < address from hlt), Search.visit, if_neg hlt,
      Search.answer, generateTable_eq]
    cases hnamed : named symbols with
    | nil => exact iff_of_true ⟨⟨0#64, ""⟩, rfl, .inr ⟨hnamed ▸ hnone, rfl⟩⟩ rfl
    | cons first rest =>
      refine iff_of_false ?_ (List.cons_ne_nil _ _)
      rintro ⟨sym, hfirst, hnear⟩
      have hmem : first ∈ named symbols := hnamed ▸ List.mem_cons_self
      rw [← hnamed] at hnear
      rcases hnear with ⟨hsym, hbelow, -⟩ | ⟨-, hempty⟩
      · exact hnone sym hsym hbelow
      · rw [← Option.some.inj hfirst] at hempty
        exact absurd hempty (by simpa using (List.mem_filter.mp hmem).2)

/-- **When the lookup works**: for an address above the entry at the end, or with no function in the
table; but never for 0. -/
theorem looksUp_iff (habove : ∀ s ∈ symbols, 0xFFFFFFFF#64 < s.addr) :
    LooksUp symbols address
      ↔ address ≠ 0#64 ∧ (named symbols = [] ∨ 0xFFFFFFFF#64 < address) := by
  by_cases hne : address = 0#64
  · refine iff_of_false ?_ fun h => h.1 hne
    rintro ⟨sym, hlookup, -⟩
    rw [hne, symLookup, symLookupLoop_zero] at hlookup
    cases hlookup
  rw [and_iff_right hne]
  obtain ⟨found, hbest, heq⟩ := exists_symLookup hne habove
  rw [LooksUp, heq]
  rcases hbest.entry with rfl | ⟨sym, hmem, hget, hcorrected, hlt⟩
  · exact exists_answer_iff (hbest.not_lt habove)
  · have hfar := above_named habove sym hmem
    rw [Search.visit_lastSymbol (hcorrected ▸ hfar)]
    refine iff_of_true ⟨sym, ?_, .inl ⟨hmem, hlt, fun s hs hs' => ?_⟩⟩ (.inr (by bv_omega))
    · rw [Search.answer, hget, Option.map_some, ← hcorrected]
    · exact hcorrected ▸ hbest.le s hs hs'

/-- An address in the second of three functions. -/
theorem looksUp_threeFunctions :
    LooksUp [⟨0xffffffff80002000#64, "b"⟩, ⟨0xffffffff80001000#64, "a"⟩,
      ⟨0xffffffff80003000#64, "c"⟩] 0xffffffff80002004#64 :=
  (looksUp_iff (by decide)).mpr ⟨by decide, .inr (by decide)⟩

/-- **Address 1 is answered with the first function of the table**, and for address 0 the search
leaves the table. -/
theorem not_looksUp_lowAddress :
    ¬ LooksUp [⟨0xffffffff80001000#64, "a"⟩] 1#64
      ∧ symLookup (generateTable [⟨0xffffffff80001000#64, "a"⟩]) 1#64 = some ⟨0#64, "a"⟩
      ∧ ¬ LooksUp [⟨0xffffffff80001000#64, "a"⟩] 0#64
      ∧ symLookup (generateTable [⟨0xffffffff80001000#64, "a"⟩]) 0#64 = none := by
  have hanswer : symLookup (generateTable [⟨0xffffffff80001000#64, "a"⟩]) 1#64
      = some ⟨0#64, "a"⟩ := by decide
  refine ⟨?_, hanswer, ?_, symLookupLoop_zero _ _ _⟩
  · rintro ⟨sym, hlookup, hnear⟩
    obtain rfl := Option.some.inj (hanswer.symm.trans hlookup)
    rcases hnear with ⟨hmem, -⟩ | ⟨-, hempty⟩
    · exact absurd hmem (by decide)
    · exact absurd hempty (by decide)
  · rintro ⟨sym, hlookup, -⟩
    rw [symLookup, symLookupLoop_zero] at hlookup
    cases hlookup

end MoonOS

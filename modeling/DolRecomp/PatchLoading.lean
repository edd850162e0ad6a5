import DolRecomp.RangeSelection
import DolRecomp.SymbolHeader

/-!
# Loading patches

The configuration comes from the TOML library as a tree. A patch is checked against the code
sections and its expected hash, and the patches are sorted and may not overlap. Their ends become
partition points.
-/

namespace DolRecomp

namespace HexText

open Disc Symbols

def isSpace (c : BitVec 8) : Bool := c.toNat = 0x20 || (0x09 ≤ c.toNat && c.toNat ≤ 0x0D)

def digitValue (c : BitVec 8) : Option ℕ :=
  if 0x30 ≤ c.toNat ∧ c.toNat ≤ 0x39 then some (c.toNat - 0x30)
  else if 0x41 ≤ c.toNat ∧ c.toNat ≤ 0x46 then some (c.toNat - 0x37)
  else if 0x61 ≤ c.toNat ∧ c.toNat ≤ 0x66 then some (c.toNat - 0x57)
  else none

def isXdigit (c : BitVec 8) : Bool := (digitValue c).isSome

def value (digits : CString) : ℕ := digits.foldl (fun n c => 16*n + (digitValue c).getD 0) 0

/-- The text behind `0x`, if a digit follows. -/
def dropMarker : CString → CString
  | c :: x :: d :: rest =>
    if c = 0x30 ∧ (x = 0x78 ∨ x = 0x58) ∧ isXdigit d then d :: rest else c :: x :: d :: rest
  | s => s

/-- `strtoull` with base 16, when it stops at the end of the text and does not set `errno`. -/
def strtoull (s : CString) : Option (BitVec 64) :=
  let s := s.dropWhile isSpace
  let negative := s.head? = some 0x2D
  let s := dropMarker (if negative ∨ s.head? = some 0x2B then s.tail else s)
  if s ≠ [] ∧ s.all isXdigit ∧ value s < 2^64 then
    (let magnitude := BitVec.ofNat 64 (value s)
    some (if negative then -magnitude else magnitude))
  else none

end HexText

namespace Llvm

open Disc Symbols

/-- `type` and `u` of a `toml_datum_t`; a string is what is in front of its terminator, and
`scalar` stands for booleans, floating-point numbers and dates. -/
inductive TomlValue (Datum : Type)
  | unknown
  | string (s : CString)
  | int64 (n : BitVec 64)
  | scalar
  | array (elems : List Datum)
  | table

/-- The TOML library: its data with what they hold, and `toml_get`. -/
structure TomlLibrary where
  Datum : Type
  value : Datum → TomlValue Datum
  tomlGet : Datum → String → Datum

structure DolRecompPatchConfigEntry where
  start : BitVec 32
  limit : BitVec 32
  symbol : CString
  expectedFnv64 : Option (BitVec 64)
  deriving DecidableEq

/-- A character that a symbol may start with. -/
def startsSymbol (c : BitVec 8) : Bool :=
  c = 0x5F || (0x41 ≤ c.toNat && c.toNat ≤ 0x5A) || (0x61 ≤ c.toNat && c.toNat ≤ 0x7A)

def patchSymbolValid (symbol : CString) : Bool :=
  match symbol with
  | [] => false
  | c :: rest => startsSymbol c && rest.all (fun c => startsSymbol c || isDigit c) &&
    symbol.take 5 ≠ text "func_" && symbol.take 12 ≠ text "moderngekko_"

def parseExpectedHash {Datum : Type} (value : TomlValue Datum) : Option (BitVec 64) :=
  match value with
  | .int64 n => if n.toInt < 0 then none else some n
  | .string s => if s = [] then none else HexText.strtoull s
  | _ => none

section
variable (lib : TomlLibrary)

/-- What `toml_get` answers for a key. -/
def TomlLibrary.entry (datum : lib.Datum) (key : String) : TomlValue lib.Datum :=
  lib.value (lib.tomlGet datum key)

def funcRange (func : lib.Datum) : Option (BitVec 32 × BitVec 32) :=
  match lib.entry func "start",lib.entry func "end" with
  | .int64 start, .int64 limit =>
    if start.toInt < 0 ∨ 0xFFFFFFFF < start.toInt ∨ limit.toInt < 0 ∨ 0xFFFFFFFF < limit.toInt ∨
      limit.toInt ≤ start.toInt ∨ (start ||| limit) &&& 3#64 ≠ 0 then none
    else some (start.truncate 32,limit.truncate 32)
  | _, _ => none

def funcSymbol (func : lib.Datum) : Option CString :=
  match lib.entry func "symbol" with
  | .string symbol => if patchSymbolValid symbol then some symbol else none
  | _ => none

/-- The source is not read, but it has to be a string. -/
def funcSourceValid (func : lib.Datum) : Bool :=
  match lib.entry func "source" with
  | .unknown | .string _ => true
  | _ => false

def funcHash (func : lib.Datum) : Option (Option (BitVec 64)) :=
  match lib.entry func "expected_fnv64" with
  | .unknown => some none
  | expected => (parseExpectedHash expected).map some

/-- An error of the patch with this index, counted from one in the text. -/
def funcError (i : ℕ) (problem : String) : String :=
  "[[patches.func]] #" ++ toString (i + 1) ++ problem

/-- A round of the loop of `dolrecomp_patch_config_load`. -/
def loadFunc (i : ℕ) (func : lib.Datum) : Except String DolRecompPatchConfigEntry :=
  match lib.value func with
  | .table =>
    match funcRange lib func with
    | none => .error (funcError i " has an invalid aligned range")
    | some (start,limit) =>
      match funcSymbol lib func with
      | none => .error (funcError i " has an invalid patch symbol")
      | some symbol =>
        if funcSourceValid lib func then
          match funcHash lib func with
          | none => .error (funcError i " has an invalid expected_fnv64")
          | some expected => .ok ⟨start,limit,symbol,expected⟩
        else .error (funcError i " source must be a string")
  | _ => .error (funcError i " must be a table")

def loadFuncs : ℕ → List lib.Datum → Except String (List DolRecompPatchConfigEntry)
  | _, [] => .ok []
  | i, func :: funcs =>
    match loadFunc lib i func with
    | .error message => .error message
    | .ok entry =>
      match loadFuncs (i + 1) funcs with
      | .error message => .error message
      | .ok entries => .ok (entry :: entries)

def dolrecompPatchAbiVersion : BitVec 64 := 1

/-- The version, if there is one, is the one of this program. -/
def abiVersionValid (patches : lib.Datum) : Bool :=
  match lib.entry patches "abi_version" with
  | .unknown => true
  | .int64 n => n = dolrecompPatchAbiVersion
  | _ => false

/-- `dolrecomp_patch_config_load`, of what `toml_parse_file_ex` answers. -/
def dolrecompPatchConfigLoad (parsed : Except String lib.Datum) :
    Except String (List DolRecompPatchConfigEntry) :=
  match parsed with
  | .error message => .error message
  | .ok toptab =>
    match lib.entry toptab "patches" with
    | .unknown => .ok []
    | .table =>
      if abiVersionValid lib (lib.tomlGet toptab "patches") then
        match lib.entry (lib.tomlGet toptab "patches") "func" with
        | .unknown => .ok []
        | .array elems => loadFuncs lib 0 elems
        | _ => .error "[[patches.func]] must be an array of tables"
      else .error "patches.abi_version must be 1"
    | _ => .error "[patches] must be a table"

end

def withData (sections : List SectionCode) : List LoadedCodeSection :=
  (sections.filter (·.data.isSome)).map (·.toLoadedCodeSection)

/-- A patch with the symbol that takes its place. -/
structure NamedPatch extends DolLLVMPatch where
  symbol : CString
  deriving DecidableEq

def hashBytes (hash : BitVec 64) (bytes : List (BitVec 8)) : BitVec 64 :=
  bytes.foldl (fun hash c => (hash ^^^ c.zeroExtend 64)*1099511628211) hash

def patchBytes (sections : List SectionCode) (start limit : BitVec 32) :
    Option (List (BitVec 8)) :=
  sections.findSome? fun s => s.data.bind fun data =>
    if s.address ≤ start ∧ limit ≤ s.address + s.size then
      some ((List.range (limit - start).toNat).map fun k =>
        data.get ((start - s.address).toNat + k))
    else none

/-- `llvm_patch_range_hash` of a range that is valid. -/
def llvmPatchRangeHash (sections : List SectionCode) (start limit : BitVec 32) :
    Option (BitVec 64) :=
  (patchBytes sections start limit).map (hashBytes 0xCBF29CE484222325)

inductive PatchError
  | config (message : String)
  | outside (start limit : BitVec 32)
  | mismatch (start limit : BitVec 32) (expected actual : BitVec 64)
  | overlapping (a b : DolLLVMPatch)

instance (sections : List LoadedCodeSection) (patch : DolLLVMPatch) :
    Decidable (llvmPatchRangeValid sections patch) :=
  inferInstanceAs (Decidable (_ ∧ _ ∧ ∃ s ∈ sections, _))

def loadPatch (sections : List SectionCode) (entry : DolRecompPatchConfigEntry) :
    Except PatchError NamedPatch :=
  if llvmPatchRangeValid (withData sections) ⟨entry.start,entry.limit⟩ then
    match entry.expectedFnv64 with
    | none => .ok ⟨⟨entry.start,entry.limit⟩,entry.symbol⟩
    | some expected =>
      let actual := (llvmPatchRangeHash sections entry.start entry.limit).getD 0
      if (llvmPatchRangeHash sections entry.start entry.limit).isSome ∧ actual = expected then
        .ok ⟨⟨entry.start,entry.limit⟩,entry.symbol⟩
      else .error (.mismatch entry.start entry.limit expected actual)
  else .error (.outside entry.start entry.limit)

def loadPatchEntries (sections : List SectionCode) :
    List DolRecompPatchConfigEntry → Except PatchError (List NamedPatch)
  | [] => .ok []
  | entry :: entries =>
    match loadPatch sections entry with
    | .error e => .error e
    | .ok patch =>
      match loadPatchEntries sections entries with
      | .error e => .error e
      | .ok patches => .ok (patch :: patches)

/-- A library function that sorts by `compare_patch`; the order of patches with one start is its
own. -/
structure PatchSort where
  sort : List NamedPatch → List NamedPatch
  perm : ∀ patches, (sort patches).Perm patches
  sorted : ∀ patches, (sort patches).Pairwise fun a b => a.start ≤ b.start

/-- The first patch that reaches over the start of the one behind it. -/
def firstOverlap : List NamedPatch → Option (NamedPatch × NamedPatch)
  | a :: b :: patches =>
    if b.start < a.limit then some (a,b) else firstOverlap (b :: patches)
  | _ => none

/-- `load_patches`; without a configuration file there are no patches. -/
def loadPatches (lib : TomlLibrary) (q : PatchSort) (sections : List SectionCode)
    (config : Option (Except String lib.Datum)) : Except PatchError (List NamedPatch) :=
  match config with
  | none => .ok []
  | some parsed =>
    match dolrecompPatchConfigLoad lib parsed with
    | .error message => .error (.config message)
    | .ok entries =>
      match loadPatchEntries sections entries with
      | .error e => .error e
      | .ok patches =>
        match firstOverlap (q.sort patches) with
        | some (a,b) => .error (.overlapping a.toDolLLVMPatch b.toDolLLVMPatch)
        | none => .ok (q.sort patches)

/-- A name that a patch may have. -/
structure IsPatchSymbol (symbol : CString) : Prop where
  start : ∃ c rest, symbol = c :: rest ∧ startsSymbol c
  chars : ∀ c ∈ symbol, startsSymbol c ∨ isDigit c
  reserved : ¬ text "func_" <+: symbol ∧ ¬ text "moderngekko_" <+: symbol

/-- A hash that is left out, is a number or is given in hexadecimal digits. -/
inductive IsHash {Datum : Type} : TomlValue Datum → Option (BitVec 64) → Prop
  | absent : IsHash .unknown none
  | number (n : BitVec 64) (h : 0 ≤ n.toInt) : IsHash (.int64 n) (some n)
  | digits (s : CString) (hash : BitVec 64) (hs : s ≠ []) (h : HexText.strtoull s = some hash) :
    IsHash (.string s) (some hash)

/-- A table that describes a patch. -/
structure IsPatch (lib : TomlLibrary) (func : lib.Datum) (entry : DolRecompPatchConfigEntry) :
    Prop where
  table : lib.value func = .table
  start : ∃ n, lib.entry func "start" = .int64 n ∧ n.toInt = entry.start.toNat
  limit : ∃ n, lib.entry func "end" = .int64 n ∧ n.toInt = entry.limit.toNat
  aligned : 4 ∣ entry.start.toNat ∧ 4 ∣ entry.limit.toNat
  nonempty : entry.start < entry.limit
  symbol : lib.entry func "symbol" = .string entry.symbol ∧ IsPatchSymbol entry.symbol
  source : lib.entry func "source" = .unknown ∨ ∃ s, lib.entry func "source" = .string s
  hash : IsHash (lib.entry func "expected_fnv64") entry.expectedFnv64

/-- A parsed file that describes patches, in its order. -/
inductive Describes (lib : TomlLibrary) :
    Except String lib.Datum → List DolRecompPatchConfigEntry → Prop
  | bare (top : lib.Datum) (h : lib.entry top "patches" = .unknown) : Describes lib (.ok top) []
  | patches (top : lib.Datum) (entries : List DolRecompPatchConfigEntry)
    (h : lib.entry top "patches" = .table)
    (hv : lib.entry (lib.tomlGet top "patches") "abi_version" = .unknown ∨
      lib.entry (lib.tomlGet top "patches") "abi_version" = .int64 dolrecompPatchAbiVersion)
    (hf : lib.entry (lib.tomlGet top "patches") "func" = .unknown ∧ entries = [] ∨
      ∃ funcs, lib.entry (lib.tomlGet top "patches") "func" = .array funcs ∧
        List.Forall₂ (IsPatch lib) funcs entries) :
    Describes lib (.ok top) entries

theorem patchSymbolValid_iff {symbol : CString} :
    patchSymbolValid symbol = true ↔ IsPatchSymbol symbol := by
  cases symbol with
  | nil => exact iff_of_false Bool.false_ne_true fun h => by obtain ⟨c,rest,h,-⟩ := h.start; cases h
  | cons c rest =>
    have hlen : (text "func_").length = 5 ∧ (text "moderngekko_").length = 12 := by decide
    simp only [patchSymbolValid,Bool.and_eq_true,List.all_eq_true,Bool.or_eq_true,decide_eq_true_eq,
      ne_eq]
    constructor
    · rintro ⟨⟨⟨hc,hrest⟩,hf⟩,hm⟩
      refine ⟨⟨c,rest,rfl,hc⟩,fun d hd => ?_,?_,?_⟩
      · obtain rfl | hd := List.mem_cons.mp hd
        · exact .inl hc
        · exact hrest d hd
      · rw [List.prefix_iff_eq_take,hlen.1]
        exact fun h => hf h.symm
      · rw [List.prefix_iff_eq_take,hlen.2]
        exact fun h => hm h.symm
    · rintro ⟨⟨d,ds,hd,hstart⟩,hchars,hf,hm⟩
      cases hd
      rw [List.prefix_iff_eq_take,hlen.1] at hf
      rw [List.prefix_iff_eq_take,hlen.2] at hm
      exact ⟨⟨⟨hstart,fun d hd => hchars d (List.mem_cons_of_mem _ hd)⟩,fun h => hf h.symm⟩,
        fun h => hm h.symm⟩

section
variable {lib : TomlLibrary} {func : lib.Datum} {entry : DolRecompPatchConfigEntry}

theorem or_and_three {a b : BitVec 64} :
    (a ||| b) &&& 3#64 = 0 ↔ 4 ∣ a.toNat ∧ 4 ∣ b.toNat := by
  have hmod (x : BitVec 64) : x &&& 3#64 = 0 ↔ 4 ∣ x.toNat := by
    rw [← BitVec.toNat_inj,BitVec.toNat_and,Nat.dvd_iff_mod_eq_zero]
    show x.toNat &&& 2^2 - 1 = 0 ↔ _
    rw [Nat.and_two_pow_sub_one_eq_mod]
  rw [BitVec.and_or_distrib_right]
  exact BitVec.or_eq_zero_iff.trans (and_congr (hmod a) (hmod b))

theorem funcRange_iff {start limit : BitVec 32} :
    funcRange lib func = some (start,limit) ↔
      (∃ n, lib.entry func "start" = .int64 n ∧ n.toInt = start.toNat) ∧
      (∃ n, lib.entry func "end" = .int64 n ∧ n.toInt = limit.toNat) ∧
      (4 ∣ start.toNat ∧ 4 ∣ limit.toNat) ∧ start < limit := by
  have hword {n : BitVec 64} {w : BitVec 32} (h : n.toInt = w.toNat) :
      n.toNat = w.toNat ∧ n.truncate 32 = w := by
    have hw := w.isLt
    have hn : n.toNat = w.toNat := by
      have := n.isLt
      rw [BitVec.toInt_eq_toNat_cond] at h
      split at h <;> omega
    refine ⟨hn,BitVec.eq_of_toNat_eq ?_⟩
    rw [BitVec.toNat_setWidth,hn,Nat.mod_eq_of_lt hw]
  have hnat {n : BitVec 64} (h0 : ¬ n.toInt < 0) (h1 : ¬ 0xFFFFFFFF < n.toInt) :
      n.toInt = (n.truncate 32).toNat := by
    rw [BitVec.toNat_setWidth]
    rw [BitVec.toInt_eq_toNat_cond] at *
    have := n.isLt
    split at h0 <;> omega
  unfold funcRange
  constructor
  · intro h
    split at h
    next s l hs hl =>
      split at h
      next => cases h
      next hc =>
        cases h
        simp only [not_or,not_not] at hc
        obtain ⟨hs0,hs1,hl0,hl1,hlt,halign⟩ := hc
        have es := hnat hs0 hs1
        have el := hnat hl0 hl1
        obtain ⟨ha,hb⟩ := or_and_three.mp halign
        rw [(hword es).1] at ha
        rw [(hword el).1] at hb
        refine ⟨⟨s,hs,es⟩,⟨l,hl,el⟩,⟨ha,hb⟩,?_⟩
        rw [BitVec.lt_def]
        omega
    next => cases h
  · rintro ⟨⟨s,hs,es⟩,⟨l,hl,el⟩,halign,hlt⟩
    rw [hs,hl]
    dsimp only
    obtain ⟨ns,ts⟩ := hword es
    obtain ⟨nl,tl⟩ := hword el
    have hsl := start.isLt
    have hll := limit.isLt
    rw [BitVec.lt_def] at hlt
    rw [if_neg,ts,tl]
    rw [ne_eq,or_and_three,ns,nl,es,el]
    simp only [halign,and_self,not_true_eq_false,or_false]
    omega

theorem funcSymbol_iff {symbol : CString} : funcSymbol lib func = some symbol ↔
    lib.entry func "symbol" = .string symbol ∧ IsPatchSymbol symbol := by
  unfold funcSymbol
  split
  next s hs =>
    rw [Option.ite_none_right_eq_some,patchSymbolValid_iff,hs,TomlValue.string.injEq]
    constructor
    · rintro ⟨h,heq⟩
      obtain rfl := Option.some.inj heq
      exact ⟨rfl,h⟩
    · rintro ⟨rfl,h⟩
      exact ⟨h,rfl⟩
  next hs => exact iff_of_false (by rintro ⟨⟩) fun h => hs symbol h.1

theorem funcSourceValid_iff : funcSourceValid lib func = true ↔
    lib.entry func "source" = .unknown ∨ ∃ s, lib.entry func "source" = .string s := by
  unfold funcSourceValid
  split
  next h => simp [h]
  next s h => simp [h]
  next hu hs => exact iff_of_false Bool.false_ne_true (not_or.mpr ⟨hu,fun ⟨s,h⟩ => hs s h⟩)

theorem parseExpectedHash_iff {value : TomlValue lib.Datum} (hv : value ≠ .unknown)
    {hash : Option (BitVec 64)} :
    (parseExpectedHash value).map some = some hash ↔ IsHash value hash := by
  unfold parseExpectedHash
  split
  next n =>
    by_cases hn : n.toInt < 0
    · rw [if_pos hn]
      exact iff_of_false (by rintro ⟨⟩) fun h => by cases h with | number _ h => omega
    · rw [if_neg hn,Option.map_some,Option.some.injEq]
      exact ⟨fun h => h ▸ .number n (not_lt.mp hn),fun h => by cases h with | number => rfl⟩
  next s =>
    by_cases hs : s = []
    · rw [if_pos hs]
      exact iff_of_false (by rintro ⟨⟩) fun h => by cases h with | digits _ _ h => exact h hs
    · rw [if_neg hs,Option.map_eq_some_iff]
      constructor
      · rintro ⟨found,h,rfl⟩
        exact .digits s found hs h
      · intro h
        cases h with
        | digits _ found _ h => exact ⟨found,h,rfl⟩
  next hn hs =>
    refine iff_of_false (by rintro ⟨⟩) fun h => ?_
    cases h with
    | absent => exact hv rfl
    | number n => exact hn n rfl
    | digits s => exact hs s rfl

theorem funcHash_iff {hash : Option (BitVec 64)} : funcHash lib func = some hash ↔
    IsHash (lib.entry func "expected_fnv64") hash := by
  unfold funcHash
  split
  next h =>
    rw [h,Option.some.injEq]
    exact ⟨fun h => h ▸ .absent,fun h => by cases h with | absent => rfl⟩
  next h => exact parseExpectedHash_iff h

/-- A round succeeds for the tables that describe a patch. -/
theorem loadFunc_ok {i : ℕ} : loadFunc lib i func = .ok entry ↔ IsPatch lib func entry := by
  have hpatch : IsPatch lib func entry ↔ lib.value func = .table ∧
      funcRange lib func = some (entry.start,entry.limit) ∧
      funcSymbol lib func = some entry.symbol ∧ funcSourceValid lib func = true ∧
      funcHash lib func = some entry.expectedFnv64 := by
    rw [funcRange_iff,funcSymbol_iff,funcSourceValid_iff,funcHash_iff]
    exact ⟨fun ⟨ht,hs,hl,ha,hn,hy,hc,hh⟩ => ⟨ht,⟨hs,hl,ha,hn⟩,hy,hc,hh⟩,
      fun ⟨ht,⟨hs,hl,ha,hn⟩,hy,hc,hh⟩ => ⟨ht,hs,hl,ha,hn,hy,hc,hh⟩⟩
  rw [hpatch,loadFunc]
  split
  next ht =>
    cases hr : funcRange lib func with
    | none => simp
    | some range =>
      obtain ⟨start,limit⟩ := range
      cases hy : funcSymbol lib func with
      | none => simp
      | some symbol =>
        cases hc : funcSourceValid lib func with
        | false => simp
        | true =>
          cases hh : funcHash lib func with
          | none => simp
          | some hash =>
            obtain ⟨start',limit',symbol',hash'⟩ := entry
            simp [ht,and_assoc]
  next ht => exact iff_of_false (by rintro ⟨⟩) fun h => ht h.1

theorem loadFuncs_ok {i : ℕ} {funcs : List lib.Datum} {entries : List DolRecompPatchConfigEntry} :
    loadFuncs lib i funcs = .ok entries ↔ List.Forall₂ (IsPatch lib) funcs entries := by
  induction funcs generalizing i entries with
  | nil =>
    rw [loadFuncs,List.forall₂_nil_left_iff,Except.ok.injEq]
    exact eq_comm
  | cons func funcs ih =>
    rw [loadFuncs,List.forall₂_cons_left_iff]
    cases hfirst : loadFunc lib i func with
    | error e =>
      refine iff_of_false (by rintro ⟨⟩) ?_
      rintro ⟨entry,rest,h,-⟩
      rw [loadFunc_ok.mpr h] at hfirst
      cases hfirst
    | ok entry =>
      have hentry := loadFunc_ok.mp hfirst
      dsimp only
      cases hrest : loadFuncs lib (i + 1) funcs with
      | error e =>
        refine iff_of_false (by rintro ⟨⟩) ?_
        rintro ⟨_,rest,-,h,-⟩
        rw [ih.mpr h] at hrest
        cases hrest
      | ok rest =>
        dsimp only
        rw [Except.ok.injEq]
        constructor
        · rintro rfl
          exact ⟨entry,rest,hentry,ih.mp hrest,rfl⟩
        · rintro ⟨entry',rest',h,hall,rfl⟩
          rw [← loadFunc_ok (i := i),hfirst] at h
          rw [← ih (i := i + 1),hrest] at hall
          rw [Except.ok.inj h,Except.ok.inj hall]

theorem abiVersionValid_iff {patches : lib.Datum} : abiVersionValid lib patches = true ↔
    lib.entry patches "abi_version" = .unknown ∨
      lib.entry patches "abi_version" = .int64 dolrecompPatchAbiVersion := by
  unfold abiVersionValid
  split
  next h => simp [h]
  next n h => simp [h]
  next hu hn => exact iff_of_false Bool.false_ne_true (not_or.mpr ⟨hu,hn _⟩)

/-- The configurations that are read are the well-formed ones. -/
theorem dolrecompPatchConfigLoad_ok {parsed : Except String lib.Datum}
    {entries : List DolRecompPatchConfigEntry} :
    dolrecompPatchConfigLoad lib parsed = .ok entries ↔ Describes lib parsed entries := by
  cases parsed with
  | error message => exact iff_of_false (by rintro ⟨⟩) (by rintro ⟨⟩)
  | ok top =>
    have hbare : Describes lib (.ok top) entries ↔
        lib.entry top "patches" = .unknown ∧ entries = [] ∨
        lib.entry top "patches" = .table ∧
          abiVersionValid lib (lib.tomlGet top "patches") = true ∧
          (lib.entry (lib.tomlGet top "patches") "func" = .unknown ∧ entries = [] ∨
            ∃ funcs, lib.entry (lib.tomlGet top "patches") "func" = .array funcs ∧
              List.Forall₂ (IsPatch lib) funcs entries) := by
      rw [abiVersionValid_iff]
      constructor
      · intro h
        cases h with
        | bare _ h => exact .inl ⟨h,rfl⟩
        | patches _ _ h hv hf => exact .inr ⟨h,hv,hf⟩
      · rintro (⟨h,rfl⟩ | ⟨h,hv,hf⟩)
        · exact .bare top h
        · exact .patches top entries h hv hf
    rw [hbare,dolrecompPatchConfigLoad]
    have hnil : (Except.ok [] : Except String (List DolRecompPatchConfigEntry)) = .ok entries ↔
        entries = [] := by rw [Except.ok.injEq,eq_comm]
    split
    next h => simp [h,hnil]
    next h =>
      by_cases hv : abiVersionValid lib (lib.tomlGet top "patches") = true
      · rw [if_pos hv]
        split
        next hf => simp [h,hv,hf,hnil]
        next funcs hf => simp [h,hv,hf,loadFuncs_ok]
        next hu ha =>
          refine iff_of_false (by rintro ⟨⟩) ?_
          rintro (⟨h',-⟩ | ⟨-,-,⟨h',-⟩ | ⟨funcs,h',-⟩⟩)
          · rw [h] at h'
            cases h'
          · exact hu h'
          · exact ha funcs h'
      · rw [if_neg hv]
        simp [h,hv]
    next hu ht => exact iff_of_false (by rintro ⟨⟩) fun h => h.elim (hu ·.1) (ht ·.1)

end

def DolRecompPatchConfigEntry.patch (entry : DolRecompPatchConfigEntry) : NamedPatch :=
  ⟨⟨entry.start,entry.limit⟩,entry.symbol⟩

/-- The patch is in the code, and its hash is the expected one. -/
def Accepted (sections : List SectionCode) (entry : DolRecompPatchConfigEntry) : Prop :=
  llvmPatchRangeValid (withData sections) entry.patch.toDolLLVMPatch ∧
    ∀ expected, entry.expectedFnv64 = some expected →
      llvmPatchRangeHash sections entry.start entry.limit = some expected

theorem loadPatch_ok {sections : List SectionCode} {entry : DolRecompPatchConfigEntry}
    {patch : NamedPatch} :
    loadPatch sections entry = .ok patch ↔ Accepted sections entry ∧ patch = entry.patch := by
  rw [loadPatch,Accepted]
  by_cases hvalid : llvmPatchRangeValid (withData sections) ⟨entry.start,entry.limit⟩
  · rw [if_pos hvalid]
    have hpatch : llvmPatchRangeValid (withData sections) entry.patch.toDolLLVMPatch := hvalid
    cases he : entry.expectedFnv64 with
    | none =>
      dsimp only
      rw [Except.ok.injEq]
      exact ⟨fun h => ⟨⟨hpatch,fun _ h' => nomatch h'⟩,h.symm⟩,fun h => h.2.symm⟩
    | some expected =>
      dsimp only
      have hmatch : ((llvmPatchRangeHash sections entry.start entry.limit).isSome ∧
          (llvmPatchRangeHash sections entry.start entry.limit).getD 0 = expected) ↔
          llvmPatchRangeHash sections entry.start entry.limit = some expected := by
        cases llvmPatchRangeHash sections entry.start entry.limit <;> simp
      by_cases hh : llvmPatchRangeHash sections entry.start entry.limit = some expected
      · rw [if_pos (hmatch.mpr hh),Except.ok.injEq]
        exact ⟨fun h => ⟨⟨hpatch,fun _ h' => h' ▸ hh⟩,h.symm⟩,fun h => h.2.symm⟩
      · rw [if_neg fun h => hh (hmatch.mp h)]
        exact iff_of_false (fun h => nomatch h) fun h => hh (h.1.2 expected rfl)
  · rw [if_neg hvalid]
    exact iff_of_false (fun h => nomatch h) fun h => hvalid h.1.1

theorem loadPatchEntries_ok {sections : List SectionCode}
    {entries : List DolRecompPatchConfigEntry} {patches : List NamedPatch} :
    loadPatchEntries sections entries = .ok patches ↔
      (∀ entry ∈ entries, Accepted sections entry) ∧ patches = entries.map (·.patch) := by
  induction entries generalizing patches with
  | nil => simp [loadPatchEntries,eq_comm]
  | cons entry entries ih =>
    rw [loadPatchEntries,List.forall_mem_cons,List.map_cons]
    cases hfirst : loadPatch sections entry with
    | error e =>
      have hnot : ¬Accepted sections entry := fun h => by
        rw [loadPatch_ok.mpr ⟨h,rfl⟩] at hfirst
        cases hfirst
      exact iff_of_false (fun h => nomatch h) fun h => hnot h.1.1
    | ok patch =>
      obtain ⟨haccepted,rfl⟩ := loadPatch_ok.mp hfirst
      dsimp only
      cases hrest : loadPatchEntries sections entries with
      | error e =>
        refine iff_of_false (fun h => nomatch h) fun h => ?_
        rw [ih.mpr ⟨h.1.2,rfl⟩] at hrest
        cases hrest
      | ok rest =>
        obtain ⟨hall,rfl⟩ := ih.mp hrest
        dsimp only
        rw [Except.ok.injEq]
        exact ⟨fun h => ⟨⟨haccepted,hall⟩,h.symm⟩,fun h => h.2.symm⟩

theorem Accepted.nonempty {sections : List SectionCode} {entry : DolRecompPatchConfigEntry}
    (h : Accepted sections entry) : entry.patch.start < entry.patch.limit := h.1.1

/-- Of sorted patches that are not empty, neighbours are apart only if all are. -/
theorem firstOverlap_none {patches : List NamedPatch} (h : ∀ p ∈ patches, p.start < p.limit) :
    firstOverlap patches = none ↔ patches.Pairwise fun a b => a.limit ≤ b.start := by
  induction patches with
  | nil => simp [firstOverlap]
  | cons a patches ih =>
    cases patches with
    | nil => simp [firstOverlap]
    | cons b patches =>
      have hb := h b (List.mem_cons_of_mem a List.mem_cons_self)
      have ih := ih fun p hp => h p (List.mem_cons_of_mem a hp)
      rw [firstOverlap]
      by_cases hover : b.start < a.limit
      · rw [if_pos hover]
        refine iff_of_false (fun h => nomatch h) fun h => ?_
        exact absurd (List.rel_of_pairwise_cons h List.mem_cons_self) (BitVec.not_le.mpr hover)
      · rw [if_neg hover,ih]
        refine ⟨fun hrest => List.pairwise_cons.mpr ⟨fun c hc => ?_,hrest⟩,
          fun h => (List.pairwise_cons.mp h).2⟩
        obtain rfl | hc := List.mem_cons.mp hc
        · exact BitVec.not_lt.mp hover
        · -- The patch between them is not empty.
          have hbc := List.rel_of_pairwise_cons hrest hc
          simp only [BitVec.lt_def,BitVec.le_def] at *
          omega

theorem starts_increase {patches : List NamedPatch} (h : ∀ p ∈ patches, p.start < p.limit)
    (hapart : patches.Pairwise fun a b => a.limit ≤ b.start) :
    patches.Pairwise fun a b => a.start < b.start := by
  refine hapart.imp_of_mem fun ha _ hab => ?_
  have hlt := h _ ha
  simp only [BitVec.lt_def,BitVec.le_def] at *
  omega

/-- Patches that are apart are sorted in one way only. -/
theorem sorted_unique (q : PatchSort) {patches entries : List NamedPatch}
    (h : ∀ p ∈ patches, p.start < p.limit) (hperm : patches.Perm entries)
    (hapart : patches.Pairwise fun a b => a.limit ≤ b.start) : q.sort entries = patches := by
  have hstarts := starts_increase h hapart
  refine List.Perm.eq_of_pairwise (fun a b ha hb hab hba => ?_) (q.sorted entries)
    (hstarts.imp fun hlt => BitVec.le_of_lt hlt) ((q.perm entries).trans hperm.symm)
  have ha : a ∈ patches := hperm.mem_iff.mpr ((q.perm entries).mem_iff.mp ha)
  have hstart : a.start = b.start := BitVec.le_antisymm hab hba
  have hinj := List.pairwise_iff_getElem.mp hstarts
  obtain ⟨i,hi,rfl⟩ := List.getElem_of_mem ha
  obtain ⟨j,hj,rfl⟩ := List.getElem_of_mem hb
  rcases lt_trichotomy i j with hij | hij | hij
  · exact absurd hstart (BitVec.ne_of_lt (hinj i j hi hj hij))
  · subst hij
    rfl
  · exact absurd hstart.symm (BitVec.ne_of_lt (hinj j i hj hi hij))

/-- What a configuration describes, if there is one. -/
def Configures (lib : TomlLibrary) (config : Option (Except String lib.Datum))
    (entries : List DolRecompPatchConfigEntry) : Prop :=
  config.elim (entries = []) fun parsed => Describes lib parsed entries

/-- The configuration asks for `patches`, in order. -/
def Loads (lib : TomlLibrary) (sections : List SectionCode)
    (config : Option (Except String lib.Datum)) (patches : List NamedPatch) : Prop :=
  ∃ entries, Configures lib config entries ∧
    (∀ entry ∈ entries, Accepted sections entry) ∧ patches.Perm (entries.map (·.patch)) ∧
    patches.Pairwise fun a b => a.limit ≤ b.start

section
variable {lib : TomlLibrary} {sections : List SectionCode} {config : Option (Except String lib.Datum)}
  {patches : List NamedPatch}

theorem Loads.nonempty (h : Loads lib sections config patches) :
    ∀ p ∈ patches, p.start < p.limit := by
  obtain ⟨entries,-,hall,hperm,-⟩ := h
  intro p hp
  obtain ⟨entry,he,rfl⟩ := List.mem_map.mp (hperm.mem_iff.mp hp)
  exact (hall entry he).nonempty

theorem loads_of_loadPatches {q : PatchSort} (h : loadPatches lib q sections config = .ok patches) :
    Loads lib sections config patches := by
  unfold loadPatches at h
  cases config with
  | none =>
    obtain rfl := Except.ok.inj h
    exact ⟨[],rfl,fun _ he => absurd he List.not_mem_nil,.nil,.nil⟩
  | some parsed =>
    dsimp only at h
    cases hentries : dolrecompPatchConfigLoad lib parsed with
    | error message => rw [hentries] at h; cases h
    | ok entries =>
      simp only [hentries] at h
      cases hload : loadPatchEntries sections entries with
      | error e => rw [hload] at h; cases h
      | ok loaded =>
        obtain ⟨hall,rfl⟩ := loadPatchEntries_ok.mp hload
        simp only [hload] at h
        cases hover : firstOverlap (q.sort (entries.map (·.patch))) with
        | some pair => rw [hover] at h; cases h
        | none =>
          rw [hover] at h
          obtain rfl := Except.ok.inj h
          have hperm := q.perm (entries.map (·.patch))
          refine ⟨entries,dolrecompPatchConfigLoad_ok.mp hentries,hall,hperm,
            (firstOverlap_none fun p hp => ?_).mp hover⟩
          obtain ⟨entry,he,rfl⟩ := List.mem_map.mp (hperm.mem_iff.mp hp)
          exact (hall entry he).nonempty

theorem Loads.loadPatches (h : Loads lib sections config patches) (q : PatchSort) :
    loadPatches lib q sections config = .ok patches := by
  have hnonempty := h.nonempty
  obtain ⟨entries,hentries,hall,hperm,hapart⟩ := h
  unfold Llvm.loadPatches
  cases config with
  | none =>
    obtain rfl : entries = [] := hentries
    rw [hperm.eq_nil]
  | some parsed =>
    dsimp only
    rw [dolrecompPatchConfigLoad_ok.mpr hentries]
    dsimp only
    rw [loadPatchEntries_ok.mpr ⟨hall,rfl⟩]
    dsimp only
    rw [sorted_unique q hnonempty hperm hapart,(firstOverlap_none hnonempty).mpr hapart]

end

/-- `load_patches` accepts the well-formed configurations whose patches are in the code, have the
hashes that are expected and do not overlap, and hands them over in order. -/
theorem load_patches_iff (lib : TomlLibrary) (q : PatchSort) (sections : List SectionCode)
    (config : Option (Except String lib.Datum)) (patches : List NamedPatch) :
    loadPatches lib q sections config = .ok patches ↔ Loads lib sections config patches :=
  ⟨loads_of_loadPatches,fun h => Loads.loadPatches h q⟩

end Llvm

end DolRecomp

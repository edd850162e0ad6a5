import DolRecomp.RelLoader

/-!
# Loading RPX files

`rpx_load` with every access to a buffer checked. Only the lookup of section names can leave one:
a name section without file data has a size but no bytes.
-/

namespace DolRecomp

namespace Rpx

open CheckedBytes DolRecomp.Rel

structure RPXSectionHeader where
  nameOffset : BitVec 32
  type : BitVec 32
  flags : BitVec 32
  address : BitVec 32
  offset : BitVec 32
  size : BitVec 32

structure RPXCodeSection where
  name : List (BitVec 8)
  offset : BitVec 32
  address : BitVec 32
  size : BitVec 32
  flags : BitVec 32
  compressed : Bool
  data : Option Bytes

structure RPXFile where
  entryPoint : BitVec 32
  sectionCount : BitVec 16
  codeSections : List RPXCodeSection

def shfExecinstr : BitVec 32 := 0x00000004
def shfRplZlib : BitVec 32 := 0x08000000
def shtProgbits : BitVec 32 := 1
def shtNobits : BitVec 32 := 8
def rpxMaxCodeSections : ℕ := 64

/-- `uncompress` of zlib: from `size` source bytes, at most `capacity` bytes and how many. -/
abbrev Uncompress := (source : ℕ → BitVec 8) → (size capacity : ℕ) → Option ((ℕ → BitVec 8) × ℕ)

/-- `read_section_header`; the last four words of a header are not used. -/
def readSectionHeader (file : Bytes) (tableOffset : BitVec 32) (index : ℕ) :
    Checked RPXSectionHeader := do
  let header := tableOffset.toNat + index*40
  touch file.size header 40
  pure
    { nameOffset := readBe32 file.get header
      type := readBe32 file.get (header + 4)
      flags := readBe32 file.get (header + 8)
      address := readBe32 file.get (header + 12)
      offset := readBe32 file.get (header + 16)
      size := readBe32 file.get (header + 20) }

/-- A pointer into a buffer and the bytes behind it. -/
def slice (bytes : Bytes) (offset size : ℕ) : Bytes := ⟨fun n => bytes.get (offset + n),size⟩

/-- `decode_section_bytes`; no data stands for a null pointer. -/
def decodeSectionBytes (file : Bytes) (uncompress : Uncompress) (s : RPXSectionHeader) :
    Checked (Option Bytes × BitVec 32) :=
  if s.type = shtNobits then pure (none,s.size)
  else do
    require (rangeFits s.offset s.size (BitVec.ofNat 32 file.size))
    if s.flags &&& shfRplZlib = 0 then
      pure (some (slice file s.offset.toNat s.size.toNat),s.size)
    else do
      require (4 ≤ s.size.toNat)
      let decodedSize ← read32 file s.offset.toNat
      touch file.size (s.offset.toNat + 4) (s.size.toNat - 4)
      let (decoded,length) ← orReject (uncompress (slice file (s.offset.toNat + 4) 0).get
        (s.size.toNat - 4) decodedSize.toNat)
      require (length = decodedSize.toNat)
      pure (some ⟨decoded,decodedSize.toNat⟩,decodedSize)

def readName (names : Option Bytes) (i : ℕ) : Checked (BitVec 8) :=
  match names with
  | none => .error .fault
  | some bytes => read8 bytes i

/-- The loop of `section_name_at` over what is left of the names, up to the terminator. -/
def scanName (names : Option Bytes) : ℕ → ℕ → Checked (Option (List (BitVec 8)))
  | 0, _ => pure none
  | n+1, i => do
    let byte ← readName names i
    if byte = 0 then pure (some [])
    else do
      let rest ← scanName names n (i + 1)
      pure (rest.map (byte :: ·))

def sectionNameAt (names : Option Bytes) (namesSize offset : BitVec 32) :
    Checked (Option (List (BitVec 8))) :=
  if namesSize ≤ offset then pure none
  else scanName names (namesSize.toNat - offset.toNat) offset.toNat

/-- `copy_section_name` into a buffer of 64 characters. -/
def copySectionName (name : Option (List (BitVec 8))) : List (BitVec 8) :=
  match name with
  | some (c :: cs) => (c :: cs).take 63
  | _ => "<anonymous>".toList.map fun c => BitVec.ofNat 8 c.toNat

def takeSection (file : Bytes) (uncompress : Uncompress) (codes : List RPXCodeSection)
    (name : Option (List (BitVec 8))) (s : RPXSectionHeader) : Checked (List RPXCodeSection) := do
  require (s.type = shtNobits ∨ s.size = 0 ∨
    rangeFits s.offset s.size (BitVec.ofNat 32 file.size) = true)
  if s.type = shtProgbits ∧ s.flags &&& shfExecinstr ≠ 0 ∧ s.size ≠ 0 then do
    require (codes.length < rpxMaxCodeSections)
    let (data,decodedSize) ← decodeSectionBytes file uncompress s
    require (decodedSize &&& 3#32 = 0)
    pure (codes ++
      [{ name := copySectionName name, offset := s.offset, address := s.address
         size := decodedSize, flags := s.flags, compressed := s.flags &&& shfRplZlib ≠ 0, data }])
  else pure codes

def takeSections (file : Bytes) (uncompress : Uncompress) (names : Option Bytes)
    (namesSize : BitVec 32) : List RPXSectionHeader → List RPXCodeSection →
    Checked (List RPXCodeSection)
  | [], codes => pure codes
  | s :: rest, codes => do
    let name ← sectionNameAt names namesSize s.nameOffset
    let codes ← takeSection file uncompress codes name s
    takeSections file uncompress names namesSize rest codes

/-- What `rpx_load` takes from the header of the file. -/
structure RPXHeader where
  entryPoint : BitVec 32
  sectionOffset : BitVec 32
  sectionCount : BitVec 16
  sectionNamesIndex : BitVec 16

def loadHeader (file : Bytes) : Checked RPXHeader := do
  require (52 ≤ file.size)
  let magic ← read32 file 0
  let class32 ← read8 file 4
  let bigEndian ← read8 file 5
  let version ← read8 file 6
  require (magic = 0x7F454C46 ∧ class32 = 1 ∧ bigEndian = 2 ∧ version = 1)
  let type ← read16 file 16
  let machine ← read16 file 18
  require (type = 0xFE01 ∧ machine = 20)
  let entryPoint ← read32 file 24
  require (entryPoint &&& 3#32 = 0)
  let sectionOffset ← read32 file 32
  let sectionEntrySize ← read16 file 46
  let sectionCount ← read16 file 48
  let sectionNamesIndex ← read16 file 50
  require (sectionEntrySize = 40 ∧ sectionNamesIndex < sectionCount)
  require (rangeFits sectionOffset (BitVec.ofNat 32 (40*sectionCount.toNat))
    (BitVec.ofNat 32 file.size))
  pure { entryPoint, sectionOffset, sectionCount, sectionNamesIndex }

def readSectionHeaders (file : Bytes) (tableOffset : BitVec 32) :
    List ℕ → Checked (List RPXSectionHeader)
  | [] => pure []
  | i :: rest => do
    let s ← readSectionHeader file tableOffset i
    let sections ← readSectionHeaders file tableOffset rest
    pure (s :: sections)

def addressInRange (address base size : BitVec 32) : Bool :=
  size ≠ 0 ∧ base ≤ address ∧ address - base < size

def rpxLoad (file : Bytes) (uncompress : Uncompress) : Checked RPXFile := do
  let header ← loadHeader file
  let sections ← readSectionHeaders file header.sectionOffset
    (List.range header.sectionCount.toNat)
  let nameSection ← orFault sections[header.sectionNamesIndex.toNat]?
  let (names,namesSize) ← decodeSectionBytes file uncompress nameSection
  let codeSections ← takeSections file uncompress names namesSize sections []
  require (codeSections ≠ [])
  require (codeSections.any fun code =>
    addressInRange header.entryPoint code.address code.size)
  pure ⟨header.entryPoint,header.sectionCount,codeSections⟩

section

variable {file : Bytes} {uncompress : Uncompress}

theorem noFault_loadHeader (file : Bytes) : NoFault (loadHeader file) := by
  unfold loadHeader
  refine (noFault_require _).bind fun _ h => ?_
  have h := require_eq_ok.mp h
  refine (noFault_read32 (by omega)).bind fun _ _ => ?_
  iterate 3 refine (noFault_read8 (by omega)).bind fun _ _ => ?_
  refine (noFault_require _).bind fun _ _ => ?_
  iterate 2 refine (noFault_read16 (by omega)).bind fun _ _ => ?_
  refine (noFault_require _).bind fun _ _ => ?_
  refine (noFault_read32 (by omega)).bind fun _ _ => ?_
  refine (noFault_require _).bind fun _ _ => ?_
  refine (noFault_read32 (by omega)).bind fun _ _ => ?_
  iterate 3 refine (noFault_read16 (by omega)).bind fun _ _ => ?_
  iterate 2 refine (noFault_require _).bind fun _ _ => ?_
  exact noFault_pure _

/-- The limits that an accepted header keeps. -/
structure RPXHeader.Ok (header : RPXHeader) (file : Bytes) : Prop where
  entry : header.entryPoint &&& 3#32 = 0
  names : header.sectionNamesIndex.toNat < header.sectionCount.toNat
  table : header.sectionOffset.toNat + 40*header.sectionCount.toNat ≤ file.size

theorem loadHeader_ok {header : RPXHeader} (h : loadHeader file = .ok header) :
    header.Ok file := by
  unfold loadHeader at h
  iterate 9
    obtain ⟨_,-,h⟩ := bind_eq_ok.mp h
  obtain ⟨entryPoint,-,h⟩ := bind_eq_ok.mp h
  obtain ⟨_,hentry,h⟩ := bind_eq_ok.mp h
  iterate 2
    obtain ⟨_,-,h⟩ := bind_eq_ok.mp h
  obtain ⟨sectionCount,-,h⟩ := bind_eq_ok.mp h
  obtain ⟨_,-,h⟩ := bind_eq_ok.mp h
  obtain ⟨_,hnames,h⟩ := bind_eq_ok.mp h
  obtain ⟨_,htable,h⟩ := bind_eq_ok.mp h
  have htable := rangeFits_iff.mp (require_eq_ok.mp htable)
  have hnames := (require_eq_ok.mp hnames).2
  have hcount := sectionCount.isLt
  have hsize := fileSize_le file
  cases h
  refine ⟨require_eq_ok.mp hentry,BitVec.lt_def.mp hnames,?_⟩
  rw [BitVec.toNat_ofNat,Nat.mod_eq_of_lt (by omega)] at htable
  exact htable.trans hsize

theorem readSectionHeaders_ok {tableOffset : BitVec 32} {is : List ℕ}
    (h : ∀ i ∈ is, tableOffset.toNat + 40*i + 40 ≤ file.size) :
    ∃ sections, readSectionHeaders file tableOffset is = .ok sections ∧
      sections.length = is.length := by
  induction is with
  | nil => exact ⟨[],rfl,rfl⟩
  | cons i is ih =>
    obtain ⟨sections,hs,hlen⟩ := ih fun j hj => h j (List.mem_cons_of_mem _ hj)
    have hi := h i List.mem_cons_self
    unfold readSectionHeaders readSectionHeader
    dsimp only
    rw [touch_eq_ok (by omega),hs]
    exact ⟨_,rfl,congrArg (· + 1) hlen⟩

theorem noFault_decodeSectionBytes (s : RPXSectionHeader) :
    NoFault (decodeSectionBytes file uncompress s) := by
  have hsize := fileSize_le file
  unfold decodeSectionBytes
  split
  next => exact noFault_pure _
  next =>
    refine (noFault_require _).bind fun _ hfits => ?_
    have hfits := rangeFits_iff.mp (require_eq_ok.mp hfits)
    split
    next => exact noFault_pure _
    next =>
      refine (noFault_require _).bind fun _ h4 => ?_
      have h4 := require_eq_ok.mp h4
      refine (noFault_read32 (by omega)).bind fun _ _ => ?_
      refine (noFault_touch (by omega)).bind fun _ _ => ?_
      refine (noFault_orReject _).bind fun _ _ => ?_
      refine (noFault_require _).bind fun _ _ => ?_
      exact noFault_pure _

/-- Data is missing for sections without file data only, and else has the size that is
returned. -/
theorem decodeSectionBytes_ok {s : RPXSectionHeader} {data : Option Bytes} {size : BitVec 32}
    (h : decodeSectionBytes file uncompress s = .ok (data,size)) :
    s.type = shtNobits ∧ data = none ∧ size = s.size ∨
      s.type ≠ shtNobits ∧ ∃ bytes, data = some bytes ∧ bytes.size = size.toNat := by
  unfold decodeSectionBytes at h
  split at h
  next ht =>
    cases h
    exact .inl ⟨ht,rfl,rfl⟩
  next ht =>
    obtain ⟨_,-,h⟩ := bind_eq_ok.mp h
    right
    split at h
    next =>
      cases h
      exact ⟨ht,_,rfl,rfl⟩
    next =>
      iterate 3
        obtain ⟨_,-,h⟩ := bind_eq_ok.mp h
      obtain ⟨⟨decoded,length⟩,-,h⟩ := bind_eq_ok.mp h
      obtain ⟨_,-,h⟩ := bind_eq_ok.mp h
      cases h
      exact ⟨ht,_,rfl,rfl⟩

theorem noFault_scanName {names : Bytes} (n i : ℕ) (h : i + n ≤ names.size) :
    NoFault (scanName (some names) n i) := by
  induction n generalizing i with
  | zero => exact noFault_pure _
  | succ n ih =>
    unfold scanName
    refine NoFault.bind (noFault_read8 (by omega)) fun byte _ => ?_
    split
    next => exact noFault_pure _
    next =>
      refine (ih (i + 1) (by omega)).bind fun _ _ => ?_
      exact noFault_pure _

theorem noFault_sectionNameAt {names : Bytes} {namesSize : BitVec 32}
    (h : names.size = namesSize.toNat) (offset : BitVec 32) :
    NoFault (sectionNameAt (some names) namesSize offset) := by
  unfold sectionNameAt
  split
  next => exact noFault_pure _
  next hlt =>
    have hlt := BitVec.lt_def.mp (BitVec.not_le.mp hlt)
    exact noFault_scanName _ _ (by omega)

/-- Without names the first byte of a name is already out of reach. -/
theorem sectionNameAt_none (namesSize offset : BitVec 32) : sectionNameAt none namesSize offset =
    if offset < namesSize then .error .fault else .ok none := by
  unfold sectionNameAt
  split
  next hle =>
    rw [if_neg (BitVec.not_lt.mpr hle)]
    rfl
  next hlt =>
    have hlt := BitVec.not_le.mp hlt
    rw [if_pos hlt]
    have hpos : namesSize.toNat - offset.toNat = (namesSize.toNat - offset.toNat - 1) + 1 := by
      have := BitVec.lt_def.mp hlt
      omega
    rw [hpos]
    rfl

theorem noFault_takeSection (codes : List RPXCodeSection) (name : Option (List (BitVec 8)))
    (s : RPXSectionHeader) : NoFault (takeSection file uncompress codes name s) := by
  unfold takeSection
  refine (noFault_require _).bind fun _ _ => ?_
  split
  next =>
    refine (noFault_require _).bind fun _ _ => ?_
    refine (noFault_decodeSectionBytes s).bind fun _ _ => ?_
    refine (noFault_require _).bind fun _ _ => ?_
    exact noFault_pure _
  next => exact noFault_pure _

theorem noFault_takeSections {names : Bytes} {namesSize : BitVec 32}
    (h : names.size = namesSize.toNat) (sections : List RPXSectionHeader)
    (codes : List RPXCodeSection) :
    NoFault (takeSections file uncompress (some names) namesSize sections codes) := by
  induction sections generalizing codes with
  | nil => exact noFault_pure _
  | cons s rest ih =>
    refine (noFault_sectionNameAt h _).bind fun name _ => ?_
    refine (noFault_takeSection codes name s).bind fun codes _ => ?_
    exact ih codes

/-- Names of size 0 are never looked up. -/
theorem takeSections_cons_zero (s : RPXSectionHeader) (rest : List RPXSectionHeader)
    (codes : List RPXCodeSection) : takeSections file uncompress none 0 (s :: rest) codes =
      (takeSection file uncompress codes none s >>= fun codes =>
        takeSections file uncompress none 0 rest codes) := by
  have hzero : ¬s.nameOffset < 0 := by
    rw [BitVec.lt_def]
    exact Nat.not_lt_zero _
  show (sectionNameAt none 0 s.nameOffset >>= fun name => _) = _
  rw [sectionNameAt_none,if_neg hzero]
  rfl

/-- Without names the loop leaves a buffer at the first section that has a name, unless it
rejects a section before. -/
theorem takeSections_none_fault (namesSize : BitVec 32) (sections : List RPXSectionHeader)
    (codes : List RPXCodeSection) :
    takeSections file uncompress none namesSize sections codes = .error .fault ↔
      ∃ k s, sections[k]? = some s ∧ s.nameOffset < namesSize ∧
        ∃ codes', takeSections file uncompress none 0 (sections.take k) codes = .ok codes' := by
  induction sections generalizing codes with
  | nil =>
    constructor
    · intro h
      cases h
    · rintro ⟨k,s,h,-⟩
      cases h
  | cons s rest ih =>
    show (sectionNameAt none namesSize s.nameOffset >>= fun name => _) = _ ↔ _
    rw [sectionNameAt_none]
    by_cases hname : s.nameOffset < namesSize
    · rw [if_pos hname]
      exact ⟨fun _ => ⟨0,s,rfl,hname,codes,rfl⟩,fun _ => rfl⟩
    · rw [if_neg hname]
      show (takeSection file uncompress codes none s >>= fun codes => _) = _ ↔ _
      cases htake : takeSection file uncompress codes none s with
      | error e =>
        constructor
        · intro h
          have he : e = .fault := Except.error.inj h
          exact absurd (he ▸ htake) (noFault_takeSection codes none s)
        · rintro ⟨_ | k,t,hk,hlt,codes',hc⟩
          · cases hk
            exact absurd hlt hname
          · rw [List.take_succ_cons,takeSections_cons_zero,htake] at hc
            cases hc
      | ok codes₁ =>
        show takeSections file uncompress none namesSize rest codes₁ = _ ↔ _
        rw [ih]
        constructor
        · rintro ⟨k,t,hk,hlt,codes',hc⟩
          refine ⟨k + 1,t,hk,hlt,codes',?_⟩
          rw [List.take_succ_cons,takeSections_cons_zero,htake]
          exact hc
        · rintro ⟨_ | k,t,hk,hlt,codes',hc⟩
          · cases hk
            exact absurd hlt hname
          · refine ⟨k,t,hk,hlt,codes',?_⟩
            rw [List.take_succ_cons,takeSections_cons_zero,htake] at hc
            exact hc

/-- Every code section that is taken has its data. -/
def Readable (code : RPXCodeSection) : Prop :=
  ∃ bytes, code.data = some bytes ∧ code.size.toNat ≤ bytes.size

theorem takeSection_ok {codes codes' : List RPXCodeSection} {name : Option (List (BitVec 8))}
    {s : RPXSectionHeader} (h : takeSection file uncompress codes name s = .ok codes') :
    codes' = codes ∨ ∃ code, codes' = codes ++ [code] ∧ Readable code ∧
      code.size &&& 3#32 = 0 := by
  unfold takeSection at h
  obtain ⟨_,-,h⟩ := bind_eq_ok.mp h
  split at h
  next hc =>
    obtain ⟨_,-,h⟩ := bind_eq_ok.mp h
    obtain ⟨⟨data,decodedSize⟩,hdecode,h⟩ := bind_eq_ok.mp h
    obtain ⟨_,halign,h⟩ := bind_eq_ok.mp h
    cases h
    right
    refine ⟨_,rfl,?_,require_eq_ok.mp halign⟩
    rcases decodeSectionBytes_ok hdecode with ⟨ht,-⟩ | ⟨-,bytes,hb,hlen⟩
    · rw [hc.1] at ht
      cases ht
    · exact ⟨bytes,hb,by rw [hlen]⟩
  next =>
    cases h
    exact .inl rfl

theorem takeSections_ok {names : Option Bytes} {namesSize : BitVec 32}
    {sections : List RPXSectionHeader} {codes codes' : List RPXCodeSection}
    (hcodes : ∀ code ∈ codes, Readable code ∧ code.size &&& 3#32 = 0)
    (h : takeSections file uncompress names namesSize sections codes = .ok codes') :
    ∀ code ∈ codes', Readable code ∧ code.size &&& 3#32 = 0 := by
  induction sections generalizing codes with
  | nil =>
    cases h
    exact hcodes
  | cons s rest ih =>
    unfold takeSections at h
    obtain ⟨name,-,h⟩ := bind_eq_ok.mp h
    obtain ⟨codes₁,htake,h⟩ := bind_eq_ok.mp h
    refine ih ?_ h
    rcases takeSection_ok htake with rfl | ⟨code,rfl,hcode⟩
    · exact hcodes
    · intro code' hm
      rcases List.mem_append.mp hm with hm | hm
      · exact hcodes code' hm
      · rw [List.mem_singleton.mp hm]
        exact hcode

end

/-- A name is looked up in a name section without file data: the section with the name comes
before any that is refused. -/
def MissingNames (file : Bytes) (uncompress : Uncompress) : Prop :=
  ∃ header sections nameSection, loadHeader file = .ok header ∧
    readSectionHeaders file header.sectionOffset (List.range header.sectionCount.toNat) =
      .ok sections ∧
    sections[header.sectionNamesIndex.toNat]? = some nameSection ∧
    nameSection.type = shtNobits ∧ ∃ k s, sections[k]? = some s ∧
      s.nameOffset < nameSection.size ∧
      ∃ codes, takeSections file uncompress none 0 (sections.take k) [] = .ok codes

/-- What is promised of `rpx_load`. -/
def Safe (file : Bytes) (uncompress : Uncompress) : Prop :=
  NoFault (rpxLoad file uncompress) ∧
    ∀ rpx, rpxLoad file uncompress = .ok rpx → ∀ code ∈ rpx.codeSections, Readable code

/-- What follows the loop over the sections rejects, but reads no buffer. -/
theorem require_fault_iff {x : Checked (List RPXCodeSection)} {p : List RPXCodeSection → Prop}
    {q : List RPXCodeSection → Prop} [DecidablePred p] [DecidablePred q]
    (file : List RPXCodeSection → RPXFile) :
    (x >>= fun codeSections => do
      require (p codeSections)
      require (q codeSections)
      pure (file codeSections)) = .error .fault ↔ x = .error .fault := by
  rw [bind_eq_error]
  constructor
  · rintro (h | ⟨codes,-,h⟩)
    · exact h
    · exact absurd h ((noFault_require _).bind fun _ _ =>
        (noFault_require _).bind fun _ _ => noFault_pure _)
  · exact .inl

theorem missingNames_iff {file : Bytes} {uncompress : Uncompress} {header : RPXHeader}
    {sections : List RPXSectionHeader} {nameSection : RPXSectionHeader}
    (hheader : loadHeader file = .ok header)
    (hsections : readSectionHeaders file header.sectionOffset
      (List.range header.sectionCount.toNat) = .ok sections)
    (hname : sections[header.sectionNamesIndex.toNat]? = some nameSection) :
    MissingNames file uncompress ↔ nameSection.type = shtNobits ∧
      takeSections file uncompress none nameSection.size sections [] = .error .fault := by
  rw [takeSections_none_fault]
  constructor
  · rintro ⟨_,_,_,h1,h2,h3,h4,h5⟩
    cases hheader.symm.trans h1
    cases hsections.symm.trans h2
    cases hname.symm.trans h3
    exact ⟨h4,h5⟩
  · rintro ⟨h4,h5⟩
    exact ⟨header,sections,nameSection,hheader,hsections,hname,h4,h5⟩

/-- The section headers that a checked header promises are there, the one of the names too. -/
theorem loadHeader_sections {file : Bytes} {header : RPXHeader}
    (h : loadHeader file = .ok header) : ∃ sections nameSection,
      readSectionHeaders file header.sectionOffset (List.range header.sectionCount.toNat) =
        .ok sections ∧
      sections[header.sectionNamesIndex.toNat]? = some nameSection := by
  have hok := loadHeader_ok h
  have htable : ∀ i ∈ List.range header.sectionCount.toNat,
      header.sectionOffset.toNat + 40*i + 40 ≤ file.size := fun i hi => by
    have hi := List.mem_range.mp hi
    have ht := hok.table
    omega
  obtain ⟨sections,hsections,hlen⟩ := readSectionHeaders_ok htable
  rw [List.length_range] at hlen
  exact ⟨sections,_,hsections,List.getElem?_eq_getElem (hlen.symm ▸ hok.names)⟩

theorem rpxLoad_fault (file : Bytes) (uncompress : Uncompress) :
    rpxLoad file uncompress = .error .fault ↔ MissingNames file uncompress := by
  unfold rpxLoad
  cases hheader : loadHeader file with
  | error e =>
    constructor
    · intro h
      have he : e = .fault := Except.error.inj h
      exact absurd (he ▸ hheader) (noFault_loadHeader file)
    · rintro ⟨header,_,_,h,-⟩
      cases hheader.symm.trans h
  | ok header =>
    obtain ⟨sections,nameSection,hsections,hname⟩ := loadHeader_sections hheader
    rw [missingNames_iff hheader hsections hname]
    show (readSectionHeaders file header.sectionOffset _ >>= fun sections => _) = _ ↔ _
    rw [hsections]
    show (orFault sections[header.sectionNamesIndex.toNat]? >>= fun nameSection => _) = _ ↔ _
    rw [hname]
    show (decodeSectionBytes file uncompress nameSection >>= fun x => _) = _ ↔ _
    cases hdecode : decodeSectionBytes file uncompress nameSection with
    | error e =>
      constructor
      · intro h
        have he : e = .fault := Except.error.inj h
        exact absurd (he ▸ hdecode) (noFault_decodeSectionBytes nameSection)
      · rintro ⟨ht,-⟩
        rw [decodeSectionBytes,if_pos ht] at hdecode
        cases hdecode
    | ok x =>
      obtain ⟨data,size⟩ := x
      refine (require_fault_iff _).trans ?_
      rcases decodeSectionBytes_ok hdecode with ⟨ht,rfl,rfl⟩ | ⟨ht,bytes,rfl,hlen⟩
      · exact ⟨fun h => ⟨ht,h⟩,fun h => h.2⟩
      · exact ⟨fun h => absurd h (noFault_takeSections hlen sections []),fun h => absurd h.1 ht⟩

theorem rpxLoad_ok {file : Bytes} {uncompress : Uncompress} {rpx : RPXFile}
    (h : rpxLoad file uncompress = .ok rpx) : rpx.entryPoint &&& 3#32 = 0 ∧
      (∀ code ∈ rpx.codeSections, Readable code ∧ code.size &&& 3#32 = 0) ∧
      ∃ code ∈ rpx.codeSections, addressInRange rpx.entryPoint code.address code.size = true := by
  unfold rpxLoad at h
  obtain ⟨header,hheader,h⟩ := bind_eq_ok.mp h
  obtain ⟨sections,-,h⟩ := bind_eq_ok.mp h
  obtain ⟨nameSection,-,h⟩ := bind_eq_ok.mp h
  obtain ⟨⟨names,namesSize⟩,-,h⟩ := bind_eq_ok.mp h
  obtain ⟨codes,hcodes,h⟩ := bind_eq_ok.mp h
  obtain ⟨_,-,h⟩ := bind_eq_ok.mp h
  obtain ⟨_,hentry,h⟩ := bind_eq_ok.mp h
  cases h
  refine ⟨(loadHeader_ok hheader).entry,takeSections_ok (fun _ hm => by cases hm) hcodes,?_⟩
  exact List.any_eq_true.mp (require_eq_ok.mp hentry)

/-- Loading is safe exactly when no name is looked up in a missing table. -/
theorem rpx_load_safe_iff (file : Bytes) (uncompress : Uncompress) :
    Safe file uncompress ↔ ¬MissingNames file uncompress := by
  unfold Safe NoFault
  rw [ne_eq,rpxLoad_fault]
  constructor
  · exact fun h => h.1
  · exact fun h => ⟨h,fun rpx hr code hm => ((rpxLoad_ok hr).2.1 code hm).1⟩

/-- A file whose one section is the name section, without file data, and has a name. -/
def namesWithoutData : Bytes := .ofList
  ([0x7F,0x45,0x4C,0x46,1,2,1] ++ List.replicate 9 0 ++ [0xFE,0x01,0,20] ++ List.replicate 12 0 ++
    [0,0,0,52] ++ List.replicate 10 0 ++ [0,40,0,1,0,0] ++
    [0,0,0,0] ++ [0,0,0,8] ++ List.replicate 12 0 ++ [0,0,0,1] ++ List.replicate 16 0)

def faults : Checked RPXFile → Bool
  | .error .fault => true
  | _ => false

theorem faults_eq {x : Checked RPXFile} (h : faults x = true) : x = .error .fault := by
  match x, h with
  | .error .fault, _ => rfl

theorem rpx_load_null_names : ¬Safe namesWithoutData fun _ _ _ => none := by
  rintro ⟨h,-⟩
  exact h (faults_eq (by decide))

end Rpx

end DolRecomp

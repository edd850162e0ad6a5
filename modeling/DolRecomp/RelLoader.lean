import DolRecomp.CheckedBytes
import DolRecomp.Relocation

/-!
# Loading REL modules

`rel_load_image` and `rel_apply_relocations` with every access to a buffer checked. Neither
leaves the file or the section data, whatever the file says.
-/

namespace DolRecomp

namespace Rel

open CheckedBytes

def read8 (file : Bytes) (offset : ℕ) : Checked (BitVec 8) := do
  touch file.size offset 1
  pure (file.get offset)

def read16 (file : Bytes) (offset : ℕ) : Checked (BitVec 16) := do
  touch file.size offset 2
  pure (readBe16 file.get offset)

def read32 (file : Bytes) (offset : ℕ) : Checked (BitVec 32) := do
  touch file.size offset 4
  pure (readBe32 file.get offset)

/-- A field that only larger files or later versions have. -/
def readWhen (p : Prop) [Decidable p] (file : Bytes) (offset : ℕ) (default : BitVec 32) :
    Checked (BitVec 32) :=
  if p then read32 file offset else pure default

/-- What `rel_load_image` reads of the header. -/
structure RELHeader where
  moduleId : BitVec 32
  sectionCount : BitVec 32
  sectionInfoOffset : BitVec 32
  version : BitVec 32
  bssSize : BitVec 32
  relocationOffset : BitVec 32
  importOffset : BitVec 32
  importSize : BitVec 32
  prologSection : BitVec 8
  epilogSection : BitVec 8
  unresolvedSection : BitVec 8
  prologOffset : BitVec 32
  epilogOffset : BitVec 32
  unresolvedOffset : BitVec 32
  bssAlignment : BitVec 32
  fixSize : BitVec 32
  fileSize : BitVec 32

/-- A section with what only loading needs. -/
structure LoadedSection extends RELSection where
  offset : BitVec 32
  executable : Bool

structure RELImage where
  header : RELHeader
  baseAddress : BitVec 32
  sections : List LoadedSection
  entryPoint : Option (BitVec 32)

/-- The part of an image that relocation reads. -/
def RELImage.rel (image : RELImage) (file : Bytes) : RELFile where
  moduleId := image.header.moduleId
  sections := image.sections.map (·.toRELSection)
  fileData := file.get
  fileSize := image.header.fileSize
  relocationOffset := image.header.relocationOffset
  importOffset := image.header.importOffset
  importSize := image.header.importSize

/-- `align_up_u32`; a result that does not fit is refused. -/
def alignUp (value alignment : BitVec 32) : Option (BitVec 32) :=
  if alignment ≤ 1 then some value
  else
    let result := (value.toNat + alignment.toNat - 1)/alignment.toNat*alignment.toNat
    if result > 0xFFFFFFFF then none else some (BitVec.ofNat 32 result)

/-- The header, from `read_file` on; `section_count` is at most `REL_MAX_SECTION_COUNT`. -/
def loadHeader (file : Bytes) : Checked RELHeader := do
  require (0x40 ≤ file.size)
  let fileSize := BitVec.ofNat 32 file.size
  let moduleId ← read32 file 0x00
  let sectionCount ← read32 file 0x0C
  let sectionInfoOffset ← read32 file 0x10
  let version ← read32 file 0x1C
  let bssSize ← read32 file 0x20
  let relocationOffset ← read32 file 0x24
  let importOffset ← read32 file 0x28
  let importSize ← read32 file 0x2C
  let prologSection ← read8 file 0x30
  let epilogSection ← read8 file 0x31
  let unresolvedSection ← read8 file 0x32
  let prologOffset ← read32 file 0x34
  let epilogOffset ← read32 file 0x38
  let unresolvedOffset ← read32 file 0x3C
  let bssAlignment ← readWhen (0x48#32 ≤ fileSize) file 0x44 4
  let fixSize ← readWhen (3#32 ≤ version ∧ 0x4C#32 ≤ fileSize) file 0x48 fileSize
  require (fixSize ≠ 0 ∧ fixSize ≤ fileSize)
  require (sectionCount ≠ 0 ∧ sectionCount ≤ 4096 ∧
    rangeFits sectionInfoOffset (sectionCount*8) fileSize)
  pure
    { moduleId, sectionCount, sectionInfoOffset, version, bssSize, relocationOffset, importOffset
      importSize, prologSection, epilogSection, unresolvedSection, prologOffset, epilogOffset
      unresolvedOffset, bssAlignment, fixSize, fileSize }

/-- `bss_alignment ? bss_alignment : 4` -/
def RELHeader.alignment (header : RELHeader) : BitVec 32 :=
  if header.bssAlignment ≠ 0 then header.bssAlignment else 4

/-- One section, and the address of the next BSS section. -/
def loadSection (file : Bytes) (header : RELHeader) (base : BitVec 32) (i : ℕ)
    (bssCursor : BitVec 32) : Checked (LoadedSection × BitVec 32) := do
  let entry := header.sectionInfoOffset.toNat + i*8
  let rawOffset ← read32 file entry
  let size ← read32 file (entry + 4)
  let offset := rawOffset &&& ~~~1#32
  let executable : Bool := rawOffset &&& 1#32 ≠ 0
  let bss : Bool := size ≠ 0 ∧ offset = 0 ∧ !executable
  if size = 0 then pure (⟨⟨0,size,bss⟩,offset,executable⟩,bssCursor)
  else if bss then do
    let next ← orReject (addChecked bssCursor size)
    let next ← orReject (alignUp next header.alignment)
    pure (⟨⟨bssCursor,size,bss⟩,offset,executable⟩,next)
  else do
    require (rangeFits offset size header.fileSize)
    require (¬(executable ∧ (size &&& 3#32 ≠ 0 ∨ offset &&& 3#32 ≠ 0)))
    let address ← orReject (addChecked base offset)
    touch file.size offset.toNat size.toNat
    pure (⟨⟨address,size,bss⟩,offset,executable⟩,bssCursor)

def loadSections (file : Bytes) (header : RELHeader) (base : BitVec 32) :
    List ℕ → BitVec 32 → Checked (List LoadedSection)
  | [], _ => pure []
  | i :: rest, bssCursor => do
    let (sec,bssCursor) ← loadSection file header base i bssCursor
    let sections ← loadSections file header base rest bssCursor
    pure (sec :: sections)

def validateEntry (sections : List LoadedSection) (sectionIndex : BitVec 8)
    (offset : BitVec 32) : Bool :=
  sectionIndex == 0 ||
    match sections[sectionIndex.toNat]? with
    | none => false
    | some sec =>
      sec.executable && sec.hasFileData && decide (offset &&& 3#32 = 0 ∧ offset < sec.size)

def isCode (sec : LoadedSection) : Bool := sec.executable && sec.hasFileData

def relLoadImage (file : Bytes) (base : BitVec 32) : Checked RELImage := do
  require (base &&& 3#32 = 0)
  let header ← loadHeader file
  let bssStart ← orReject (addChecked base header.fixSize)
  let bssCursor ← orReject (alignUp bssStart header.alignment)
  let sections ← loadSections file header base (List.range header.sectionCount.toNat) bssCursor
  require (sections.any isCode)
  require (validateEntry sections header.prologSection header.prologOffset ∧
    validateEntry sections header.epilogSection header.epilogOffset ∧
    validateEntry sections header.unresolvedSection header.unresolvedOffset)
  let image : RELImage := ⟨header,base,sections,none⟩
  if header.prologSection = 0 then pure image
  else do
    let entry ← orReject
      (sectionAddressAt (image.rel file) header.prologSection.toNat header.prologOffset)
    pure { image with entryPoint := some entry }

section

variable {file : Bytes} {offset : ℕ}

theorem rangeFits_iff {offset size total : BitVec 32} :
    rangeFits offset size total = true ↔ offset.toNat + size.toNat ≤ total.toNat := by
  simp only [rangeFits,decide_eq_true_eq,BitVec.le_def]
  constructor
  · rintro ⟨h1,h2⟩
    rw [BitVec.toNat_sub_of_le (BitVec.le_def.mpr h1)] at h2
    omega
  · intro h
    have h1 : offset.toNat ≤ total.toNat := by omega
    refine ⟨h1,?_⟩
    rw [BitVec.toNat_sub_of_le (BitVec.le_def.mpr h1)]
    omega

theorem fileSize_le (file : Bytes) : (BitVec.ofNat 32 file.size).toNat ≤ file.size := by
  rw [BitVec.toNat_ofNat]
  exact Nat.mod_le _ _

theorem noFault_read8 (h : offset + 1 ≤ file.size) : NoFault (read8 file offset) :=
  (noFault_touch h).bind fun _ _ => noFault_pure _

theorem noFault_read16 (h : offset + 2 ≤ file.size) : NoFault (read16 file offset) :=
  (noFault_touch h).bind fun _ _ => noFault_pure _

theorem noFault_read32 (h : offset + 4 ≤ file.size) : NoFault (read32 file offset) :=
  (noFault_touch h).bind fun _ _ => noFault_pure _

theorem noFault_readWhen {p : Prop} [Decidable p] (default : BitVec 32)
    (h : p → offset + 4 ≤ file.size) : NoFault (readWhen p file offset default) := by
  unfold readWhen
  split
  next hp => exact noFault_read32 (h hp)
  next => exact noFault_pure _

theorem noFault_loadHeader (file : Bytes) : NoFault (loadHeader file) := by
  have hsize := fileSize_le file
  unfold loadHeader
  refine (noFault_require _).bind fun _ h => ?_
  have h := require_eq_ok.mp h
  iterate 8 refine (noFault_read32 (by omega)).bind fun _ _ => ?_
  iterate 3 refine (noFault_read8 (by omega)).bind fun _ _ => ?_
  iterate 3 refine (noFault_read32 (by omega)).bind fun _ _ => ?_
  refine (noFault_readWhen _ fun h48 => ?_).bind fun _ _ => ?_
  · have h48 := BitVec.le_def.mp h48
    change 0x48 ≤ _ at h48
    omega
  refine (noFault_readWhen _ fun h4C => ?_).bind fun _ _ => ?_
  · have h4C := BitVec.le_def.mp h4C.2
    change 0x4C ≤ _ at h4C
    omega
  refine (noFault_require _).bind fun _ _ => ?_
  refine (noFault_require _).bind fun _ _ => ?_
  exact noFault_pure _

/-- The limits that an accepted header keeps. -/
structure RELHeader.Ok (header : RELHeader) (file : Bytes) : Prop where
  size : header.fileSize = BitVec.ofNat 32 file.size
  fix : header.fixSize.toNat ≤ header.fileSize.toNat
  table : header.sectionInfoOffset.toNat + header.sectionCount.toNat*8 ≤ header.fileSize.toNat

theorem loadHeader_ok {header : RELHeader} (h : loadHeader file = .ok header) :
    header.Ok file := by
  unfold loadHeader at h
  iterate 17
    obtain ⟨_,-,h⟩ := bind_eq_ok.mp h
  obtain ⟨_,hfix,h⟩ := bind_eq_ok.mp h
  obtain ⟨_,htable,h⟩ := bind_eq_ok.mp h
  have hfix := require_eq_ok.mp hfix
  have htable := require_eq_ok.mp htable
  cases h
  refine ⟨rfl,BitVec.le_def.mp hfix.2,?_⟩
  have hcount := BitVec.le_def.mp htable.2.1
  have hfits := rangeFits_iff.mp htable.2.2
  rw [BitVec.toNat_mul] at hfits
  change _ ≤ 4096 at hcount
  change _ + _ * 8 % 2^32 ≤ _ at hfits
  rw [Nat.mod_eq_of_lt (by omega)] at hfits
  exact hfits

theorem noFault_loadSection {header : RELHeader} (hh : header.Ok file) (base : BitVec 32) {i : ℕ}
    (hi : i < header.sectionCount.toNat) (bssCursor : BitVec 32) :
    NoFault (loadSection file header base i bssCursor) := by
  have hsize := fileSize_le file
  have htable := hh.table
  rw [← hh.size] at hsize
  unfold loadSection
  refine (noFault_read32 (by omega)).bind fun rawOffset _ => ?_
  refine (noFault_read32 (by omega)).bind fun size _ => ?_
  dsimp only
  split
  next => exact noFault_pure _
  next =>
    split
    next =>
      refine (noFault_orReject _).bind fun _ _ => ?_
      refine (noFault_orReject _).bind fun _ _ => ?_
      exact noFault_pure _
    next =>
      refine (noFault_require _).bind fun _ hfits => ?_
      have hfits := rangeFits_iff.mp (require_eq_ok.mp hfits)
      refine (noFault_require _).bind fun _ _ => ?_
      refine (noFault_orReject _).bind fun _ _ => ?_
      refine (noFault_touch (by omega)).bind fun _ _ => ?_
      exact noFault_pure _

theorem noFault_loadSections {header : RELHeader} (hh : header.Ok file) (base : BitVec 32)
    {is : List ℕ} (hi : ∀ i ∈ is, i < header.sectionCount.toNat) (bssCursor : BitVec 32) :
    NoFault (loadSections file header base is bssCursor) := by
  induction is generalizing bssCursor with
  | nil => exact noFault_pure _
  | cons i is ih =>
    refine (noFault_loadSection hh base (hi i List.mem_cons_self) bssCursor).bind fun x _ => ?_
    refine (ih (fun j hj => hi j (List.mem_cons_of_mem _ hj)) x.2).bind fun _ _ => ?_
    exact noFault_pure _

theorem noFault_relLoadImage (file : Bytes) (base : BitVec 32) :
    NoFault (relLoadImage file base) := by
  unfold relLoadImage
  refine (noFault_require _).bind fun _ _ => ?_
  refine (noFault_loadHeader file).bind fun header hh => ?_
  refine (noFault_orReject _).bind fun _ _ => ?_
  refine (noFault_orReject _).bind fun _ _ => ?_
  refine (noFault_loadSections (loadHeader_ok hh) base (fun i hi => List.mem_range.mp hi) _).bind
    fun _ _ => ?_
  refine (noFault_require _).bind fun _ _ => ?_
  refine (noFault_require _).bind fun _ _ => ?_
  dsimp only
  split
  · exact noFault_pure _
  · refine (noFault_orReject _).bind fun _ _ => ?_
    exact noFault_pure _

end

/-- What an accepted image went through. -/
structure Accepted (file : Bytes) (base : BitVec 32) (image : RELImage)
    (bssStart bssCursor : BitVec 32) : Prop where
  aligned : base &&& 3#32 = 0
  placed : image.baseAddress = base
  header : loadHeader file = .ok image.header
  start : addChecked base image.header.fixSize = some bssStart
  cursor : alignUp bssStart image.header.alignment = some bssCursor
  sections : loadSections file image.header base (List.range image.header.sectionCount.toNat)
    bssCursor = .ok image.sections
  prolog : validateEntry image.sections image.header.prologSection image.header.prologOffset = true
  entry : (image.header.prologSection = 0 ∧ image.entryPoint = none) ∨
    image.header.prologSection ≠ 0 ∧ ∃ entry, image.entryPoint = some entry ∧
      sectionAddressAt (image.rel file) image.header.prologSection.toNat
        image.header.prologOffset = some entry

theorem relLoadImage_ok {file : Bytes} {base : BitVec 32} {image : RELImage}
    (h : relLoadImage file base = .ok image) :
    ∃ bssStart bssCursor, Accepted file base image bssStart bssCursor := by
  unfold relLoadImage at h
  obtain ⟨_,haligned,h⟩ := bind_eq_ok.mp h
  obtain ⟨header,hheader,h⟩ := bind_eq_ok.mp h
  obtain ⟨bssStart,hstart,h⟩ := bind_eq_ok.mp h
  obtain ⟨bssCursor,hcursor,h⟩ := bind_eq_ok.mp h
  obtain ⟨sections,hsections,h⟩ := bind_eq_ok.mp h
  obtain ⟨_,-,h⟩ := bind_eq_ok.mp h
  obtain ⟨_,hentries,h⟩ := bind_eq_ok.mp h
  have haligned := require_eq_ok.mp haligned
  have hstart := orReject_eq_ok.mp hstart
  have hcursor := orReject_eq_ok.mp hcursor
  have hentries := require_eq_ok.mp hentries
  dsimp only at h
  split at h
  next hp =>
    cases h
    exact ⟨bssStart,bssCursor,haligned,rfl,hheader,hstart,hcursor,hsections,hentries.1,
      .inl ⟨hp,rfl⟩⟩
  next hp =>
    obtain ⟨entry,hentry,h⟩ := bind_eq_ok.mp h
    cases h
    exact ⟨bssStart,bssCursor,haligned,rfl,hheader,hstart,hcursor,hsections,hentries.1,
      .inr ⟨hp,entry,rfl,orReject_eq_ok.mp hentry⟩⟩

/-- BSS sections are behind a cursor, the others where the file has them. -/
structure LoadedSection.Placed (header : RELHeader) (base cursor : BitVec 32)
    (sec : LoadedSection) : Prop where
  bss : sec.bss = true → cursor.toNat ≤ sec.address.toNat ∧
    sec.address.toNat + sec.size.toNat < 2^32
  filed : sec.hasFileData = true → sec.address.toNat = base.toNat + sec.offset.toNat ∧
    sec.offset.toNat + sec.size.toNat ≤ header.fileSize.toNat
  code : sec.hasFileData = true → sec.executable = true →
    sec.size &&& 3#32 = 0 ∧ sec.offset &&& 3#32 = 0

theorem addChecked_some {a b c : BitVec 32} (h : addChecked a b = some c) :
    c.toNat = a.toNat + b.toNat := by
  unfold addChecked at h
  split at h
  next => cases h
  next hle =>
    cases h
    have ha := a.isLt
    rw [BitVec.toNat_add,Nat.mod_eq_of_lt (by omega)]

theorem alignUp_some {value alignment result : BitVec 32}
    (h : alignUp value alignment = some result) : value.toNat ≤ result.toNat := by
  unfold alignUp at h
  split at h
  next =>
    cases h
    exact Nat.le_refl _
  next halign =>
    have hpos : 1 < alignment.toNat := by
      have := BitVec.not_le.mp halign
      exact BitVec.lt_def.mp this
    dsimp only at h
    split at h
    next => cases h
    next hfits =>
      cases h
      have hlt := @Nat.lt_div_mul_add (value.toNat + alignment.toNat - 1) _
        (show 0 < alignment.toNat by omega)
      rw [BitVec.toNat_ofNat,Nat.mod_eq_of_lt (by omega)]
      omega

theorem loadSection_ok {file : Bytes} {header : RELHeader} {base cursor cursor' : BitVec 32}
    {i : ℕ} {sec : LoadedSection} (h : loadSection file header base i cursor = .ok (sec,cursor')) :
    sec.Placed header base cursor ∧ cursor.toNat ≤ cursor'.toNat := by
  unfold loadSection at h
  obtain ⟨rawOffset,-,h⟩ := bind_eq_ok.mp h
  obtain ⟨size,-,h⟩ := bind_eq_ok.mp h
  dsimp only at h
  split at h
  next h0 =>
    cases h
    subst h0
    refine ⟨⟨fun hb => ?_,fun hd => ?_,fun hd => ?_⟩,Nat.le_refl _⟩
    · simp at hb
    · simp [RELSection.hasFileData] at hd
    · simp [RELSection.hasFileData] at hd
  next h0 =>
    split at h
    next hb =>
      obtain ⟨next,hnext,h⟩ := bind_eq_ok.mp h
      obtain ⟨next',hnext',h⟩ := bind_eq_ok.mp h
      have hnext := addChecked_some (orReject_eq_ok.mp hnext)
      have hnext' := alignUp_some (orReject_eq_ok.mp hnext')
      cases h
      have hlt := next.isLt
      refine ⟨⟨fun _ => ⟨Nat.le_refl _,?_⟩,fun hd => ?_,fun hd => ?_⟩,by omega⟩
      · dsimp only
        omega
      · simp only [RELSection.hasFileData,hb,Bool.not_true,Bool.and_false] at hd
        cases hd
      · simp only [RELSection.hasFileData,hb,Bool.not_true,Bool.and_false] at hd
        cases hd
    next hb =>
      obtain ⟨_,hfits,h⟩ := bind_eq_ok.mp h
      obtain ⟨_,hcode,h⟩ := bind_eq_ok.mp h
      obtain ⟨address,haddress,h⟩ := bind_eq_ok.mp h
      obtain ⟨_,-,h⟩ := bind_eq_ok.mp h
      have hfits := rangeFits_iff.mp (require_eq_ok.mp hfits)
      have hcode := require_eq_ok.mp hcode
      have haddress := addChecked_some (orReject_eq_ok.mp haddress)
      cases h
      refine ⟨⟨fun hb' => absurd hb' hb,fun _ => ⟨haddress,hfits⟩,fun _ he => ?_⟩,Nat.le_refl _⟩
      obtain ⟨hsize,hoffset⟩ := not_or.mp fun h => hcode ⟨he,h⟩
      exact ⟨not_not.mp hsize,not_not.mp hoffset⟩

theorem LoadedSection.Placed.mono {header : RELHeader} {base cursor cursor' : BitVec 32}
    {sec : LoadedSection} (h : sec.Placed header base cursor')
    (hle : cursor.toNat ≤ cursor'.toNat) : sec.Placed header base cursor :=
  { h with bss := fun hb => ⟨hle.trans (h.bss hb).1,(h.bss hb).2⟩ }

theorem loadSections_ok {file : Bytes} {header : RELHeader} {base cursor : BitVec 32}
    {is : List ℕ} {sections : List LoadedSection}
    (h : loadSections file header base is cursor = .ok sections) :
    ∀ sec ∈ sections, sec.Placed header base cursor := by
  induction is generalizing cursor sections with
  | nil =>
    cases h
    exact fun sec hm => by cases hm
  | cons i is ih =>
    unfold loadSections at h
    obtain ⟨⟨first,cursor'⟩,hfirst,h⟩ := bind_eq_ok.mp h
    obtain ⟨rest,hrest,h⟩ := bind_eq_ok.mp h
    cases h
    obtain ⟨hplaced,hle⟩ := loadSection_ok hfirst
    intro sec hm
    rcases List.mem_cons.mp hm with rfl | hm
    · exact hplaced
    · exact (ih hrest sec hm).mono hle

/-- The sections of an accepted image; none starts below the base. -/
theorem Accepted.place {file : Bytes} {base bssStart bssCursor : BitVec 32} {image : RELImage}
    (ha : Accepted file base image bssStart bssCursor) {sec : LoadedSection}
    (hm : sec ∈ image.sections) : sec.Placed image.header base base := by
  have hstart := addChecked_some ha.start
  have hcursor := alignUp_some ha.cursor
  exact (loadSections_ok ha.sections sec hm).mono (by omega)

def RELSection.ownedSize (sec : RELSection) : ℕ := if sec.hasFileData then sec.size.toNat else 0

/-- What `apply_relocation` reads and writes, once it has checked the range. -/
def patchAccess (sec : RELSection) (offset : BitVec 32) (type : RelocationType) : Checked Unit :=
  if type = .none ∨ !requirePatchRange sec offset type.patchSize then pure ()
  else touch sec.ownedSize offset.toNat type.patchSize.toNat

def readEntry (file : Bytes) (cursor : ℕ) : Checked Entry := do
  let offsetDelta ← read16 file cursor
  let type ← read8 file (cursor + 2)
  let sectionIndex ← read8 file (cursor + 3)
  let symbolOffset ← read32 file (cursor + 4)
  pure ⟨offsetDelta,.ofByte type,sectionIndex.toNat,symbolOffset⟩

section

variable (file : Bytes) (rel : RELFile) (modules : RELModuleMap)

def checkedPatch (importModule : BitVec 32) (e : Entry) (current : ℕ) (offset : BitVec 32)
    (data : SectionData) : Checked (Option SectionData) :=
  match rel.sections[current]?,
    relocationTarget rel modules importModule e.sectionIndex e.symbolOffset,
    sectionAddressAt rel current offset with
  | some sec, some target, some patchAddress => do
    patchAccess sec offset e.type
    pure ((applyRelocation sec (bufferOf data current) offset patchAddress e.type target).map
      (setBuffer data current))
  | _, _, _ => pure none

theorem rangeFits_add {cursor total : BitVec 32} (h : rangeFits cursor 8 total = true) :
    (cursor + 8#32).toNat = cursor.toNat + 8 := by
  have h := rangeFits_iff.mp h
  have hlt := total.isLt
  change cursor.toNat + 8 ≤ _ at h
  rw [BitVec.toNat_add]
  exact Nat.mod_eq_of_lt (by change cursor.toNat + 8 < _; omega)

/-- The loop over one list of relocations. -/
def checkedRelocate (importModule cursor : BitVec 32) (current : ℕ) (offset : BitVec 32)
    (data : SectionData) : Checked (Bool × SectionData) :=
  if _h : rangeFits cursor 8 rel.fileSize = true then
    readEntry file cursor.toNat >>= fun e =>
      if e.type = .dolphinSection then
        if e.sectionIndex ≥ rel.sections.length then pure (false,data)
        else checkedRelocate importModule (cursor + 8#32) e.sectionIndex 0 data
      else if e.type = .dolphinEnd then pure (true,data)
      else
        match addChecked offset (e.offsetDelta.zeroExtend 32) with
        | none => pure (false,data)
        | some offset =>
          if e.type = .dolphinNop then
            checkedRelocate importModule (cursor + 8#32) current offset data
          else
            checkedPatch rel modules importModule e current offset data >>= fun patched =>
              match patched with
              | none => pure (false,data)
              | some data => checkedRelocate importModule (cursor + 8#32) current offset data
  else pure (false,data)
termination_by rel.fileSize.toNat - cursor.toNat
decreasing_by
  all_goals
    have hadd := rangeFits_add _h
    have hfits := rangeFits_iff.mp _h
    change cursor.toNat + 8 ≤ _ at hfits
    omega

def checkedImports : List ℕ → SectionData → Checked (Bool × SectionData)
  | [], data => pure (true,data)
  | index :: rest, data => do
    let importModule ← read32 file (rel.importOffset.toNat + 8*index)
    let cursor ← read32 file (rel.importOffset.toNat + 8*index + 4)
    if !rangeFits cursor 8 rel.fileSize ∨ cursor < rel.relocationOffset then pure (false,data)
    else
      checkedRelocate file rel modules importModule cursor 0 0 data >>= fun
        | (false,data) => pure (false,data)
        | (true,data) => checkedImports rest data

/-- `rel_apply_relocations` with its accesses. -/
def checkedApplyRelocations (data : SectionData) : Checked (Bool × SectionData) :=
  if rel.importSize = 0 then pure (true,data)
  else if rel.importSize.toNat % 8 ≠ 0 ∨ !rangeFits rel.importOffset rel.importSize rel.fileSize then
    pure (false,data)
  else checkedImports file rel modules (List.range (rel.importSize.toNat/8)) data

variable {file rel modules}

theorem patchAccess_eq (sec : RELSection) (offset : BitVec 32) (type : RelocationType) :
    patchAccess sec offset type = .ok () := by
  unfold patchAccess
  split
  next => rfl
  next h =>
    simp only [not_or,Bool.not_eq_true',Bool.not_eq_false] at h
    have hfits := h.2
    simp only [requirePatchRange,Bool.and_eq_true,decide_eq_true_eq] at hfits
    obtain ⟨⟨hdata,hoffset⟩,hsize⟩ := hfits
    refine touch_eq_ok ?_
    rw [RELSection.ownedSize,if_pos hdata]
    have hsize := BitVec.le_def.mp hsize
    rw [BitVec.toNat_sub_of_le hoffset] at hsize
    have hoffset := BitVec.le_def.mp hoffset
    omega

theorem checkedPatch_eq (importModule : BitVec 32) (e : Entry) (current : ℕ) (offset : BitVec 32)
    (data : SectionData) : checkedPatch rel modules importModule e current offset data =
      .ok (patchEntry rel modules importModule e current offset data) := by
  unfold checkedPatch patchEntry
  cases rel.sections[current]? with
  | none => rfl
  | some sec =>
    cases relocationTarget rel modules importModule e.sectionIndex e.symbolOffset with
    | none => rfl
    | some target =>
      cases sectionAddressAt rel current offset with
      | none => rfl
      | some patchAddress =>
        show (patchAccess sec offset e.type >>= fun _ => _) = _
        rw [patchAccess_eq]
        show Except.ok _ = Except.ok _
        congr 1
        simp only [Option.bind_eq_bind,Option.bind_some]
        cases applyRelocation sec (bufferOf data current) offset patchAddress e.type target <;> rfl

theorem readEntry_eq {cursor : ℕ} (h : cursor + 8 ≤ file.size) :
    readEntry file cursor = .ok (entryAt file.get cursor) := by
  unfold readEntry read16 read8 read32
  rw [touch_eq_ok (by omega),touch_eq_ok (by omega),touch_eq_ok (by omega),touch_eq_ok (by omega)]
  rfl

theorem entries_cons {cursor : BitVec 32} (h : rangeFits cursor 8 rel.fileSize = true) :
    entries rel cursor.toNat =
      entryAt rel.fileData cursor.toNat :: entries rel (cursor + 8#32).toNat := by
  have hfits := rangeFits_iff.mp h
  change cursor.toNat + 8 ≤ _ at hfits
  have hlen : (rel.fileSize.toNat - cursor.toNat)/8 =
      (rel.fileSize.toNat - (cursor.toNat + 8))/8 + 1 := by omega
  rw [rangeFits_add h,entries,entries,hlen,List.range_succ_eq_map,List.map_cons,List.map_map,
    Nat.mul_zero,Nat.add_zero]
  congr 1
  refine List.map_congr_left fun k _ => ?_
  show entryAt _ _ = entryAt _ _
  congr 1
  rw [Nat.succ_eq_add_one]
  omega

theorem entries_nil {cursor : BitVec 32} (h : ¬rangeFits cursor 8 rel.fileSize = true) :
    entries rel cursor.toNat = [] := by
  rw [rangeFits_iff] at h
  change ¬cursor.toNat + 8 ≤ _ at h
  have hlen : (rel.fileSize.toNat - cursor.toNat)/8 = 0 := by omega
  rw [entries,hlen]
  rfl

/-- The loop reads the entries that fit the file, and no more. -/
theorem checkedRelocate_eq (hdata : rel.fileData = file.get)
    (hsize : rel.fileSize.toNat ≤ file.size) (importModule cursor : BitVec 32) (current : ℕ)
    (offset : BitVec 32) (data : SectionData) :
    checkedRelocate file rel modules importModule cursor current offset data =
      .ok (relocate rel modules importModule (entries rel cursor.toNat) current offset data) := by
  induction hn : rel.fileSize.toNat - cursor.toNat using Nat.strong_induction_on
    generalizing cursor current offset data with
  | _ n ih =>
    unfold checkedRelocate
    split
    next h =>
      have hfits := rangeFits_iff.mp h
      change cursor.toNat + 8 ≤ _ at hfits
      have hadd := rangeFits_add h
      have hnext : ∀ current offset data, checkedRelocate file rel modules importModule
          (cursor + 8#32) current offset data = .ok (relocate rel modules importModule
            (entries rel (cursor + 8#32).toNat) current offset data) := fun current offset data =>
        ih _ (by omega) (cursor + 8#32) current offset data rfl
      rw [entries_cons h,readEntry_eq (by omega),hdata]
      generalize entryAt file.get cursor.toNat = e
      show (if e.type = .dolphinSection then _ else _) = _
      unfold relocate
      split
      next =>
        split
        next => rfl
        next => exact hnext _ _ _
      next =>
        split
        next => rfl
        next =>
          cases addChecked offset (e.offsetDelta.zeroExtend 32) with
          | none => rfl
          | some offset =>
            dsimp only
            split
            next => exact hnext _ _ _
            next =>
              rw [checkedPatch_eq]
              cases patchEntry rel modules importModule e current offset data with
              | none => rfl
              | some data => exact hnext _ _ _
    next h =>
      rw [entries_nil h]
      rfl

theorem checkedImports_eq (hdata : rel.fileData = file.get)
    (hsize : rel.fileSize.toNat ≤ file.size) {indices : List ℕ}
    (hi : ∀ i ∈ indices, rel.importOffset.toNat + 8*i + 8 ≤ rel.fileSize.toNat)
    (data : SectionData) : checkedImports file rel modules indices data =
      .ok (relocateImports rel modules indices data) := by
  induction indices generalizing data with
  | nil => rfl
  | cons i rest ih =>
    have hlt := hi i List.mem_cons_self
    unfold checkedImports relocateImports read32
    rw [touch_eq_ok (by omega),touch_eq_ok (by omega)]
    simp only [importAt,hdata]
    show (if _ then _ else _) = _
    split
    next => rfl
    next =>
      rw [checkedRelocate_eq hdata hsize]
      rcases relocate rel modules _ (entries rel _) 0 0 data with ⟨_ | _,data⟩
      · rfl
      · exact ih (fun j hj => hi j (List.mem_cons_of_mem _ hj)) data

theorem checkedApplyRelocations_eq (hdata : rel.fileData = file.get)
    (hsize : rel.fileSize.toNat ≤ file.size) (data : SectionData) :
    checkedApplyRelocations file rel modules data = .ok (relApplyRelocations rel modules data) := by
  unfold checkedApplyRelocations relApplyRelocations
  split
  next => rfl
  next =>
    split
    next => rfl
    next h =>
      simp only [not_or,Bool.not_eq_true',Bool.not_eq_false,ne_eq,not_not] at h
      have hfits := rangeFits_iff.mp h.2
      refine checkedImports_eq hdata hsize (fun i hi => ?_) data
      have hi := List.mem_range.mp hi
      omega

end

/-- Whatever the bytes of the file and the other modules are, loading leaves no buffer, and
relocating what was loaded leaves neither the file nor the data of its sections and ends. -/
theorem rel_loader_bounds (file : Bytes) (base : BitVec 32) (modules : RELModuleMap) :
    NoFault (relLoadImage file base) ∧
    ∀ image, relLoadImage file base = .ok image → ∀ data,
      checkedApplyRelocations file (image.rel file) modules data =
        .ok (relApplyRelocations (image.rel file) modules data) := by
  refine ⟨noFault_relLoadImage file base,fun image h data => ?_⟩
  obtain ⟨_,_,ha⟩ := relLoadImage_ok h
  refine checkedApplyRelocations_eq rfl ?_ data
  show image.header.fileSize.toNat ≤ file.size
  rw [(loadHeader_ok ha.header).size]
  exact fileSize_le file

end Rel

end DolRecomp
